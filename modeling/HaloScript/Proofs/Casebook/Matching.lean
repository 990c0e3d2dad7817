/-
# What fits a pattern

A pattern stands for everything that comes out of it when its ellipses are replaced: an item of a
list by any number of data, none included, and an ellipsis on its own by one datum.  The choice is
free at each place, so it is a function of the place (`Datum.replaced`).

Matching tries the choices for one ellipsis after the other, the shortest first.  It goes back
whenever the rest does not fit, so it finds a choice for all of them if there is one
(`Datum.fits_iff_replaced`).
-/
import HaloScript.Casebook.Datum

namespace HaloScript

open List

namespace Datum

/-! ## 1. Replacing ellipses -/

mutual

/-- What stands in the place of a pattern once each of its ellipses has been replaced by what is
chosen for its place.  A place is a path: the number of an item in the outermost list, the number
of an item in this item, and so on. -/
def replaced (choice : List Nat → List Datum) : Datum → List Datum
  | .ellipsis => choice []
  | .list items => [.list (replacedAll choice 0 items)]
  | .symbol t => [.symbol t]
  | .string t => [.string t]
  | .other code t => [.other code t]

def replacedAll (choice : List Nat → List Datum) (i : Nat) : List Datum → List Datum
  | [] => []
  | d :: rest => replaced (fun path => choice (i :: path)) d ++ replacedAll choice (i + 1) rest

end

/-- Only the choices for the items that are there matter. -/
theorem replacedAll_congr {choice choice' : List Nat → List Datum} (items : List Datum) (i : Nat)
    (h : ∀ j, i ≤ j → ∀ path, choice (j :: path) = choice' (j :: path)) :
    replacedAll choice i items = replacedAll choice' i items := by
  induction items generalizing i with
  | nil => rfl
  | cons d rest ih =>
    have hfirst : (fun path => choice (i :: path)) = fun path => choice' (i :: path) :=
      funext (h i (Nat.le_refl i))
    rw [replacedAll, replacedAll, hfirst, ih (i + 1) fun j hj => h j (Nat.le_of_succ_le hj)]

theorem exists_choice_cons (first others : List Nat → List Datum) (i : Nat) (d : Datum)
    (rest : List Datum) : ∃ choice, replacedAll choice i (d :: rest) =
      replaced first d ++ replacedAll others (i + 1) rest := by
  refine ⟨fun path => if path.head? = some i then first path.tail else others path, ?_⟩
  rw [replacedAll]
  congr 1
  · simp
  · refine replacedAll_congr rest (i + 1) fun j hj path => if_neg ?_
    simp only [head?_cons, Option.some.injEq]
    omega

theorem exists_replaced_eq {p : Datum} (hp : p ≠ .ellipsis) (choice : List Nat → List Datum) :
    ∃ d, p.replaced choice = [d] := by
  cases p with
  | ellipsis => exact absurd rfl hp
  | symbol | string | list | other => exact ⟨_, rfl⟩

/-! ## 2. Matching -/

theorem mem_suffixes {items rest : List Datum} :
    rest ∈ suffixes items ↔ ∃ front, items = front ++ rest := by
  induction items with
  | nil => simp [suffixes, eq_comm]
  | cons d items ih =>
    rw [suffixes, mem_cons, ih]
    constructor
    · rintro (rfl | ⟨front, rfl⟩)
      · exact ⟨[], rfl⟩
      · exact ⟨d :: front, rfl⟩
    · rintro ⟨front, h⟩
      rcases cons_eq_append_iff.mp h with ⟨-, rfl⟩ | ⟨front', -, rfl⟩
      · exact .inl rfl
      · exact .inr ⟨front', rfl⟩

theorem fitAll_ellipsis {patterns items : List Datum} :
    fitAll (.ellipsis :: patterns) items = true ↔
      ∃ front rest, items = front ++ rest ∧ fitAll patterns rest = true := by
  simp only [fitAll, any_eq_true, mem_suffixes]
  constructor
  · rintro ⟨rest, ⟨front, h⟩, hrest⟩
    exact ⟨front, rest, h, hrest⟩
  · rintro ⟨front, rest, h, hrest⟩
    exact ⟨rest, ⟨front, h⟩, hrest⟩

/-- Any other item of a pattern takes one item. -/
theorem fitAll_cons {p : Datum} (hp : p ≠ .ellipsis) {patterns items : List Datum} :
    fitAll (p :: patterns) items = true ↔
      ∃ d rest, items = d :: rest ∧ fits p d = true ∧ fitAll patterns rest = true := by
  have hstep : fitAll (p :: patterns) items =
      items.head?.any fun d => fits p d && fitAll patterns items.tail := by
    cases p with
    | ellipsis => exact absurd rfl hp
    | symbol | string | list | other => cases items <;> simp [fitAll]
  rw [hstep]
  cases items with
  | nil => simp
  | cons d rest =>
    simp only [head?_cons, Option.any_some, tail_cons, Bool.and_eq_true]
    constructor
    · exact fun h => ⟨d, rest, rfl, h⟩
    · rintro ⟨d', rest', heq, h⟩
      obtain ⟨rfl, rfl⟩ := List.cons.inj heq
      exact h

mutual

theorem exists_replaced_of_fits (p a : Datum) (h : fits p a = true) :
    ∃ choice, p.replaced choice = [a] := by
  match p with
  | .ellipsis => exact ⟨fun _ => [a], rfl⟩
  | .symbol t | .string t | .other code t => cases a <;> simp_all [fits, replaced]
  | .list patterns =>
    cases a with
    | list items =>
      rw [fits] at h
      obtain ⟨choice, hitems⟩ := exists_replacedAll_of_fitAll patterns items 0 h
      exact ⟨choice, by rw [replaced, hitems]⟩
    | _ => simp [fits] at h

/-- Items that fit a pattern are the pattern with something put in for its placeholders. -/
theorem exists_replacedAll_of_fitAll (patterns items : List Datum) (i : Nat)
    (h : fitAll patterns items = true) : ∃ choice, replacedAll choice i patterns = items := by
  match patterns with
  | [] =>
    rw [fitAll, List.isEmpty_iff] at h
    exact ⟨fun _ => [], by rw [h, replacedAll]⟩
  | p :: patterns =>
    by_cases hp : p = .ellipsis
    · subst hp
      obtain ⟨front, rest, rfl, hrest⟩ := fitAll_ellipsis.mp h
      obtain ⟨others, hothers⟩ := exists_replacedAll_of_fitAll patterns rest (i + 1) hrest
      obtain ⟨choice, hchoice⟩ := exists_choice_cons (fun _ => front) others i .ellipsis patterns
      exact ⟨choice, by rw [hchoice, hothers, replaced]⟩
    · obtain ⟨d, rest, rfl, hd, hrest⟩ := (fitAll_cons hp).mp h
      obtain ⟨first, hfirst⟩ := exists_replaced_of_fits p d hd
      obtain ⟨others, hothers⟩ := exists_replacedAll_of_fitAll patterns rest (i + 1) hrest
      obtain ⟨choice, hchoice⟩ := exists_choice_cons first others i p patterns
      exact ⟨choice, by rw [hchoice, hothers, hfirst, singleton_append]⟩

end

mutual

theorem fits_of_replaced (p a : Datum) (choice : List Nat → List Datum)
    (h : p.replaced choice = [a]) : fits p a = true := by
  match p with
  | .ellipsis => simp [fits]
  | .symbol t | .string t | .other code t =>
    obtain rfl := singleton_inj.mp h
    simp [fits]
  | .list patterns =>
    obtain rfl := singleton_inj.mp h
    rw [fits]
    exact fitAll_of_replacedAll patterns 0 choice

theorem fitAll_of_replacedAll (patterns : List Datum) (i : Nat) (choice : List Nat → List Datum) :
    fitAll patterns (replacedAll choice i patterns) = true := by
  match patterns with
  | [] => simp [fitAll, replacedAll]
  | p :: patterns =>
    have hrest := fitAll_of_replacedAll patterns (i + 1) choice
    by_cases hp : p = .ellipsis
    · subst hp
      exact fitAll_ellipsis.mpr ⟨_, _, rfl, hrest⟩
    · obtain ⟨d, hd⟩ := exists_replaced_eq hp fun path => choice (i :: path)
      rw [replacedAll, hd]
      exact (fitAll_cons hp).mpr ⟨d, _, rfl, fits_of_replaced p d _ hd, hrest⟩

end

/-- **A datum fits a pattern if and only if it comes out of it** when something is chosen for each
ellipsis. -/
theorem fits_iff_replaced (p a : Datum) :
    fits p a = true ↔ ∃ choice : List Nat → List Datum, p.replaced choice = [a] :=
  ⟨exists_replaced_of_fits p a, fun ⟨choice, h⟩ => fits_of_replaced p a choice h⟩

end Datum

end HaloScript
