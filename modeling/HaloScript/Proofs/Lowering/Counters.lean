/-
# Renaming counters

The counter of a loop ought to be a bound name: whatever it is called, the loop should unroll to the
same values.  But unrolling replaces text.  It replaces the counter of a loop inside as well, if
that has the same name, and the number that comes to stand there is then looked for in the body of
the loop inside, where it may have been written, or may have come from another loop.

So what a loop unrolls to depends on the name of its counter only if such a mistake is possible
(`Loop.Apart`).  If not, the counter can be renamed, with all that it binds, to any name that is not
in the program (`Program.unrolling_renamed`).

The proof compares the two programs by `Loops.Alike`.  Outside the loop they are filled with the
same numbers (`Loops.alike_exchange`); inside, what the old name stands for in the one is what the
new name stands for in the other (`Loops.alike_rename`).
-/
import HaloScript.Program.Dump
import HaloScript.Proofs.Constant.Exchange
import HaloScript.Proofs.Lowering.Alike

namespace HaloScript

open List Option Value

/-- The leaf is a number as unrolling writes it. -/
def Leaf.IsNumeral (l : Leaf) : Prop := ∃ i : Int, l = .atom (Text.ofInt i)

theorem Leaf.not_isNumeral {text : Text} {b : UInt8} (hb : b ∈ text)
    (hdigit : Text.isDigit b = false) (hminus : b ≠ Text.minus) : ¬ (Leaf.atom text).IsNumeral := by
  have hnat : ∀ n, b ∉ Text.ofNat n := fun n hmem =>
    absurd (hdigit.symm.trans ((Text.isDigits_ofNat n).2 b hmem)) Bool.false_ne_true
  rintro ⟨i, hi⟩
  rw [Leaf.atom.inj hi] at hb
  cases i with
  | ofNat n => exact hnat n hb
  | negSucc n => exact (mem_cons.mp hb).elim hminus (hnat (n + 1))

namespace Value

/-! ## 1. Filling in numbers -/

mutual

theorem fill_congr {ρ σ : Leaf → Option Int} (v : Value) (h : ∀ l ∈ v.leaves, ρ l = σ l) :
    v.fill ρ = v.fill σ := by
  match v with
  | .leaf t l => rw [fill, fill, h l (mem_singleton_self l)]
  | .call t head args => rw [fill, fill, fillAll_congr args h]

theorem fillAll_congr {ρ σ : Leaf → Option Int} (vs : List Value)
    (h : ∀ l ∈ leavesAll vs, ρ l = σ l) : fillAll ρ vs = fillAll σ vs := by
  match vs with
  | [] => rfl
  | v :: rest =>
    rw [fillAll, fillAll, fill_congr v fun l hl => h l (mem_append_left _ hl),
      fillAll_congr rest fun l hl => h l (mem_append_right _ hl)]

end

/-- What leaves stand for if numbers are filled in twice: the numbers that were put in first may be
replaced again. -/
def both (ρ σ : Leaf → Option Int) (l : Leaf) : Option Int :=
  (ρ l).elim (σ l) fun i => (σ (.atom (Text.ofInt i))).or (some i)

theorem both_of_none {ρ : Leaf → Option Int} {l : Leaf} (h : ρ l = none) (σ : Leaf → Option Int) :
    both ρ σ l = σ l := by
  rw [both, h, elim_none]

theorem both_of_some {ρ : Leaf → Option Int} {l : Leaf} {i : Int} (h : ρ l = some i)
    (σ : Leaf → Option Int) : both ρ σ l = (σ (.atom (Text.ofInt i))).or (some i) := by
  rw [both, h, elim_some]

mutual

theorem fill_fill (ρ σ : Leaf → Option Int) (v : Value) :
    (v.fill ρ).fill σ = v.fill (both ρ σ) := by
  match v with
  | .leaf t l =>
    rw [fill, fill]
    cases h : ρ l with
    | none => rw [both_of_none h, elim_none, fill]
    | some i =>
      rw [both_of_some h, elim_some, fill]
      cases σ (.atom (Text.ofInt i)) <;> rfl
  | .call t h args => rw [fill, fill, fill, fillAll_fillAll ρ σ args]

theorem fillAll_fillAll (ρ σ : Leaf → Option Int) (vs : List Value) :
    fillAll σ (fillAll ρ vs) = fillAll (both ρ σ) vs := by
  match vs with
  | [] => rfl
  | v :: rest => rw [fillAll, fillAll, fillAll, fill_fill ρ σ v, fillAll_fillAll ρ σ rest]

end

end Value

/-! ## 2. Renaming, and where it can go wrong -/

/-- A loop whose counter is an atom. -/
structure Loop where
  tag : Tag
  head : Head
  isLoop : Loops.isLoop head = true
  counterTag : Tag
  counter : Text
  low : Value
  high : Value
  body : List Value

def Loop.value (L : Loop) : Value :=
  .call L.tag L.head (.leaf L.counterTag (.atom L.counter) :: L.low :: L.high :: L.body)

namespace Value

variable {vs : List Value} {h : Head}

def loop? : Value → Option Loop
  | .call t h (.leaf tc (.atom text) :: low :: high :: body) =>
    if hh : Loops.isLoop h = true then some ⟨t, h, hh, tc, text, low, high, body⟩ else none
  | _ => none

@[simp] theorem loop?_value (L : Loop) : L.value.loop? = some L := by
  rw [Loop.value, loop?, dif_pos L.isLoop]

theorem eq_value_of_loop? {v : Value} {L : Loop} (h : v.loop? = some L) : v = L.value := by
  unfold loop? at h
  split at h
  · split at h
    · cases h
      rfl
    · cases h
  · cases h

def counters : Value → List Leaf
  | .leaf _ l => [l]
  | .call _ _ _ => []

theorem counters_subset (c : Value) : c.counters ⊆ c.leaves := by
  cases c with
  | leaf t l => exact Subset.refl [l]
  | call => exact nil_subset _

theorem eq_leaf_of_counters {c : Value} {l : Leaf} (h : c.counters = [l]) : ∃ t, c = .leaf t l := by
  cases c with
  | leaf t =>
    cases h
    exact ⟨t, rfl⟩
  | call => cases h

mutual

/-- Renames the atoms that a counter binds.  A loop with the same counter binds those in its own
body. -/
def rename (old new : Text) : Value → Value
  | .leaf t l => .leaf t (if l = .atom old then .atom new else l)
  | .call t h (c :: low :: high :: body) =>
    if Loops.isLoop h ∧ c.counters = [.atom old] then
      .call t h (c :: rename old new low :: rename old new high :: body)
    else
      .call t h (rename old new c :: rename old new low :: rename old new high ::
        renameAll old new body)
  | .call t h args => .call t h (renameAll old new args)

def renameAll (old new : Text) : List Value → List Value
  | [] => []
  | v :: rest => rename old new v :: renameAll old new rest

end

mutual

/-- The loops of a value that have atoms as counters, each with the counters of the loops in whose
bodies it stands; `around` are those around the value. -/
def loops (around : List Leaf) : Value → List (List Leaf × Loop)
  | .leaf _ _ => []
  | .call t h (c :: low :: high :: body) =>
    (loop? (.call t h (c :: low :: high :: body))).toList.map (around, ·) ++
      (loops around c ++ loops around low ++ loops around high ++
        loopsAll (if Loops.isLoop h then c.counters ++ around else around) body)
  | .call _ _ args => loopsAll around args

def loopsAll (around : List Leaf) : List Value → List (List Leaf × Loop)
  | [] => []
  | v :: rest => loops around v ++ loopsAll around rest

end

theorem renameAll_eq_map (old new : Text) (vs : List Value) :
    renameAll old new vs = vs.map (rename old new) := by
  induction vs with
  | nil => rfl
  | cons v rest ih => rw [renameAll, ih, map_cons]

theorem mem_loopsAll {around : List Leaf} {e : List Leaf × Loop} :
    e ∈ loopsAll around vs ↔ ∃ v ∈ vs, e ∈ v.loops around := by
  induction vs with
  | nil => simp [loopsAll]
  | cons v rest ih => simp [loopsAll, ih]

theorem mem_nodesAll {K : Node} : K ∈ nodesAll vs ↔ ∃ v ∈ vs, K ∈ v.nodes := by
  induction vs with
  | nil => simp [nodesAll]
  | cons v rest ih => simp [nodesAll, ih]

theorem leaves_subset {v : Value} (hv : v ∈ vs) : v.leaves ⊆ leavesAll vs :=
  fun _ hl => mem_leavesAll.mpr ⟨v, hv, hl⟩

/-- Induction on values, where loops are taken apart into counter, bounds and body. -/
@[elab_as_elim]
theorem loopInduction {motive : Value → Prop} (v : Value) (leaf : ∀ t l, motive (.leaf t l))
    (plain : ∀ t h args, Loops.Plain h args → (∀ v ∈ args, motive v) → motive (.call t h args))
    (loop : ∀ t h c low high body, Loops.isLoop h = true → motive c → motive low → motive high →
      (∀ v ∈ body, motive v) → motive (.call t h (c :: low :: high :: body))) : motive v := by
  match v with
  | .leaf t l => exact leaf t l
  | .call t h args =>
    have ih : ∀ v ∈ args, motive v := fun v _ => loopInduction v leaf plain loop
    obtain hplain | ⟨hh, c, low, high, body, rfl⟩ := Loops.plain_or_loop h args
    · exact plain t h args hplain ih
    · simp only [forall_mem_cons] at ih
      obtain ⟨hc, hlow, hhigh, hbody⟩ := ih
      exact loop t h c low high body hh hc hlow hhigh hbody

/-- A call stays a call of the same function. -/
theorem rename_call (old new : Text) (t : Tag) (h : Head) (args : List Value) :
    ∃ args', rename old new (.call t h args) = .call t h args' := by
  match args with
  | [] | [_] | [_, _] => exact ⟨_, rfl⟩
  | c :: low :: high :: body =>
    rw [rename]
    split
    · exact ⟨_, rfl⟩
    · exact ⟨_, rfl⟩

theorem rename_of_plain (old new : Text) (t : Tag) {args : List Value}
    (hplain : Loops.Plain h args) :
    rename old new (.call t h args) = .call t h (renameAll old new args) := by
  match args, hplain with
  | [], _ | [_], _ | [_, _], _ => rfl
  | c :: low :: high :: body, .inl hh =>
    rw [rename, if_neg (fun hand => absurd (hh.symm.trans hand.1) Bool.false_ne_true)]
    rfl

theorem loop?_of_not (t : Tag) (hh : Loops.isLoop h = false) (args : List Value) :
    loop? (.call t h args) = none := by
  unfold loop?
  split
  · next heq =>
    cases heq
    exact dif_neg (Bool.eq_false_iff.mp hh)
  · rfl

theorem loops_of_plain (around : List Leaf) (t : Tag) {args : List Value}
    (hplain : Loops.Plain h args) : loops around (.call t h args) = loopsAll around args := by
  match args, hplain with
  | [], _ | [_], _ | [_, _], _ => rfl
  | c :: low :: high :: body, .inl hh =>
    rw [loops, loop?_of_not t hh, hh, if_neg Bool.false_ne_true, loopsAll, loopsAll, loopsAll,
      append_assoc, append_assoc]
    rfl

theorem loops_of_isLoop (around : List Leaf) (t : Tag) (hh : Loops.isLoop h = true)
    (c low high : Value) (body : List Value) :
    loops around (.call t h (c :: low :: high :: body)) =
      (loop? (.call t h (c :: low :: high :: body))).toList.map (around, ·) ++
        (loops around c ++ loops around low ++ loops around high ++
          loopsAll (c.counters ++ around) body) := by
  rw [loops, if_pos hh]

theorem loops_value (around : List Leaf) (L : Loop) :
    L.value.loops around = (around, L) :: (loops around L.low ++ loops around L.high ++
      loopsAll (.atom L.counter :: around) L.body) := by
  have hloop := loop?_value L
  rw [Loop.value] at hloop ⊢
  rw [loops_of_isLoop around L.tag L.isLoop, hloop]
  rfl

end Value

namespace Loop

def renamed (L : Loop) (new : Text) : Loop :=
  { L with counter := new, body := renameAll L.counter new L.body }

/-- The exchange of the loop for the one with another counter. -/
def exchange (L : Loop) (new : Text) : Exchange := ⟨L.tag.id, (L.renamed new).value⟩

/-- The loop has the same counter as a loop around it, and in its body something else can become
what the counter becomes: a number, or the counter of a loop around it. -/
def Confused (around : List Leaf) (L : Loop) : Prop :=
  .atom L.counter ∈ around ∧
    ∃ l ∈ leavesAll L.body, l ≠ .atom L.counter ∧ (l ∈ around ∨ l.IsNumeral)

/-- The counter of the loop can be told from everything else by its name, and by the new name. -/
structure Apart (L : Loop) (new : Text) (around : List Leaf) : Prop where
  /-- The loops around put in numbers, which are no names. -/
  names : around ≠ [] → ¬ (Leaf.atom L.counter).IsNumeral ∧ ¬ (Leaf.atom new).IsNumeral
  rebound : ∀ inner ∈ L.value.loops around, inner.2.counter = L.counter → ¬ inner.2.Confused inner.1

end Loop

def Program.loops (p : Program) : List (List Leaf × Loop) :=
  p.all.flatMap fun d => Value.loopsAll [] d.values

/-! ## 3. Inside the loop -/

namespace Loops

variable {around : List Leaf} {ρ ρ' : Leaf → Option Int}

theorem Plain.fillAll {h : Head} {args : List Value} (hplain : Plain h args) :
    Plain h (fillAll ρ args) := by
  rwa [Plain, fillAll_eq_map, length_map]

/-- Numbers are filled in for the counters of the loops around, and for numbers that were filled in
before. -/
def Within (around : List Leaf) (ρ : Leaf → Option Int) : Prop :=
  ∀ l i, ρ l = some i → l ∈ around ∨ around ≠ [] ∧ l.IsNumeral

theorem counting_leaf {l : Leaf} (hl : l ≠ .blank) (t : Tag) (i : Int) :
    counting (.leaf t l) i l = some i := if_pos ⟨hl, rfl⟩

theorem counting_of_ne {l l' : Leaf} (h : l' ≠ l) (t : Tag) (i : Int) :
    counting (.leaf t l) i l' = none := if_neg fun hand => h hand.2

theorem eq_of_counting {l l' : Leaf} {t : Tag} {i j : Int}
    (h : counting (.leaf t l) i l' = some j) : l' = l := by
  by_contra hne
  rw [counting_of_ne hne] at h
  cases h

/-- Whatever becomes of the counter of a loop stands for the counter of the loop, or is a number. -/
theorem mem_counters {c : Value} {i j : Int} {l : Leaf} (h : counting (c.fill ρ) i l = some j) :
    c.counters ≠ [] ∧ (l ∈ c.counters ∨ l.IsNumeral) := by
  cases c with
  | call => cases h
  | leaf t l' =>
    refine ⟨cons_ne_nil _ _, ?_⟩
    rw [fill] at h
    cases hl' : ρ l' with
    | none =>
      rw [hl', elim_none] at h
      exact .inl (mem_singleton.mpr (eq_of_counting h))
    | some k =>
      rw [hl', elim_some] at h
      exact .inr ⟨k, eq_of_counting h⟩

theorem Within.eq_none (h : Within around ρ) {l : Leaf} (hl : ¬ (l ∈ around ∨ l.IsNumeral)) :
    ρ l = none :=
  eq_none_iff_forall_ne_some.mpr fun i hi => hl ((h l i hi).imp_right And.right)

theorem Within.step (h : Within around ρ) (c : Value) (i : Int) :
    Within (c.counters ++ around) (both ρ (counting (c.fill ρ) i)) := by
  intro l j hj
  cases hl : ρ l with
  | none =>
    rw [both_of_none hl] at hj
    obtain ⟨hsome, hmem | hnumeral⟩ := mem_counters hj
    · exact .inl (mem_append_left _ hmem)
    · exact .inr ⟨fun hnil => hsome (append_eq_nil_iff.mp hnil).1, hnumeral⟩
  | some k =>
    obtain hmem | ⟨hsome, hnumeral⟩ := h l k hl
    · exact .inl (mem_append_right _ hmem)
    · exact .inr ⟨fun hnil => hsome (append_eq_nil_iff.mp hnil).2, hnumeral⟩

section Counter

variable (ρ) (t : Tag) (text : Text) (i : Int)

/-- In the body of a loop its counter stands for the number of the step, whatever the counter has
become. -/
theorem both_counter :
    both ρ (counting ((Value.leaf t (.atom text)).fill ρ) i) (.atom text) = some i := by
  have hblank : ∀ text : Text, Leaf.atom text ≠ .blank := fun _ h => nomatch h
  rw [fill]
  cases h : ρ (.atom text) with
  | none => rw [both_of_none h, elim_none, counting_leaf (hblank text)]
  | some => rw [both_of_some h, elim_some, counting_leaf (hblank _), some_or]

variable {ρ t text i} {l : Leaf}

/-- A leaf that is neither the counter nor a number, and stands for nothing, goes on to do so. -/
theorem both_of_plain (hl : ρ l = none) (hne : l ≠ .atom text) (hnumeral : ¬ l.IsNumeral) :
    both ρ (counting ((Value.leaf t (.atom text)).fill ρ) i) l = none := by
  rw [both_of_none hl, fill]
  cases ρ (.atom text) with
  | none => exact counting_of_ne hne t i
  | some k => exact counting_of_ne (fun heq => hnumeral ⟨k, heq⟩) _ i

/-- If the counter has kept its name, and the name is no number that a leaf can stand for, all other
leaves stand for the same as before. -/
theorem both_of_unbound (h : ρ (.atom text) = none) (hne : l ≠ .atom text)
    (hnumeral : ρ l ≠ none → ¬ (Leaf.atom text).IsNumeral) :
    both ρ (counting ((Value.leaf t (.atom text)).fill ρ) i) l = ρ l := by
  rw [fill, h, elim_none]
  cases hl : ρ l with
  | none => rw [both_of_none hl, counting_of_ne hne]
  | some k =>
    have hk : Leaf.atom (Text.ofInt k) ≠ .atom text := fun heq =>
      hnumeral (by simp [hl]) ⟨k, heq.symm⟩
    rw [both_of_some hl, counting_of_ne hk, none_or]

end Counter

/-- What the old name stands for in the one is what the new name stands for in the other; other
leaves stand for the same in both. -/
structure Corresponds (old new : Text) (around : List Leaf) (ρ ρ' : Leaf → Option Int)
    (leaves : List Leaf) : Prop where
  within : Within around ρ
  around : .atom old ∈ around
  bound : ∃ i, ρ (.atom old) = some i ∧ ρ' (.atom new) = some i
  others : ∀ l ∈ leaves, l ≠ .atom old → ρ' l = ρ l

variable {old new : Text}

namespace Corresponds

variable {leaves leaves' : List Leaf}

theorem mono (h : Corresponds old new around ρ ρ' leaves) (hsub : leaves' ⊆ leaves) :
    Corresponds old new around ρ ρ' leaves' :=
  ⟨h.within, h.around, h.bound, fun l hl => h.others l (hsub hl)⟩

theorem counting_eq {c : Value} (h : Corresponds old new around ρ ρ' c.leaves)
    (hc : c.counters ≠ [.atom old]) (i : Int) :
    counting ((c.rename old new).fill ρ') i = counting (c.fill ρ) i := by
  match c with
  | .leaf t l =>
    have hl : l ≠ .atom old := fun heq => hc (congrArg (fun l => [l]) heq)
    rw [rename, if_neg hl, fill, fill, h.others l (mem_singleton_self l) hl]
  | .call t head args =>
    obtain ⟨args', hargs'⟩ := Value.rename_call old new t head args
    rw [hargs']
    rfl

/-- The next loop inside. -/
theorem step (h : Corresponds old new around ρ ρ' leaves) (c : Value) (i : Int) :
    Corresponds old new (c.counters ++ around) (both ρ (counting (c.fill ρ) i))
      (both ρ' (counting (c.fill ρ) i)) leaves where
  within := h.within.step c i
  around := mem_append_right _ h.around
  bound := by
    obtain ⟨k, hold, hnew⟩ := h.bound
    rw [both_of_some hold, both_of_some hnew]
    cases counting (c.fill ρ) i (.atom (Text.ofInt k)) with
    | none => exact ⟨k, rfl, rfl⟩
    | some j => exact ⟨j, rfl, rfl⟩
  others l hl hne := by rw [both, both, h.others l hl hne]

/-- A loop with the old name as its counter binds it anew.  Its body becomes the same in both,
unless something in it can be mistaken for the counter. -/
theorem alike_rebound {L : Loop}
    (h : Corresponds L.counter new around ρ ρ' (leavesAll L.body)) (hclear : ¬ L.Confused around)
    {low high : Value} (hlow : Alike (L.low.fill ρ) low)
    (hhigh : Alike (L.high.fill ρ) high) :
    Alike (L.value.fill ρ) (.call L.tag L.head
      ((Value.leaf L.counterTag (.atom L.counter)).fill ρ' :: low :: high ::
        fillAll ρ' L.body)) := by
  refine .loop L.tag L.isLoop (fun n => ?_) hlow hhigh fun i => ?_
  · rw [copy_fill, copy_fill]
  · rw [fillAll_fillAll, fillAll_fillAll]
    have hsame : ∀ l ∈ leavesAll L.body,
        both ρ' (counting ((Value.leaf L.counterTag (.atom L.counter)).fill ρ') i) l =
          both ρ (counting ((Value.leaf L.counterTag (.atom L.counter)).fill ρ) i) l := by
      intro l hl
      by_cases hne : l = .atom L.counter
      · rw [hne, both_counter, both_counter]
      · have hplain : ¬ (l ∈ around ∨ l.IsNumeral) := fun hor => hclear ⟨h.around, l, hl, hne, hor⟩
        have hnone : ρ l = none := h.within.eq_none hplain
        have hnone' : ρ' l = none := (h.others l hl hne).trans hnone
        rw [both_of_plain hnone hne fun hn => hplain (.inr hn),
          both_of_plain hnone' hne fun hn => hplain (.inr hn)]
    rw [Value.fillAll_congr _ hsame]
    exact alikeAll_refl _

end Corresponds

theorem alikeAll_renameAll {vs : List Value}
    (h : ∀ v ∈ vs, Alike (v.fill ρ) ((v.rename old new).fill ρ')) :
    AlikeAll (fillAll ρ vs) (fillAll ρ' (renameAll old new vs)) := by
  rw [Value.renameAll_eq_map, fillAll_eq_map, fillAll_eq_map, List.map_map]
  exact alikeAll_map h

/-- **The values correspond as what their leaves stand for does.**  The induction is on the value,
for whatever has been filled in. -/
theorem alike_rename (v : Value) (h : Corresponds old new around ρ ρ' v.leaves)
    (hinner : ∀ inner ∈ v.loops around, inner.2.counter = old → ¬ inner.2.Confused inner.1) :
    Alike (v.fill ρ) ((v.rename old new).fill ρ') := by
  induction v using loopInduction generalizing around ρ ρ' with
  | leaf t l =>
    obtain ⟨i, hold, hnew⟩ := h.bound
    by_cases hl : l = .atom old
    · rw [rename, if_pos hl, fill, fill, hl, hold, hnew]
      exact .leaf _ _
    · have hsame := h.others l (mem_singleton_self l) hl
      rw [rename, if_neg hl, fill, fill, hsame]
      exact alike_refl _
  | plain t head args hplain ih =>
    rw [loops_of_plain around t hplain] at hinner
    rw [Value.rename_of_plain old new t hplain]
    refine .of_args t hplain.fillAll (alikeAll_renameAll fun v hv => ?_)
    exact ih v hv (h.mono (leaves_subset hv)) fun inner hmem =>
      hinner inner (mem_loopsAll.mpr ⟨v, hv, hmem⟩)
  | loop t head c low high body hh ihc ihlow ihhigh ihbody =>
    simp only [loops_of_isLoop around t hh, forall_mem_append] at hinner
    obtain ⟨hself, ⟨⟨hc, hlow⟩, hhigh⟩, hbody⟩ := hinner
    have hlow := ihlow (h.mono (leaves_subset (by simp))) hlow
    have hhigh := ihhigh (h.mono (leaves_subset (by simp))) hhigh
    have hcounter : Corresponds old new around ρ ρ' c.leaves :=
      h.mono (leaves_subset (by simp))
    have hrest : Corresponds old new around ρ ρ' (leavesAll body) :=
      h.mono fun l hl => by simp [Value.leaves, leavesAll, hl]
    by_cases hbinds : c.counters = [.atom old]
    · rw [rename, if_pos ⟨hh, hbinds⟩]
      obtain ⟨tc, rfl⟩ := Value.eq_leaf_of_counters hbinds
      have hclear := hself (around, ⟨t, head, hh, tc, old, low, high, body⟩)
        (Value.loop?_value ⟨t, head, hh, tc, old, low, high, body⟩ ▸ mem_cons_self) rfl
      exact hrest.alike_rebound hclear hlow hhigh
    · rw [rename, if_neg fun hand => hbinds hand.2]
      refine .loop t hh (ihc hcounter hc).copy_snd hlow hhigh fun i => ?_
      rw [hcounter.counting_eq hbinds, fillAll_fillAll, fillAll_fillAll]
      refine alikeAll_renameAll fun v hv => ?_
      exact ihbody v hv ((hrest.mono (leaves_subset hv)).step c i) fun inner hmem =>
        hbody inner (mem_loopsAll.mpr ⟨v, hv, hmem⟩)

/-! ## 4. Around the loop -/

section

variable {L : Loop} (hapart : L.Apart new around) (hwithin : Within around ρ)
  (hnew : .atom new ∉ around) (hleaves : .atom new ∉ leavesAll L.body)

include hapart hwithin hnew hleaves

/-- What is filled in around the loop is the same in both, so in its body the names correspond. -/
theorem corresponds_body (i : Int) :
    Corresponds L.counter new (.atom L.counter :: around)
      (both ρ (counting ((Value.leaf L.counterTag (.atom L.counter)).fill ρ) i))
      (both ρ (counting ((Value.leaf L.counterTag (.atom new)).fill ρ) i))
      (leavesAll L.body) := by
  have hkept : ρ (.atom new) = none := eq_none_iff_forall_ne_some.mpr fun j hj =>
    (hwithin _ j hj).elim hnew fun hand => (hapart.names hand.1).2 hand.2
  have hfilled : ∀ l, ρ l ≠ none → around ≠ [] := by
    intro l hl
    obtain ⟨j, hj⟩ := ne_none_iff_exists'.mp hl
    exact (hwithin l j hj).elim ne_nil_of_mem And.left
  refine ⟨hwithin.step _ i, mem_cons_self, ⟨i, both_counter .., both_counter ..⟩,
    fun l hl hne => ?_⟩
  have hother : l ≠ .atom new := fun heq => hleaves (heq ▸ hl)
  rw [both_of_unbound hkept hother fun hl => (hapart.names (hfilled l hl)).2]
  cases hold : ρ (.atom L.counter) with
  | none => rw [both_of_unbound hold hne fun hl => (hapart.names (hfilled l hl)).1]
  | some k =>
    -- The counter has become a number, so a loop around has the same one.
    have haround : .atom L.counter ∈ around := (hwithin _ k hold).resolve_right fun hand =>
      (hapart.names hand.1).1 hand.2
    have hclear : ¬ L.Confused around :=
      hapart.rebound (around, L) (loops_value around L ▸ mem_cons_self) rfl
    have hplain : ¬ (l ∈ around ∨ l.IsNumeral) := fun hor => hclear ⟨haround, l, hl, hne, hor⟩
    have hnone : ρ l = none := hwithin.eq_none hplain
    rw [both_of_plain hnone hne fun hn => hplain (.inr hn), hnone]

/-- **The loop itself.** -/
theorem alike_renamed : Alike (L.value.fill ρ) ((L.renamed new).value.fill ρ) := by
  refine .loop L.tag L.isLoop (fun n => ?_) (alike_refl _) (alike_refl _) fun i => ?_
  · rw [copy_fill, copy_fill]
    rfl
  · rw [fillAll_fillAll, fillAll_fillAll]
    have hbody := corresponds_body hapart hwithin hnew hleaves i
    refine alikeAll_renameAll fun v hv => ?_
    refine alike_rename v (hbody.mono (leaves_subset hv)) fun inner hmem => ?_
    refine hapart.rebound inner ?_
    rw [loops_value]
    exact mem_cons_of_mem _ (mem_append_right _ (mem_loopsAll.mpr ⟨v, hv, hmem⟩))

end

section

variable {L : Loop}

/-- A counter counts as before, since only a call can contain the loop. -/
theorem counting_exchange {c : Value}
    (hfound : ∀ w, .value w ∈ c.nodes → w.id = L.tag.id → w = L.value) (i : Int) :
    counting (((L.exchange new).value c).fill ρ) i = counting (c.fill ρ) i := by
  cases c with
  | leaf t l =>
    have hid : t.id ≠ L.tag.id := fun heq =>
      nomatch hfound (.leaf t l) (mem_singleton_self _) heq
    rw [Exchange.value_leaf hid]
  | call =>
    rw [Exchange.value]
    split
    · rfl
    · rfl

theorem alikeAll_exchange {vs : List Value}
    (h : ∀ v ∈ vs, Alike (v.fill ρ) (((L.exchange new).value v).fill ρ)) :
    AlikeAll (fillAll ρ vs) (fillAll ρ ((L.exchange new).values vs)) := by
  rw [Exchange.values_eq_map, fillAll_eq_map, fillAll_eq_map, List.map_map]
  exact alikeAll_map h

/-- The new name occurs neither in the value nor among the counters around it, and wherever the loop
stands in the value, it can be renamed. -/
structure Hosts (L : Loop) (new : Text) (around : List Leaf) (v : Value) : Prop where
  unused : .atom new ∉ around
  leaves : .atom new ∉ v.leaves
  found : ∀ w, .value w ∈ v.nodes → w.id = L.tag.id → w = L.value
  apart : ∀ a, (a, L) ∈ v.loops around → L.Apart new a

theorem Hosts.arg {t : Tag} {head : Head} {args : List Value}
    (h : Hosts L new around (.call t head args)) {v : Value} (hv : v ∈ args) {around' : List Leaf}
    (hunused : .atom new ∉ around')
    (hsub : v.loops around' ⊆ (Value.call t head args).loops around) : Hosts L new around' v where
  unused := hunused
  leaves hmem := h.leaves (leaves_subset hv hmem)
  found w hw := h.found w
    (mem_cons_of_mem _ (mem_cons_of_mem _ (mem_nodesAll.mpr ⟨v, hv, hw⟩)))
  apart a ha := h.apart a (hsub ha)

/-- The value is the loop. -/
theorem Hosts.alike_self {t : Tag} {head : Head} {args : List Value}
    (h : Hosts L new around (.call t head args)) (hwithin : Within around ρ)
    (hid : t.id = L.tag.id) : Alike ((Value.call t head args).fill ρ)
      (((L.exchange new).value (.call t head args)).fill ρ) := by
  have hL : Value.call t head args = L.value := h.found _ mem_cons_self hid
  rw [hL] at h ⊢
  rw [Exchange.value_of_eq rfl]
  refine alike_renamed (h.apart around ?_) hwithin h.unused fun hmem => h.leaves ?_
  · rw [loops_value]
    exact mem_cons_self
  · simp [Loop.value, Value.leaves, leavesAll, hmem]

/-- **A value that may contain the loop.**  The induction is on the value, for whatever has been
filled in. -/
theorem alike_exchange (v : Value) (hwithin : Within around ρ) (h : Hosts L new around v) :
    Alike (v.fill ρ) (((L.exchange new).value v).fill ρ) := by
  induction v using loopInduction generalizing around ρ with
  | leaf t l =>
    have hid : t.id ≠ L.tag.id := fun heq =>
      nomatch h.found (.leaf t l) (mem_singleton_self _) heq
    rw [Exchange.value_leaf hid]
    exact alike_refl _
  | plain t head args hplain ih =>
    by_cases hid : t.id = L.tag.id
    · exact h.alike_self hwithin hid
    · rw [Exchange.value_call hid]
      refine .of_args t hplain.fillAll (alikeAll_exchange fun v hv => ih v hv hwithin ?_)
      refine h.arg hv h.unused fun e he => ?_
      rw [loops_of_plain around t hplain]
      exact mem_loopsAll.mpr ⟨v, hv, he⟩
  | loop t head c low high body hh ihc ihlow ihhigh ihbody =>
    by_cases hid : t.id = L.tag.id
    · exact h.alike_self hwithin hid
    · have hloops := loops_of_isLoop around t hh c low high body
      have hc : Hosts L new around c :=
        h.arg (by simp) h.unused fun e he => by simp [hloops, he]
      have hlow : Hosts L new around low :=
        h.arg (by simp) h.unused fun e he => by simp [hloops, he]
      have hhigh : Hosts L new around high :=
        h.arg (by simp) h.unused fun e he => by simp [hloops, he]
      have hinside : .atom new ∉ c.counters ++ around := fun hmem =>
        (mem_append.mp hmem).elim (fun hmem => hc.leaves (c.counters_subset hmem)) h.unused
      have hbody : ∀ v ∈ body, Hosts L new (c.counters ++ around) v := fun v hv =>
        h.arg (by simp [hv]) hinside fun e he => by
          simp [hloops, mem_loopsAll.mpr ⟨v, hv, he⟩]
      rw [Exchange.value_call hid]
      refine .loop t hh (ihc hwithin hc).copy_snd (ihlow hwithin hlow) (ihhigh hwithin hhigh)
        fun i => ?_
      rw [counting_exchange hc.found, fillAll_fillAll, fillAll_fillAll]
      exact alikeAll_exchange fun v hv => ihbody v hv (hwithin.step c i) (hbody v hv)

end

end Loops

/-! ## 5. Programs -/

mutual

theorem Value.fill_none (v : Value) : v.fill (fun _ => none) = v := by
  match v with
  | .leaf t l => rfl
  | .call t h args => rw [fill, fillAll_none args]

theorem Value.fillAll_none (vs : List Value) : fillAll (fun _ => none) vs = vs := by
  match vs with
  | [] => rfl
  | v :: rest => rw [fillAll, fill_none v, fillAll_none rest]

end

namespace Value

theorem map_loopsAll_sublist {around : List Leaf} {vs : List Value}
    (h : ∀ v ∈ vs, ((v.loops around).map fun e => Node.value e.2.value).Sublist v.nodes) :
    ((loopsAll around vs).map fun e => Node.value e.2.value).Sublist (nodesAll vs) := by
  induction vs with
  | nil => exact .slnil
  | cons v rest ih =>
    obtain ⟨hv, hrest⟩ := forall_mem_cons.mp h
    rw [loopsAll, map_append, nodesAll]
    exact hv.append (ih hrest)

/-- Every loop is listed once. -/
theorem map_loops_sublist (around : List Leaf) (v : Value) :
    ((v.loops around).map fun e => Node.value e.2.value).Sublist v.nodes := by
  induction v using loopInduction generalizing around with
  | leaf => exact nil_sublist _
  | plain t h args hplain ih =>
    rw [loops_of_plain around t hplain]
    exact ((map_loopsAll_sublist fun v hv => ih v hv around).cons _).cons _
  | loop t h c low high body hh ihc ihlow ihhigh ihbody =>
    rw [loops_of_isLoop around t hh, map_append, map_append, map_append,
      map_append, append_assoc, append_assoc]
    have hparts := (ihc around).append ((ihlow around).append ((ihhigh around).append
      (map_loopsAll_sublist fun v hv => ihbody v hv (c.counters ++ around))))
    cases hself : loop? (.call t h (c :: low :: high :: body)) with
    | none => exact (hparts.cons _).cons _
    | some =>
      simp only [toList_some, map_cons, map_nil, ← eq_value_of_loop? hself]
      exact (hparts.cons _).cons_cons _

end Value

namespace Program

variable {p : Program} {L : Loop} {new : Text}

theorem map_loops_sublist (p : Program) :
    (p.loops.map fun e => Node.value e.2.value).Sublist p.nodes := by
  rw [loops, nodes]
  induction p.all with
  | nil => exact .slnil
  | cons d rest ih =>
    rw [flatMap_cons, flatMap_cons, map_append]
    exact (Value.map_loopsAll_sublist fun v _ => v.map_loops_sublist []).append ih

theorem Numbered.around_eq (hn : p.Numbered) {around around' : List Leaf}
    (h : (around, L) ∈ p.loops) (h' : (around', L) ∈ p.loops) : around' = around := by
  have hnodup := hn.nodup.sublist (p.map_loops_sublist.map Node.number)
  rw [List.map_map] at hnodup
  exact congrArg Prod.fst (inj_on_of_nodup_map hnodup h' h rfl)

/-- **The program with the counter renamed** differs from it in values that unroll alike. -/
theorem beside_exchange (hn : p.Numbered) {around : List Leaf} (hL : (around, L) ∈ p.loops)
    (hnew : ∀ d ∈ p.all, .atom new ∉ d.leaves) (hapart : L.Apart new around) :
    p.Beside Loops.pairing ((L.exchange new).program p) := by
  have hnode : .value L.value ∈ p.nodes :=
    p.map_loops_sublist.subset (List.mem_map.mpr ⟨_, hL, rfl⟩)
  have hvalue : ∀ d ∈ p.all, ∀ v ∈ d.values, Loops.Alike v ((L.exchange new).value v) := by
    intro d hd v hv
    have hosts : Loops.Hosts L new [] v := by
      refine ⟨not_mem_nil, fun hmem => hnew d hd (leaves_subset hv hmem),
        fun w hw hid => ?_, fun a ha => ?_⟩
      · have hw : .value w ∈ p.nodes :=
          mem_flatMap.mpr ⟨d, hd, mem_nodesAll.mpr ⟨v, hv, hw⟩⟩
        exact Node.value.inj (hn.distinct hw hnode (congrArg MemoKey.value hid))
      · have ha : (a, L) ∈ p.loops :=
          mem_flatMap.mpr ⟨d, hd, mem_loopsAll.mpr ⟨v, hv, ha⟩⟩
        rwa [hn.around_eq hL ha]
    have hnothing : Loops.Within [] fun _ => none := fun _ _ h => nomatch h
    have halike := Loops.alike_exchange v hnothing hosts
    rwa [fill_none, fill_none] at halike
  refine ⟨fun i => ?_, fun i => ?_, rfl, rfl⟩
  · simp only [Exchange.program, Array.getElem?_map]
    cases hg : p.globals[i]? with
    | none => exact .none
    | some g =>
      have hmem := mem_all_global.mpr (Array.mem_of_getElem? hg)
      exact .some ⟨rfl, hvalue _ hmem g.value (mem_singleton_self _)⟩
  · simp only [Exchange.program, Array.getElem?_map]
    cases hs : p.scripts[i]? with
    | none => exact .none
    | some s =>
      have hmem := mem_all_script.mpr (Array.mem_of_getElem? hs)
      refine .some ⟨rfl, ?_⟩
      show Forall₂ Loops.Alike s.body ((L.exchange new).values s.body)
      rw [Exchange.values_eq_map]
      exact forall₂_map_right_iff.mpr (forall₂_same.mpr (hvalue _ hmem))

def NoLoops (p : Program) : Prop :=
  ∀ d ∈ p.declarations, ∀ v ∈ d.values, v.Meets (fun _ => True) Callee.NotLoop

theorem loops_noLoops (hp : p.Tidy) {report : Report} {limit : Int64}
    (hok : ¬ (Pass.loops.run p (.fresh p.nextNode report limit)).2.Failed) :
    (Pass.loops.run p (.fresh p.nextNode report limit)).1.NoLoops := by
  obtain ⟨s, -, hvisited, hf⟩ := Pass.loops.run_settled hp (Loops.hooks_settle p) report limit
    (Env.clear_fresh _ _ _) hok (Q := fun _ => True) trivial fun _ _ _ _ _ => trivial
  intro d hd
  obtain ⟨hall, hlisted⟩ := (hf.tidy hp).mem_declarations.mp hd
  rw [← content_eq ((hf.tidy hp).declaration?_id hall)]
  exact hf.content_meets (hf.opened hp hlisted) hvisited

/-- Where no loop is left in the table, nothing is left of the difference. -/
theorem Beside.declarations_eq {q q' : Program} (h : q.Beside Loops.pairing q')
    (hloops : q.NoLoops) : q'.declarations = q.declarations := by
  rw [declarations, declarations, h.table]
  refine filterMap_congr fun d hd => ?_
  have hplain : ∀ d', q.declaration? d = some d' →
      ∀ v ∈ d'.values, v.Meets (fun _ => True) Callee.NotLoop :=
    fun d' hd' => hloops d' (mem_filterMap.mpr ⟨d, hd, hd'⟩)
  cases d with
  | global id =>
    have hrel := h.globals id.serial
    simp only [declaration?, global?] at hplain ⊢
    generalize q.globals[id.serial]? = x at hrel hplain
    generalize q'.globals[id.serial]? = y at hrel
    cases hrel with
    | none => rfl
    | @some g g' hg =>
      have hvalue : g'.value = g.value :=
        Loops.Alike.eq hg.value (hplain _ rfl g.value (mem_singleton_self _))
      rw [hg.same, hvalue]
  | script id =>
    have hrel := h.scripts id.serial
    simp only [declaration?, script?] at hplain ⊢
    generalize q.scripts[id.serial]? = x at hrel hplain
    generalize q'.scripts[id.serial]? = y at hrel
    cases hrel with
    | none => rfl
    | @some s s' hs =>
      have hbody : s'.body = s.body :=
        Loops.AlikeAll.eq (Loops.alikeAll_iff.mpr hs.body) (hplain _ rfl)
      rw [hs.same, hbody]

/-- **Counters can be renamed.**  Take any loop, in whatever has been loaded, whose counter is an
atom, and a name that is not in the program.  If neither name can be mistaken for anything else
where the loop stands, renaming the counter and what it binds changes neither the dump of the
unrolled program nor the messages, provided there is no error. -/
theorem unrolling_renamed (lib : Library) (entry : Entry) (limit : Int64) (around : List Leaf)
    (L : Loop) (new : Text) :
    let p := (load {} {} lib entry).program
    let unroll := fun p : Program =>
      Pass.loops.run p (.fresh p.nextNode (load {} {} lib entry).report limit)
    (around, L) ∈ p.loops → (∀ d ∈ p.all, .atom new ∉ d.leaves) → L.Apart new around →
    (unroll p).2.report.hasErrors = false →
    (unroll ((L.exchange new).program p)).1.dump = (unroll p).1.dump ∧
      (unroll ((L.exchange new).program p)).2.report = (unroll p).2.report := by
  intro p unroll hL hnew hapart hok
  have hp := load_tidy tidy_empty {} lib entry
  have hn := loaded_numbered {} lib entry
  have hbeside : p.Beside Loops.pairing ((L.exchange new).program p) :=
    beside_exchange hn hL hnew hapart
  have hfailed : ¬ (unroll p).2.Failed := Bool.eq_false_iff.mp hok
  obtain ⟨hresult, hstate⟩ := hbeside.walk Loops.hooks_abreast
    (s := .fresh p.nextNode (load {} {} lib entry).report limit)
    (Env.clear_fresh _ _ _) hfailed
  have hunrolled : (unroll p).1.Beside Loops.pairing (unroll ((L.exchange new).program p)).1 :=
    ⟨hresult.globals, hresult.scripts, hresult.table, congrArg Env.nextNode hstate⟩
  have hloops : (unroll p).1.NoLoops := loops_noLoops hp hfailed
  constructor
  · rw [dump, hunrolled.declarations_eq hloops, dump]
  · exact congrArg Env.report hstate

def shadowSample : Entry := .source ⟨"a", "(script startup f(loop i 0 2(a i)(loop i 0 2(b i))))"⟩

/-- The same with a number in the body of the inner loop. -/
def captureSample : Entry := .source ⟨"a", "(script startup f(loop i 0 2(loop i 0 2(b i 0))))"⟩

/-- A sample with its loops unrolled, after a change. -/
def sampleUnrolled (sample : Entry) (change : Program → Program) : Program × Env :=
  let p := change (load {} {} {} sample).program
  Pass.loops.run p (.fresh p.nextNode (load {} {} {} sample).report 100)

set_option maxRecDepth 20000 in
/-- The inner one of two loops with the same counter can be renamed if its body mentions nothing but
the counter.  With a number in its body, renaming the outer one makes a difference: in the second
step inside the first step outside, the number was taken for the counter, which had become the same
number. -/
theorem unrolling_renamed_samples :
    (∃ L : Loop, (([.atom "i"], L) ∈ (load {} {} {} shadowSample).program.loops ∧
        (∀ d ∈ (load {} {} {} shadowSample).program.all, .atom "x" ∉ d.leaves) ∧
        L.Apart "x" [.atom "i"] ∧ (sampleUnrolled shadowSample id).2.report.hasErrors = false) ∧
      (sampleUnrolled shadowSample (L.exchange "x").program).1.dump =
        "(ast (script \"startup\" \"f\" (call \"a\" (atom \"0\")) (call \"b\" (atom \"0\"))" ++
        " (call \"b\" (atom \"1\")) (call \"a\" (atom \"1\")) (call \"b\" (atom \"0\"))" ++
        " (call \"b\" (atom \"1\"))))") ∧
    (sampleUnrolled captureSample id).1.dump =
      "(ast (script \"startup\" \"f\" (call \"b\" (atom \"0\") (atom \"0\"))" ++
      " (call \"b\" (atom \"1\") (atom \"1\")) (call \"b\" (atom \"0\") (atom \"0\"))" ++
      " (call \"b\" (atom \"1\") (atom \"0\"))))" ∧
    (load {} {} {} captureSample).program.loops[0]?.map (fun outer =>
        (sampleUnrolled captureSample (outer.2.exchange "x").program).1.dump) = some (
      "(ast (script \"startup\" \"f\" (call \"b\" (atom \"0\") (atom \"0\"))" ++
      " (call \"b\" (atom \"1\") (atom \"0\")) (call \"b\" (atom \"0\") (atom \"0\"))" ++
      " (call \"b\" (atom \"1\") (atom \"0\"))))") := by
  have hshape : ((load {} {} {} shadowSample).program.loops[1]?.map fun e =>
      (e.1, e.2.counter, Value.leavesAll e.2.body, (e.2.value.loops e.1).length)) =
      some ([.atom "i"], Text.ofString "i", [.atom "i"], 1) := by cbv
  obtain ⟨⟨around, L⟩, hget, hL⟩ := map_eq_some_iff.mp hshape
  simp only [Prod.mk.injEq] at hL
  obtain ⟨rfl, hcounter, hleaves, hlength⟩ := hL
  have hmem : ([.atom "i"], L) ∈ (load {} {} {} shadowSample).program.loops :=
    mem_of_getElem? hget
  have hall : (load {} {} {} shadowSample).program.all.map Declaration.leaves =
      [[.atom "i", .atom "0", .atom "2", .atom "i", .atom "i", .atom "0", .atom "2",
        .atom "i"]] := by
    cbv
  have hunused : ∀ d ∈ (load {} {} {} shadowSample).program.all, .atom "x" ∉ d.leaves := by
    intro d hd
    have hd := List.mem_map_of_mem (f := Declaration.leaves) hd
    rw [hall, mem_singleton] at hd
    rw [hd]
    decide
  have hapart : L.Apart "x" [.atom "i"] := by
    rw [Value.loops_value, length_cons, Nat.add_eq_right, length_eq_zero_iff] at hlength
    refine ⟨fun _ => ⟨?_, ?_⟩, fun inner hinner _ hconfused => ?_⟩
    · rw [hcounter]
      exact Leaf.not_isNumeral (b := 0x69) (by decide) (by decide) (by decide)
    · exact Leaf.not_isNumeral (b := 0x78) (by decide) (by decide) (by decide)
    · rw [Value.loops_value, hlength, mem_singleton] at hinner
      subst hinner
      obtain ⟨-, l, hl, hne, -⟩ := hconfused
      rw [hleaves, mem_singleton] at hl
      exact hne (by rw [hl, hcounter])
  have hrun : ((sampleUnrolled shadowSample id).2.report.hasErrors,
      (sampleUnrolled shadowSample id).1.dump) = (false, (
        "(ast (script \"startup\" \"f\" (call \"a\" (atom \"0\")) (call \"b\" (atom \"0\"))" ++
        " (call \"b\" (atom \"1\")) (call \"a\" (atom \"1\")) (call \"b\" (atom \"0\"))" ++
        " (call \"b\" (atom \"1\"))))" : Text)) := by cbv
  obtain ⟨hok, hdump⟩ := Prod.mk.inj hrun
  have hrenamed := unrolling_renamed {} shadowSample 100 _ L "x" hmem hunused hapart hok
  exact ⟨⟨L, ⟨hmem, hunused, hapart, hok⟩, hrenamed.1.trans hdump⟩, by cbv, by cbv⟩

end Program

end HaloScript
