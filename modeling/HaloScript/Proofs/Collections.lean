/-
# Lists, arrays, options and bytes

What is proved here is about no program.  Declarations are kept in arrays under their own numbers,
names in lists without repetitions, and what a walk edits is one list among others, so facts like
these are needed in several places and stand here once.
-/
import Mathlib.Data.List.Forall2
import Mathlib.Data.List.Nodup
import Mathlib.Data.List.Perm.Subperm

namespace HaloScript

open List

variable {α β : Type}

/-! ## 1. Lists -/

section

variable {xs ys : List α}

theorem sublist_cons_of_mem {x y : α} (hy : y ∈ ys) : [x, y].Sublist (x :: ys) :=
  (singleton_sublist.mpr hy).cons_cons x

/-- A repetition at the end of a list is the one that goes. -/
theorem eraseDups_concat [BEq α] [LawfulBEq α] (xs : List α) (x : α) :
    (xs ++ [x]).eraseDups = if x ∈ xs then xs.eraseDups else xs.eraseDups ++ [x] := by
  rw [eraseDups_append, List.removeAll]
  by_cases h : x ∈ xs
  · simp [h]
  · simp [h, eraseDups_cons]

/-- Elements that are known by their place are the first ones. -/
theorem filter_eq_take {f : α → Bool} {k : Nat}
    (h : ∀ i x, xs[i]? = some x → (f x = true ↔ i < k)) : xs.filter f = xs.take k := by
  induction xs generalizing k with
  | nil => rw [filter_nil, take_nil]
  | cons x rest ih =>
    have hrest : ∀ j, (∀ i y, rest[i]? = some y → (f y = true ↔ i < j)) →
        rest.filter f = rest.take j := fun j => ih
    cases k with
    | zero =>
      rw [filter_cons_of_neg (by simpa using h 0 x rfl), hrest 0 fun i y hy => ?_]
      · rfl
      · simpa using h (i + 1) y hy
    | succ k =>
      rw [filter_cons_of_pos (by simpa using h 0 x rfl), hrest k fun i y hy => ?_]
      · rfl
      · simpa using h (i + 1) y hy

/-- An element stays in its place if nothing in front of it goes, nor itself. -/
theorem getElem?_filter {f : α → Bool} {k : Nat}
    (h : ∀ j x, j ≤ k → xs[j]? = some x → f x = true) : (xs.filter f)[k]? = xs[k]? := by
  induction xs generalizing k with
  | nil => rfl
  | cons y rest ih =>
    rw [filter_cons_of_pos (h 0 y (Nat.zero_le k) rfl)]
    cases k with
    | zero => rfl
    | succ => exact ih fun j x hj hx => h (j + 1) x (by omega) hx

/-- A part of a list is known from its members, as long as the list does not repeat itself: there is
then one place at which a member can stand. -/
theorem eq_filter_of_sublist {keep : α → Bool} (hsub : xs.Sublist ys) (hys : ys.Nodup)
    (hmem : ∀ y ∈ ys, y ∈ xs ↔ keep y = true) : xs = ys.filter keep := by
  have hkeep : xs.filter keep = xs :=
    filter_eq_self.mpr fun x hx => (hmem x (hsub.subset hx)).mp hx
  have hle : xs.Sublist (ys.filter keep) := hkeep ▸ hsub.filter keep
  refine hle.eq_of_length_le (Nodup.subperm (hys.filter keep) fun y hy => ?_).length_le
  obtain ⟨hy, hk⟩ := mem_filter.mp hy
  exact (hmem y hy).mpr hk

/-- What is related to a list with one more member has one more member. -/
theorem forall₂_concat_left {R : α → β → Prop} {x : α} {ys : List β}
    (h : Forall₂ R (xs ++ [x]) ys) : ∃ ys' y, ys = ys' ++ [y] ∧ Forall₂ R xs ys' ∧ R x y := by
  induction xs generalizing ys with
  | nil =>
    obtain ⟨y, ys', hy, hrest, rfl⟩ := forall₂_cons_left_iff.mp h
    obtain rfl := forall₂_nil_left_iff.mp hrest
    exact ⟨[], y, rfl, .nil, hy⟩
  | cons x' xs ih =>
    obtain ⟨y', ys', hy', hrest, rfl⟩ := forall₂_cons_left_iff.mp h
    obtain ⟨ys'', y, rfl, hxs, hy⟩ := ih hrest
    exact ⟨y' :: ys'', y, rfl, .cons hy' hxs, hy⟩

end

/-! ## 2. Lists of lists -/

section

variable {xss : List (List α)} {b : Nat} (h : ∀ xs ∈ xss, xs.length = b)

include h

/-- Where all lists have one length, the place of an element is that of its list and its own. -/
theorem getElem?_flatten_of_length (k : Nat) {j : Nat} (hj : j < b) :
    xss.flatten[k * b + j]? = xss[k]?.bind (·[j]?) := by
  induction xss generalizing k with
  | nil => simp
  | cons xs rest ih =>
    obtain ⟨hxs, hrest⟩ := forall_mem_cons.mp h
    rw [flatten_cons]
    cases k with
    | zero =>
      rw [Nat.zero_mul, Nat.zero_add, getElem?_append_left (by omega)]
      rfl
    | succ =>
      rw [Nat.succ_mul, Nat.add_right_comm, getElem?_append_right (by omega), hxs,
        Nat.add_sub_cancel, ih hrest]
      rfl

theorem length_flatten_of_length : xss.flatten.length = xss.length * b := by
  induction xss with
  | nil => simp
  | cons xs rest ih =>
    obtain ⟨hxs, hrest⟩ := forall_mem_cons.mp h
    rw [flatten_cons, length_append, ih hrest, hxs, length_cons, Nat.succ_mul, Nat.add_comm]

end

/-- The parts of some lists, after one of them was exchanged. -/
theorem flatMap_perm_exchange [DecidableEq α] {xs : List α} (hxs : xs.Nodup) {x : α} (hx : x ∈ xs)
    {f g : α → List β} (hne : ∀ y ∈ xs, y ≠ x → g y = f y) :
    ∃ rest, (xs.flatMap f).Perm (f x ++ rest) ∧ (xs.flatMap g).Perm (g x ++ rest) := by
  have hperm := perm_cons_erase hx
  refine ⟨(xs.erase x).flatMap f, hperm.flatMap_right f, ?_⟩
  have hsame : (xs.erase x).flatMap g = (xs.erase x).flatMap f := by
    refine flatMap_congr fun y hy => ?_
    obtain ⟨hyx, hmem⟩ := hxs.mem_erase_iff.mp hy
    exact hne y hmem hyx
  rw [← hsame]
  exact hperm.flatMap_right g

/-- What occurs once in all lists together says which list it is in. -/
theorem index_eq_of_nodup_flatMap {xs : List α} {f : α → List β} (h : (xs.flatMap f).Nodup)
    {i j : Nat} {a b : α} (ha : xs[i]? = some a) (hb : xs[j]? = some b) {c : β} (hca : c ∈ f a)
    (hcb : c ∈ f b) : i = j := by
  obtain ⟨hi, rfl⟩ := List.getElem?_eq_some_iff.mp ha
  obtain ⟨hj, rfl⟩ := List.getElem?_eq_some_iff.mp hb
  have hapart := pairwise_iff_getElem.mp (nodup_flatMap.mp h).2
  rcases Nat.lt_trichotomy i j with hlt | heq | hlt
  · exact absurd hcb (hapart i j hi hj hlt hca)
  · exact heq
  · exact absurd hca (hapart j i hj hi hlt hcb)

/-! ## 3. Arrays -/

/-- Putting something else in a place does not show in what both have in common. -/
theorem map_setIfInBounds_self (f : α → β) (xs : Array α) (i : Nat) (x y : α)
    (hx : xs[i]? = some x) (hf : f y = f x) : (xs.setIfInBounds i y).map f = xs.map f := by
  refine Array.ext_getElem? fun j => ?_
  simp only [Array.getElem?_map, Array.getElem?_setIfInBounds]
  split
  · next hij =>
    subst hij
    have hlt := (Array.getElem?_eq_some_iff.mp hx).1
    rw [if_pos hlt, hx, Option.map_some, Option.map_some, hf]
  · rfl

theorem setIfInBounds_self {xs : Array α} {i : Nat} {x : α} (h : xs[i]? = some x) :
    xs.setIfInBounds i x = xs := by
  have hmap := map_setIfInBounds_self id xs i x x h rfl
  rwa [Array.map_id, Array.map_id] at hmap

theorem nodup_serials (xs : Array α) (serial : α → Nat)
    (h : ∀ i x, xs[i]? = some x → serial x = i) : (xs.toList.map serial).Nodup := by
  have hrange : xs.toList.map serial = List.range xs.size := by
    refine ext_getElem? fun i => ?_
    rw [getElem?_map, Array.getElem?_toList]
    rcases Nat.lt_or_ge i xs.size with hi | hi
    · have hx := Array.getElem?_eq_getElem hi
      rw [getElem?_range hi, hx, Option.map_some, h i _ hx]
    · simp [hi]
  rw [hrange]
  exact nodup_range

/-! ## 4. Options -/

theorem filter_filter_of_imp {p q : α → Bool} (h : ∀ a, q a = true → p a = true) (o : Option α) :
    (o.filter p).filter q = o.filter q := by
  cases o with
  | none => rfl
  | some a =>
    by_cases hq : q a = true
    · simp [Option.filter_some, hq, h a hq]
    · by_cases hp : p a = true <;> simp [Option.filter_some, hq, hp]

theorem bind_ite_eq (inside : α → Prop) [DecidablePred inside] (f : α → β) (o : Option α) :
    (o.bind fun a => if inside a then some (f a) else none) =
      (o.filter fun a => inside a).map f := by
  cases o with
  | none => rfl
  | some a =>
    rw [Option.bind_some, Option.filter_some]
    by_cases h : inside a
    · rw [if_pos h, if_pos (decide_eq_true h), Option.map_some]
    · rw [if_neg h, if_neg (by simpa using h), Option.map_none]

theorem map_filter_eq {inside : α → Bool} {f : α → α} (h : ∀ a, inside a = true → f a = a)
    (o : Option α) : (o.filter inside).map f = o.filter inside := by
  cases ha : o.filter inside with
  | none => rfl
  | some a => rw [Option.map_some, h a (Option.filter_eq_some_iff.mp ha).2]

/-! ## 5. Bytes -/

/-- What is to be shown of every byte can be looked up. -/
theorem forall_byte {p : UInt8 → Prop} (h : ∀ n : Fin 256, p (UInt8.ofFin n)) (b : UInt8) : p b :=
  h b.toFin

end HaloScript
