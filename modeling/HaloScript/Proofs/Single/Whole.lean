/-
# Whole numbers and singles

A single turns into a long or a short by its whole part, if the whole part is in range
(`Single.toLong?_map`, `Single.toShort?_map`).  The code compares the single itself with the ends
of the range, but cutting off the fraction does not cross a whole number (`truncate?_between`), so
it makes no difference.

In the other direction a whole number is rounded.  Rounding does not cross powers of two
(`Rounding.le_nearest`).  So only zero becomes zero (`isZero_whole`), and a number beyond the range
of longs stays beyond it (`toLong?_whole`), although the ends of this range are rounded as well.
-/
import HaloScript.Proofs.Single.Decimal

namespace HaloScript

open Option

namespace Single

/-! ## 1. Cutting off the fraction -/

theorem oneUnits_pos : 0 < oneUnits := by
  unfold oneUnits
  exact Nat.pow_pos (by omega)

theorem signed_false (u : Nat) : signed false u = u := if_neg (by decide)

theorem signed_true (u : Nat) : signed true u = -(u : Int) := if_pos rfl

theorem le_finite (s t : Bool) (u v : Nat) :
    le (finite s u) (finite t v) = decide (signed s u ≤ signed t v) := by
  unfold le compare?
  rcases lt_trichotomy (signed s u) (signed t v) with h | h | h
  · simp [compare_lt_iff_lt.mpr h, h.le]
  · simp [h]
  · simp [compare_gt_iff_gt.mpr h, h]

theorem signed_div_lt (s : Bool) (u : Nat) {high : Nat} (h : 0 < high) :
    signed s (u / oneUnits) < high ↔ signed s u < ((high * oneUnits : Nat) : Int) := by
  cases s with
  | false =>
    rw [signed_false, signed_false, Nat.cast_lt, Nat.cast_lt]
    exact Nat.div_lt_iff_lt_mul oneUnits_pos
  | true =>
    have hpos : 0 < high * oneUnits := Nat.mul_pos h oneUnits_pos
    rw [signed_true, signed_true]
    generalize u / oneUnits = q
    omega

theorem lt_signed_div (s : Bool) (u : Nat) {low : Nat} (h : 0 < low) :
    -(low : Int) < signed s (u / oneUnits) ↔ -((low * oneUnits : Nat) : Int) < signed s u := by
  cases s with
  | false =>
    have hpos : 0 < low * oneUnits := Nat.mul_pos h oneUnits_pos
    rw [signed_false, signed_false]
    generalize u / oneUnits = q
    omega
  | true =>
    rw [signed_true, signed_true, Int.neg_lt_neg_iff, Int.neg_lt_neg_iff, Nat.cast_lt, Nat.cast_lt]
    exact Nat.div_lt_iff_lt_mul oneUnits_pos

/-- **Comparing a single with two whole numbers is comparing its whole part with them.** -/
theorem truncate?_between (low high : Nat) (hlow : 0 < low) (hhigh : 0 < high) (x : Single) :
    (if le (finite false (high * oneUnits)) x || le x (finite true (low * oneUnits)) then none
      else x.truncate?) = x.truncate?.filter fun k => -(low : Int) < k ∧ k < high := by
  cases x with
  | nan => rfl
  | infinite s => cases s <;> rfl
  | finite s u =>
    have hinside : (-(low : Int) < signed s (u / oneUnits) ∧ signed s (u / oneUnits) < high) ↔
        ¬(signed false (high * oneUnits) ≤ signed s u ∨
          signed s u ≤ signed true (low * oneUnits)) := by
      rw [signed_div_lt s u hhigh, lt_signed_div s u hlow, signed_false (high * oneUnits),
        signed_true (low * oneUnits)]
      omega
    rw [le_finite, le_finite, truncate?, filter_some]
    simp only [Bool.or_eq_true, decide_eq_true_eq, hinside]
    split <;> simp_all

/-! ## 2. Longs and shorts -/

theorem ofInt_long : ofInt (Int64.maxValue.toInt + 1) = finite false (2 ^ 63 * oneUnits) ∧
    ofInt Int64.minValue.toInt = finite true (2 ^ 63 * oneUnits) := by
  decide +kernel

theorem ofInt_short : ofInt (Int16.maxValue.toInt + 1) = finite false (32768 * oneUnits) ∧
    ofInt (Int16.minValue.toInt - 1) = finite true (32769 * oneUnits) := by
  decide +kernel

/-- **A single turns into the long that is its whole part**, if this is in range.  The least long
counts as out of range. -/
theorem toLong?_map (x : Single) :
    x.toLong?.map Int64.toInt = x.truncate?.filter fun k => -2 ^ 63 < k ∧ k < 2 ^ 63 := by
  have hbetween := truncate?_between (2 ^ 63) (2 ^ 63) (by decide) (by decide) x
  rw [Nat.cast_pow, Nat.cast_ofNat] at hbetween
  have hlong : x.toLong? =
      (x.truncate?.filter fun k => -2 ^ 63 < k ∧ k < 2 ^ 63).map Int64.ofInt := by
    unfold toLong?
    rw [ofInt_long.1, ofInt_long.2, ← hbetween]
    split <;> rfl
  rw [hlong, map_map]
  refine map_filter_eq (fun k hk => ?_) _
  have hrange := of_decide_eq_true hk
  exact Int64.toInt_ofInt_of_le (by omega) (by omega)

/-- **A single turns into the short that is its whole part**, if this is in range. -/
theorem toShort?_map (x : Single) :
    x.toShort?.map Int16.toInt = x.truncate?.filter fun k => -32768 ≤ k ∧ k ≤ 32767 := by
  have hbetween := truncate?_between 32769 32768 (by decide) (by decide) x
  have hrange : (fun k : Int => decide (-((32769 : Nat) : Int) < k ∧ k < ((32768 : Nat) : Int))) =
      fun k => decide (-32768 ≤ k ∧ k ≤ 32767) := by
    funext k
    exact decide_eq_decide.mpr (by omega)
  have hshort : x.toShort? =
      (x.truncate?.filter fun k => -32768 ≤ k ∧ k ≤ 32767).map Int16.ofInt := by
    unfold toShort?
    rw [ofInt_short.1, ofInt_short.2, ← hrange, ← hbetween]
    split <;> rfl
  rw [hshort, map_map]
  refine map_filter_eq (fun k hk => ?_) _
  have hrange := of_decide_eq_true hk
  exact Int16.toInt_ofInt_of_le (by omega) (by omega)

theorem toShort?_map_toLong? (x : Single) : x.toShort?.map Int16.toInt =
    (x.toLong?.map Int64.toInt).filter fun n => -32768 ≤ n ∧ n ≤ 32767 := by
  rw [toShort?_map, toLong?_map, filter_filter_of_imp]
  intro n hn
  have hinside := of_decide_eq_true hn
  exact decide_eq_true (by omega)

/-! ## 3. Whole numbers as singles -/

/-- The single nearest to a whole number with a sign. -/
def whole (negative : Bool) (n : Nat) : Single := ofRatio negative (n * oneUnits) 1

theorem fits_whole (e : Nat) : Rounding.Fits precision (2 ^ e * oneUnits) := by
  have hpow : 2 ^ e * oneUnits = 2 ^ (e + 149) := by rw [pow_add, oneUnits, Nat.pow_eq]
  rw [hpow]
  exact Rounding.fits_pow (by decide) _

/-- A whole number at or above a power of two is not rounded below it. -/
theorem whole_cases {e n : Nat} (h : 2 ^ e ≤ n) (negative : Bool) :
    (∃ u, whole negative n = finite negative u ∧ 2 ^ e * oneUnits ≤ u) ∨
      whole negative n = infinite negative := by
  have hunits : 2 ^ e * oneUnits ≤ Rounding.nearest precision (n * oneUnits) 1 := by
    refine Rounding.le_nearest (by decide) Nat.one_pos (fits_whole e) ?_
    rw [Nat.mul_one]
    exact Nat.mul_le_mul_right _ h
  unfold whole ofRatio
  generalize Rounding.nearest precision (n * oneUnits) 1 = units at *
  generalize unitsLimit = limit
  dsimp only
  split
  · exact .inl ⟨units, rfl, hunits⟩
  · exact .inr rfl

theorem isZero_iff {x : Single} : x.isZero = true ↔ ∃ s, x = finite s 0 := by
  cases x with
  | nan => simp [isZero, eq, compare?]
  | infinite s => cases s <;> simp [isZero, eq, compare?, zero]
  | finite => simp [isZero_finite]

/-- Only zero becomes zero. -/
theorem isZero_whole (negative : Bool) (n : Nat) : (whole negative n).isZero = decide (n = 0) := by
  rcases Nat.eq_zero_or_pos n with rfl | hn
  · have hzero : whole negative 0 = finite negative 0 := by
      cases negative <;> decide +kernel
    rw [hzero, isZero_finite]
  · rw [decide_eq_false (by omega)]
    have hone : 2 ^ 0 ≤ n := by omega
    rcases whole_cases hone negative with ⟨u, hwhole, hu⟩ | hwhole
    · have hpos := oneUnits_pos
      rw [hwhole, isZero_finite]
      exact decide_eq_false (by omega)
    · rw [hwhole]
      cases negative <;> rfl

theorem isZero_ofInt (n : Int) : (ofInt n).isZero = decide (n = 0) :=
  (isZero_whole _ _).trans (decide_eq_decide.mpr Int.natAbs_eq_zero)

/-- What lies beyond the longs does not become a long by being rounded. -/
theorem toLong?_whole {n : Nat} (h : 2 ^ 63 ≤ n) (negative : Bool) :
    (whole negative n).toLong? = none := by
  rw [← map_eq_none_iff (f := Int64.toInt), toLong?_map]
  rcases whole_cases h negative with ⟨u, hwhole, hu⟩ | hwhole
  · have hquot : 2 ^ 63 ≤ u / oneUnits := (Nat.le_div_iff_mul_le oneUnits_pos).mpr hu
    rw [hwhole, truncate?, filter_some, if_neg]
    rw [decide_eq_true_eq]
    generalize u / oneUnits = q at *
    cases negative with
    | false =>
      rw [signed_false]
      omega
    | true =>
      rw [signed_true]
      omega
  · rw [hwhole]
    rfl

end Single

end HaloScript
