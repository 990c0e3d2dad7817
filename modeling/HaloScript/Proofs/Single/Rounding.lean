/-
# Rounding to the nearest single

A natural fits a precision if it is a significand of so many bits times a power of two.
`Rounding.nearest` gives only such numbers (`fits_nearest`), so every single that arithmetic or
reading produces is one of the format (`Single.Valid` and the lemmas of section 4).  It never
rounds past a number that fits (`le_nearest`).

In the other direction, a ratio rounds to a number that fits if it lies close enough to it
(`nearest_eq`).  Close enough means half a step on either side, the ends included if the
significand is even.  Below a power of two the steps are half as wide, so there it is a quarter
of a step, and the proof has to round with the smaller exponent.
-/
import HaloScript.Single.Basic
import Mathlib.Tactic.Ring
import Mathlib.Tactic.Linarith

namespace HaloScript

namespace Rounding

variable {bits : Nat}

/-! ## 1. Numbers that fit a precision -/

/-- The number has at most so many significant bits. -/
def Fits (bits n : Nat) : Prop := ∃ s e, s < 2 ^ bits ∧ n = s * 2 ^ e

theorem fits_of_lt {bits n : Nat} (h : n < 2 ^ bits) : Fits bits n := ⟨n, 0, h, by simp⟩

theorem fits_pow (hbits : 0 < bits) (e : Nat) : Fits bits (2 ^ e) :=
  ⟨1, e, Nat.one_lt_two_pow hbits.ne', by simp⟩

/-- The excess of a number is what lifts a significand of full width to it. -/
theorem excessBits_eq {bits e q : Nat} (hbits : 0 < bits) (hhigh : q < 2 ^ (bits + e))
    (hlow : 0 < e → 2 ^ (bits - 1 + e) ≤ q) : excessBits bits q = e := by
  unfold excessBits
  simp only [Nat.pow_eq]
  rcases Nat.eq_zero_or_pos e with rfl | he
  · rw [if_pos (by simpa using hhigh)]
  · have hq := hlow he
    have hwide : 2 ^ bits ≤ 2 ^ (bits - 1 + e) := Nat.pow_le_pow_right (by omega) (by omega)
    rw [if_neg (by omega)]
    have hlog : Nat.log2 q = bits - 1 + e := by
      have hne : q ≠ 0 := by
        have : 0 < 2 ^ (bits - 1 + e) := by positivity
        omega
      rw [Nat.log2_eq_iff hne]
      refine ⟨hq, ?_⟩
      have : bits - 1 + e + 1 = bits + e := by omega
      rwa [this]
    omega

/-- The width that a number has beyond the precision, from above and from below. -/
theorem excessBits_bounds (hbits : 0 < bits) (q : Nat) :
    q < 2 ^ (bits + excessBits bits q) ∧
      (0 < excessBits bits q → 2 ^ (bits - 1 + excessBits bits q) ≤ q) := by
  unfold excessBits
  simp only [Nat.pow_eq]
  split
  · next hsmall => exact ⟨by simpa using hsmall, fun h => absurd h (by omega)⟩
  · next hlarge =>
    have hq : q ≠ 0 := by
      have : 0 < 2 ^ bits := by positivity
      omega
    have hwide : bits ≤ Nat.log2 q := (Nat.le_log2 hq).mpr (by omega)
    have hhigh : bits + (Nat.log2 q - (bits - 1)) = Nat.log2 q + 1 := by omega
    have hlow : bits - 1 + (Nat.log2 q - (bits - 1)) = Nat.log2 q := by omega
    rw [hhigh, hlow]
    exact ⟨Nat.lt_log2_self, fun _ => Nat.log2_self_le hq⟩

/-- A number that fits is a significand times the step its excess gives, and the significand has
full width unless the step is one. -/
theorem Fits.split {bits n : Nat} (hbits : 0 < bits) (h : Fits bits n) :
    ∃ s, n = s * 2 ^ excessBits bits n ∧ s < 2 ^ bits ∧
      (0 < excessBits bits n → 2 ^ (bits - 1) ≤ s) := by
  obtain ⟨s, e, hs, rfl⟩ := h
  induction e generalizing s with
  | zero =>
    have hzero : excessBits bits (s * 2 ^ 0) = 0 := by
      simp [excessBits, hs]
    exact ⟨s, by rw [hzero], hs, by omega⟩
  | succ e ih =>
    by_cases hfull : 2 ^ (bits - 1) ≤ s
    · have hexcess : excessBits bits (s * 2 ^ (e + 1)) = e + 1 := by
        refine excessBits_eq hbits ?_ fun _ => ?_
        · rw [pow_add 2 bits]
          exact Nat.mul_lt_mul_of_pos_right hs (by positivity)
        · rw [pow_add 2 (bits - 1)]
          exact Nat.mul_le_mul_right _ hfull
      exact ⟨s, by rw [hexcess], hs, fun _ => hfull⟩
    · -- a short significand takes one more bit
      have hwide : 2 ^ bits = 2 * 2 ^ (bits - 1) := by
        rw [← pow_succ', Nat.sub_add_cancel hbits]
      have heq : s * 2 ^ (e + 1) = 2 * s * 2 ^ e := by ring
      rw [heq]
      exact ih (2 * s) (by omega)

/-! ## 2. Halves go to the even neighbour -/

theorem halfEven_le (num den : Nat) : halfEven num den ≤ num / den + 1 := by
  unfold halfEven
  grind

theorem div_le_halfEven (num den : Nat) : num / den ≤ halfEven num den := by
  unfold halfEven
  grind

/-- A ratio within one half of a natural rounds to it; at the ends only if it is even. -/
theorem halfEven_eq {num den s : Nat} (hden : 0 < den) (hlow : 2 * (s * den) ≤ 2 * num + den)
    (hhigh : 2 * num ≤ 2 * (s * den) + den)
    (htie : 2 * (s * den) = 2 * num + den ∨ 2 * num = 2 * (s * den) + den → s % 2 = 0) :
    halfEven num den = s := by
  have hsplit : den * (num / den) + num % den = num := Nat.div_add_mod num den
  have hrest : num % den < den := Nat.mod_lt _ hden
  unfold halfEven
  generalize num / den = q at *
  generalize num % den = r at *
  have hle : q ≤ s := by
    by_contra h
    have : den * (s + 1) ≤ den * q := Nat.mul_le_mul_left _ (by omega)
    have : den * (s + 1) = s * den + den := by ring
    omega
  have hge : s ≤ q + 1 := by
    by_contra h
    have : den * (q + 2) ≤ den * s := Nat.mul_le_mul_left _ (by omega)
    have : den * (q + 2) = den * q + 2 * den := by ring
    have : den * s = s * den := Nat.mul_comm ..
    omega
  rcases (by omega : s = q ∨ s = q + 1) with rfl | rfl
  · have : den * s = s * den := Nat.mul_comm ..
    grind
  · have : (q + 1) * den = den * q + den := by ring
    grind

/-- Rounding gives a number that fits. -/
theorem fits_nearest (hbits : 0 < bits) (num den : Nat) : Fits bits (nearest bits num den) := by
  unfold nearest
  simp only [Nat.pow_eq]
  have hwide := (excessBits_bounds hbits (num / den)).1
  generalize excessBits bits (num / den) = e at *
  have hquot : num / (den * 2 ^ e) < 2 ^ bits := by
    rwa [← Nat.div_div_eq_div_mul, Nat.div_lt_iff_lt_mul (by positivity), ← pow_add]
  have hround := halfEven_le num (den * 2 ^ e)
  rcases Nat.lt_or_ge (halfEven num (den * 2 ^ e)) (2 ^ bits) with hlt | hge
  · exact ⟨_, e, hlt, rfl⟩
  · have hpow : halfEven num (den * 2 ^ e) = 2 ^ bits := by omega
    rw [hpow, ← pow_add]
    exact fits_pow hbits _

/-- Dropping the bits that a precision cannot keep does not cross a number that fits. -/
theorem Fits.le_dropped {bits s q : Nat} (hbits : 0 < bits) (hs : Fits bits s) (h : s ≤ q) :
    s ≤ q / 2 ^ excessBits bits q * 2 ^ excessBits bits q := by
  obtain ⟨hhigh, hlow⟩ := excessBits_bounds hbits q
  generalize excessBits bits q = e at *
  have hmultiple : ∀ m, m * 2 ^ e ≤ q → m * 2 ^ e ≤ q / 2 ^ e * 2 ^ e := fun m hm =>
    Nat.mul_le_mul_right _ ((Nat.le_div_iff_mul_le (by positivity)).mpr hm)
  rcases Nat.eq_zero_or_pos e with rfl | he
  · simpa using h
  · have hlow := hlow he
    rcases Nat.lt_or_ge s (2 ^ (bits - 1 + e)) with hunder | hover
    · rw [pow_add] at hunder hlow
      exact hunder.le.trans (hmultiple _ hlow)
    · -- both numbers have the same excess, so `s` is a multiple of the step
      have hexcess : excessBits bits s = e := excessBits_eq hbits (h.trans_lt hhigh) fun _ => hover
      obtain ⟨m, hm, -⟩ := hs.split hbits
      rw [hexcess] at hm
      rw [hm] at h ⊢
      exact hmultiple m h

/-- **Rounding does not cross a number that fits.** -/
theorem le_nearest {bits s num den : Nat} (hbits : 0 < bits) (hden : 0 < den) (hs : Fits bits s)
    (h : s * den ≤ num) : s ≤ nearest bits num den := by
  have hdropped := hs.le_dropped hbits ((Nat.le_div_iff_mul_le hden).mpr h)
  rw [Nat.div_div_eq_div_mul] at hdropped
  exact hdropped.trans (Nat.mul_le_mul_right _ (div_le_halfEven num _))

/-! ## 3. What rounds to a number -/

/-- How far below a number, in quarters of a step, the ratios that round to it begin. -/
def below (bits e s : Nat) : Nat := if s = 2 ^ (bits - 1) ∧ 0 < e then 2 ^ e else 2 * 2 ^ e

theorem below_le (bits e s : Nat) : below bits e s ≤ 2 * 2 ^ e := by
  unfold below
  split <;> omega

section

variable {bits num den s e : Nat}

/-- Rounding with the number's own exponent. -/
theorem nearest_eq_same (hbits : 0 < bits) (hden : 0 < den) (hs : s < 2 ^ bits)
    (hfull : 0 < e → 2 ^ (bits - 1) ≤ s)
    (hside : s * 2 ^ e * den ≤ num ∨ ¬(s = 2 ^ (bits - 1) ∧ 0 < e))
    (hlow : 4 * (s * 2 ^ e) * den ≤ 4 * num + 2 * 2 ^ e * den)
    (hhigh : 4 * num ≤ (4 * (s * 2 ^ e) + 2 * 2 ^ e) * den)
    (htie : 4 * (s * 2 ^ e) * den = 4 * num + 2 * 2 ^ e * den ∨
      4 * num = (4 * (s * 2 ^ e) + 2 * 2 ^ e) * den → s % 2 = 0) :
    nearest bits num den = s * 2 ^ e := by
  have hstep : 0 < 2 ^ e := by positivity
  have hexcess : excessBits bits (num / den) = e := by
    refine excessBits_eq hbits ?_ fun he => ?_
    · rw [Nat.div_lt_iff_lt_mul hden, pow_add]
      have hroom : (s + 1) * 2 ^ e * den ≤ 2 ^ bits * 2 ^ e * den := by gcongr; omega
      have : (s + 1) * 2 ^ e * den = s * 2 ^ e * den + 2 ^ e * den := by ring
      have : 0 < 2 ^ e * den := by positivity
      have : (4 * (s * 2 ^ e) + 2 * 2 ^ e) * den =
          4 * (s * 2 ^ e * den) + 2 * (2 ^ e * den) := by ring
      omega
    · rw [Nat.le_div_iff_mul_le hden, pow_add]
      rcases hside with hside | hside
      · exact (Nat.mul_le_mul_right _ (Nat.mul_le_mul_right _ (hfull he))).trans hside
      · have hmore : 2 ^ (bits - 1) + 1 ≤ s := by
          have := hfull he
          omega
        have hroom : (2 ^ (bits - 1) + 1) * 2 ^ e * den ≤ s * 2 ^ e * den := by gcongr
        have : (2 ^ (bits - 1) + 1) * 2 ^ e * den =
            2 ^ (bits - 1) * 2 ^ e * den + 2 ^ e * den := by ring
        have : 4 * (s * 2 ^ e) * den = 4 * (s * 2 ^ e * den) := by ring
        have : 2 * 2 ^ e * den = 2 * (2 ^ e * den) := by ring
        omega
  unfold nearest
  simp only [Nat.pow_eq, hexcess]
  have hquarters : 4 * (s * 2 ^ e) * den = 2 * (2 * (s * (den * 2 ^ e))) := by ring
  have hends : (4 * (s * 2 ^ e) + 2 * 2 ^ e) * den =
      2 * (2 * (s * (den * 2 ^ e)) + den * 2 ^ e) := by ring
  have hhalf : 2 * 2 ^ e * den = 2 * (den * 2 ^ e) := by ring
  rw [hquarters, hhalf] at hlow htie
  rw [hends] at hhigh htie
  rw [halfEven_eq (by positivity) (by omega) (by omega) fun h => htie (by omega)]

/-- Rounding from below to a power of two, with the next smaller exponent. -/
theorem nearest_eq_power (hbits : 0 < bits) (hden : 0 < den) (he : 0 < e)
    (hunder : num < 2 ^ (bits - 1) * 2 ^ e * den)
    (hlow : 4 * (2 ^ (bits - 1) * 2 ^ e) * den ≤ 4 * num + 2 ^ e * den) :
    nearest bits num den = 2 ^ (bits - 1) * 2 ^ e := by
  obtain ⟨e, rfl⟩ := Nat.exists_eq_succ_of_ne_zero he.ne'
  obtain ⟨b, rfl⟩ := Nat.exists_eq_succ_of_ne_zero hbits.ne'
  simp only [Nat.succ_eq_add_one, Nat.add_sub_cancel] at *
  have hsame : 2 ^ b * 2 ^ (e + 1) = 2 ^ (b + 1) * 2 ^ e := by ring
  have hstep : 2 ^ (e + 1) * den = 2 * (den * 2 ^ e) := by ring
  have hexcess : excessBits (b + 1) (num / den) = e := by
    refine excessBits_eq (by omega) ?_ fun _ => ?_
    · rw [Nat.div_lt_iff_lt_mul hden, pow_add, ← hsame]
      exact hunder
    · rw [Nat.le_div_iff_mul_le hden, Nat.add_sub_cancel, pow_add]
      have hroom : 1 * (den * 2 ^ e) ≤ 2 ^ b * (den * 2 ^ e) :=
        Nat.mul_le_mul_right _ Nat.one_le_two_pow
      have : 2 ^ b * 2 ^ e * den = 2 ^ b * (den * 2 ^ e) := by ring
      have : 4 * (2 ^ b * 2 ^ (e + 1)) * den = 8 * (2 ^ b * (den * 2 ^ e)) := by ring
      omega
  unfold nearest
  simp only [Nat.pow_eq, hexcess]
  rw [hsame] at hunder hlow ⊢
  have hwhole : 2 ^ (b + 1) * 2 ^ e * den = 2 ^ (b + 1) * (den * 2 ^ e) := by ring
  have hquarters : 4 * (2 ^ (b + 1) * 2 ^ e) * den = 4 * (2 ^ (b + 1) * (den * 2 ^ e)) := by ring
  have hround : halfEven num (den * 2 ^ e) = 2 ^ (b + 1) :=
    halfEven_eq (by positivity) (by omega) (by omega) fun _ => by simp [pow_succ]
  rw [hround]

/-- **A ratio rounds to every number it is close to.**  All bounds are in quarters of a step. -/
theorem nearest_eq (hbits : 0 < bits) (hden : 0 < den) (hs : s < 2 ^ bits)
    (hfull : 0 < e → 2 ^ (bits - 1) ≤ s)
    (hlow : 4 * (s * 2 ^ e) * den ≤ 4 * num + below bits e s * den)
    (hhigh : 4 * num ≤ (4 * (s * 2 ^ e) + 2 * 2 ^ e) * den)
    (htie : 4 * (s * 2 ^ e) * den = 4 * num + below bits e s * den ∨
      4 * num = (4 * (s * 2 ^ e) + 2 * 2 ^ e) * den → s % 2 = 0) :
    nearest bits num den = s * 2 ^ e := by
  by_cases hpower : s = 2 ^ (bits - 1) ∧ 0 < e
  · rw [below, if_pos hpower] at hlow
    rcases Nat.lt_or_ge num (s * 2 ^ e * den) with hunder | hover
    · obtain ⟨rfl, he⟩ := hpower
      exact nearest_eq_power hbits hden he hunder hlow
    · have hwhole : 4 * (s * 2 ^ e) * den = 4 * (s * 2 ^ e * den) := by ring
      have hstep : 0 < 2 ^ e * den := by positivity
      have hhalf : 2 * 2 ^ e * den = 2 * (2 ^ e * den) := by ring
      refine nearest_eq_same hbits hden hs hfull (.inl hover) (by omega) hhigh fun h => ?_
      rcases h with h | h
      · omega
      · exact htie (.inr h)
  · rw [below, if_neg hpower] at hlow htie
    exact nearest_eq_same hbits hden hs hfull (.inr hpower) hlow hhigh htie

end

end Rounding

/-! ## 4. Singles of the format -/

namespace Single

/-- A single that exists: a finite one has 24 significant bits and stays below the limit. -/
def Valid : Single → Prop
  | .nan | .infinite _ => True
  | .finite _ units => Rounding.Fits precision units ∧ units < unitsLimit

@[simp] theorem valid_nan : nan.Valid := True.intro

@[simp] theorem valid_infinite (negative : Bool) : (infinite negative).Valid := True.intro

theorem pow_lt_unitsLimit {e : Nat} (h : e < 277) : 2 ^ e < unitsLimit := by
  unfold unitsLimit
  generalize 277 = limit at *
  exact Nat.pow_lt_pow_right (by omega) h

@[simp] theorem valid_finite_zero (negative : Bool) : (finite negative 0).Valid := by
  have hlimit : 2 ^ 0 < unitsLimit := pow_lt_unitsLimit (by omega)
  exact ⟨Rounding.fits_of_lt (by decide), by omega⟩

@[simp] theorem valid_ofRatio (negative : Bool) (num den : Nat) :
    (ofRatio negative num den).Valid := by
  have hfits : Rounding.Fits precision (Rounding.nearest precision num den) :=
    Rounding.fits_nearest (by decide) num den
  unfold ofRatio Valid
  generalize unitsLimit = limit
  by_cases h : Rounding.nearest precision num den < limit
  · rw [if_pos h]
    exact ⟨hfits, h⟩
  · rw [if_neg h]
    exact True.intro

theorem valid_one : one.Valid := ⟨Rounding.fits_pow (by decide) 149, pow_lt_unitsLimit (by omega)⟩

theorem valid_add (x y : Single) : (add x y).Valid := by
  unfold add
  dsimp only
  split
  all_goals (try split) <;> simp

theorem valid_mul (x y : Single) : (mul x y).Valid := by
  unfold mul
  split
  all_goals (try split) <;> simp

theorem valid_div (x y : Single) : (div x y).Valid := by
  unfold div
  split
  all_goals repeat' split
  all_goals simp

theorem valid_min {x y : Single} (hx : x.Valid) (hy : y.Valid) : (min x y).Valid := by
  unfold min
  repeat' split
  all_goals simp [hx, hy]

theorem valid_max {x y : Single} (hx : x.Valid) (hy : y.Valid) : (max x y).Valid := by
  unfold max
  repeat' split
  all_goals simp [hx, hy]

end Single

end HaloScript
