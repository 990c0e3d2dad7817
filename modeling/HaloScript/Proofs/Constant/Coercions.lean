/-
# Coercions agree

A constant is used as a long, a short, a real or a truth value, and each use tries its own readings
in its own order.  They agree all the same (`Const.coercions_agree`): a constant is a short exactly
if it is a long in the range of shorts, and whatever is a real is true exactly if it is not zero.

A word of digits is first read as a whole number, and only if this is out of range as a real.  The
real is rounded, but never back into the range, so the word stands for exactly one number or for
none (`Const.toLong?_integer`).  Words that are not numbers stay texts, except for the infinities
that have a sign (`Const.words_that_coerce`).
-/
import HaloScript.Proofs.Single.Numeral
import HaloScript.Proofs.Single.Whole

namespace HaloScript

open Option

/-! ## 1. Words that are whole numbers -/

namespace Reading

variable {t : Text} {n : Int}

theorem long?_map (t : Text) :
    (long? t).map Int64.toInt = (int? t).filter fun n => -2 ^ 63 ≤ n ∧ n ≤ 2 ^ 63 - 1 := by
  have hrange : Int64.minValue.toInt = -2 ^ 63 ∧ Int64.maxValue.toInt = 2 ^ 63 - 1 := by decide
  unfold long?
  rw [hrange.1, hrange.2, bind_ite_eq, map_map]
  refine map_filter_eq (fun n hn => ?_) _
  have hinside := of_decide_eq_true hn
  exact Int64.toInt_ofInt_of_le (by omega) (by omega)

theorem short?_map (t : Text) :
    (short? t).map Int16.toInt = (int? t).filter fun n => -32768 ≤ n ∧ n ≤ 32767 := by
  have hrange : Int16.minValue.toInt = -32768 ∧ Int16.maxValue.toInt = 32767 := by decide
  unfold short?
  rw [hrange.1, hrange.2, bind_ite_eq, map_map]
  refine map_filter_eq (fun n hn => ?_) _
  have hinside := of_decide_eq_true hn
  exact Int16.toInt_ofInt_of_le (by omega) (by omega)

theorem short?_map_long? (t : Text) : (short? t).map Int16.toInt =
    ((long? t).map Int64.toInt).filter fun n => -32768 ≤ n ∧ n ≤ 32767 := by
  rw [short?_map, long?_map, filter_filter_of_imp]
  intro n hn
  have hinside := of_decide_eq_true hn
  exact decide_eq_true (by omega)

theorem int?_of_long? {n : Int64} (h : long? t = some n) : int? t = some n.toInt := by
  have hmap := long?_map t
  rw [h, map_some] at hmap
  exact (filter_eq_some_iff.mp hmap.symm).1

theorem exists_whole_of_real? (hn : int? t = some n) {x : Single} (hx : real? t = some x) :
    ∃ negative, x = Single.whole negative n.natAbs := by
  obtain ⟨negative, hspelled⟩ := (int?_eq_some_iff.mp hn).spelled
  have hsingle : Decimal.toSingle ⟨negative, n.natAbs, 0⟩ = Single.whole negative n.natAbs := by
    simp [Decimal.toSingle, Single.whole]
  rw [real?_of_spelled hspelled, hsingle] at hx
  split at hx
  · exact ⟨negative, (some.inj hx).symm⟩
  · cases hx

end Reading

namespace Const

/-! ## 2. Shorts are longs in range -/

section

variable {t : Text} {n : Int64}

theorem toLong?_of_long? (h : Reading.long? t = some n) : (atom t).toLong? = some n := by
  rw [toLong?, h]
  rfl

theorem toLong?_of_none (h : Reading.long? t = none) :
    (atom t).toLong? = (Reading.real? t).bind Single.toLong? := by
  rw [toLong?, h]
  rfl

theorem toShort?_of_long? (h : Reading.long? t = some n) :
    (atom t).toShort? = Reading.short? t := by
  rw [toShort?, h]
  cases Reading.short? t <;> rfl

theorem toShort?_of_none (h : Reading.long? t = none) :
    (atom t).toShort? = (Reading.real? t).bind Single.toShort? := by
  have hshort : Reading.short? t = none := by simpa [h] using Reading.short?_map_long? t
  rw [toShort?, h, hshort]

end

/-- **A constant is a short exactly if it is a long in the range of shorts.** -/
theorem toShort?_map (c : Const) : c.toShort?.map Int16.toInt =
    (c.toLong?.map Int64.toInt).filter fun n => -32768 ≤ n ∧ n ≤ 32767 := by
  cases c with
  | void => rfl
  | bool => rfl
  | short n =>
    have hlow := n.le_toInt
    have hhigh := n.toInt_lt
    rw [toShort?, toLong?, map_some, map_some, Int16.toInt_toInt64,
      filter_some, if_pos (decide_eq_true (by omega))]
  | long n =>
    have hrange : Int16.minValue.toInt = -32768 ∧ Int16.maxValue.toInt = 32767 := by decide
    rw [toShort?, toLong?, map_some, filter_some, hrange.1, hrange.2]
    by_cases h : -32768 ≤ n.toInt ∧ n.toInt ≤ 32767
    · rw [if_pos h.symm, if_pos (decide_eq_true h), map_some, Int64.toInt_toInt16,
        Int.bmod_eq_of_le (by omega) (by omega)]
    · rw [if_neg (fun h' => h h'.symm), if_neg (by simpa using h)]
      rfl
  | real x => exact x.toShort?_map_toLong?
  | atom t =>
    cases hlong : Reading.long? t with
    | some =>
      rw [toShort?_of_long? hlong, toLong?_of_long? hlong, ← hlong]
      exact Reading.short?_map_long? t
    | none =>
      rw [toShort?_of_none hlong, toLong?_of_none hlong]
      cases Reading.real? t with
      | none => rfl
      | some x =>
        rw [bind_some, bind_some]
        exact x.toShort?_map_toLong?

/-! ## 3. Reals are true if they are not zero -/

theorem bne_zero_long (n : Int64) : (n != 0) = !decide (n.toInt = 0) := by
  have hzero : n = 0 ↔ n.toInt = 0 := by
    rw [← Int64.toInt_inj, Int64.toInt_zero]
  simp [bne, beq_eq_decide, hzero]

theorem bne_zero_short (n : Int16) : (n != 0) = !decide (n.toInt = 0) := by
  have hzero : n = 0 ↔ n.toInt = 0 := by
    rw [← Int16.toInt_inj, Int16.toInt_zero]
  simp [bne, beq_eq_decide, hzero]

/-- **What is a real is true exactly if it is not zero.**  A word of digits is not asked as a real,
but zero is the only whole number that is rounded to zero. -/
theorem toBool?_of_toReal? {c : Const} {x : Single} (h : c.toReal? = some x) :
    c.toBool? = some !x.isZero := by
  cases c with
  | void => cases h
  | bool => cases h
  | real =>
    obtain rfl := some.inj h
    rfl
  | long =>
    obtain rfl := some.inj h
    rw [Single.isZero_ofInt, toBool?, bne_zero_long]
  | short =>
    obtain rfl := some.inj h
    rw [Single.isZero_ofInt, toBool?, bne_zero_short]
  | atom t =>
    rw [toReal?] at h
    rw [toBool?, h]
    cases hlong : Reading.long? t with
    | none => rfl
    | some =>
      obtain ⟨negative, hx⟩ := Reading.exists_whole_of_real? (Reading.int?_of_long? hlong) h
      dsimp only
      rw [hx, Single.isZero_whole, bne_zero_long, decide_eq_decide.mpr Int.natAbs_eq_zero]

/-! ## 4. Words of digits -/

/-- **A word of digits is a long exactly if its number is one**, and then it is this number. -/
theorem toLong?_integer {t : Text} {n : Int} (h : Reading.Integer n t) :
    (atom t).toLong?.map Int64.toInt = if -2 ^ 63 ≤ n ∧ n ≤ 2 ^ 63 - 1 then some n else none := by
  have hint := Reading.int?_eq_some_iff.mpr h
  have hmap := Reading.long?_map t
  rw [hint, filter_some] at hmap
  by_cases hin : -2 ^ 63 ≤ n ∧ n ≤ 2 ^ 63 - 1
  · rw [if_pos (decide_eq_true hin)] at hmap
    obtain ⟨m, hlong, rfl⟩ := map_eq_some_iff.mp hmap
    rw [if_pos hin, toLong?_of_long? hlong, map_some]
  · rw [if_neg (by simpa using hin), map_eq_none_iff] at hmap
    rw [if_neg hin, toLong?_of_none hmap, map_eq_none_iff]
    cases hreal : Reading.real? t with
    | none => rfl
    | some x =>
      -- rounding keeps the number where it is, outside
      have hbeyond : 2 ^ 63 ≤ n.natAbs := by omega
      obtain ⟨negative, hx⟩ := Reading.exists_whole_of_real? hint hreal
      rw [bind_some, hx, Single.toLong?_whole hbeyond]

/-- The greatest long with leading zeros, and the number below the least long. -/
theorem toLong?_integer_edges :
    (Reading.Integer (2 ^ 63 - 1) "+0009223372036854775807" ∧
      Reading.Integer (-2 ^ 63 - 1) "-9223372036854775809") ∧
    (atom "+0009223372036854775807").toLong?.map Int64.toInt = some (2 ^ 63 - 1) ∧
      (atom "-9223372036854775809").toLong?.map Int64.toInt = none := by
  have hgreatest : Reading.Integer (2 ^ 63 - 1) "+0009223372036854775807" :=
    Reading.int?_eq_some_iff.mp (by decide +kernel)
  have hbelow : Reading.Integer (-2 ^ 63 - 1) "-9223372036854775809" :=
    Reading.int?_eq_some_iff.mp (by decide +kernel)
  refine ⟨⟨hgreatest, hbelow⟩, ?_, ?_⟩
  · rw [toLong?_integer hgreatest, if_pos (by decide)]
  · rw [toLong?_integer hbelow, if_neg (by decide)]

/-! ## 5. Agreement -/

/-- **The coercions agree with each other.**  A constant is a short exactly if it is a long within
the bounds of a short, and the same number then; and a real is a truth value, true unless it is a
zero. -/
theorem coercions_agree (c : Const) :
    (∀ n : Int, c.toShort?.map Int16.toInt = some n ↔
      c.toLong?.map Int64.toInt = some n ∧ -32768 ≤ n ∧ n ≤ 32767) ∧
    ∀ x : Single, c.toReal? = some x →
      ∃ b, c.toBool? = some b ∧ (b = true ↔ ∀ negative, x ≠ .finite negative 0) := by
  constructor
  · intro n
    rw [toShort?_map, filter_eq_some_iff, decide_eq_true_eq]
  · intro x hx
    refine ⟨_, toBool?_of_toReal? hx, ?_⟩
    rw [Bool.not_eq_true', ← Bool.not_eq_true, Single.isZero_iff, not_exists]

/-- A real below the least short, which it becomes when the fraction is cut off. -/
theorem coercions_agree_edge :
    ((atom "-32768.5").toLong?.map Int64.toInt = some (-32768) ∧
      (atom "-32768.5").toReal? = some (.finite true (65537 * 2 ^ 148))) ∧
    (atom "-32768.5").toShort?.map Int16.toInt = some (-32768) ∧
      ∃ b, (atom "-32768.5").toBool? = some b ∧
        (b = true ↔ ∀ negative, Single.finite true (65537 * 2 ^ 148) ≠ .finite negative 0) := by
  have hlong : (atom "-32768.5").toLong?.map Int64.toInt = some (-32768) := by decide +kernel
  have hreal : (atom "-32768.5").toReal? = some (.finite true (65537 * 2 ^ 148)) := by
    decide +kernel
  obtain ⟨hshort, hbool⟩ := coercions_agree (atom "-32768.5")
  exact ⟨⟨hlong, hreal⟩, (hshort _).mpr ⟨hlong, by decide, by decide⟩, hbool _ hreal⟩

/-! ## 6. Words that stay texts -/

/-- **Which words are numbers.**  A word is a real exactly if it is a numeral whose number is not
too large, or the name of an infinity with a sign in front; in particular none is `nan`.  A word
that is neither is no number in any use. -/
theorem words_that_coerce (t : Text) :
    (∀ x : Single, (atom t).toReal? = some x ↔
      (∃ d : Decimal, d.Spelled t ∧ d.toSingle = x ∧ x.isFinite = true) ∨
        ∃ negative, Single.SignedInfinity negative t ∧ x = .infinite negative) ∧
    ((∀ d : Decimal, ¬ d.Spelled t) → (∀ negative, ¬ Single.SignedInfinity negative t) →
      (atom t).toLong? = none ∧ (atom t).toShort? = none ∧ (atom t).toReal? = none ∧
        (atom t).isNotText = (Reading.bool? t).isSome) := by
  refine ⟨fun x => Reading.real?_eq_some_iff, fun hspelled hinfinity => ?_⟩
  have hreal : Reading.real? t = none := by
    refine eq_none_iff_forall_ne_some.mpr fun x hx => ?_
    rcases Reading.real?_eq_some_iff.mp hx with ⟨d, hd, -⟩ | ⟨negative, ht, -⟩
    · exact hspelled d hd
    · exact hinfinity negative ht
  have hlong : Reading.long? t = none := by
    refine eq_none_iff_forall_ne_some.mpr fun n hn => ?_
    obtain ⟨negative, hd⟩ := (Reading.int?_eq_some_iff.mp (Reading.int?_of_long? hn)).spelled
    exact hspelled _ hd
  refine ⟨?_, ?_, hreal, ?_⟩
  · rw [toLong?_of_none hlong, hreal]
    rfl
  · rw [toShort?_of_none hlong, hreal]
    rfl
  · rw [isNotText, toReal?, toBool?, hlong, hreal]
    rfl

/-- A number of another notation, which stays a text, and an infinity that does not. -/
theorem words_that_coerce_samples :
    ((∀ d : Decimal, ¬ d.Spelled "0x1p-2") ∧
      ∀ negative, ¬ Single.SignedInfinity negative "0x1p-2") ∧
    ((atom "0x1p-2").toLong? = none ∧ (atom "0x1p-2").toShort? = none ∧
      (atom "0x1p-2").toReal? = none ∧
      (atom "0x1p-2").isNotText = (Reading.bool? "0x1p-2").isSome) ∧
    (Single.SignedInfinity false "+inf" ∧ (atom "+inf").toReal? = some (.infinite false)) := by
  have hspelled : ∀ d : Decimal, ¬ d.Spelled "0x1p-2" := by
    intro d hd
    have hread : Decimal.read? "0x1p-2" = none := by decide +kernel
    exact some_ne_none d ((Decimal.read?_eq_some_iff.mpr hd).symm.trans hread)
  have hinfinity : ∀ negative, ¬ Single.SignedInfinity negative "0x1p-2" := by
    intro negative ht
    have hreal : Reading.real? "0x1p-2" = none := by decide +kernel
    exact some_ne_none _ ((Reading.real?_of_signedInfinity ht).symm.trans hreal)
  have hplus : Single.SignedInfinity false "+inf" :=
    .intro .plus (by decide) (by decide : Single.namesInfinity "inf" = true)
  exact ⟨⟨hspelled, hinfinity⟩, (words_that_coerce "0x1p-2").2 hspelled hinfinity, hplus,
    ((words_that_coerce "+inf").1 _).mpr (.inr ⟨false, hplus, rfl⟩)⟩

end Const

end HaloScript
