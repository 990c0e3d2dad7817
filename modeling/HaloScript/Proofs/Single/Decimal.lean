/-
# Singles read back what they write

A finite single is written with the fewest digits that still round to it.  That is a search over
grids of powers of ten, and two facts make it a round trip.  The search ends: the finest grid
has a point next to every single (`onGrid?_finest`).  And whatever point it stops at rounds to
the single, because the neighbourhood it lies in is the one of `Rounding.nearest_eq`
(`nearest_of_holds`).

The rest is text: digits, zeros and a point stand for the number they were written from
(`read?_positional`), with a sign in front or not.  Section 4 puts this together
(`real?_render`) and adds what truth values need: the text of a number that is not zero never
reads as the whole number zero (`long?_render`).
-/
import HaloScript.Constant.Basic
import HaloScript.Proofs.Collections
import HaloScript.Proofs.Single.Rounding

namespace HaloScript

open List Text

/-! ## 1. Digits -/

namespace Text

theorem isDigit_digit {n : Nat} (h : n < 10) : isDigit (digit n) = true := by
  have hcases : ∀ k : Fin 10, isDigit (digit k.val) = true := by decide
  exact hcases ⟨n, h⟩

theorem digitValue_digit {n : Nat} (h : n < 10) : digitValue (digit n) = n := by
  have hcases : ∀ k : Fin 10, digitValue (digit k.val) = k.val := by decide
  exact hcases ⟨n, h⟩

/-- A row of digits, with at least one. -/
def IsDigits (t : Text) : Prop := t ≠ [] ∧ ∀ b ∈ t, isDigit b = true

theorem isDigits_ofNat (n : Nat) : (ofNat n).IsDigits := by
  induction n using Nat.strongRecOn with
  | ind n ih =>
    unfold ofNat
    split
    · next h => exact ⟨by simp, by simpa using isDigit_digit h⟩
    · obtain ⟨_, hdigits⟩ := ih (n / 10) (by omega)
      refine ⟨by simp, fun b hb => ?_⟩
      rcases mem_append.1 hb with hb | hb
      · exact hdigits b hb
      · rw [mem_singleton.1 hb]
        exact isDigit_digit (Nat.mod_lt n (by omega))

theorem isDigit_of_mem_repeated_zero {n : Nat} {b : UInt8} (h : b ∈ repeated n 0x30) :
    isDigit b = true := by
  rw [eq_of_mem_replicate h]
  decide

end Text

namespace Decimal

theorem ofDigits_concat (t : Text) (b : UInt8) :
    ofDigits (t ++ [b]) = ofDigits t * 10 + digitValue b := by
  simp [ofDigits]

theorem ofDigits_ofNat (n : Nat) : ofDigits (ofNat n) = n := by
  induction n using Nat.strongRecOn with
  | ind n ih =>
    unfold ofNat
    split
    · next h => simp [ofDigits, digitValue_digit h]
    · rw [ofDigits_concat, ih (n / 10) (by omega),
        digitValue_digit (Nat.mod_lt n (by omega))]
      omega

theorem ofDigits_append_zeros (t : Text) (n : Nat) :
    ofDigits (t ++ repeated n 0x30) = ofDigits t * 10 ^ n := by
  induction n with
  | zero => simp [repeated]
  | succ n ih =>
    have hzero : digitValue 0x30 = 0 := by decide
    have hlast : t ++ repeated (n + 1) 0x30 = (t ++ repeated n 0x30) ++ [0x30] := by
      simp [repeated, replicate_succ']
    rw [hlast, ofDigits_concat, ih, hzero, pow_succ]
    ring

theorem ofDigits_zeros_append (t : Text) (n : Nat) :
    ofDigits (repeated n 0x30 ++ t) = ofDigits t := by
  have hzero : digitValue 0x30 = 0 := by decide
  have hzeros : ∀ n, (repeated n 0x30).foldl (fun n d => n * 10 + digitValue d) 0 = 0 := by
    intro n
    induction n with
    | zero => rfl
    | succ n ih =>
      simp only [repeated, replicate_succ, foldl_cons, hzero] at ih ⊢
      exact ih
  unfold ofDigits
  rw [foldl_append, hzeros]

end Decimal

/-! ## 2. The search over grids -/

namespace Single

theorem Neighbourhood.holds_iff (n : Neighbourhood) (k : Int) (m : Nat) :
    n.holds k m = true ↔
      if n.closed = true then
        n.low * 10 ^ (-k).toNat ≤ m * 10 ^ k.toNat * oneQuarters ∧
          m * 10 ^ k.toNat * oneQuarters ≤ n.high * 10 ^ (-k).toNat
      else
        n.low * 10 ^ (-k).toNat < m * 10 ^ k.toNat * oneQuarters ∧
          m * 10 ^ k.toNat * oneQuarters < n.high * 10 ^ (-k).toNat := by
  unfold holds
  split
  · simp only [Nat.pow_eq, Bool.and_eq_true, decide_eq_true_eq]
  · simp only [Nat.pow_eq, Bool.and_eq_true, decide_eq_true_eq]

theorem neighbourhood_eq {units s : Nat} (h : units = s * 2 ^ excessBits units) :
    neighbourhood units =
      ⟨4 * units - Rounding.below precision (excessBits units) s, 4 * units,
        4 * units + 2 * 2 ^ excessBits units, decide (s % 2 = 0)⟩ := by
  have hsignificand : units / 2 ^ excessBits units = s :=
    Nat.div_eq_of_eq_mul_left (by positivity) h
  unfold neighbourhood Rounding.below
  simp only [Nat.pow_eq, hsignificand]

/-- **What the neighbourhood of a single holds rounds to it.** -/
theorem nearest_of_holds {units : Nat} (hfits : Rounding.Fits precision units) (hpos : 0 < units)
    {k : Int} {m : Nat} (h : (neighbourhood units).holds k m = true) :
    Rounding.nearest precision (m * 10 ^ k.toNat * oneUnits) (10 ^ (-k).toNat) = units := by
  have hprecision : 0 < precision := by decide
  have hscale : 0 < 10 ^ (-k).toNat := by positivity
  have hpoint : m * 10 ^ k.toNat * oneQuarters = 4 * (m * 10 ^ k.toNat * oneUnits) := by
    unfold oneQuarters
    ring
  obtain ⟨s, hsplit, hs, hfull⟩ := hfits.split hprecision
  rw [neighbourhood_eq hsplit, Neighbourhood.holds_iff, hpoint] at h
  change units = s * 2 ^ excessBits units at hsplit
  change 0 < excessBits units → _ at hfull
  dsimp only at h
  generalize excessBits units = e at *
  generalize m * 10 ^ k.toNat * oneUnits = num at *
  generalize 10 ^ (-k).toNat = den at *
  have hbelow : Rounding.below precision e s * den ≤ 4 * units * den := by
    refine Nat.mul_le_mul_right _ ((Rounding.below_le precision e s).trans ?_)
    have hs0 : 0 < s := Nat.pos_of_ne_zero fun h0 => by simp [hsplit, h0] at hpos
    have : 1 * 2 ^ e ≤ s * 2 ^ e := Nat.mul_le_mul_right _ hs0
    omega
  rw [Nat.sub_mul] at h
  rw [hsplit] at h hbelow ⊢
  by_cases heven : s % 2 = 0
  · rw [if_pos (decide_eq_true heven)] at h
    refine Rounding.nearest_eq hprecision hscale hs hfull (by omega) h.2 fun _ => heven
  · rw [if_neg (by simp [heven])] at h
    exact Rounding.nearest_eq hprecision hscale hs hfull (by omega) h.2.le fun htie => by omega

namespace Neighbourhood

variable {n : Neighbourhood} {k : Int} {m : Nat}

theorem holds_of_onGrid? (h : n.onGrid? k = some m) : n.holds k m = true := by
  unfold onGrid? at h
  generalize n.centre * Nat.pow 10 (-k).toNat / (Nat.pow 10 k.toNat * oneQuarters) = p at h
  dsimp only at h
  split at h
  · next hleft hright =>
    split at h
    · exact Option.some.inj h ▸ hleft
    · exact Option.some.inj h ▸ hright
  · next hleft _ => exact Option.some.inj h ▸ hleft
  · next _ hright => exact Option.some.inj h ▸ hright
  · exact absurd h (by simp)

theorem onGrid?_isSome (h : n.holds k (n.centre * 10 ^ (-k).toNat /
    (10 ^ k.toNat * oneQuarters) + 1) = true) : (n.onGrid? k).isSome = true := by
  unfold onGrid?
  simp only [Nat.pow_eq, h]
  split
  · split <;> rfl
  · rfl
  · rfl
  · next hfalse => exact absurd hfalse (by simp)

end Neighbourhood

/-- The finest grid has a point within a quarter of a unit above every single. -/
theorem onGrid?_finest (units : Nat) : ((neighbourhood units).onGrid? (-55)).isSome = true := by
  apply Neighbourhood.onGrid?_isSome
  have hfine : oneQuarters ≤ 2 * 10 ^ 55 - 1 := by decide
  have hcentre : (neighbourhood units).centre = 4 * units := rfl
  have hlow : (neighbourhood units).low ≤ 4 * units := Nat.sub_le _ _
  have hhigh : 4 * units + 2 ≤ (neighbourhood units).high := by
    have : 1 ≤ 2 ^ excessBits units := Nat.one_le_two_pow
    show 4 * units + 2 ≤ 4 * units + 2 * 2 ^ excessBits units
    omega
  have hk : (-(-55 : Int)).toNat = 55 := rfl
  have hk' : (-55 : Int).toNat = 0 := rfl
  rw [Neighbourhood.holds_iff]
  simp only [hk, hk', hcentre, pow_zero, Nat.one_mul, Nat.mul_one]
  have hquarter : 0 < oneQuarters := by decide
  have hover : 4 * units * 10 ^ 55 < (4 * units * 10 ^ 55 / oneQuarters + 1) * oneQuarters := by
    rw [Nat.mul_comm (4 * units * 10 ^ 55 / oneQuarters + 1)]
    exact Nat.lt_mul_div_succ _ hquarter
  have hnear : (4 * units * 10 ^ 55 / oneQuarters + 1) * oneQuarters ≤
      4 * units * 10 ^ 55 + oneQuarters := by
    rw [Nat.add_mul, Nat.one_mul]
    have := Nat.div_mul_le_self (4 * units * 10 ^ 55) oneQuarters
    omega
  have hlow' : (neighbourhood units).low * 10 ^ 55 ≤ 4 * units * 10 ^ 55 :=
    Nat.mul_le_mul_right _ hlow
  have hhigh' : (4 * units + 2) * 10 ^ 55 ≤ (neighbourhood units).high * 10 ^ 55 :=
    Nat.mul_le_mul_right _ hhigh
  generalize (4 * units * 10 ^ 55 / oneQuarters + 1) * oneQuarters = point at *
  split
  · omega
  · omega

/-- The shortest decimal of a single rounds to it. -/
theorem nearest_shortest {units : Nat} (hfits : Rounding.Fits precision units)
    (hpos : 0 < units) :
    Rounding.nearest precision
      ((shortest units).1 * 10 ^ (shortest units).2.toNat * oneUnits)
      (10 ^ (-(shortest units).2).toNat) = units := by
  apply nearest_of_holds hfits hpos
  unfold shortest
  dsimp only
  cases hfound : gridExponents.findSome? fun k =>
      ((neighbourhood units).onGrid? k).map fun m => (m, k) with
  | none =>
    have hlast : (-55 : Int) ∈ gridExponents := by decide
    have hnone := findSome?_eq_none_iff.1 hfound (-55) hlast
    have hsome := onGrid?_finest units
    rw [Option.map_eq_none_iff.1 hnone] at hsome
    exact absurd hsome (by simp)
  | some found =>
    obtain ⟨k, _, hk⟩ := exists_of_findSome?_eq_some hfound
    obtain ⟨m, hm, rfl⟩ := Option.map_eq_some_iff.1 hk
    exact Neighbourhood.holds_of_onGrid? hm

end Single

/-! ## 3. Reading what was written -/

namespace Text

def StartsDigit (t : Text) : Prop := ∃ b rest, t = b :: rest ∧ isDigit b = true

theorem IsDigits.startsDigit {t : Text} (h : t.IsDigits) (u : Text) : (t ++ u).StartsDigit := by
  obtain ⟨hne, hall⟩ := h
  match t, hne, hall with
  | b :: rest, _, hall => exact ⟨b, rest ++ u, rfl, hall b (by simp)⟩

theorem ne_of_isDigit {b c : UInt8} (hb : isDigit b = true) (hc : isDigit c = false) : b ≠ c := by
  rintro rfl
  simp [hb] at hc

theorem lowerByte_digit {b : UInt8} (h : isDigit b = true) : lowerByte b = b := by
  simp only [isDigit, Bool.and_eq_true, decide_eq_true_eq, UInt8.le_iff_toNat_le] at h
  have h57 : (0x39 : UInt8).toNat = 57 := rfl
  have h65 : (0x41 : UInt8).toNat = 65 := rfl
  unfold lowerByte
  rw [if_neg]
  simp only [Bool.and_eq_true, decide_eq_true_eq, UInt8.le_iff_toNat_le]
  omega

theorem takeWhile_digits {t u : Text} (ht : ∀ b ∈ t, isDigit b = true)
    (hu : u.takeWhile isDigit = []) :
    (t ++ u).takeWhile isDigit = t ∧ (t ++ u).dropWhile isDigit = u.dropWhile isDigit := by
  rw [takeWhile_append_of_pos ht, dropWhile_append_of_pos ht, hu]
  simp

end Text

namespace Decimal

theorem takeSign_of_startsDigit {t : Text} (h : t.StartsDigit) : takeSign t = (false, t) := by
  obtain ⟨b, rest, rfl, hb⟩ := h
  have hplus : b ≠ plus := ne_of_isDigit hb (by decide)
  have hminus : b ≠ minus := ne_of_isDigit hb (by decide)
  unfold takeSign
  split
  · next h => exact absurd (List.cons.inj h).1 hplus
  · next h => exact absurd (List.cons.inj h).1 hminus
  · rfl

theorem read?_minus {t : Text} (h : t.StartsDigit) :
    read? (minus :: t) = (read? t).map fun d => { d with negative := true } := by
  have hsign : takeSign (minus :: t) = (true, t) := rfl
  unfold read?
  rw [hsign, takeSign_of_startsDigit h]
  simp only [apply_ite (Option.map _), Option.map_none, Option.map_map, Function.comp_def]

theorem read?_digits {t : Text} (h : t.IsDigits) : read? t = some ⟨false, ofDigits t, 0⟩ := by
  have hstart : t.StartsDigit := by simpa using h.startsDigit []
  obtain ⟨htake, hdrop⟩ := takeWhile_digits (u := []) h.2 rfl
  rw [append_nil] at htake hdrop
  unfold read?
  rw [takeSign_of_startsDigit hstart]
  simp [htake, hdrop, readExponent?, h.1]

theorem read?_point {whole fraction : Text} (h : whole.IsDigits)
    (hf : ∀ b ∈ fraction, isDigit b = true) :
    read? (whole ++ dot :: fraction) =
      some ⟨false, ofDigits (whole ++ fraction), -fraction.length⟩ := by
  have hdot : isDigit dot = false := by decide
  obtain ⟨htake, hdrop⟩ := takeWhile_digits (u := dot :: fraction) h.2 (by simp [hdot])
  obtain ⟨htake', hdrop'⟩ := takeWhile_digits (u := []) hf rfl
  rw [append_nil] at htake' hdrop'
  rw [dropWhile_cons_of_neg (by simp [hdot])] at hdrop
  have hpoint : read? (whole ++ dot :: fraction) =
      if whole.isEmpty && (fraction.takeWhile isDigit).isEmpty then none
      else (readExponent? (fraction.dropWhile isDigit)).map fun e =>
        ⟨false, ofDigits (whole ++ fraction.takeWhile isDigit),
          e - (fraction.takeWhile isDigit).length⟩ := by
    unfold read?
    rw [takeSign_of_startsDigit (h.startsDigit _)]
    dsimp only
    rw [htake, hdrop]
    rfl
  rw [hpoint, htake', hdrop']
  simp [readExponent?, h.1]

end Decimal

namespace Single

variable {units : Nat}

/-- The two forms of a decimal without an exponent. -/
theorem positional_cases (m : Nat) (k : Int) :
    (0 ≤ k ∧ (positional m k).IsDigits ∧
      Decimal.ofDigits (positional m k) = m * 10 ^ k.toNat) ∨
    ∃ whole fraction, k < 0 ∧ positional m k = whole ++ dot :: fraction ∧
      whole.IsDigits ∧ (∀ b ∈ fraction, isDigit b = true) ∧
      Decimal.ofDigits (whole ++ fraction) = m ∧ fraction.length = (-k).toNat := by
  obtain ⟨hne, hdigits⟩ := isDigits_ofNat m
  cases k with
  | ofNat zeros =>
    refine .inl ⟨Int.natCast_nonneg zeros, ⟨by simp [positional, hne], fun b hb => ?_⟩, ?_⟩
    · rcases mem_append.1 hb with hb | hb
      · exact hdigits b hb
      · exact isDigit_of_mem_repeated_zero hb
    · simp only [positional, Decimal.ofDigits_append_zeros, Decimal.ofDigits_ofNat]
      rfl
  | negSucc n =>
    have hplaces : (-(Int.negSucc n)).toNat = n + 1 := rfl
    have hdot : ("." : Text) = [dot] := by decide
    generalize hpadded :
      repeated (n + 1 + 1 - (ofNat m).length) 0x30 ++ ofNat m = digits
    have hlength : n + 2 ≤ digits.length := by
      rw [← hpadded]
      simp only [repeated, length_append, length_replicate]
      omega
    have hall : ∀ b ∈ digits, isDigit b = true := by
      intro b hb
      rw [← hpadded] at hb
      rcases mem_append.1 hb with hb | hb
      · exact isDigit_of_mem_repeated_zero hb
      · exact hdigits b hb
    have hwhole : digits.take (digits.length - (n + 1)) ≠ [] := by
      rw [ne_eq, ← length_eq_zero_iff, length_take]
      omega
    refine .inr ⟨digits.take (digits.length - (n + 1)), digits.drop (digits.length - (n + 1)),
      Int.negSucc_lt_zero n, ?_, ⟨hwhole, fun b hb => hall b (mem_of_mem_take hb)⟩,
      fun b hb => hall b (mem_of_mem_drop hb), ?_, ?_⟩
    · simp [positional, hpadded, hdot]
    · rw [take_append_drop, ← hpadded, Decimal.ofDigits_zeros_append,
        Decimal.ofDigits_ofNat]
    · rw [length_drop, hplaces]
      omega

theorem startsDigit_positional (m : Nat) (k : Int) : (positional m k).StartsDigit := by
  rcases positional_cases m k with ⟨-, h, -⟩ | ⟨whole, fraction, -, htext, h, -⟩
  · simpa using h.startsDigit []
  · rw [htext]
    exact h.startsDigit _

theorem mem_positional {m : Nat} {k : Int} {b : UInt8} (hb : b ∈ positional m k) :
    isDigit b = true ∨ b = dot := by
  rcases positional_cases m k with ⟨-, h, -⟩ | ⟨whole, fraction, -, htext, h, hf, -⟩
  · exact .inl (h.2 b hb)
  · rw [htext, mem_append, mem_cons] at hb
    rcases hb with hb | hb | hb
    · exact .inl (h.2 b hb)
    · exact .inr hb
    · exact .inl (hf b hb)

/-- A decimal without an exponent reads as the number it was written from. -/
theorem read?_positional (m : Nat) (k : Int) :
    ∃ d, Decimal.read? (positional m k) = some d ∧ d.negative = false ∧
      d.mantissa * 10 ^ d.exponent.toNat = m * 10 ^ k.toNat ∧
      (-d.exponent).toNat = (-k).toNat := by
  rcases positional_cases m k with ⟨hk, h, hvalue⟩ |
    ⟨whole, fraction, hk, htext, h, hf, hvalue, hlength⟩
  · refine ⟨_, Decimal.read?_digits h, rfl, ?_, ?_⟩
    · simpa using hvalue
    · simp only [Int.neg_zero, Int.toNat_zero]
      omega
  · refine ⟨_, htext ▸ Decimal.read?_point h hf, rfl, ?_, ?_⟩
    · have hnegative : k.toNat = 0 := by omega
      simp [hvalue, hnegative]
    · dsimp only
      omega

/-! ## 4. The round trip -/

/-- The number in decimal, without its sign. -/
def magnitude (units : Nat) : Text :=
  if units = 0 then "0" else positional (shortest units).1 (shortest units).2

theorem render_finite (negative : Bool) (units : Nat) :
    (finite negative units).render =
      if negative = true then minus :: magnitude units else magnitude units := by
  have hminus : ("-" : Text) = [minus] := by decide
  unfold render magnitude
  rw [hminus]
  rfl

theorem startsDigit_magnitude (units : Nat) : (magnitude units).StartsDigit := by
  unfold magnitude
  split
  · exact ⟨0x30, [], by decide, by decide⟩
  · exact startsDigit_positional _ _

theorem mem_magnitude {b : UInt8} (hb : b ∈ magnitude units) :
    isDigit b = true ∨ b = dot := by
  unfold magnitude at hb
  split at hb
  · have hzero : ("0" : Text) = [0x30] := by decide
    rw [hzero, mem_singleton] at hb
    exact .inl (by rw [hb]; decide)
  · exact mem_positional hb

theorem read?_magnitude (h : Rounding.Fits precision units) :
    ∃ d, Decimal.read? (magnitude units) = some d ∧ d.negative = false ∧
      Rounding.nearest precision (d.mantissa * 10 ^ d.exponent.toNat * oneUnits)
        (10 ^ (-d.exponent).toNat) = units := by
  rcases Nat.eq_zero_or_pos units with rfl | hpos
  · exact ⟨⟨false, 0, 0⟩, by decide, rfl, by decide⟩
  · obtain ⟨d, hread, hsign, hvalue, hscale⟩ :=
      read?_positional (shortest units).1 (shortest units).2
    refine ⟨d, ?_, hsign, ?_⟩
    · rwa [magnitude, if_neg (by omega)]
    · rw [hvalue, hscale]
      exact nearest_shortest h hpos

theorem read?_render {negative : Bool} {d : Decimal}
    (hread : Decimal.read? (magnitude units) = some d) (hsign : d.negative = false) :
    Decimal.read? (finite negative units).render =
      some { d with negative := negative } := by
  rw [render_finite]
  cases negative with
  | false =>
    rw [if_neg (by simp), hread, ← hsign]
  | true =>
    rw [if_pos rfl, Decimal.read?_minus (startsDigit_magnitude units), hread]
    rfl

theorem takeSign_render (negative : Bool) (units : Nat) :
    Decimal.takeSign (finite negative units).render = (negative, magnitude units) := by
  rw [render_finite]
  cases negative with
  | false =>
    rw [if_neg (by simp)]
    exact Decimal.takeSign_of_startsDigit (startsDigit_magnitude units)
  | true => rfl

theorem namesInfinity_magnitude (units : Nat) : namesInfinity (magnitude units) = false := by
  obtain ⟨b, rest, htext, hb⟩ := startsDigit_magnitude units
  have hinf : ("inf" : Text) = [0x69, 0x6e, 0x66] := by decide
  have hinfinity : ("infinity" : Text) = [0x69, 0x6e, 0x66, 0x69, 0x6e, 0x69, 0x74, 0x79] := by
    decide
  have hi : b ≠ 0x69 := ne_of_isDigit hb (by decide)
  rw [htext]
  simp [namesInfinity, hinf, hinfinity, lowerByte_digit hb, hi]

theorem render_cons (negative : Bool) (units : Nat) :
    ∃ b rest, (finite negative units).render = b :: rest ∧
      (isDigit b = true ∨ b = minus) ∧
      ∀ c ∈ rest, isDigit c = true ∨ c = dot := by
  rw [render_finite]
  cases negative with
  | false =>
    obtain ⟨b, rest, htext, hb⟩ := startsDigit_magnitude units
    refine ⟨b, rest, htext, .inl hb, fun c hc => ?_⟩
    have hmem : c ∈ magnitude units := by
      rw [htext]
      exact mem_cons_of_mem _ hc
    exact mem_magnitude hmem
  | true => exact ⟨minus, magnitude units, rfl, .inr rfl, fun c hc => mem_magnitude hc⟩

/-- **A finite single reads back from the text it is written as.** -/
theorem real?_render {x : Single} (hx : x.Valid) (hfinite : x.isFinite = true) :
    Reading.real? x.render = some x := by
  match x, hx, hfinite with
  | .finite negative units, hx, _ =>
    obtain ⟨hfits, hlimit⟩ := hx
    obtain ⟨d, hread, hsign, hvalue⟩ := read?_magnitude hfits
    obtain ⟨b, rest, htext, hb, hrest⟩ := render_cons negative units
    have hstarts : Reading.startsNumber (finite negative units).render = true := by
      rw [htext]
      rcases hb with hb | rfl
      · simp [Reading.startsNumber, hb]
      · rfl
    have hplain : (finite negative units).render.containsAny "xX_pP" = false := by
      have hset : ("xX_pP" : Text) = [0x78, 0x58, 0x5f, 0x70, 0x50] := by decide
      rw [htext, hset]
      simp only [containsAny, any_eq_false, contains_iff_mem]
      have hletters : ∀ c ∈ ([0x78, 0x58, 0x5f, 0x70, 0x50] : Text),
          isDigit c = false ∧ c ≠ minus ∧ c ≠ dot := by decide +kernel
      intro c hc hmem
      obtain ⟨hdigit, hminus, hdot⟩ := hletters c hmem
      rcases mem_cons.1 hc with rfl | hc
      · rcases hb with hb | hb
        · simp [hb] at hdigit
        · exact hminus hb
      · rcases hrest c hc with hb | hb
        · simp [hb] at hdigit
        · exact hdot hb
    have hnan : ((finite negative units).render.map lowerByte == ("nan" : Text)) = false := by
      have hword : ("nan" : Text) = [0x6e, 0x61, 0x6e] := by decide
      rw [htext, hword]
      have hn : lowerByte b ≠ 0x6e := by
        rcases hb with hb | rfl
        · rw [lowerByte_digit hb]
          exact ne_of_isDigit hb (by decide)
        · decide
      simp [hn]
    have hsingle : Decimal.toSingle { d with negative := negative } = .finite negative units := by
      simp only [Decimal.toSingle, ofRatio, Nat.pow_eq, hvalue, if_pos hlimit]
    unfold Reading.real? read?
    rw [hstarts, hplain, takeSign_render, hnan, read?_render hread hsign]
    simp [namesInfinity_magnitude, hsingle]

/-- The text of a number reads as the whole number zero only if the number is zero. -/
theorem int?_render {negative : Bool} (hfits : Rounding.Fits precision units) {n : Int}
    (h : Reading.int? (finite negative units).render = some n) : n = 0 ↔ units = 0 := by
  unfold Reading.int? at h
  rw [takeSign_render] at h
  dsimp only at h
  split at h
  · exact absurd h (by simp)
  · next hdigits =>
    simp only [Bool.or_eq_true, Bool.not_eq_true', not_or, Bool.not_eq_false] at hdigits
    have hrow : (magnitude units).IsDigits :=
      ⟨by simpa using hdigits.1, all_eq_true.1 hdigits.2⟩
    have hn : n = 0 ↔ Decimal.ofDigits (magnitude units) = 0 := by
      have := Option.some.inj h
      split at this <;> omega
    rw [hn]
    obtain ⟨d, hread, -, hvalue⟩ := read?_magnitude hfits
    rw [Decimal.read?_digits hrow] at hread
    obtain rfl := Option.some.inj hread
    constructor
    · intro hzero
      simp only [hzero, Nat.zero_mul] at hvalue
      rw [← hvalue]
      decide
    · rintro rfl
      decide

theorem isZero_finite (negative : Bool) (units : Nat) :
    (finite negative units).isZero = decide (units = 0) := by
  unfold isZero eq compare? zero signed
  cases negative <;> rcases Nat.eq_zero_or_pos units with rfl | h
  all_goals simp [compare, compareOfLessAndEq]
  all_goals grind

end Single

end HaloScript
