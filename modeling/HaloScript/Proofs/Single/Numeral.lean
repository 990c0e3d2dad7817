/-
# Numerals

Which words are numbers.  A numeral is an optional sign, digits with at most one point among them,
and an optional exponent (`Decimal.Spelled`).  Reading accepts exactly the numerals
(`Decimal.read?_eq_some_iff`), and a word is used as a real exactly if it is a numeral whose number
is not too large for a single, with one exception (`Reading.real?_eq_some_iff`): the name of an
infinity is kept from being a number only by its first letter, so with a sign in front it is one.
-/
import HaloScript.Proofs.Single.Decimal
import Mathlib.Data.List.Induction
import Mathlib.Data.Nat.Digits.Defs

namespace HaloScript

open List Single Text

/-! ## 1. The grammar -/

/-- An optional sign, and whether it is a minus. -/
inductive Text.Sign : Bool → Text → Prop
  | absent : Sign false []
  | plus : Sign false [plus]
  | minus : Sign true [minus]

namespace Decimal

/-- Digits with at most one point among them: the number that they form without the point, and how
many of them follow it. -/
inductive Mantissa : Nat → Nat → Text → Prop
  | whole {digits : Text} (h : digits.IsDigits) : Mantissa (ofDigits digits) 0 digits
  | point {whole fraction : Text} (hdigits : (whole ++ fraction).IsDigits) :
    Mantissa (ofDigits (whole ++ fraction)) fraction.length (whole ++ dot :: fraction)

/-- An optional exponent. -/
inductive Exponent : Int → Text → Prop
  | absent : Exponent 0 []
  | marked {mark : UInt8} {negative : Bool} {sign digits : Text}
    (hmark : mark = 0x65 ∨ mark = 0x45) (hsign : Sign negative sign)
    (hdigits : digits.IsDigits) :
    Exponent (signed negative (exponentValue digits)) (mark :: (sign ++ digits))

/-- The text is a numeral for the number. -/
inductive Spelled : Decimal → Text → Prop
  | intro {negative : Bool} {sign mantissa exponent : Text} {m places : Nat} {e : Int}
    (hsign : Sign negative sign) (hmantissa : Mantissa m places mantissa)
    (hexponent : Exponent e exponent) :
    Spelled ⟨negative, m, e - places⟩ (sign ++ mantissa ++ exponent)

/-! ## 2. Signs -/

variable {negative : Bool} {sign rest t : Text}

/-- A text that begins with a digit or a point. -/
def StartsMantissa (t : Text) : Prop :=
  ∃ b rest, t = b :: rest ∧ (isDigit b = true ∨ b = dot)

theorem takeSign_append (hsign : Sign negative sign) (h : StartsMantissa rest) :
    takeSign (sign ++ rest) = (negative, rest) := by
  cases hsign with
  | plus => rfl
  | minus => rfl
  | absent =>
    obtain ⟨b, rest, rfl, hb | rfl⟩ := h
    · exact takeSign_of_startsDigit ⟨b, rest, rfl, hb⟩
    · rfl

theorem exists_sign (t : Text) :
    ∃ sign, Sign (takeSign t).1 sign ∧ t = sign ++ (takeSign t).2 := by
  unfold takeSign
  split
  · exact ⟨_, .plus, rfl⟩
  · exact ⟨_, .minus, rfl⟩
  · exact ⟨_, .absent, rfl⟩

end Decimal

namespace Text

theorem isDigits_iff {t : Text} : t.IsDigits ↔ (t.isEmpty || !t.all isDigit) = false := by
  simp [IsDigits]

theorem lowerByte_eq_e : ∀ b : UInt8, lowerByte b = 0x65 ↔ b = 0x65 ∨ b = 0x45 :=
  forall_byte (by decide +kernel)

end Text

namespace Decimal

variable {negative : Bool} {t : Text} {m places : Nat} {e : Int} {d : Decimal}

theorem startsMantissa_digits {digits : Text} (h : digits.IsDigits) (t : Text) :
    StartsMantissa (digits ++ t) := by
  obtain ⟨b, rest, htext, hb⟩ := h.startsDigit t
  exact ⟨b, rest, htext, .inl hb⟩

theorem startsMantissa_point {whole : Text} (h : ∀ b ∈ whole, isDigit b = true) (t : Text) :
    StartsMantissa (whole ++ dot :: t) := by
  cases whole with
  | nil => exact ⟨_, _, rfl, .inr rfl⟩
  | cons b => exact ⟨b, _, rfl, .inl (h b mem_cons_self)⟩

theorem Mantissa.starts (h : Mantissa m places t) (u : Text) : StartsMantissa (t ++ u) := by
  cases h with
  | whole h => exact startsMantissa_digits h u
  | point h =>
    rw [append_assoc]
    exact startsMantissa_point (fun b hb => h.2 b (mem_append_left _ hb)) _

theorem Mantissa.mem (h : Mantissa m places t) {b : UInt8} (hb : b ∈ t) :
    isDigit b = true ∨ b = dot := by
  cases h with
  | whole h => exact .inl (h.2 b hb)
  | point h =>
    rcases mem_append.mp hb with hb | hb
    · exact .inl (h.2 b (mem_append_left _ hb))
    · rcases mem_cons.mp hb with rfl | hb
      · exact .inr rfl
      · exact .inl (h.2 b (mem_append_right _ hb))

/-! ## 3. Exponents -/

/-- An exponent is read exactly if it is spelled as one; no text has two. -/
theorem readExponent?_eq_some_iff : readExponent? t = some e ↔ Exponent e t := by
  constructor
  · intro h
    cases t with
    | nil =>
      obtain rfl := Option.some.inj h
      exact .absent
    | cons mark rest =>
      obtain ⟨sign, hsign, hrest⟩ := exists_sign rest
      rw [readExponent?] at h
      split at h
      · next hmark =>
        dsimp only at h
        split at h
        · cases h
        · next hdigits =>
          rw [hrest, ← Option.some.inj h]
          exact .marked ((lowerByte_eq_e mark).mp (by simpa using hmark)) hsign
            (isDigits_iff.mpr (by simpa using hdigits))
      · cases h
  · intro h
    cases h with
    | absent => rfl
    | @marked mark negative sign digits hmark hsign hdigits =>
      have hstart : StartsMantissa digits := by simpa using startsMantissa_digits hdigits []
      rw [readExponent?, if_pos (by simpa using (lowerByte_eq_e mark).mpr hmark),
        takeSign_append hsign hstart]
      dsimp only
      rw [if_neg (by simpa using isDigits_iff.mp hdigits)]
      rfl

theorem Exponent.starts (h : Exponent e t) : t.takeWhile isDigit = [] ∧
    t.dropWhile isDigit = t ∧ t.head? ≠ some dot := by
  cases h with
  | absent => exact ⟨rfl, rfl, nofun⟩
  | marked hmark =>
    rcases hmark with rfl | rfl
    · exact ⟨rfl, rfl, fun h => absurd (Option.some.inj h) (by decide)⟩
    · exact ⟨rfl, rfl, fun h => absurd (Option.some.inj h) (by decide)⟩

/-! ## 4. Reading accepts numerals -/

/-- What is read as a decimal is spelled as one: the reader accepts nothing that the grammar
lacks. -/
theorem spelled_of_read? (h : read? t = some d) : d.Spelled t := by
  obtain ⟨sign, hsign, ht⟩ := exists_sign t
  unfold read? at h
  generalize takeSign t = signed at *
  obtain ⟨negative, rest⟩ := signed
  dsimp only at *
  have hwhole : ∀ b ∈ rest.takeWhile isDigit, isDigit b = true :=
    all_eq_true.mp all_takeWhile
  have hrest := takeWhile_append_dropWhile (p := isDigit) (l := rest)
  generalize rest.takeWhile isDigit = whole at *
  generalize rest.dropWhile isDigit = tail at *
  rw [ht, ← hrest]
  split at h
  · next after =>
    have hfraction : ∀ b ∈ after.takeWhile isDigit, isDigit b = true :=
      all_eq_true.mp all_takeWhile
    have hafter := takeWhile_append_dropWhile (p := isDigit) (l := after)
    generalize after.takeWhile isDigit = fraction at *
    generalize after.dropWhile isDigit = exponent at *
    split at h
    · cases h
    · next hne =>
      obtain ⟨e, he, rfl⟩ := Option.map_eq_some_iff.mp h
      have hdigits : IsDigits (whole ++ fraction) := by
        refine ⟨fun hnil => hne (by simpa using hnil), fun b hb => ?_⟩
        exact (mem_append.mp hb).elim (hwhole b) (hfraction b)
      have hspelled := Spelled.intro hsign (.point hdigits) (readExponent?_eq_some_iff.mp he)
      rw [← hafter]
      simpa using hspelled
  · split at h
    · cases h
    · next hne =>
      obtain ⟨e, he, rfl⟩ := Option.map_eq_some_iff.mp h
      have hdigits : IsDigits whole := ⟨by simpa using hne, hwhole⟩
      have hspelled := Spelled.intro hsign (.whole hdigits) (readExponent?_eq_some_iff.mp he)
      simpa using hspelled

/-- Reading on from a point. -/
theorem read?_at_point {sign whole : Text} (hsign : Sign negative sign)
    (hwhole : ∀ b ∈ whole, isDigit b = true) (after : Text) :
    read? (sign ++ (whole ++ dot :: after)) =
      let fraction := after.takeWhile isDigit
      if whole.isEmpty && fraction.isEmpty then none
      else (readExponent? (after.dropWhile isDigit)).map fun e =>
        ⟨negative, ofDigits (whole ++ fraction), e - fraction.length⟩ := by
  obtain ⟨htake, hdrop⟩ := takeWhile_digits (u := dot :: after) hwhole rfl
  unfold read?
  rw [takeSign_append hsign (startsMantissa_point hwhole after)]
  dsimp only
  rw [htake, hdrop]
  rfl

/-- Whatever is spelled as a decimal is read as this decimal.  The grammar leaves no choice, so the
reader never has to go back. -/
theorem read?_of_spelled (h : d.Spelled t) : read? t = some d := by
  obtain @⟨negative, sign, mantissa, exponent, m, places, e, hsign, hmantissa, hexponent⟩ := h
  have he := readExponent?_eq_some_iff.mpr hexponent
  obtain ⟨htake, hdrop, hdot⟩ := hexponent.starts
  rw [append_assoc]
  cases hmantissa with
  | whole hdigits =>
    obtain ⟨hwhole, hrest⟩ := takeWhile_digits hdigits.2 htake
    unfold read?
    rw [takeSign_append hsign (startsMantissa_digits hdigits exponent)]
    dsimp only
    rw [hwhole, hrest, hdrop]
    split
    · exact absurd rfl hdot
    · simp [hdigits.1, he]
  | @point whole fraction hdigits =>
    have hwhole : ∀ b ∈ whole, isDigit b = true :=
      fun b hb => hdigits.2 b (mem_append_left _ hb)
    have hfraction : ∀ b ∈ fraction, isDigit b = true :=
      fun b hb => hdigits.2 b (mem_append_right _ hb)
    obtain ⟨htakeFraction, hdropFraction⟩ := takeWhile_digits hfraction htake
    have hempty : (whole.isEmpty && fraction.isEmpty) = false := by simpa using hdigits.1
    rw [append_assoc, cons_append, read?_at_point hsign hwhole]
    dsimp only
    rw [htakeFraction, hdropFraction, hdrop, hempty, he]
    rfl

/-- **Reading accepts exactly the numerals**, with the number that they spell. -/
theorem read?_eq_some_iff : read? t = some d ↔ d.Spelled t := ⟨spelled_of_read?, read?_of_spelled⟩

end Decimal

/-! ## 5. Words that are reals -/

namespace Decimal

variable {negative : Bool} {t : Text} {e : Int} {d : Decimal} {b : UInt8}

/-- The bytes that numerals are made of. -/
def IsNumeralByte (b : UInt8) : Prop :=
  isDigit b = true ∨ b ∈ [dot, plus, minus, 0x65, 0x45]

instance : DecidablePred IsNumeralByte := fun _ => inferInstanceAs (Decidable (_ ∨ _))

theorem isNumeralByte_sign (h : Sign negative t) (hb : b ∈ t) : IsNumeralByte b := by
  cases h with
  | absent => cases hb
  | plus =>
    obtain rfl := mem_singleton.mp hb
    decide
  | minus =>
    obtain rfl := mem_singleton.mp hb
    decide

theorem isNumeralByte_exponent (h : Exponent e t) (hb : b ∈ t) : IsNumeralByte b := by
  cases h with
  | absent => cases hb
  | marked hmark hsign hdigits =>
    rcases mem_cons.mp hb with rfl | hb
    · rcases hmark with rfl | rfl <;> decide
    · rcases mem_append.mp hb with hb | hb
      · exact isNumeralByte_sign hsign hb
      · exact .inl (hdigits.2 b hb)

theorem Spelled.isNumeralByte (h : d.Spelled t) (hb : b ∈ t) : IsNumeralByte b := by
  cases h with
  | intro hsign hmantissa hexponent =>
    rcases mem_append.mp hb with hb | hb
    · rcases mem_append.mp hb with hb | hb
      · exact isNumeralByte_sign hsign hb
      · rcases hmantissa.mem hb with hb | rfl
        · exact .inl hb
        · decide
    · exact isNumeralByte_exponent hexponent hb

end Decimal

namespace Single

/-- The name of an infinity with a sign in front. -/
inductive SignedInfinity : Bool → Text → Prop
  | intro {negative : Bool} {sign name : Text} (hsign : Sign negative sign) (hne : sign ≠ [])
    (hname : namesInfinity name = true) : SignedInfinity negative (sign ++ name)

theorem namesInfinity_iff {t : Text} : namesInfinity t = true ↔
    t.map lowerByte = [0x69, 0x6e, 0x66] ∨
      t.map lowerByte = [0x69, 0x6e, 0x66, 0x69, 0x6e, 0x69, 0x74, 0x79] := by
  have hshort : ("inf" : Text) = [0x69, 0x6e, 0x66] := by decide
  have hlong : ("infinity" : Text) = [0x69, 0x6e, 0x66, 0x69, 0x6e, 0x69, 0x74, 0x79] := by decide
  simp only [namesInfinity, hshort, hlong, Bool.or_eq_true, beq_iff_eq]

theorem lowerByte_mem_of_namesInfinity {t : Text} (h : namesInfinity t = true) {b : UInt8}
    (hb : b ∈ t) : lowerByte b ∈ [0x69, 0x6e, 0x66, 0x74, 0x79] := by
  have hmem : lowerByte b ∈ t.map lowerByte := mem_map_of_mem hb
  rcases namesInfinity_iff.mp h with h | h
  · rw [h] at hmem
    revert hmem
    exact forall_byte (p := fun c => c ∈ [0x69, 0x6e, 0x66] → c ∈ _) (by decide +kernel) _
  · rw [h] at hmem
    revert hmem
    exact forall_byte
      (p := fun c => c ∈ [0x69, 0x6e, 0x66, 0x69, 0x6e, 0x69, 0x74, 0x79] → c ∈ _)
      (by decide +kernel) _

end Single

namespace Reading

variable {t : Text} {x : Single} {negative : Bool} {d : Decimal}

theorem exists_of_startsNumber (h : startsNumber t = true) :
    ∃ b rest, t = b :: rest ∧ lowerByte b ∉ [0x69, 0x6e] := by
  cases t with
  | nil => cases h
  | cons b rest =>
    refine ⟨b, rest, rfl, ?_⟩
    revert h
    exact forall_byte (p := fun b => (isDigit b || b == minus || b == plus ||
      b == dot) = true → lowerByte b ∉ [0x69, 0x6e]) (by decide +kernel) b

theorem namesInfinity_of_startsNumber (h : startsNumber t = true) :
    namesInfinity t = false := by
  obtain ⟨b, rest, rfl, hb⟩ := exists_of_startsNumber h
  rw [← Bool.not_eq_true, namesInfinity_iff]
  rintro (heq | heq)
  · simp [(List.cons.inj heq).1] at hb
  · simp [(List.cons.inj heq).1] at hb

theorem ne_nan_of_startsNumber (h : startsNumber t = true) :
    (t.map lowerByte == ("nan" : Text)) = false := by
  obtain ⟨b, rest, rfl, hb⟩ := exists_of_startsNumber h
  have hword : ("nan" : Text) = [0x6e, 0x61, 0x6e] := by decide
  rw [hword, beq_eq_false_iff_ne]
  intro heq
  simp [(List.cons.inj heq).1] at hb

theorem startsNumber_of_mantissa (h : Decimal.StartsMantissa t) : startsNumber t = true := by
  obtain ⟨b, rest, rfl, hb | rfl⟩ := h
  · simp [startsNumber, hb]
  · rfl

theorem containsAny_refused (h : ∀ b ∈ t, b ∉ [0x78, 0x58, 0x5f, 0x70, 0x50]) :
    t.containsAny "xX_pP" = false := by
  have hset : ("xX_pP" : Text) = [0x78, 0x58, 0x5f, 0x70, 0x50] := by decide
  rw [hset]
  simpa only [containsAny, any_eq_false, contains_iff_mem] using h

theorem not_refused_of_isNumeralByte : ∀ b : UInt8, Decimal.IsNumeralByte b →
    b ∉ [0x78, 0x58, 0x5f, 0x70, 0x50] :=
  forall_byte (by decide +kernel)

theorem not_refused_of_letter : ∀ b : UInt8, lowerByte b ∈ [0x69, 0x6e, 0x66, 0x74, 0x79] →
    b ∉ [0x78, 0x58, 0x5f, 0x70, 0x50] :=
  forall_byte (by decide +kernel)

/-- A numeral is a real, unless its number is too large. -/
theorem real?_of_spelled (h : d.Spelled t) :
    real? t = if d.toSingle.isFinite then some d.toSingle else none := by
  have hread := Decimal.read?_eq_some_iff.mpr h
  have hbytes : t.containsAny "xX_pP" = false :=
    containsAny_refused fun b hb => not_refused_of_isNumeralByte b (h.isNumeralByte hb)
  have hstarts : startsNumber t = true ∧ namesInfinity (Decimal.takeSign t).2 = false := by
    cases h with
    | @intro _ sign mantissa exponent _ _ _ hsign hmantissa =>
      have hstart := hmantissa.starts exponent
      rw [append_assoc, Decimal.takeSign_append hsign hstart]
      have hrest := startsNumber_of_mantissa hstart
      refine ⟨?_, namesInfinity_of_startsNumber hrest⟩
      cases hsign with
      | absent => exact hrest
      | plus => rfl
      | minus => rfl
  unfold real? read?
  rw [hstarts.1, hbytes, hread, ne_nan_of_startsNumber hstarts.1]
  cases hd : d.toSingle <;> simp [hstarts.2, hd, isFinite]

/-- **A signed name of an infinity is a real.** -/
theorem real?_of_signedInfinity (h : SignedInfinity negative t) :
    real? t = some (.infinite negative) := by
  cases h with | @intro sign name hsign hne hname => ?_
  have hbytes : (sign ++ name).containsAny "xX_pP" = false := by
    refine containsAny_refused fun b hb => ?_
    rcases mem_append.mp hb with hb | hb
    · exact not_refused_of_isNumeralByte b (Decimal.isNumeralByte_sign hsign hb)
    · exact not_refused_of_letter b (lowerByte_mem_of_namesInfinity hname hb)
  have hsplit : startsNumber (sign ++ name) = true ∧
      Decimal.takeSign (sign ++ name) = (negative, name) := by
    cases hsign with
    | absent => exact absurd rfl hne
    | plus => exact ⟨rfl, rfl⟩
    | minus => exact ⟨rfl, rfl⟩
  unfold real? read?
  rw [hsplit.1, hbytes, hsplit.2]
  simp [hname]

/-- **A word is a real exactly if it is a numeral** whose number is not too large for a single, or
the name of an infinity with a sign in front. -/
theorem real?_eq_some_iff : real? t = some x ↔
    (∃ d : Decimal, d.Spelled t ∧ d.toSingle = x ∧ x.isFinite = true) ∨
      ∃ negative, SignedInfinity negative t ∧ x = .infinite negative := by
  constructor
  · intro h
    unfold real? read? at h
    split at h
    · next hguard =>
      obtain ⟨hstarts, -⟩ := Bool.and_eq_true_iff.mp hguard
      obtain ⟨sign, hsign, ht⟩ := Decimal.exists_sign t
      rw [ne_nan_of_startsNumber hstarts] at h
      generalize Decimal.takeSign t = signed at *
      obtain ⟨negative, rest⟩ := signed
      dsimp only at *
      split at h
      · next hname =>
        -- without a sign, the word would begin with a letter
        have hne : sign ≠ [] := by
          rintro rfl
          rw [nil_append] at ht
          rw [← ht, namesInfinity_of_startsNumber hstarts] at hname
          cases hname
        refine .inr ⟨negative, ?_, (Option.some.inj h).symm⟩
        rw [ht]
        exact .intro hsign hne hname
      · split at h
        · next hnan => cases hnan
        · split at h
          · next s u hread =>
            obtain ⟨d, hd, hsingle⟩ := Option.map_eq_some_iff.mp hread
            obtain rfl := Option.some.inj h
            exact .inl ⟨d, Decimal.read?_eq_some_iff.mp hd, hsingle, rfl⟩
          · cases h
    · cases h
  · rintro (⟨d, hd, rfl, hfinite⟩ | ⟨negative, ht, rfl⟩)
    · rw [real?_of_spelled hd, if_pos hfinite]
    · exact real?_of_signedInfinity ht

/-! ## 6. Words that are whole numbers -/

/-- An optional sign and digits, and the number for which they stand. -/
inductive Integer : Int → Text → Prop
  | intro {negative : Bool} {sign digits : Text} (hsign : Sign negative sign)
    (hdigits : digits.IsDigits) :
    Integer (signed negative (Nat.ofDigits 10 (digits.map digitValue).reverse))
      (sign ++ digits)

theorem ofDigits_eq (digits : Text) :
    Decimal.ofDigits digits = Nat.ofDigits 10 (digits.map digitValue).reverse := by
  induction digits using List.reverseRecOn with
  | nil => rfl
  | append_singleton digits b ih =>
    rw [Decimal.ofDigits_concat, ih, map_append, reverse_append, map_singleton,
      reverse_singleton, singleton_append, Nat.ofDigits_cons]
    omega

/-- **A word reads as a whole number exactly if it is one.** -/
theorem int?_eq_some_iff {n : Int} : int? t = some n ↔ Integer n t := by
  constructor
  · intro h
    obtain ⟨sign, hsign, ht⟩ := Decimal.exists_sign t
    unfold int? at h
    generalize Decimal.takeSign t = signed at *
    obtain ⟨negative, digits⟩ := signed
    dsimp only at *
    split at h
    · cases h
    · next hdigits =>
      rw [ht, ← Option.some.inj h, ofDigits_eq]
      exact .intro hsign (isDigits_iff.mpr (by simpa using hdigits))
  · intro h
    cases h with
    | intro hsign hdigits =>
      have hstart := Decimal.startsMantissa_digits hdigits []
      rw [append_nil] at hstart
      unfold int?
      rw [Decimal.takeSign_append hsign hstart]
      dsimp only
      rw [if_neg (by simpa using isDigits_iff.mp hdigits), ofDigits_eq]
      rfl

theorem Integer.spelled {n : Int} (h : Integer n t) :
    ∃ negative, Decimal.Spelled ⟨negative, n.natAbs, 0⟩ t := by
  cases h with
  | @intro negative sign digits hsign hdigits =>
    have hspelled := Decimal.Spelled.intro hsign (.whole hdigits) .absent
    rw [append_nil, ofDigits_eq] at hspelled
    refine ⟨negative, ?_⟩
    cases negative with
    | false => simpa [signed] using hspelled
    | true => simpa [signed] using hspelled

end Reading

end HaloScript
