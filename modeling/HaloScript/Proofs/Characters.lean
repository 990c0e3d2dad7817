/-
# Texts that are UTF-8

A text is UTF-8 when it is made of the bytes of characters (`Text.IsUtf8`).  Then its pieces are
these characters and no byte of it is broken (`Text.pieces_encode`), each character has one byte
that does not continue a character (`Text.columns_encode`), and a text that is cut in two in front
of such a byte, or behind an ASCII byte, is cut between two characters (`Text.encode_edge`).
-/
import HaloScript.Proofs.Collections
import HaloScript.Proofs.Scanning.Places
import HaloScript.Report.Printed

namespace HaloScript

open List

namespace Text

variable {cs : List Char}

/-! ## 1. The bytes of a character -/

theorem continuation_byte : ∀ n < 64, isContinuation (UInt8.ofNat (n + 0x80)) = true ∧
    tailBits (UInt8.ofNat (n + 0x80)) = n := by decide

theorem ascii_byte : ∀ n < 0x80, UInt8.ofNat n < 0x80 ∧ (UInt8.ofNat n).toNat = n ∧
    isContinuation (UInt8.ofNat n) = false := by decide

theorem lead_two : ∀ n < 32, 2 ≤ n →
    ¬ UInt8.ofNat (n + 0xc0) < 0x80 ∧ isContinuation (UInt8.ofNat (n + 0xc0)) = false ∧
    (0xc2 ≤ UInt8.ofNat (n + 0xc0) && UInt8.ofNat (n + 0xc0) ≤ 0xdf) = true ∧
    (UInt8.ofNat (n + 0xc0) &&& 0x1f).toNat = n := by decide

theorem lead_three : ∀ n < 16,
    ¬ UInt8.ofNat (n + 0xe0) < 0x80 ∧ isContinuation (UInt8.ofNat (n + 0xe0)) = false ∧
    (0xc2 ≤ UInt8.ofNat (n + 0xe0) && UInt8.ofNat (n + 0xe0) ≤ 0xdf) = false ∧
    (UInt8.ofNat (n + 0xe0) &&& 0x0f).toNat = n := by decide

theorem lead_four : ∀ n < 8,
    ¬ UInt8.ofNat (n + 0xf0) < 0x80 ∧ isContinuation (UInt8.ofNat (n + 0xf0)) = false ∧
    (0xc2 ≤ UInt8.ofNat (n + 0xf0) && UInt8.ofNat (n + 0xf0) ≤ 0xdf) = false ∧
    (UInt8.ofNat (n + 0xf0) &&& 0x07).toNat = n := by decide

/-- The first two of three bytes, where the character is neither overlong nor a surrogate. -/
theorem startsThree_bytes : ∀ n < 16, ∀ k < 64, (n = 0 → 32 ≤ k) → (n = 13 → k < 32) →
    startsThree (UInt8.ofNat (n + 0xe0)) (UInt8.ofNat (k + 0x80)) = true := by decide +kernel

/-- The first two of four bytes, where the character is neither overlong nor too large. -/
theorem startsFour_bytes : ∀ n < 5, ∀ k < 64, (n = 0 → 16 ≤ k) → (n = 4 → k < 16) →
    startsThree (UInt8.ofNat (n + 0xf0)) (UInt8.ofNat (k + 0x80)) = false ∧
    startsFour (UInt8.ofNat (n + 0xf0)) (UInt8.ofNat (k + 0x80)) = true := by decide +kernel

/-- The bytes `a` and `tail` are read as the character `c`.  The first one does not continue a
character, all others do; if the first one is ASCII, there are no others. -/
structure Spells (c : Char) (a : UInt8) (tail : Text) : Prop where
  front : ∀ rest, frontChar a (tail ++ rest) = some (c, tail.length)
  lead : isContinuation a = false
  others : ∀ b ∈ tail, isContinuation b = true
  ascii : a < 0x80 → tail = []

section Spelling

variable {c : Char} {v : Nat} (hv : c.toNat = v)

include hv

theorem ofNat_eq {n : Nat} (hn : n = v) : Char.ofNat n = c := by rw [hn, ← hv, Char.ofNat_toNat]

theorem spells_one (hle : v ≤ 0x7f) : Spells c (UInt8.ofNat v) [] := by
  obtain ⟨hlt, hnat, hcont⟩ := ascii_byte v (by omega)
  refine ⟨fun rest => ?_, hcont, by simp, fun _ => rfl⟩
  simp only [frontChar, if_pos hlt, hnat, ofNat_eq hv rfl, length_nil]

theorem spells_two (hgt : ¬ v ≤ 0x7f) (hle : v ≤ 0x7ff) :
    Spells c (UInt8.ofNat (v / 64 % 32 + 0xc0)) [UInt8.ofNat (v % 64 + 0x80)] := by
  obtain ⟨hge, hcont, hrange, hbits⟩ := lead_two (v / 64 % 32) (by omega) (by omega)
  obtain ⟨hc1, hb1⟩ := continuation_byte (v % 64) (by omega)
  refine ⟨fun rest => ?_, hcont, by simp only [mem_singleton, forall_eq, hc1],
    fun h => absurd h hge⟩
  simp only [frontChar, if_neg hge, cons_append, hrange, hc1, Bool.and_self, if_true, hbits,
    hb1, length_singleton]
  rw [ofNat_eq hv (by omega)]

theorem spells_three (hgt : ¬ v ≤ 0x7ff) (hle : v ≤ 0xffff)
    (hvalid : v < 0xd800 ∨ 0xdfff < v) : Spells c (UInt8.ofNat (v / 4096 % 16 + 0xe0))
      [UInt8.ofNat (v / 64 % 64 + 0x80), UInt8.ofNat (v % 64 + 0x80)] := by
  obtain ⟨hge, hcont, hrange, hbits⟩ := lead_three (v / 4096 % 16) (by omega)
  obtain ⟨hc1, hb1⟩ := continuation_byte (v / 64 % 64) (by omega)
  obtain ⟨hc2, hb2⟩ := continuation_byte (v % 64) (by omega)
  have hstarts := startsThree_bytes (v / 4096 % 16) (by omega) (v / 64 % 64) (by omega) (by omega)
    (by omega)
  refine ⟨fun rest => ?_, hcont, by simp only [forall_mem_cons, hc1, hc2, true_and,
    not_mem_nil, false_imp_iff, implies_true], fun h => absurd h hge⟩
  simp only [frontChar, if_neg hge, cons_append, hrange, Bool.false_and, Bool.false_eq_true,
    if_false, hstarts, hc2, Bool.and_self, if_true, hbits, hb1, hb2, length_cons,
    length_nil]
  rw [ofNat_eq hv (by omega)]

theorem spells_four (hgt : ¬ v ≤ 0xffff) (hle : v < 0x110000) :
    Spells c (UInt8.ofNat (v / 262144 % 8 + 0xf0)) [UInt8.ofNat (v / 4096 % 64 + 0x80),
      UInt8.ofNat (v / 64 % 64 + 0x80), UInt8.ofNat (v % 64 + 0x80)] := by
  obtain ⟨hge, hcont, hrange, hbits⟩ := lead_four (v / 262144 % 8) (by omega)
  obtain ⟨hc1, hb1⟩ := continuation_byte (v / 4096 % 64) (by omega)
  obtain ⟨hc2, hb2⟩ := continuation_byte (v / 64 % 64) (by omega)
  obtain ⟨hc3, hb3⟩ := continuation_byte (v % 64) (by omega)
  obtain ⟨hthree, hfour⟩ := startsFour_bytes (v / 262144 % 8) (by omega) (v / 4096 % 64)
    (by omega) (by omega) (by omega)
  refine ⟨fun rest => ?_, hcont, by simp only [forall_mem_cons, hc1, hc2, hc3, true_and,
    not_mem_nil, false_imp_iff, implies_true], fun h => absurd h hge⟩
  simp only [frontChar, if_neg hge, cons_append, hrange, Bool.false_and, Bool.false_eq_true,
    if_false, hthree, hfour, hc2, hc3, Bool.and_self, if_true, hbits, hb1, hb2, hb3,
    length_cons, length_nil]
  rw [ofNat_eq hv (by omega)]

end Spelling

/-- **The bytes of a character** spell it. -/
theorem ofChar_spells (c : Char) : ∃ a tail, ofChar c = a :: tail ∧ Spells c a tail := by
  have hvalid : c.toNat < 0xd800 ∨ (0xdfff < c.toNat ∧ c.toNat < 0x110000) := c.valid
  unfold ofChar String.utf8EncodeChar
  dsimp only
  generalize hv : c.val.toNat = v
  have hv' : c.toNat = v := hv
  rw [hv'] at hvalid
  split
  · next h1 => exact ⟨_, _, rfl, spells_one hv' h1⟩
  · next h1 =>
    split
    · next h2 => exact ⟨_, _, rfl, spells_two hv' h1 h2⟩
    · next h2 =>
      split
      · next h3 => exact ⟨_, _, rfl, spells_three hv' h2 h3 (by omega)⟩
      · next h3 => exact ⟨_, _, rfl, spells_four hv' h3 (by omega)⟩

theorem isContinuation_of_lt {b : UInt8} (hb : b < 0x80) : isContinuation b = false := by
  have h := (ascii_byte b.toNat (UInt8.lt_iff_toNat_lt.mp hb)).2.2
  rwa [UInt8.ofNat_toNat] at h

theorem eq_ofNat_of_mem_ofChar {c : Char} {b : UInt8} (hb : b ∈ ofChar c) (hlt : b < 0x80) :
    c = Char.ofNat b.toNat := by
  obtain ⟨a, tail, hc, hspells⟩ := ofChar_spells c
  rw [hc] at hb
  rcases mem_cons.mp hb with rfl | hb
  · have hfront := hspells.front []
    rw [frontChar.eq_def, if_pos hlt] at hfront
    exact (congrArg Prod.fst (Option.some.inj hfront)).symm
  · have hcont := hspells.others b hb
    rw [isContinuation_of_lt hlt] at hcont
    cases hcont

/-! ## 2. Pieces -/

theorem exists_of_isContinuation {b : UInt8} (h : isContinuation b = true) :
    ∃ n < 64, b.toNat = n + 0x80 ∧ b = UInt8.ofNat (n + 0x80) ∧ tailBits b = n := by
  have hall : ∀ b : UInt8, isContinuation b = true → 0x80 ≤ b.toNat ∧ b.toNat < 0xc0 :=
    forall_byte (by decide +kernel)
  obtain ⟨n, hn⟩ := Nat.exists_eq_add_of_le' (hall b h).1
  have heq : b = UInt8.ofNat (n + 0x80) := by rw [← hn, UInt8.ofNat_toNat]
  have hlt : n < 64 := by
    have := (hall b h).2
    omega
  exact ⟨n, hlt, hn, heq, heq ▸ (continuation_byte n hlt).2⟩

theorem val_ofNat {v : Nat} (h : v < 0xd800 ∨ (0xdfff < v ∧ v < 0x110000)) :
    (Char.ofNat v).val.toNat = v := by
  have hvalid : v.isValidChar := h
  rw [Char.ofNat, dif_pos hvalid]
  rfl

/-- The bytes that a character was read from are its bytes. -/
theorem ofChar_of_frontChar {a : UInt8} {rest : Text} {c : Char} {k : Nat}
    (h : frontChar a rest = some (c, k)) : ofChar c = a :: rest.take k := by
  have hbyte : ∀ n : Nat, n = a.toNat → UInt8.ofNat n = a := by
    rintro _ rfl
    exact UInt8.ofNat_toNat
  have ha := a.toNat_lt
  unfold frontChar at h
  split at h
  · next hlt =>
    obtain ⟨rfl, rfl⟩ := Prod.mk.inj (Option.some.inj h)
    rw [UInt8.lt_iff_toNat_lt] at hlt
    rw [ofChar, String.utf8EncodeChar.eq_1, val_ofNat (.inl (Nat.lt_trans hlt (by decide))),
      if_pos (Nat.le_of_lt_succ hlt), hbyte _ rfl, take_zero]
  split at h
  · cases h
  split at h
  · next hlead =>
    obtain ⟨rfl, rfl⟩ := Prod.mk.inj (Option.some.inj h)
    simp only [Bool.and_eq_true, decide_eq_true_eq, UInt8.le_iff_toNat_le, UInt8.reduceToNat]
      at hlead
    obtain ⟨x, hx, -, rfl, hbits⟩ := exists_of_isContinuation hlead.2
    have hmask : (a &&& 0x1f).toNat = a.toNat % 32 := by
      rw [UInt8.toNat_and]
      exact Nat.and_two_pow_sub_one_eq_mod _ 5
    rw [hbits, hmask]
    generalize hv : a.toNat % 32 * 64 + x = v
    rw [ofChar, String.utf8EncodeChar.eq_1, val_ofNat (by omega), if_neg (by omega),
      if_pos (by omega), hbyte _ (by omega), (by omega : v % 64 = x)]
    rfl
  split at h
  · cases h
  split at h
  · next hlead =>
    obtain ⟨rfl, rfl⟩ := Prod.mk.inj (Option.some.inj h)
    simp only [startsThree, Bool.and_eq_true, Bool.or_eq_true, decide_eq_true_eq, beq_iff_eq,
      UInt8.le_iff_toNat_le, ← UInt8.toNat_inj, UInt8.reduceToNat] at hlead
    obtain ⟨⟨hb, hlead⟩, hb'⟩ := hlead
    obtain ⟨x, hx, hnat, rfl, hbits⟩ := exists_of_isContinuation hb
    obtain ⟨y, hy, -, rfl, hbits'⟩ := exists_of_isContinuation hb'
    have hmask : (a &&& 0x0f).toNat = a.toNat % 16 := by
      rw [UInt8.toNat_and]
      exact Nat.and_two_pow_sub_one_eq_mod _ 4
    rw [hnat] at hlead
    rw [hbits, hbits', hmask]
    generalize hv : (a.toNat % 16 * 64 + x) * 64 + y = v
    rw [ofChar, String.utf8EncodeChar.eq_1, val_ofNat (by omega), if_neg (by omega),
      if_neg (by omega), if_pos (by omega), hbyte _ (by omega), (by omega : v / 64 % 64 = x),
      (by omega : v % 64 = y)]
    rfl
  split at h
  · cases h
  split at h
  · next hlead =>
    obtain ⟨rfl, rfl⟩ := Prod.mk.inj (Option.some.inj h)
    simp only [startsFour, Bool.and_eq_true, Bool.or_eq_true, decide_eq_true_eq, beq_iff_eq,
      UInt8.le_iff_toNat_le, ← UInt8.toNat_inj, UInt8.reduceToNat] at hlead
    obtain ⟨⟨⟨hb, hlead⟩, hb'⟩, hb''⟩ := hlead
    obtain ⟨x, hx, hnat, rfl, hbits⟩ := exists_of_isContinuation hb
    obtain ⟨y, hy, -, rfl, hbits'⟩ := exists_of_isContinuation hb'
    obtain ⟨z, hz, -, rfl, hbits''⟩ := exists_of_isContinuation hb''
    have hmask : (a &&& 0x07).toNat = a.toNat % 8 := by
      rw [UInt8.toNat_and]
      exact Nat.and_two_pow_sub_one_eq_mod _ 3
    rw [hnat] at hlead
    rw [hbits, hbits', hbits'', hmask]
    generalize hv : ((a.toNat % 8 * 64 + x) * 64 + y) * 64 + z = v
    rw [ofChar, String.utf8EncodeChar.eq_1, val_ofNat (by omega), if_neg (by omega),
      if_neg (by omega), if_neg (by omega), hbyte _ (by omega), (by omega : v / 4096 % 64 = x),
      (by omega : v / 64 % 64 = y), (by omega : v % 64 = z)]
    rfl
  · cases h

theorem ofPieces_piecesAfter (skip : Nat) (t : Text) :
    ofPieces (piecesAfter skip t) = t.drop skip := by
  induction t generalizing skip with
  | nil => simp [piecesAfter, ofPieces]
  | cons a rest ih =>
    cases skip with
    | succ skip => exact ih skip
    | zero =>
      rw [piecesAfter]
      cases hfront : frontChar a rest with
      | none => exact congrArg (a :: ·) (ih 0)
      | some found =>
        show ofChar found.1 ++ ofPieces (piecesAfter found.2 rest) = _
        rw [ih, ofChar_of_frontChar hfront, cons_append, take_append_drop]
        rfl

/-- **No byte is lost** when a text is taken apart. -/
theorem ofPieces_pieces (t : Text) : ofPieces (pieces t) = t := ofPieces_piecesAfter 0 t

/-! ## 3. The bytes of several characters -/

def encode (cs : List Char) : Text := cs.flatMap ofChar

@[simp] theorem encode_nil : encode [] = [] := rfl

@[simp] theorem encode_cons (c : Char) (cs : List Char) :
    encode (c :: cs) = ofChar c ++ encode cs :=
  flatMap_cons

@[simp] theorem encode_append (cs ds : List Char) : encode (cs ++ ds) = encode cs ++ encode ds :=
  flatMap_append

theorem piecesAfter_append (s t : Text) : piecesAfter s.length (s ++ t) = piecesAfter 0 t := by
  induction s with
  | nil => rfl
  | cons b s ih => exact ih

/-- **The pieces of characters** are the characters. -/
theorem pieces_encode (cs : List Char) : pieces (encode cs) = cs.map .char := by
  induction cs with
  | nil => rfl
  | cons c cs ih =>
    obtain ⟨a, tail, hbytes, hspells⟩ := ofChar_spells c
    rw [encode_cons, hbytes, cons_append, pieces, piecesAfter, hspells.front]
    dsimp only
    rw [piecesAfter_append, map_cons, ← ih]
    rfl

theorem ofPieces_map_char (cs : List Char) : ofPieces (cs.map .char) = encode cs := by
  rw [ofPieces, flatMap_map]
  rfl

/-- **Each character is one column.** -/
theorem columns_encode (cs : List Char) : (encode cs).columns = cs.length := by
  induction cs with
  | nil => rfl
  | cons c cs ih =>
    obtain ⟨a, tail, hbytes, hspells⟩ := ofChar_spells c
    have hnone : columns tail = 0 :=
      countP_eq_zero.mpr fun b hb => by simp [hspells.others b hb]
    have hone : columns (a :: tail) = 1 := by
      rw [columns, countP_cons_of_pos (by simp [hspells.lead])]
      exact congrArg (· + 1) hnone
    rw [encode_cons, columns_append, hbytes, hone, ih, length_cons, Nat.add_comm]

/-- The first bytes of a text of characters, up to a column. -/
theorem columnOffset_encode (cs ds : List Char) :
    columnOffset (encode cs).columns (encode (cs ++ ds)) = (encode cs).length := by
  rw [columnOffset, columns_encode, pieces_encode, ← map_take, ofPieces_map_char,
    take_left']
  rfl

/-- A column that a text of characters does not have. -/
theorem columnOffset_encode_of_le {n : Nat} (hn : (encode cs).columns ≤ n) :
    columnOffset n (encode cs) = (encode cs).length := by
  rw [columns_encode] at hn
  rw [columnOffset, pieces_encode, ← map_take, take_of_length_le hn, ofPieces_map_char]

/-! ## 4. Cutting between characters -/

def IsUtf8 (t : Text) : Prop := ∃ cs, t = encode cs

theorem isUtf8_ofString (s : String) : IsUtf8 (ofString s) := by
  have hbytes : s.toUTF8 = s.toList.utf8Encode := by
    rw [String.toUTF8_eq_toByteArray, ← String.toByteArray_ofList, String.ofList_toList]
  refine ⟨s.toList, ?_⟩
  rw [ofString, hbytes, List.utf8Encode, data_toByteArray]
  rfl

/-- A text that is cut where the second part does not begin inside a character. -/
theorem encode_split {s t : Text} (h : encode cs = s ++ t)
    (ht : ∀ b ∈ t.head?, isContinuation b = false) :
    ∃ ls rs, cs = ls ++ rs ∧ s = encode ls ∧ t = encode rs := by
  induction cs generalizing s with
  | nil =>
    obtain ⟨rfl, rfl⟩ := append_eq_nil_iff.mp h.symm
    exact ⟨[], [], rfl, rfl, rfl⟩
  | cons c cs ih =>
    obtain ⟨a, tail, hbytes, hspells⟩ := ofChar_spells c
    cases s with
    | nil => exact ⟨[], c :: cs, rfl, rfl, h.symm⟩
    | cons =>
      rw [encode_cons, hbytes, cons_append, cons_append] at h
      obtain ⟨rfl, hrest⟩ := List.cons.inj h
      -- the bytes that continue the character are all in the first part
      rcases append_eq_append_iff.mp hrest with ⟨more, rfl, hmore⟩ | ⟨more, rfl, hmore⟩
      · obtain ⟨ls, rs, rfl, rfl, rfl⟩ := ih hmore
        exact ⟨c :: ls, rs, rfl, by rw [encode_cons, hbytes, cons_append], rfl⟩
      · cases more with
        | nil =>
          refine ⟨[c], cs, rfl, ?_, hmore⟩
          rw [encode_cons, hbytes, encode_nil, append_nil, append_nil]
        | cons d =>
          have hd := ht d (by rw [hmore]; rfl)
          rw [hspells.others d (by simp)] at hd
          cases hd

/-- **A text that is cut at an edge is cut between two characters.** -/
theorem encode_edge {s t : Text} (h : encode cs = s ++ t) (hedge : Edge s t) :
    ∃ ls rs, cs = ls ++ rs ∧ s = encode ls ∧ t = encode rs := by
  rcases eq_nil_or_concat s with rfl | ⟨s, a, rfl⟩
  · exact ⟨[], cs, rfl, rfl, h.symm⟩
  cases t with
  | nil => exact ⟨cs, [], by simp, by simpa using h.symm, rfl⟩
  | cons b =>
    rw [concat_eq_append] at h hedge ⊢
    rcases hedge a (by simp) b rfl with ha | hb
    · -- the last byte of the first part is a character of its own
      rw [append_assoc] at h
      obtain ⟨ls, rs, rfl, rfl, hrs⟩ := encode_split h fun c hc => by
        obtain rfl : a = c := by simpa using hc
        exact isContinuation_of_lt ha
      cases rs with
      | nil => cases hrs
      | cons c rs =>
        obtain ⟨a', tail, hbytes, hspells⟩ := ofChar_spells c
        rw [encode_cons, hbytes] at hrs
        obtain ⟨rfl, hrest⟩ := List.cons.inj hrs
        obtain rfl := hspells.ascii ha
        exact ⟨ls ++ [c], rs, by simp, by simp [hbytes], hrest⟩
    · exact encode_split h fun c hc => by
        obtain rfl : b = c := by simpa using hc
        exact isContinuation_of_lt hb

end Text

end HaloScript
