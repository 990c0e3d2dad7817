/-
# The atoms of a text

Which atoms can a file have?  Every one is a text that the printer can write (`Text.Readable`),
and one that begins with a quote stands right behind a closing bracket (`scan_sound`): anywhere
else the quote would have opened a quoted atom.
-/
import HaloScript.Proofs.Scanning.Lexer
import Mathlib.Tactic.Tauto

namespace HaloScript

open List Text

/-! ## 1. Texts that an atom can have -/

namespace Text

variable {t : Text} {last : UInt8}

/-- The text read after an opening quote, and the last byte before the next.  A quote in it is
escaped, and a carriage return belongs to a line end. -/
inductive Quoting : UInt8 → Text → Prop
  | start : Quoting doubleQuote []
  | byte {last : UInt8} {t : Text} (h : Quoting last t) (b : UInt8) (hb : b ≠ carriageReturn)
      (hq : b = doubleQuote → last = backslash) : Quoting b (t ++ [b])
  | lineEnd {last : UInt8} {t : Text} (h : Quoting last t) :
      Quoting newline (t ++ [carriageReturn, newline])

/-- A text that an atom can have: one that is written in quotes stands between two quotes, and
any other has no line end of any kind. -/
def Readable (t : Text) : Prop :=
  if Printer.needsQuotes t then ∃ last, Quoting last t ∧ last ≠ backslash
  else carriageReturn ∉ t

def StartsQuote (t : Text) : Prop := t.head? = some doubleQuote

instance (t : Text) : Decidable t.StartsQuote := inferInstanceAs (Decidable (_ = _))

theorem Quoting.not_startsQuote (h : Quoting last t) : ¬ t.StartsQuote := by
  induction h with
  | start => simp [StartsQuote]
  | @byte last t h b hb hq ih =>
    cases h with
    | start =>
      intro hs
      have hb' : b = doubleQuote := by simpa [StartsQuote] using hs
      exact absurd (hq hb') (by decide)
    | byte => simpa [StartsQuote, head?_append] using ih
    | lineEnd => simpa [StartsQuote, head?_append] using ih
  | @lineEnd last t h ih =>
    cases h with
    | start => decide
    | byte => simpa [StartsQuote, head?_append] using ih
    | lineEnd => simpa [StartsQuote, head?_append] using ih

/-- A carriage return in quotes is followed by a line feed. -/
theorem Quoting.newline_mem (h : Quoting last t) (hcr : carriageReturn ∈ t) : newline ∈ t := by
  induction h with
  | start => simp at hcr
  | byte h b hb hq ih =>
    rcases mem_append.mp hcr with hcr | hcr
    · exact mem_append_left _ (ih hcr)
    · exact absurd (mem_singleton.mp hcr).symm hb
  | lineEnd => simp

theorem needsQuotes_iff (t : Text) :
    Printer.needsQuotes t = true ↔ t = [] ∨ ∃ b ∈ t, IsSeparator b ∨ b = newline := by
  have hset :
      (" \t\n();" : Text) = [space, tab, newline, openBracket, closeBracket, semicolon] := by
    decide
  simp only [Printer.needsQuotes, containsAny, hset, Bool.or_eq_true, List.isEmpty_iff,
    any_eq_true, contains_iff_mem, mem_cons, not_mem_nil, or_false,
    IsSeparator]
  constructor
  · rintro (h | ⟨b, hb, h⟩)
    · exact .inl h
    · exact .inr ⟨b, hb, by tauto⟩
  · rintro (h | ⟨b, hb, h⟩)
    · exact .inl h
    · exact .inr ⟨b, hb, by tauto⟩

theorem Quoting.readable (h : Quoting last t) (hlast : last ≠ backslash) : t.Readable := by
  unfold Readable
  split
  · exact ⟨last, h, hlast⟩
  · next hq =>
    intro hcr
    refine hq ((needsQuotes_iff t).mpr (.inr ⟨newline, h.newline_mem hcr, .inr rfl⟩))

def IsWordByte (b : UInt8) : Prop := ¬ IsSeparator b ∧ b ≠ newline ∧ b ≠ carriageReturn

theorem needsQuotes_word (hne : t ≠ []) (h : ∀ b ∈ t, IsWordByte b) :
    Printer.needsQuotes t = false := by
  rw [Bool.eq_false_iff]
  intro hq
  rcases (needsQuotes_iff t).mp hq with rfl | ⟨b, hb, hsep | hnl⟩
  · exact hne rfl
  · exact (h b hb).1 hsep
  · exact (h b hb).2.1 hnl

theorem readable_word (hne : t ≠ []) (h : ∀ b ∈ t, IsWordByte b) : t.Readable := by
  unfold Readable
  rw [needsQuotes_word hne h, if_neg Bool.false_ne_true]
  exact fun hcr => (h _ hcr).2.2 rfl

/-- A text that is written without quotes is a word. -/
theorem Readable.word (h : t.Readable) (hq : Printer.needsQuotes t = false) :
    t ≠ [] ∧ ∀ b ∈ t, IsWordByte b := by
  unfold Readable at h
  rw [hq, if_neg Bool.false_ne_true] at h
  have hno : ¬ (t = [] ∨ ∃ b ∈ t, IsSeparator b ∨ b = newline) := by
    rw [← needsQuotes_iff, hq]
    exact Bool.false_ne_true
  rw [not_or] at hno
  refine ⟨hno.1, fun b hb =>
    ⟨fun hs => hno.2 ⟨b, hb, .inl hs⟩, fun hn => hno.2 ⟨b, hb, .inr hn⟩, ?_⟩⟩
  rintro rfl
  exact h hb

end Text

/-! ## 2. Where a quote can stand first -/

/-- The lexeme is an atom that begins with a quote. -/
def Lexeme.StartsQuote (x : Lexeme) : Prop := ∃ t : Text, x = .atom t ∧ t.StartsQuote

theorem Lexeme.startsQuote_atom {t : Text} : (Lexeme.atom t).StartsQuote ↔ t.StartsQuote := by
  constructor
  · rintro ⟨u, hu, hq⟩
    exact Lexeme.atom.inj hu ▸ hq
  · exact fun hq => ⟨t, rfl, hq⟩

instance : (x : Lexeme) → Decidable x.StartsQuote
  | .opening => isFalse fun ⟨_, h, _⟩ => Lexeme.noConfusion h
  | .closing => isFalse fun ⟨_, h, _⟩ => Lexeme.noConfusion h
  | .atom _ => decidable_of_iff _ Lexeme.startsQuote_atom.symm

/-- Atoms that begin with a quote stand right behind a closing bracket; `before` is the lexeme
in front of the sequence. -/
def Lexeme.Ordered : Option Lexeme → List Lexeme → Prop
  | _, [] => True
  | before, x :: rest => (x.StartsQuote → before = some .closing) ∧ Ordered (some x) rest

theorem Lexeme.ordered_concat (xs : List Lexeme) (x : Lexeme) : ∀ before : Option Lexeme,
    Ordered before (xs ++ [x]) ↔
      Ordered before xs ∧ (x.StartsQuote → xs.getLast?.or before = some .closing) := by
  induction xs with
  | nil => simp [Ordered]
  | cons y rest ih =>
    intro before
    simp only [cons_append, Ordered, ih, and_assoc]
    refine and_congr_right fun _ => and_congr_right fun _ => ?_
    cases rest with
    | nil => simp
    | cons => simp [getLast?_cons]

/-! ## 3. What the lexer finds -/

namespace Lexer

variable {l : Lexer}

/-- What holds of the lexer between two bytes. -/
structure Sound (l : Lexer) : Prop where
  readable : ∀ t, Lexeme.atom t ∈ l.found → t.Readable
  ordered : Lexeme.Ordered none l.found.reverse
  mode : match l.mode with
    | .blank => l.held = true ∨ Scanner.quoteMayFollow l.previous = true ∨
        l.found.head? = some .closing
    | .comment => True
    | .word read => read ≠ [] ∧ (∀ b ∈ read, IsWordByte b) ∧
        (read.StartsQuote → l.found.head? = some .closing)
    | .quoted read => ∃ last, Quoting last read ∧
        (l.held = true ∨ l.previous = some last)

theorem ordered_found_cons {found : List Lexeme} {x : Lexeme}
    (h : Lexeme.Ordered none found.reverse) (hx : x.StartsQuote → found.head? = some .closing) :
    Lexeme.Ordered none (x :: found).reverse := by
  rw [reverse_cons, Lexeme.ordered_concat]
  refine ⟨h, fun hq => ?_⟩
  rw [getLast?_reverse, hx hq]
  rfl

/-- What has been found when a word ends. -/
theorem Sound.endWord (h : l.Sound) (l' : Lexer) (hmode : l'.mode = l.mode)
    (hfound : l'.found = l.found) (m : LexMode) :
    (∀ t, Lexeme.atom t ∈ (l'.endWord m).found → t.Readable) ∧
      Lexeme.Ordered none (l'.endWord m).found.reverse := by
  have hm := h.mode
  unfold Lexer.endWord
  rw [hmode, hfound]
  cases hl : l.mode with
  | word =>
    rw [hl] at hm
    refine ⟨fun t ht => ?_, ordered_found_cons h.ordered ?_⟩
    · rcases mem_cons.mp ht with ht | ht
      · rw [(Lexeme.atom.inj ht)]
        exact readable_word hm.1 hm.2.1
      · exact h.readable t ht
    · rintro ⟨t, ht, hq⟩
      rw [← Lexeme.atom.inj ht] at hq
      exact hm.2.2 hq
  | blank => exact ⟨h.readable, h.ordered⟩
  | comment => exact ⟨h.readable, h.ordered⟩
  | quoted => exact ⟨h.readable, h.ordered⟩

theorem Sound.endLine (h : l.Sound) {ending : Text}
    (hending : ∀ last read, l.mode = .quoted read → Quoting last read →
      (l.held = true ∨ l.previous = some last) → Quoting newline (read ++ ending)) :
    (l.endLine ending).Sound := by
  have hm := h.mode
  unfold Lexer.endLine
  have hword := h.endWord { l with previous := some newline, held := false } rfl rfl .blank
  cases hl : l.mode with
  | quoted read =>
    rw [hl] at hm
    obtain ⟨last, hq, hprev⟩ := hm
    exact ⟨h.readable, h.ordered, newline, hending last read hl hq hprev, .inr rfl⟩
  | blank | comment | word read =>
    refine ⟨by simpa [hl] using hword.1, by simpa [hl] using hword.2, ?_⟩
    simp [Scanner.quoteMayFollow]

/-- A byte outside quotes and comments. -/
theorem Sound.feedPlain (h : l.Sound) (hheld : l.held = false)
    (hmode : l.mode = .blank ∨ ∃ read, l.mode = .word read) {b : UInt8} (hnl : b ≠ newline)
    (hcr : b ≠ carriageReturn) : (l.feedPlain b).Sound := by
  have hm := h.mode
  have hword := h.endWord { l with previous := some b } rfl rfl
  by_cases hb : IsSeparator b
  · rcases hb with rfl | rfl | rfl | rfl | rfl
    · rw [feedPlain_semicolon]
      exact ⟨(hword .comment).1, (hword .comment).2, by simp⟩
    · rw [feedPlain_space]
      exact ⟨(hword .blank).1, (hword .blank).2, by simp [Scanner.quoteMayFollow]⟩
    · rw [feedPlain_tab]
      exact ⟨(hword .blank).1, (hword .blank).2, by simp [Scanner.quoteMayFollow]⟩
    · rw [feedPlain_openBracket]
      refine ⟨by simpa using (hword .blank).1, ordered_found_cons (hword .blank).2 ?_,
        by simp [Scanner.quoteMayFollow]⟩
      rintro ⟨t, ht, -⟩
      exact absurd ht (by simp)
    · rw [feedPlain_closeBracket]
      refine ⟨by simpa using (hword .blank).1, ordered_found_cons (hword .blank).2 ?_, by simp⟩
      rintro ⟨t, ht, -⟩
      exact absurd ht (by simp)
  · have hbyte : IsWordByte b := ⟨hb, hnl, hcr⟩
    rw [feedPlain_other l hb]
    rcases hmode with hl | ⟨read, hl⟩
    · rw [hl] at hm ⊢
      dsimp only
      split
      · exact ⟨h.readable, h.ordered, doubleQuote, .start, .inr (by simp_all)⟩
      · next hq =>
        refine ⟨h.readable, h.ordered, by simp, by simpa using hbyte, fun hs => ?_⟩
        have hb' : b = doubleQuote := by simpa [StartsQuote] using hs
        rcases hm with hm | hm | hm
        · exact absurd hm (by simp [hheld])
        · exact absurd (by simp [hb', hm]) hq
        · exact hm
    · rw [hl] at hm ⊢
      refine ⟨h.readable, h.ordered, by simp, fun c hc => ?_, fun hs => hm.2.2 ?_⟩
      · rcases mem_append.mp hc with hc | hc
        · exact hm.2.1 c hc
        · rw [mem_singleton.mp hc]
          exact hbyte
      · obtain ⟨c, rest, rfl⟩ := exists_cons_of_ne_nil hm.1
        exact hs

/-- A byte that is no part of a line end. -/
theorem Sound.feedByte (h : l.Sound) (hheld : l.held = false) {b : UInt8} (hnl : b ≠ newline)
    (hcr : b ≠ carriageReturn) : (l.feedByte b).Sound := by
  have hm := h.mode
  unfold Lexer.feedByte
  cases hl : l.mode with
  | blank => exact h.feedPlain hheld (.inl hl) hnl hcr
  | word read => exact h.feedPlain hheld (.inr ⟨read, hl⟩) hnl hcr
  | comment => exact ⟨h.readable, h.ordered, by simp⟩
  | quoted =>
    rw [hl] at hm
    obtain ⟨last, hq, hprev⟩ := hm
    have hprev : l.previous = some last := by simpa [hheld] using hprev
    dsimp only
    split
    · next hclose =>
      rw [Bool.and_eq_true, beq_iff_eq, bne_iff_ne] at hclose
      have hlast : last ≠ backslash := fun he => hclose.2 (by rw [hprev, he])
      refine ⟨fun t ht => ?_, ordered_found_cons h.ordered ?_, ?_⟩
      · rcases mem_cons.mp ht with ht | ht
        · rw [Lexeme.atom.inj ht]
          exact hq.readable hlast
        · exact h.readable t ht
      · rintro ⟨t, ht, hs⟩
        rw [← Lexeme.atom.inj ht] at hs
        exact absurd hs hq.not_startsQuote
      · simp [hclose.1, Scanner.quoteMayFollow]
    · next hopen =>
      refine ⟨h.readable, h.ordered, b, hq.byte b hcr fun hb => ?_, .inr rfl⟩
      refine Classical.byContradiction fun hlast => hopen ?_
      rw [Bool.and_eq_true, beq_iff_eq, bne_iff_ne, hprev]
      exact ⟨hb, fun he => hlast (Option.some.inj he)⟩

/-- **One byte keeps the lexer sound.** -/
theorem Sound.feed (h : l.Sound) (b : UInt8) : (l.feed b).Sound := by
  unfold Lexer.feed
  split
  · exact h
  · split
    · split
      · exact h.endLine fun last read _ hq _ => hq.lineEnd
      · exact { h with }
    · next hheld =>
      rw [Bool.not_eq_true] at hheld
      split
      · refine ⟨h.readable, h.ordered, ?_⟩
        have hm := h.mode
        cases hl : l.mode with
        | blank => exact .inl rfl
        | comment => trivial
        | word => rw [hl] at hm; exact hm
        | quoted =>
          rw [hl] at hm
          obtain ⟨last, hq, -⟩ := hm
          exact ⟨last, hq, .inl rfl⟩
      · next hcr =>
        split
        · exact h.endLine fun last read _ hq _ => hq.byte _ (by decide) fun he =>
            absurd he (by decide)
        · next hnl =>
          exact h.feedByte hheld (fun he => hnl (by simp [he])) fun he => hcr (by simp [he])

theorem Sound.feedAll (h : l.Sound) (t : Text) : (l.feedAll t).Sound := by
  induction t generalizing l with
  | nil => exact h
  | cons b rest ih => exact ih (h.feed b)

theorem sound_empty : Sound {} := ⟨by simp, trivial, .inr (.inl rfl)⟩

end Lexer

/-- **The atoms of a file** are such as the printer can write, and one that begins with a quote
stands right behind a closing bracket. -/
theorem SourceFile.scan_sound (file : SourceFile) :
    (∀ t, Lexeme.atom t ∈ file.scan.tokens.map Token.lexeme → t.Readable) ∧
      Lexeme.Ordered none (file.scan.tokens.map Token.lexeme) := by
  rw [(scan_lexemes file).1]
  have hs := Lexer.sound_empty.feedAll file.text
  have hword := hs.endWord (Lexer.feedAll {} file.text) rfl rfl .blank
  unfold Lexer.run Lexer.finish
  split
  · exact ⟨fun t ht => hs.readable t (mem_reverse.mp ht), hs.ordered⟩
  · split
    · exact ⟨fun t ht => hs.readable t (mem_reverse.mp ht), hs.ordered⟩
    · split
      · exact ⟨fun t ht => hs.readable t (mem_reverse.mp ht), hs.ordered⟩
      · exact ⟨fun t ht => hword.1 t (mem_reverse.mp ht), hword.2⟩

end HaloScript
