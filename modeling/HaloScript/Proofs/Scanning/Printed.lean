/-
# Scanning a printed text

What the printer writes is read as the lexemes that were written, up to the first atom that
begins with a quote.  There the scan leaves the track: the quote opens a quoted atom, and what
is found in this place, if anything is, does not begin with a quote (`run_renderForms`).

The argument follows the text.  `Ready` says that some lexemes have been read, the last one
perhaps up to its last byte only, and `Open` that in addition a quote may come next.  What is
printed leads from one to the other.
-/
import HaloScript.Proofs.Scanning.Atoms

namespace HaloScript

open List Shape Text

namespace Lexer

variable {t : Text} {spaced : Bool} {last : UInt8} {read : Text}

/-! ## 1. On the track -/

/-- The lexemes `found` have been read, the last one first; a word at the end may still go on. -/
def Ready (found : List Lexeme) (l : Lexer) : Prop :=
  l.failed = false ∧ l.held = false ∧
    ((l.mode = .blank ∧ l.found = found) ∨ ∃ t, l.mode = .word t ∧ .atom t :: l.found = found)

/-- The lexemes `found` have been read, and a quote would open a quoted atom. -/
def Open (found : List Lexeme) (l : Lexer) : Prop :=
  l.failed = false ∧ l.held = false ∧ l.mode = .blank ∧ l.found = found ∧
    Scanner.quoteMayFollow l.previous = true

variable {found : List Lexeme} {l : Lexer}

theorem Open.ready (h : l.Open found) : l.Ready found := ⟨h.1, h.2.1, .inl ⟨h.2.2.1, h.2.2.2.1⟩⟩

/-- A byte of a line goes to the plain bytes, if nothing is quoted. -/
theorem feed_eq_feedPlain (hfailed : l.failed = false) (hheld : l.held = false)
    (hmode : l.mode = .blank ∨ ∃ t, l.mode = .word t) {b : UInt8} (hnl : b ≠ newline)
    (hcr : b ≠ carriageReturn) : l.feed b = l.feedPlain b := by
  unfold feed feedByte
  rw [hfailed, hheld, if_neg Bool.false_ne_true, if_neg Bool.false_ne_true,
    if_neg (by simpa using hcr), if_neg (by simpa using hnl)]
  rcases hmode with h | ⟨t, h⟩ <;> rw [h]

section

variable (h : l.Ready found)

include h

theorem Ready.mode : l.mode = .blank ∨ ∃ t, l.mode = .word t := by
  rcases h.2.2 with ⟨hm, -⟩ | ⟨t, hm, -⟩
  · exact .inl hm
  · exact .inr ⟨t, hm⟩

theorem Ready.found_endWord (previous : Option UInt8) (m : LexMode) :
    (endWord { l with previous } m).found = found := by
  unfold endWord
  rcases h.2.2 with ⟨hm, hf⟩ | ⟨t, hm, hf⟩
  · rw [hm]
    exact hf
  · rw [hm]
    exact hf

theorem Ready.feed_space : (l.feed space).Open found := by
  rw [feed_eq_feedPlain h.1 h.2.1 h.mode (by decide) (by decide), feedPlain_space]
  exact ⟨by simpa using h.1, by simpa using h.2.1, by simp, h.found_endWord _ _, by simp; rfl⟩

theorem Ready.feed_tab : (l.feed tab).Open found := by
  rw [feed_eq_feedPlain h.1 h.2.1 h.mode (by decide) (by decide), feedPlain_tab]
  exact ⟨by simpa using h.1, by simpa using h.2.1, by simp, h.found_endWord _ _, by simp; rfl⟩

theorem Ready.feed_openBracket : (l.feed openBracket).Open (.opening :: found) := by
  rw [feed_eq_feedPlain h.1 h.2.1 h.mode (by decide) (by decide), feedPlain_openBracket]
  exact ⟨by simpa using h.1, by simpa using h.2.1, by simp,
    congrArg (Lexeme.opening :: ·) (h.found_endWord _ _), by simp; rfl⟩

theorem Ready.feed_closeBracket : (l.feed closeBracket).Ready (.closing :: found) := by
  rw [feed_eq_feedPlain h.1 h.2.1 h.mode (by decide) (by decide), feedPlain_closeBracket]
  exact ⟨by simpa using h.1, by simpa using h.2.1, .inl ⟨by simp,
    congrArg (Lexeme.closing :: ·) (h.found_endWord _ _)⟩⟩

theorem Ready.feed_newline : (l.feed newline).Open found := by
  unfold feed
  rw [h.1, h.2.1, if_neg Bool.false_ne_true, if_neg Bool.false_ne_true, if_neg (by decide),
    if_pos (by decide)]
  have hword : l.endLine [newline] =
      endWord { l with previous := some newline, held := false } .blank := by
    unfold endLine
    rcases h.mode with hm | ⟨t, hm⟩ <;> rw [hm]
  rw [hword]
  have hfound := h.found_endWord (some newline) .blank
  refine ⟨by simpa using h.1, by simp, by simp, ?_, by simp; rfl⟩
  rw [← hfound, ← h.2.1]

end

theorem Open.feedAll_tabs (h : l.Open found) (n : Nat) :
    (l.feedAll (repeated n tab)).Open found := by
  induction n generalizing l with
  | zero => exact h
  | succ n ih => exact ih h.ready.feed_tab

/-! ## 2. Off the track -/

/-- After `found` a quote was read that opened a quoted atom: the atom is being read, or it has
been found, or there was a fault. -/
def Derailed (found : List Lexeme) (l : Lexer) : Prop :=
  l.Sound ∧ (l.failed = true ∨ (∃ read, l.mode = .quoted read ∧ l.found = found) ∨
    ∃ later t, l.found = later ++ .atom t :: found ∧ ¬ t.StartsQuote)

theorem found_endWord_suffix (l : Lexer) (m : LexMode) :
    ∃ later, (l.endWord m).found = later ++ l.found := by
  unfold endWord
  split
  · exact ⟨[_], rfl⟩
  · exact ⟨[], rfl⟩

/-- What has been found stays found. -/
theorem found_feed_suffix (l : Lexer) (b : UInt8) :
    ∃ later, (l.feed b).found = later ++ l.found := by
  have hline : ∀ ending, ∃ later, (l.endLine ending).found = later ++ l.found := by
    intro ending
    unfold endLine
    split
    · exact ⟨[], rfl⟩
    · exact found_endWord_suffix { l with previous := some newline, held := false } .blank
  have hplain : ∃ later, (l.feedPlain b).found = later ++ l.found := by
    have hword := found_endWord_suffix { l with previous := some b }
    by_cases hb : IsSeparator b
    · rcases hb with rfl | rfl | rfl | rfl | rfl
      · exact hword .comment
      · exact hword .blank
      · exact hword .blank
      · obtain ⟨later, h⟩ := hword .blank
        exact ⟨.opening :: later, congrArg (Lexeme.opening :: ·) h⟩
      · obtain ⟨later, h⟩ := hword .blank
        exact ⟨.closing :: later, congrArg (Lexeme.closing :: ·) h⟩
    · rw [feedPlain_other l hb]
      split
      · exact ⟨[], rfl⟩
      · split
        · exact ⟨[], rfl⟩
        · exact ⟨[], rfl⟩
  unfold feed
  split
  · exact ⟨[], rfl⟩
  · split
    · split
      · exact hline _
      · exact ⟨[], rfl⟩
    · split
      · exact ⟨[], rfl⟩
      · split
        · exact hline _
        · unfold feedByte
          split
          · exact ⟨[], rfl⟩
          · dsimp only
            split
            · exact ⟨[_], rfl⟩
            · exact ⟨[], rfl⟩
          · exact hplain

theorem failed_feed (hfailed : l.failed = true) (b : UInt8) : l.feed b = l := by
  unfold feed
  rw [if_pos hfailed]

/-- Nothing that follows leads back to the track. -/
theorem Derailed.feed (h : l.Derailed found) (b : UInt8) : (l.feed b).Derailed found := by
  obtain ⟨hsound, hcase⟩ := h
  refine ⟨hsound.feed b, ?_⟩
  rcases hcase with hfailed | ⟨read, hmode, hfound⟩ | ⟨later, t, hfound, ht⟩
  · rw [failed_feed hfailed]
    exact .inl hfailed
  · have hq : ¬ read.StartsQuote := by
      have hm := hsound.mode
      rw [hmode] at hm
      obtain ⟨last, hq, -⟩ := hm
      exact hq.not_startsQuote
    have hline : ∀ ending, ∃ read', (l.endLine ending).mode = .quoted read' ∧
        (l.endLine ending).found = found := by
      intro ending
      refine ⟨read ++ ending, ?_, ?_⟩
      · simp [endLine, hmode]
      · simp [endLine, hmode, hfound]
    unfold Lexer.feed
    split
    · next hfailed => exact .inl hfailed
    · split
      · split
        · exact .inr (.inl (hline _))
        · exact .inl rfl
      · split
        · exact .inr (.inl ⟨read, hmode, hfound⟩)
        · split
          · exact .inr (.inl (hline _))
          · simp only [feedByte, hmode]
            split
            · exact .inr (.inr ⟨[], read, by rw [hfound]; rfl, hq⟩)
            · exact .inr (.inl ⟨_, rfl, hfound⟩)
  · obtain ⟨later', hl⟩ := found_feed_suffix l b
    exact .inr (.inr ⟨later' ++ later, t, by rw [hl, hfound, append_assoc], ht⟩)

theorem Derailed.feedAll (h : l.Derailed found) (t : Text) : (l.feedAll t).Derailed found := by
  induction t generalizing l with
  | nil => exact h
  | cons b rest ih => exact ih (h.feed b)

/-! ## 3. Atoms -/

/-- The lexemes `xs` have been read after `found`, or the scan has left the track at the first of
them that begins with a quote. -/
def Reads (found xs : List Lexeme) (l : Lexer) : Prop :=
  ((∀ x ∈ xs, ¬ x.StartsQuote) ∧ l.Ready (xs.reverse ++ found)) ∨
    ∃ good t rest, xs = good ++ .atom t :: rest ∧ t.StartsQuote ∧
      (∀ x ∈ good, ¬ x.StartsQuote) ∧ l.Derailed (good.reverse ++ found)

/-- One text after another. -/
theorem Reads.append {xs ys : List Lexeme} (h : l.Reads found xs)
    (hnext : l.Ready (xs.reverse ++ found) → (l.feedAll t).Reads (xs.reverse ++ found) ys) :
    (l.feedAll t).Reads found (xs ++ ys) := by
  rcases h with ⟨hgood, hready⟩ | ⟨good, u, rest, rfl, hu, hgood, hd⟩
  · rcases hnext hready with ⟨hgood', hready'⟩ | ⟨good, u, rest, rfl, hu, hgood', hd⟩
    · refine .inl ⟨fun x hx => ?_, by simpa using hready'⟩
      rcases mem_append.mp hx with hx | hx
      · exact hgood x hx
      · exact hgood' x hx
    · refine .inr ⟨xs ++ good, u, rest, by simp, hu, fun x hx => ?_, by simpa using hd⟩
      rcases mem_append.mp hx with hx | hx
      · exact hgood x hx
      · exact hgood' x hx
  · exact .inr ⟨good, u, rest ++ ys, by simp, hu, hgood, hd.feedAll t⟩

/-- A quoted atom is being read. -/
structure Quotes (found : List Lexeme) (read : Text) (last : UInt8) (l : Lexer) : Prop where
  failed : l.failed = false
  held : l.held = false
  mode : l.mode = .quoted read
  found : l.found = found
  previous : l.previous = some last

theorem Open.feed_doubleQuote (h : l.Open found) :
    (l.feed doubleQuote).Quotes found [] doubleQuote := by
  rw [feed_eq_feedPlain h.1 h.2.1 (.inl h.2.2.1) (by decide) (by decide),
    feedPlain_other l (by unfold IsSeparator; decide), h.2.2.1]
  rw [if_pos (by simp [h.2.2.2.2])]
  exact ⟨h.1, h.2.1, rfl, h.2.2.2.1, rfl⟩

theorem Quotes.feed {last b : UInt8} (h : l.Quotes found read last) (hcr : b ≠ carriageReturn)
    (hq : b = doubleQuote → last = backslash) :
    (l.feed b).Quotes found (read ++ [b]) b := by
  unfold Lexer.feed
  rw [h.failed, h.held, if_neg Bool.false_ne_true, if_neg Bool.false_ne_true,
    if_neg (by simpa using hcr)]
  split
  · next hnl =>
    rw [beq_iff_eq] at hnl
    simp only [endLine, h.mode, hnl]
    exact ⟨h.failed, rfl, rfl, h.found, rfl⟩
  · simp only [feedByte, h.mode]
    rw [if_neg]
    · exact ⟨h.failed, h.held, rfl, h.found, rfl⟩
    · rw [Bool.and_eq_true, beq_iff_eq, bne_iff_ne, h.previous]
      rintro ⟨hb, hne⟩
      exact hne (by rw [hq hb])

theorem Quotes.feed_lineEnd (h : l.Quotes found read last) :
    ((l.feed carriageReturn).feed newline).Quotes found
      (read ++ [carriageReturn, newline]) newline := by
  have hreturn : l.feed carriageReturn =
      { l with previous := some carriageReturn, held := true } := by
    unfold Lexer.feed
    rw [h.failed, h.held, if_neg Bool.false_ne_true, if_neg Bool.false_ne_true, if_pos (by decide)]
  rw [hreturn]
  unfold Lexer.feed
  rw [h.failed, if_neg Bool.false_ne_true, if_pos rfl, if_pos (by decide)]
  simp only [endLine, h.mode]
  exact ⟨rfl, rfl, rfl, h.found, rfl⟩

theorem Quotes.feedAll (hq : Quoting last t) (h : l.Quotes found [] doubleQuote) :
    (l.feedAll t).Quotes found t last := by
  induction hq with
  | start => exact h
  | byte hq b hb hesc ih =>
    rw [feedAll_append]
    exact ih.feed hb hesc
  | lineEnd hq ih =>
    rw [feedAll_append]
    exact ih.feed_lineEnd

theorem Quotes.feed_close (h : l.Quotes found read last) (hlast : last ≠ backslash) :
    (l.feed doubleQuote).Ready (.atom read :: found) := by
  unfold Lexer.feed
  rw [h.failed, h.held, if_neg Bool.false_ne_true, if_neg Bool.false_ne_true, if_neg (by decide),
    if_neg (by decide)]
  simp only [feedByte, h.mode]
  rw [if_pos (by simpa [h.previous] using hlast)]
  exact ⟨h.failed, h.held, .inl ⟨rfl, by rw [← h.found]⟩⟩

/-- The rest of a word. -/
theorem feedAll_word (ht : ∀ b ∈ t, IsWordByte b) :
    ∀ {l : Lexer} {read : Text}, l.failed = false → l.held = false → l.mode = .word read →
      (l.feedAll t).Ready (.atom (read ++ t) :: l.found) := by
  induction t with
  | nil =>
    intro l read hfailed hheld hmode
    exact ⟨hfailed, hheld, .inr ⟨read, hmode, by simp⟩⟩
  | cons b rest ih =>
    intro l read hfailed hheld hmode
    rw [forall_mem_cons] at ht
    have hstep : l.feed b = { l with previous := some b, mode := .word (read ++ [b]) } := by
      rw [feed_eq_feedPlain hfailed hheld (.inr ⟨read, hmode⟩) ht.1.2.1 ht.1.2.2,
        feedPlain_other l ht.1.1, hmode]
    rw [feedAll_cons, hstep]
    have h := ih ht.2 (l := { l with previous := some b, mode := .word (read ++ [b]) }) hfailed
      hheld rfl
    simpa using h

/-- **An atom that is printed is read back**, unless it begins with a quote. -/
theorem Open.feedAll_atom (hs : l.Sound) (h : l.Open found) (ht : t.Readable) :
    (l.feedAll (Printer.atom t)).Reads found [.atom t] := by
  unfold Printer.atom
  cases hq : Printer.needsQuotes t with
  | true =>
    unfold Readable at ht
    rw [hq, if_pos rfl] at ht
    obtain ⟨last, hquoting, hlast⟩ := ht
    rw [if_pos rfl, ofString_doubleQuote, feedAll_append, feedAll_append]
    refine .inl ⟨?_, (Quotes.feedAll hquoting h.feed_doubleQuote).feed_close hlast⟩
    rintro x hx ⟨u, hu, hstart⟩
    obtain rfl : t = u := Lexeme.atom.inj ((mem_singleton.mp hx).symm.trans hu)
    exact hquoting.not_startsQuote hstart
  | false =>
    obtain ⟨hne, hword⟩ := ht.word hq
    rw [if_neg Bool.false_ne_true]
    obtain ⟨b, rest, rfl⟩ := exists_cons_of_ne_nil hne
    rw [forall_mem_cons] at hword
    by_cases hb : b = doubleQuote
    · -- the quote opens a quoted atom
      subst hb
      have hquotes := h.feed_doubleQuote
      refine .inr ⟨[], _, [], rfl, rfl, by simp, ?_⟩
      exact Derailed.feedAll ⟨hs.feed _, .inr (.inl ⟨[], hquotes.mode, hquotes.found⟩)⟩ rest
    · have hstep : l.feed b = { l with previous := some b, mode := .word [b] } := by
        rw [feed_eq_feedPlain h.1 h.2.1 (.inl h.2.2.1) hword.1.2.1 hword.1.2.2,
          feedPlain_other l hword.1.1, h.2.2.1]
        rw [if_neg (by simp [hb])]
      refine .inl ⟨?_, ?_⟩
      · rintro x hx ⟨u, hu, hstart⟩
        obtain rfl := Lexeme.atom.inj ((mem_singleton.mp hx).symm.trans hu)
        exact hb (by simpa [StartsQuote] using hstart)
      · rw [feedAll_cons, hstep]
        have hr := feedAll_word hword.2 (l := { l with previous := some b, mode := .word [b] }) h.1
          h.2.1 rfl
        simpa [h.2.2.2.1] using hr

/-! ## 4. Shapes -/

/-- Ready for the next element of a list; in front of the first one a quote may come next. -/
def Before (spaced : Bool) (found : List Lexeme) (l : Lexer) : Prop :=
  if spaced then l.Ready found else l.Open found

theorem Before.ready (h : l.Before spaced found) : l.Ready found := by
  cases spaced with
  | true => exact h
  | false => exact Open.ready h

theorem Before.feedAll_gap (h : l.Before spaced found) :
    (l.feedAll (Printer.gap spaced)).Open found := by
  cases spaced with
  | true =>
    rw [Printer.gap, if_pos rfl, ofString_space]
    exact Ready.feed_space h
  | false => exact h

theorem Before.feedAll_callGap (h : l.Before spaced found) (layout : Layout) (depth : Nat) :
    (l.feedAll (Printer.callGap layout depth spaced)).Open found := by
  cases layout with
  | compact => exact h.feedAll_gap
  | pretty => exact h.ready.feed_newline.feedAll_tabs depth

theorem reads_single {x : Lexeme} (hx : ¬ x.StartsQuote) (h : l.Ready (x :: found)) :
    l.Reads found [x] :=
  .inl ⟨by simpa using hx, by simpa using h⟩

theorem not_startsQuote_opening : ¬ Lexeme.StartsQuote .opening := by
  rintro ⟨t, ht, -⟩
  exact absurd ht (by simp)

theorem not_startsQuote_closing : ¬ Lexeme.StartsQuote .closing := by
  rintro ⟨t, ht, -⟩
  exact absurd ht (by simp)

mutual

/-- A shape that is printed is read back, up to the first atom that begins with a quote. -/
theorem Before.feedAll_render (layout : Layout) (depth : Nat) (spaced : Bool) (x : Shape)
    {l : Lexer} {found : List Lexeme} (hs : l.Sound) (h : l.Before spaced found)
    (hx : ∀ t, Lexeme.atom t ∈ x.lexemes → t.Readable) :
    (l.feedAll (x.render layout depth spaced)).Reads found x.lexemes := by
  match x with
  | .atom t =>
    rw [render, feedAll_append]
    exact h.feedAll_gap.feedAll_atom (hs.feedAll _) (hx t (by simp [lexemes]))
  | .list items =>
    have hopen := (h.feedAll_callGap layout depth).ready.feed_openBracket
    rw [render, ofString_openBracket, ofString_closeBracket, append_assoc,
      append_assoc, feedAll_append, feedAll_append, feedAll_append]
    have hitems : ∀ t, Lexeme.atom t ∈ lexemesAll items → t.Readable :=
      fun t ht => hx t (by simp [lexemes, ht])
    have h₁ := reads_single not_startsQuote_opening hopen.ready
    have h₂ := h₁.append fun _ => Before.feedAll_renderAll layout (depth + 1) false items
      ((hs.feedAll _).feed _) hopen hitems
    exact h₂.append fun hr => reads_single not_startsQuote_closing hr.feed_closeBracket

/-- The same for the elements of a list. -/
theorem Before.feedAll_renderAll (layout : Layout) (depth : Nat) (spaced : Bool) (xs : List Shape)
    {l : Lexer} {found : List Lexeme} (hs : l.Sound) (h : l.Before spaced found)
    (hxs : ∀ t, Lexeme.atom t ∈ lexemesAll xs → t.Readable) :
    (l.feedAll (renderAll layout depth spaced xs)).Reads found (lexemesAll xs) := by
  match xs with
  | [] =>
    have hready : Lexer.Ready _ _ := h.ready
    exact .inl ⟨by simp [lexemesAll], by simpa [lexemesAll, renderAll] using hready⟩
  | x :: rest =>
    rw [renderAll, lexemesAll, feedAll_append]
    have hx := Before.feedAll_render layout depth spaced x hs h
      fun t ht => hxs t (by simp [lexemesAll, ht])
    exact hx.append fun hr => Before.feedAll_renderAll layout depth true rest (hs.feedAll _) hr
      fun t ht => hxs t (by simp [lexemesAll, ht])

end

/-! ## 5. Whole texts -/

abbrev formLexemes (forms : List (List Shape)) : List Lexeme :=
  lexemesAll (forms.map .list)

/-- A top-level form, and the line end after it. -/
theorem Ready.feedAll_form (layout : Layout) (items : List Shape) (hs : l.Sound)
    (h : l.Ready found) (hitems : ∀ t, Lexeme.atom t ∈ lexemesAll items → t.Readable) :
    (l.feedAll ("(" ++ renderAll layout 1 false items ++ ending layout ++ "\n")).Reads
      found (Shape.list items).lexemes := by
  have hopen := h.feed_openBracket
  have h₁ := reads_single not_startsQuote_opening hopen.ready
  have h₂ := h₁.append fun _ =>
    Before.feedAll_renderAll layout 1 false items (hs.feed _) hopen hitems
  have h₃ : ∀ (xs : List Lexeme) (l : Lexer), l.Ready xs →
      (l.feedAll (ending layout ++ "\n")).Reads xs [.closing] := by
    intro xs l hl
    refine reads_single not_startsQuote_closing ?_
    cases layout with
    | compact =>
      rw [ending, ofString_closeBracket, ofString_newline]
      exact hl.feed_closeBracket.feed_newline.ready
    | pretty =>
      rw [ending, ofString_closeLine, ofString_newline]
      exact hl.feed_newline.ready.feed_closeBracket.feed_newline.ready
  have hall := h₂.append fun hr => h₃ _ _ hr
  rw [append_assoc, append_assoc, ofString_openBracket, feedAll_append,
    feedAll_append]
  exact hall

theorem Ready.feedAll_renderForms (layout : Layout) (forms : List (List Shape)) :
    ∀ {l : Lexer} {found : List Lexeme}, l.Sound → l.Ready found →
      (∀ t, Lexeme.atom t ∈ formLexemes forms → t.Readable) →
      (l.feedAll (renderForms layout forms)).Reads found (formLexemes forms) := by
  induction forms with
  | nil => exact fun _ h _ => .inl ⟨by simp [formLexemes, lexemesAll], h⟩
  | cons items rest ih =>
    intro l found hs h hread
    rw [renderForms, flatMap_cons, feedAll_append]
    have hitems := h.feedAll_form layout items hs
      fun t ht => hread t (by simp [formLexemes, lexemesAll, lexemes, ht])
    refine Reads.append hitems fun hr => ih (hs.feedAll _) hr fun t ht => hread t ?_
    exact mem_append_right _ ht

theorem Ready.finish (h : l.Ready found) : l.finish.found = found ∧ l.finish.failed = false := by
  unfold Lexer.finish
  rw [h.1, h.2.1, if_neg Bool.false_ne_true, if_neg Bool.false_ne_true]
  have hword := h.found_endWord l.previous .blank
  rcases h.mode with hm | ⟨t, hm⟩
  · rw [hm]
    exact ⟨hword, by simpa using h.1⟩
  · rw [hm]
    exact ⟨hword, by simpa using h.1⟩

theorem Derailed.finish (h : l.Derailed found) : l.finish.failed = true ∨
    ∃ later t, l.finish.found = later ++ .atom t :: found ∧ ¬ t.StartsQuote := by
  unfold Lexer.finish
  split
  · next hf => exact .inl hf
  · next hf =>
    split
    · exact .inl rfl
    · split
      · exact .inl rfl
      · next hmode =>
        rcases h.2 with hfailed | ⟨read, hq, -⟩ | ⟨later, t, hfound, ht⟩
        · exact absurd hfailed hf
        · exact absurd hq (hmode read)
        · obtain ⟨later', hl⟩ := found_endWord_suffix l .blank
          exact .inr ⟨later' ++ later, t, by rw [hl, hfound, append_assoc], ht⟩

/-- **The scan of a printed text.**  If no atom begins with a quote, the lexemes are those that
were printed.  Otherwise the scan fails, or finds another atom in the place of the first that
does. -/
theorem run_renderForms (layout : Layout) {forms : List (List Shape)}
    (hread : ∀ t, Lexeme.atom t ∈ formLexemes forms → t.Readable) :
    ((∀ x ∈ formLexemes forms, ¬ x.StartsQuote) ∧
        (run (renderForms layout forms)).found.reverse = formLexemes forms ∧
        (run (renderForms layout forms)).failed = false) ∨
      ∃ t, Lexeme.atom t ∈ formLexemes forms ∧ t.StartsQuote ∧
        ((run (renderForms layout forms)).failed = true ∨
          ∃ u, ¬ u.StartsQuote ∧ Parts u t
            (run (renderForms layout forms)).found.reverse (formLexemes forms)) := by
  have hstart : Ready [] {} := ⟨rfl, rfl, .inl ⟨rfl, rfl⟩⟩
  rcases hstart.feedAll_renderForms layout forms sound_empty hread with
    ⟨hgood, hready⟩ | ⟨good, t, rest, hsplit, ht, -, hd⟩
  · obtain ⟨hfound, hfailed⟩ := hready.finish
    exact .inl ⟨hgood, by rw [run, hfound]; simp, hfailed⟩
  · refine .inr ⟨t, by rw [hsplit]; simp, ht, ?_⟩
    refine hd.finish.imp_right ?_
    rintro ⟨later, u, hfound, hu⟩
    refine ⟨u, hu, ?_⟩
    rw [run, hfound, hsplit]
    simpa using (Parts.here later.reverse rest).append_left good

end Lexer

end HaloScript
