/-
# Carets

The carets below a line stand under the bytes that the span is about
(`SourceFile.snippet_marks_span`).  The scanner counts columns by bytes that do not continue a
character, while a snippet splits the text into lines again, trims the line and turns the column
back into an offset by reading characters.  The two agree where a text is UTF-8, as no span of a
file begins or ends inside a character.  How wide a text is and how it is painted is up to the
terminal.
-/
import HaloScript.Proofs.Characters
import Mathlib.Data.List.TakeWhile

namespace HaloScript

open List

namespace Text

/-! ## 1. Lines -/

/-- A line of the text, the text in front of it, the carriage returns that end it and the text
behind these. -/
structure IsLine (text before line returns after : Text) : Prop where
  text_eq : text = before ++ (line ++ (returns ++ after))
  first : before = [] ∨ before.getLast? = some newline
  within : newline ∉ line ++ returns
  last : after = [] ∨ after.head? = some newline
  returns : ∀ b ∈ returns, b = carriageReturn
  trimmed : line.getLast? ≠ some carriageReturn

theorem takeWhile_of_head {t : Text} (ht : t = [] ∨ t.head? = some newline) :
    t.takeWhile (· != newline) = [] := by
  cases t with
  | nil => rfl
  | cons b =>
    obtain rfl : b = newline := by simpa using ht
    simp

theorem lastLine_append {s t : Text} (hs : s = [] ∨ s.getLast? = some newline)
    (ht : newline ∉ t) : lastLine (s ++ t) = t := by
  have hback : s.reverse.takeWhile (· != newline) = [] :=
    takeWhile_of_head (by simpa using hs)
  rw [lastLine, reverse_append, takeWhile_append_of_pos, hback, append_nil,
    reverse_reverse]
  intro b hb
  rw [bne_iff_ne]
  rintro rfl
  exact ht (mem_reverse.mp hb)

theorem splitOn_first {t after : Text} (ht : newline ∉ t)
    (hafter : after = [] ∨ after.head? = some newline) :
    ∃ more, splitOn newline (t ++ after) = t :: more := by
  induction t with
  | nil =>
    cases after with
    | nil => exact ⟨[], rfl⟩
    | cons b after =>
      obtain rfl : b = newline := by simpa using hafter
      exact ⟨splitOn newline after, by simp [splitOn]⟩
  | cons b t ih =>
    obtain ⟨hb, ht⟩ := not_or.mp (mt mem_cons.mpr ht)
    obtain ⟨more, hmore⟩ := ih ht
    exact ⟨more, by simp [splitOn, hmore, Ne.symm hb]⟩

/-- **A line is found by the number of line feeds in front of it.** -/
theorem splitOn_line {before t after : Text}
    (hbefore : before = [] ∨ before.getLast? = some newline)
    (ht : newline ∉ t) (hafter : after = [] ∨ after.head? = some newline) :
    (splitOn newline (before ++ (t ++ after)))[before.count newline]? = some t := by
  induction before with
  | nil =>
    obtain ⟨more, hmore⟩ := splitOn_first ht hafter
    rw [nil_append, hmore]
    rfl
  | cons b before ih =>
    by_cases hb : b = newline
    · have hrest : before = [] ∨ before.getLast? = some newline := by
        cases before with
        | nil => exact .inl rfl
        | cons => exact .inr (by simpa using hbefore)
      simpa [splitOn, hb] using ih hrest
    · -- the byte joins the line behind it, and a line feed follows
      have hlast : before.getLast? = some newline := by
        cases before with
        | nil => exact absurd (by simpa using hbefore) hb
        | cons => simpa using hbefore
      obtain ⟨n, hn⟩ : ∃ n, before.count newline = n + 1 :=
        Nat.exists_eq_succ_of_ne_zero
          (Nat.pos_iff_ne_zero.mp (count_pos_iff.mpr (mem_of_getLast? hlast)))
      have hfound := ih (.inr hlast)
      rw [count_cons_of_ne hb, hn] at *
      rw [cons_append, splitOn, if_neg (by simpa using hb)]
      cases hsplit : splitOn newline (before ++ (t ++ after)) with
      | nil => simp [hsplit] at hfound
      | cons => simpa [hsplit] using hfound

/-- Trimming takes carriage returns from the end, and all of them. -/
theorem trimRight_returns (t : Text) :
    ∃ returns, t = t.trimRight (· == carriageReturn) ++ returns ∧
      (∀ b ∈ returns, b = carriageReturn) ∧
      (t.trimRight (· == carriageReturn)).getLast? ≠ some carriageReturn := by
  refine ⟨(t.reverse.takeWhile (· == carriageReturn)).reverse, ?_, fun b hb => ?_, fun h => ?_⟩
  · rw [trimRight, ← reverse_append, takeWhile_append_dropWhile, reverse_reverse]
  · simpa using mem_takeWhile_imp (mem_reverse.mp hb)
  · rw [trimRight, getLast?_reverse] at h
    have hhead := head?_dropWhile_not (· == carriageReturn) t.reverse
    rw [h] at hhead
    simp at hhead

theorem exists_lineEnd (t : Text) : ∃ part after, t = part ++ after ∧ newline ∉ part ∧
    (after = [] ∨ after.head? = some newline) := by
  refine ⟨t.takeWhile (· != newline), t.dropWhile (· != newline),
    takeWhile_append_dropWhile.symm, fun hmem => ?_, ?_⟩
  · simpa using mem_takeWhile_imp hmem
  · have hhead := head?_dropWhile_not (· != newline) t
    cases hdrop : t.dropWhile (· != newline) with
    | nil => exact .inl rfl
    | cons => exact .inr (by simpa [hdrop] using hhead)

theorem exists_lineStart (t : Text) : ∃ before part, t = before ++ part ∧ newline ∉ part ∧
    (before = [] ∨ before.getLast? = some newline) := by
  obtain ⟨part, after, ht, hpart, hafter⟩ := exists_lineEnd t.reverse
  refine ⟨after.reverse, part.reverse, ?_, by simpa using hpart, by simpa using hafter⟩
  rw [← reverse_append, ← ht, reverse_reverse]

/-- **Every place of a text is on one of its lines.** -/
theorem exists_isLine (left right : Text) :
    ∃ before whole line returns after, whole = line ++ returns ∧
      whole.trimRight (· == carriageReturn) = line ∧
      IsLine (left ++ right) before line returns after ∧
      before.length ≤ left.length ∧ left.length ≤ (before ++ (line ++ returns)).length := by
  obtain ⟨before, head, rfl, hhead, hbefore⟩ := exists_lineStart left
  obtain ⟨tail, after, rfl, htail, hafter⟩ := exists_lineEnd right
  obtain ⟨returns, hwhole, hreturns, htrimmed⟩ := trimRight_returns (head ++ tail)
  refine ⟨before, head ++ tail, _, returns, after, hwhole, rfl,
    ⟨?_, hbefore, ?_, hafter, hreturns, htrimmed⟩, by simp, ?_⟩
  · rw [← append_assoc _ returns, ← hwhole]
    simp
  · rw [← hwhole, mem_append]
    exact not_or.mpr ⟨hhead, htail⟩
  · rw [← hwhole]
    simp

/-! ## 2. Places on a line -/

section Places

variable {text before line returns after : Text} (hline : IsLine text before line returns after)

include hline

/-- A line of a text that is UTF-8 is UTF-8, as it lies between line ends. -/
theorem IsLine.isUtf8 (hutf8 : text.IsUtf8) : line.IsUtf8 := by
  obtain ⟨cs, rfl⟩ := hutf8
  obtain ⟨_, rs, -, -, hrs⟩ := encode_edge hline.text_eq fun a ha b _ => by
    rcases hline.first with rfl | hfirst
    · simp at ha
    · obtain rfl : newline = a := by simpa [hfirst] using ha
      exact .inl (by decide)
  obtain ⟨ls, _, -, hls, -⟩ := encode_edge hrs.symm fun a _ b hb => by
    refine .inr ?_
    cases returns with
    | nil =>
      rcases hline.last with rfl | hlast
      · simp at hb
      · obtain rfl : newline = b := by simpa [hlast] using hb
        decide
    | cons r returns =>
      obtain rfl : r = b := by simpa using hb
      rw [hline.returns r mem_cons_self]
      decide
  exact ⟨ls, hls⟩

variable {l : Location} (hl : l.Marks text) (hlow : before.length ≤ l.offset)
  (hhigh : l.offset ≤ (before ++ (line ++ returns)).length)

include hl hlow hhigh

/-- A place on the line is told by the bytes of the line in front of it. -/
theorem IsLine.exists_part : ∃ part rest, part ++ rest = line ++ (returns ++ after) ∧
    Edge part rest ∧ l.offset = before.length + part.length ∧ l.line = before.count newline ∧
    l.column = part.columns := by
  obtain ⟨left, right, htext, rfl, hedge⟩ := hl
  rw [Location.offset_after] at hlow hhigh
  obtain ⟨part, rfl⟩ : before <+: left :=
    prefix_of_prefix_length_le ⟨_, hline.text_eq.symm⟩ ⟨_, htext.symm⟩ hlow
  have hpart : part ++ right = line ++ (returns ++ after) := by
    rw [hline.text_eq, append_assoc] at htext
    exact (append_cancel_left htext).symm
  have hnone : newline ∉ part := fun hmem => by
    have hsub : part <+: line ++ returns := by
      refine prefix_of_prefix_length_le ⟨right, hpart⟩ ⟨after, by simp⟩ ?_
      simp only [length_append] at hhigh ⊢
      omega
    exact hline.within (hsub.subset hmem)
  refine ⟨part, right, hpart, fun a ha b hb => hedge a ?_ b hb, by simp, ?_, ?_⟩
  · rw [Option.mem_def] at ha ⊢
    rw [getLast?_append, ha]
    rfl
  · rw [Location.after_eq, count_append, count_eq_zero.mpr hnone, Nat.add_zero]
  · rw [Location.after_eq, lastLine_append hline.first hnone]

theorem IsLine.line_eq : l.line = before.count newline := by
  obtain ⟨_, _, -, -, -, hnumber, -⟩ := hline.exists_part hl hlow hhigh
  exact hnumber

/-- **The column of a place leads back to its offset**, or to the end of the line if the place is
between the carriage returns. -/
theorem IsLine.columnOffset_eq (hutf8 : text.IsUtf8) :
    line.columnOffset l.column = min (l.offset - before.length) line.length := by
  obtain ⟨part, rest, hpart, hedge, hoffset, -, hcolumn⟩ := hline.exists_part hl hlow hhigh
  obtain ⟨cs, hcs⟩ := hline.isUtf8 hutf8
  rw [hoffset, hcolumn, Nat.add_sub_cancel_left]
  rcases append_eq_append_iff.mp hpart with ⟨more, rfl, hmore⟩ | ⟨more, rfl, hmore⟩
  · obtain ⟨ls, rs, rfl, rfl, -⟩ := encode_edge hcs.symm fun a ha b hb => hedge a ha b (by
      rw [Option.mem_def] at hb ⊢
      rw [hmore, head?_append, hb]
      rfl)
    rw [hcs, columnOffset_encode, encode_append, length_append]
    omega
  · have hle : columns line ≤ columns (line ++ more) := by
      rw [columns_append]
      omega
    rw [hcs] at hle ⊢
    rw [columnOffset_encode_of_le hle, length_append]
    omega

end Places

/-- A place behind a line is on another one. -/
theorem IsLine.line_ne {text before line returns after : Text}
    (hline : IsLine text before line returns after) {l : Location} (hl : l.Marks text)
    (hhigh : (before ++ (line ++ returns)).length < l.offset) : l.line ≠ before.count newline := by
  obtain ⟨left, right, htext, rfl, -⟩ := hl
  rw [Location.offset_after] at hhigh
  have htext' : text = (before ++ (line ++ returns)) ++ after := by simp [hline.text_eq]
  obtain ⟨part, rfl⟩ : before ++ (line ++ returns) <+: left :=
    prefix_of_prefix_length_le ⟨_, htext'.symm⟩ ⟨_, htext.symm⟩ (Nat.le_of_lt hhigh)
  cases part with
  | nil => simp at hhigh
  | cons b part =>
    have hafter : after = b :: (part ++ right) := by
      rw [htext', append_assoc _ _ right] at htext
      exact append_cancel_left htext
    obtain rfl : b = newline := by simpa [hafter] using hline.last
    rw [Location.after_eq, count_append, count_append, count_cons_self]
    dsimp only
    omega

end Text

/-! ## 3. Snippets -/

/-- The part of a line that belongs to a span, told by offsets alone: from the start of the span up
to its stop or, if there is none on this line, up to the end of the line.  The carriage returns
behind the line are not part of it. -/
structure Span.Covers (span : Span) (before line returns : Text) (i j : Nat) : Prop where
  inside : before.length ≤ span.start.offset ∧
    span.start.offset ≤ (before ++ (line ++ returns)).length
  start : i = min (span.start.offset - before.length) line.length
  stop : span.unfinished = false → span.stop.offset ≤ (before ++ (line ++ returns)).length →
    j = min (span.stop.offset - before.length) line.length
  open_stop : span.unfinished = true ∨ (before ++ (line ++ returns)).length < span.stop.offset →
    j = line.length

/-- The snippet of a sound span is found by line and column, but it is the one that the offsets
tell. -/
theorem Span.Sound.exists_snippet {file : SourceFile} {span : Span} (h : span.Sound file)
    (hutf8 : file.text.IsUtf8) :
    ∃ before line returns after start stop, Text.IsLine file.text before line returns after ∧
      span.Covers before line returns start stop ∧
      Snippet.ofSpan? span = some ⟨before.count Text.newline, line, start, stop⟩ := by
  obtain ⟨left, right, htext, hstart, -⟩ := id h.start
  obtain ⟨before, whole, line, returns, after, hwhole, htrim, hline, hlow, hhigh⟩ :=
    Text.exists_isLine left right
  rw [← htext] at hline
  have hoffset : span.start.offset = left.length := by rw [hstart, Location.offset_after]
  rw [← hoffset] at hlow hhigh
  have hnumber := hline.line_eq h.start hlow hhigh
  have hfirst := hline.columnOffset_eq h.start hlow hhigh hutf8
  have hfound : (file.text.splitOn Text.newline)[span.start.line]? = some whole := by
    rw [hnumber, hline.text_eq, ← append_assoc line, hwhole]
    exact Text.splitOn_line hline.first hline.within hline.last
  have hof : Snippet.ofSpan? span = some ⟨before.count Text.newline, line,
      min (span.start.offset - before.length) line.length,
      max (min (span.start.offset - before.length) line.length)
        (if span.stop.line == before.count Text.newline && !span.unfinished then
          line.columnOffset span.stop.column else line.length)⟩ := by
    rw [Snippet.ofSpan?, h.source]
    dsimp only
    rw [hfound]
    dsimp only
    rw [htrim, hfirst, hnumber]
  have horder := h.order
  refine ⟨before, line, returns, after, _, _, hline,
    ⟨⟨hlow, hhigh⟩, rfl, fun hdone hstop => ?_, fun hopen => ?_⟩, hof⟩
  · have hstopLow : before.length ≤ span.stop.offset := Nat.le_trans hlow horder
    rw [hline.line_eq h.stop hstopLow hstop, hdone, beq_self_eq_true, Bool.not_false, Bool.and_self,
      if_pos rfl, hline.columnOffset_eq h.stop hstopLow hstop hutf8]
    omega
  · have hother : (span.stop.line == before.count Text.newline && !span.unfinished) = false := by
      rcases hopen with hopen | hstop
      · rw [hopen, Bool.not_true, Bool.and_false]
      · rw [beq_eq_false_iff_ne.mpr (hline.line_ne h.stop hstop), Bool.false_and]
    rw [hother, if_neg Bool.false_ne_true]
    omega

namespace SourceFile

/-- **Carets stand under the bytes of the span.**  A message about a span that scanning or reading
a UTF-8 file gives is followed by two lines.  The first one shows the line in which the span starts,
without the carriage returns at its end and with tabs expanded.  In the second one as many blanks as
the bytes in front of the span take cells stand before the carets, and there are as many carets as
the bytes of the span take cells, at least one.  Those bytes begin at the start of the span, or at
the end of the line if it starts behind that; they end, in the same way, at the stop of the span if
it has one on this line, and with the line otherwise.

This is so on every terminal, whatever it takes for the width of a text and however it paints.  The
text has to be UTF-8: in other texts a column, which counts bytes that do not continue a character,
need not lead back to the byte it was counted at. -/
theorem snippet_marks_span (file : SourceFile) (hutf8 : file.text.IsUtf8) (span : Span)
    (hspan : span ∈ file.spans) :
    ∃ before line returns after start stop, Text.IsLine file.text before line returns after ∧
      span.Covers before line returns start stop ∧
      ∀ (term : Terminal) (m : Message), m.span = some span →
        m.print term =
          term.paint .place span.place ++ ": " ++ term.paint (.level m.level) m.level.name ++
            ": " ++ m.content ++ "\n" ++
          (term.paint .gutter ((Text.ofNat (before.count Text.newline + 1)).padLeft 4 ++ " |") ++
            " " ++ line.expandTabs ++ "\n" ++
          term.paint .gutter "     |" ++ " " ++
            Text.repeated (term.cells (Text.expandTabs (line.take start))) Text.space ++
            term.paint .caret (Text.repeated
              (max 1 (term.cells (Text.expandTabs ((line.take stop).drop start)))) 0x5e) ++
            "\n") := by
  obtain ⟨before, line, returns, after, start, stop, hline, hcovers, hs⟩ :=
    (spans_sound hspan).exists_snippet hutf8
  refine ⟨before, line, returns, after, start, stop, hline, hcovers, fun term m hm => ?_⟩
  have hbind : m.span.bind Snippet.ofSpan? =
      some ⟨before.count Text.newline, line, start, stop⟩ := by rw [hm, Option.bind_some, hs]
  rw [Message.print, hbind, Message.place?, hm]
  rfl

/-- A list that is never closed; on its second line a tab, characters of two bytes and a quoted
atom. -/
def caretSample : SourceFile := ⟨"a", "(f\r\n\té \"ü\" x\r\n"⟩

/-- The quoted atom is shown behind four blanks for the tab, on a terminal without colors that
counts characters. -/
theorem snippet_marks_span_caretSample :
    let span : Span := ⟨some caretSample, ⟨8, 1, 3⟩, ⟨12, 1, 6⟩, false⟩
    let term : Terminal := ⟨Text.columns, fun _ t => t⟩
    let m : Message := { level := .error, content := "no", span := some span }
    caretSample.text.IsUtf8 ∧ span ∈ caretSample.spans ∧
      m.print term = "a:2:4: error: no\n   2 |     é \"ü\" x\n     |       ^^^\n" ∧
      ∃ before line returns after start stop,
        Text.IsLine caretSample.text before line returns after ∧
        span.Covers before line returns start stop ∧
        m.print term = span.place ++ ": " ++ "error" ++ ": " ++ "no" ++ "\n" ++
          ((Text.ofNat (before.count Text.newline + 1)).padLeft 4 ++ " |" ++ " " ++
            line.expandTabs ++ "\n" ++ "     |" ++ " " ++
            Text.repeated (Text.columns (Text.expandTabs (line.take start))) Text.space ++
            Text.repeated (max 1 (Text.columns (Text.expandTabs ((line.take stop).drop start))))
              0x5e ++ "\n") := by
  intro span term m
  have hutf8 : caretSample.text.IsUtf8 := Text.isUtf8_ofString _
  have hspan : span ∈ caretSample.spans := by decide
  obtain ⟨before, line, returns, after, start, stop, hline, hcovers, hprint⟩ :=
    snippet_marks_span caretSample hutf8 span hspan
  exact ⟨hutf8, hspan, by decide +kernel, before, line, returns, after, start, stop, hline,
    hcovers, hprint term m rfl⟩

end SourceFile

end HaloScript
