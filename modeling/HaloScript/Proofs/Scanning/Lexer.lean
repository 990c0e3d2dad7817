/-
# Scanning without places

The scanner keeps positions and cuts the text of a token out of the file afterwards.  A `Lexer`
reads the same bytes, collects the text itself and keeps no position.  Both find the same
lexemes (`scan_lexemes`), so everything about the text of tokens can be said of the lexer.
-/
import HaloScript.Proofs.Shape
import HaloScript.Form.Basic

namespace HaloScript

open List Text

/-! ## 1. The lexer -/

/-- What the lexer is in the middle of, with the text read so far. -/
inductive LexMode where
  | blank
  | comment
  | word (read : Text)
  | quoted (read : Text)
deriving DecidableEq, Inhabited

/-- The lexer between two bytes. -/
structure Lexer where
  previous : Option UInt8 := none
  mode : LexMode := .blank
  /-- The last byte is a carriage return whose line feed is still to come. -/
  held : Bool := false
  /-- The lexemes found so far, the last one first. -/
  found : List Lexeme := []
  failed : Bool := false
deriving DecidableEq, Inhabited

def Text.IsSeparator (b : UInt8) : Prop :=
  b = semicolon ∨ b = space ∨ b = tab ∨ b = openBracket ∨ b = closeBracket

namespace Lexer

def endWord (l : Lexer) (mode : LexMode) : Lexer :=
  match l.mode with
  | .word read => { l with found := .atom read :: l.found, mode }
  | _ => { l with mode }

def endLine (l : Lexer) (ending : Text) : Lexer :=
  let next := { l with previous := some newline, held := false }
  match l.mode with
  | .quoted read => { next with mode := .quoted (read ++ ending) }
  | _ => next.endWord .blank

def feedPlain (l : Lexer) (b : UInt8) : Lexer :=
  let next := { l with previous := some b }
  match b with
  | semicolon => next.endWord .comment
  | space | tab => next.endWord .blank
  | openBracket =>
    let ended := next.endWord .blank
    { ended with found := .opening :: ended.found }
  | closeBracket =>
    let ended := next.endWord .blank
    { ended with found := .closing :: ended.found }
  | _ =>
    match l.mode with
    | .word read => { next with mode := .word (read ++ [b]) }
    | _ =>
      if b == doubleQuote && Scanner.quoteMayFollow l.previous then
        { next with mode := .quoted [] }
      else { next with mode := .word [b] }

theorem feedPlain_semicolon (l : Lexer) : l.feedPlain semicolon =
    endWord { l with previous := some semicolon } .comment := rfl

theorem feedPlain_space (l : Lexer) : l.feedPlain space =
    endWord { l with previous := some space } .blank := rfl

theorem feedPlain_tab (l : Lexer) : l.feedPlain tab =
    endWord { l with previous := some tab } .blank := rfl

theorem feedPlain_openBracket (l : Lexer) : l.feedPlain openBracket =
    { endWord { l with previous := some openBracket } .blank with
      found := .opening :: (endWord { l with previous := some openBracket } .blank).found } :=
  rfl

theorem feedPlain_closeBracket (l : Lexer) : l.feedPlain closeBracket =
    { endWord { l with previous := some closeBracket } .blank with
      found := .closing :: (endWord { l with previous := some closeBracket } .blank).found } :=
  rfl

theorem feedPlain_other (l : Lexer) {b : UInt8} (hb : ¬ IsSeparator b) :
    l.feedPlain b =
      match l.mode with
      | .word read => { l with previous := some b, mode := .word (read ++ [b]) }
      | _ =>
        if b == doubleQuote && Scanner.quoteMayFollow l.previous then
          { l with previous := some b, mode := .quoted [] }
        else { l with previous := some b, mode := .word [b] } := by
  unfold feedPlain
  split
  case h_6 => rfl
  all_goals simp [IsSeparator] at hb

def feedByte (l : Lexer) (b : UInt8) : Lexer :=
  match l.mode with
  | .comment => { l with previous := some b }
  | .quoted read =>
    let next := { l with previous := some b }
    if b == doubleQuote && l.previous != some backslash then
      { next with found := .atom read :: l.found, mode := .blank }
    else { next with mode := .quoted (read ++ [b]) }
  | _ => l.feedPlain b

def feed (l : Lexer) (b : UInt8) : Lexer :=
  if l.failed then l
  else if l.held then
    if b == newline then l.endLine [carriageReturn, newline]
    else { l with failed := true }
  else if b == carriageReturn then { l with previous := some b, held := true }
  else if b == newline then l.endLine [newline]
  else l.feedByte b

def finish (l : Lexer) : Lexer :=
  if l.failed then l
  else if l.held then { l with failed := true }
  else match l.mode with
    | .quoted _ => { l with failed := true }
    | _ => l.endWord .blank

def feedAll (l : Lexer) (t : Text) : Lexer := t.foldl feed l

@[simp] theorem feedAll_nil (l : Lexer) : l.feedAll [] = l := rfl

@[simp] theorem feedAll_cons (l : Lexer) (b : UInt8) (t : Text) :
    l.feedAll (b :: t) = (l.feed b).feedAll t := rfl

theorem feedAll_append (l : Lexer) (s t : Text) : l.feedAll (s ++ t) = (l.feedAll s).feedAll t :=
  foldl_append

end Lexer

/-! ## 2. The scanner follows the lexer -/

/-- What every byte keeps holds at the end of the text. -/
theorem Text.foldl_keeps {α : Type} {P : Text → α → Prop} {f : α → UInt8 → α} {text : Text} {a : α}
    (hstart : P [] a)
    (hstep : ∀ {seen b rest a}, text = seen ++ b :: rest → P seen a → P (seen ++ [b]) (f a b)) :
    P text (text.foldl f a) := by
  have h :
      ∀ (rest seen : Text) (a : α), text = seen ++ rest → P seen a → P text (rest.foldl f a) := by
    intro rest
    induction rest with
    | nil =>
      intro seen a htext h
      rw [append_nil] at htext
      exact htext ▸ h
    | cons b rest ih =>
      exact fun seen a htext h => ih (seen ++ [b]) (f a b) (by simp [htext]) (hstep htext h)
  exact h text [] a rfl hstart

def Text.slice (t : Text) (start stop : Nat) : Text := (t.drop start).take (stop - start)

theorem Text.slice_self (t : Text) (n : Nat) : t.slice n n = [] := by simp [slice]

theorem Text.slice_succ {t seen rest : Text} {b : UInt8} (ht : t = seen ++ b :: rest) {start : Nat}
    (hle : start ≤ seen.length) :
    t.slice start (seen.length + 1) = t.slice start seen.length ++ [b] := by
  have hsub : seen.length + 1 - start = (seen.length - start) + 1 := by omega
  have hget : t[start + (seen.length - start)]? = some b := by
    rw [Nat.add_sub_cancel' hle, ht]
    simp
  unfold slice
  rw [hsub, take_add_one, getElem?_drop, hget]
  rfl

def Token.lexeme (t : Token) : Lexeme :=
  match t.kind with
  | .openBracket => .opening
  | .closeBracket => .closing
  | .atom => .atom (Form.atomText t.span false)
  | .quotedAtom => .atom (Form.atomText t.span true)

namespace Scanner

/-- What is being read, up to the offset `stop`. -/
def ModeTracks (text : Text) (stop : Nat) : ScanMode → LexMode → Prop
  | .blank, .blank => True
  | .comment, .comment => True
  | .word start, .word read => start.offset ≤ stop ∧ text.slice start.offset stop = read
  | .quoted start, .quoted read =>
    start.offset ≤ stop ∧ text.slice start.offset stop = doubleQuote :: read
  | _, _ => False

/-- The scanner and the lexer after the bytes `seen` of a file. -/
structure Tracks (file : SourceFile) (seen : Text) (s : Scanner) (l : Lexer) : Prop where
  offset : s.here.offset = seen.length
  previous : s.previous = l.previous
  found : s.tokens.map Token.lexeme = l.found
  error : s.error = none
  failed : l.failed = false
  /-- A carriage return that is held back has been seen, and is no part of what is read. -/
  held : match s.heldReturn with
    | none => l.held = false ∧ ModeTracks file.text seen.length s.mode l.mode
    | some stop => l.held = true ∧ ∃ init, seen = init ++ [carriageReturn] ∧
        stop.offset = init.length ∧ ModeTracks file.text init.length s.mode l.mode

/-- After a fault both stand still. -/
structure Stopped (s : Scanner) (l : Lexer) : Prop where
  found : s.tokens.map Token.lexeme = l.found
  error : s.error.isSome = true
  failed : l.failed = true

theorem Tracks.modeTracks {file : SourceFile} {seen : Text} {s : Scanner} {l : Lexer}
    (h : Tracks file seen s l) (hheld : s.heldReturn = none) :
    l.held = false ∧ ModeTracks file.text seen.length s.mode l.mode := by
  have := h.held
  rwa [hheld] at this

/-! ### Ending a word -/

section

variable (s : Scanner) (file : SourceFile) (stop : Location) (m : ScanMode)

@[simp] theorem here_endWord : (s.endWord file stop m).here = s.here := by
  unfold endWord
  split <;> rfl

@[simp] theorem previous_endWord : (s.endWord file stop m).previous = s.previous := by
  unfold endWord
  split <;> rfl

@[simp] theorem mode_endWord : (s.endWord file stop m).mode = m := by
  unfold endWord
  split <;> rfl

@[simp] theorem heldReturn_endWord : (s.endWord file stop m).heldReturn = s.heldReturn := by
  unfold endWord
  split <;> rfl

@[simp] theorem error_endWord : (s.endWord file stop m).error = s.error := by
  unfold endWord
  split <;> rfl

end

end Scanner

namespace Lexer

section

variable (l : Lexer) (m : LexMode)

@[simp] theorem previous_endWord : (l.endWord m).previous = l.previous := by
  unfold endWord
  split <;> rfl

@[simp] theorem mode_endWord : (l.endWord m).mode = m := by
  unfold endWord
  split <;> rfl

@[simp] theorem held_endWord : (l.endWord m).held = l.held := by
  unfold endWord
  split <;> rfl

@[simp] theorem failed_endWord : (l.endWord m).failed = l.failed := by
  unfold endWord
  split <;> rfl

end

end Lexer

namespace Scanner

variable {file : SourceFile} {s : Scanner} {l : Lexer} {seen rest : Text} {b : UInt8}

theorem atomText_word (file : SourceFile) (start stop : Location) :
    Form.atomText ⟨some file, start, stop, false⟩ false =
      file.text.slice start.offset stop.offset := rfl

theorem atomText_quoted {start stop : Location} {read : Text}
    (h : file.text.slice start.offset stop.offset = doubleQuote :: read ++ [doubleQuote]) :
    Form.atomText ⟨some file, start, stop, false⟩ true = read := by
  have htext : Span.text ⟨some file, start, stop, false⟩ =
      doubleQuote :: read ++ [doubleQuote] := h
  unfold Form.atomText
  rw [htext]
  simp

/-- A word that ends is found by both. -/
theorem found_endWord {stop : Location} (hmode : ModeTracks file.text stop.offset s.mode l.mode)
    (hfound : s.tokens.map Token.lexeme = l.found) (m : ScanMode) (m' : LexMode) :
    (s.endWord file stop m).tokens.map Token.lexeme = (l.endWord m').found := by
  unfold endWord Lexer.endWord
  cases hs : s.mode <;> cases hl : l.mode <;> rw [hs, hl] at hmode <;>
    simp only [ModeTracks] at hmode ⊢
  case word.word start read =>
    simp [emit, Token.lexeme, hfound, atomText_word, hmode.2]
  all_goals exact hfound

@[simp] theorem offset_advance (l : Location) (b : UInt8) :
    (l.advance b).offset = l.offset + 1 := by
  unfold Location.advance
  split
  · rfl
  · split <;> rfl

/-- A line that ends, with these bytes, is a line that ends for both. -/
theorem endLine_tracks {seen : Text} {stop : Location} {ending : Text}
    (hhere : s.here.offset + 1 = seen.length) (hstop : stop.offset ≤ seen.length)
    (hending : ∀ start, start ≤ stop.offset →
      file.text.slice start seen.length = file.text.slice start stop.offset ++ ending)
    (hmode : ModeTracks file.text stop.offset s.mode l.mode)
    (hfound : s.tokens.map Token.lexeme = l.found) (herror : s.error = none)
    (hfailed : l.failed = false) : Tracks file seen (s.endLine file stop) (l.endLine ending) := by
  unfold endLine Lexer.endLine
  have hword := found_endWord (s := { s.past newline with heldReturn := none })
    (l := { l with previous := some newline, held := false }) hmode hfound .blank .blank
  cases hs : s.mode <;> cases hl : l.mode <;> rw [hs, hl] at hmode <;>
    simp only [ModeTracks] at hmode
  case quoted.quoted start read =>
    simp only [past, hs]
    refine ⟨by simpa using hhere, rfl, hfound, herror, hfailed, rfl, ?_⟩
    simp only [ModeTracks]
    exact ⟨Nat.le_trans hmode.1 hstop, by rw [hending _ hmode.1, hmode.2]; rfl⟩
  all_goals
    simp only [past, hs, hl] at hword ⊢
    refine ⟨by simpa using hhere, by simp, hword, by simpa using herror, by simpa using hfailed, ?_⟩
    simp [ModeTracks]

/-- A byte that belongs to a word, or opens a quoted atom. -/
theorem feedPlain_other (s : Scanner) (file : SourceFile) (hb : ¬ IsSeparator b) :
    s.feedPlain file b =
      match s.mode with
      | .word _ => s.past b
      | _ =>
        if b == doubleQuote && quoteMayFollow s.previous then
          { s.past b with mode := .quoted s.here }
        else { s.past b with mode := .word s.here } := by
  unfold feedPlain
  split
  case h_6 => rfl
  all_goals simp [IsSeparator] at hb

/-- A bracket is found by both. -/
theorem Tracks.emit_bracket {seen : Text} (h : Tracks file seen s l) (hmode : s.mode = .blank)
    {kind : TokenKind} {lexeme : Lexeme} {start stop : Location}
    (hlex : Token.lexeme ⟨kind, ⟨some file, start, stop, false⟩⟩ = lexeme) :
    Tracks file seen (s.emit file kind start stop .blank)
      { l with found := lexeme :: l.found } := by
  refine { h with found := ?_, held := ?_ }
  · rw [emit, map_cons, hlex, h.found]
  · have := h.held
    rwa [hmode] at this

section

variable (hfile : file.text = seen ++ b :: rest) (h : Tracks file seen s l)

include hfile h

/-- A byte outside quotes and comments. -/
theorem feedPlain_tracks (hheld : s.heldReturn = none) (hquoted : ∀ start, s.mode ≠ .quoted start) :
    Tracks file (seen ++ [b]) (s.feedPlain file b) (l.feedPlain b) := by
  have hmode := h.modeTracks hheld
  have hhere : (s.here.advance b).offset = (seen ++ [b]).length := by simp [h.offset]
  have hword : ∀ m m', ((s.past b).endWord file s.here m).tokens.map Token.lexeme =
      (Lexer.endWord { l with previous := some b } m').found := fun m m' =>
    found_endWord (s := s.past b) (l := { l with previous := some b })
      (by rw [h.offset]; exact hmode.2) h.found m m'
  -- the state after a separator, up to the bracket that is emitted
  have hended : ∀ m m', ModeTracks file.text (seen ++ [b]).length m m' →
      Tracks file (seen ++ [b]) ((s.past b).endWord file s.here m)
        (Lexer.endWord { l with previous := some b } m') := by
    intro m m' hm
    refine ⟨by simpa [past] using hhere, by simp [past], hword m m', by simpa [past] using h.error,
      by simpa using h.failed, ?_⟩
    simpa [past, hheld, hmode.1] using hm
  by_cases hb : IsSeparator b
  · rcases hb with rfl | rfl | rfl | rfl | rfl
    · exact hended .comment .comment trivial
    · exact hended .blank .blank trivial
    · exact hended .blank .blank trivial
    · exact (hended .blank .blank trivial).emit_bracket (mode_endWord _ _ _ _) rfl
    · exact (hended .blank .blank trivial).emit_bracket (mode_endWord _ _ _ _) rfl
  · rw [feedPlain_other s file hb, Lexer.feedPlain_other l hb]
    have hslice : ∀ start, start ≤ seen.length → file.text.slice start (seen ++ [b]).length =
        file.text.slice start seen.length ++ [b] := by
      intro start hle
      rw [length_append]
      exact slice_succ hfile hle
    have hone : file.text.slice s.here.offset (seen ++ [b]).length = [b] := by
      rw [h.offset, hslice _ (Nat.le_refl _), slice_self]
      rfl
    have hle : s.here.offset ≤ (seen ++ [b]).length := by simp [h.offset]
    -- what is read after the byte is `m'` for the lexer and `m` for the scanner
    have hnext : ∀ m m', ModeTracks file.text (seen ++ [b]).length m m' →
        Tracks file (seen ++ [b]) { s.past b with mode := m }
          { l with previous := some b, mode := m' } := by
      intro m m' hm
      refine ⟨hhere, rfl, h.found, h.error, h.failed, ?_⟩
      simpa [past, hheld, hmode.1] using hm
    have hfresh : Tracks file (seen ++ [b])
        (if b == doubleQuote && quoteMayFollow s.previous then
          { s.past b with mode := .quoted s.here }
        else { s.past b with mode := .word s.here })
        (if b == doubleQuote && quoteMayFollow l.previous then
          { l with previous := some b, mode := .quoted [] }
        else { l with previous := some b, mode := .word [b] }) := by
      rw [h.previous]
      split
      · next hq =>
        rw [Bool.and_eq_true, beq_iff_eq] at hq
        exact hnext _ _ ⟨hle, by rw [hone, hq.1]⟩
      · exact hnext _ _ ⟨hle, hone⟩
    have hm := hmode.2
    cases hs : s.mode <;> cases hl : l.mode <;> rw [hs, hl] at hm <;> simp only [ModeTracks] at hm
    case word.word start read =>
      have hword := hnext (.word start) (.word (read ++ [b]))
        ⟨by simp; omega, by rw [hslice _ hm.1, hm.2]⟩
      rwa [← hs] at hword
    case quoted.quoted start read => exact absurd hs (hquoted start)
    all_goals exact hfresh

/-- A byte that is no part of a line end. -/
theorem feedByte_tracks (hheld : s.heldReturn = none) :
    Tracks file (seen ++ [b]) (s.feedByte file b) (l.feedByte b) := by
  have hmode := h.modeTracks hheld
  have hhere : (s.here.advance b).offset = (seen ++ [b]).length := by simp [h.offset]
  have hm := hmode.2
  unfold feedByte Lexer.feedByte
  cases hs : s.mode <;> cases hl : l.mode <;> rw [hs, hl] at hm <;> simp only [ModeTracks] at hm
  case blank.blank => exact feedPlain_tracks hfile h hheld (by simp [hs])
  case word.word start read => exact feedPlain_tracks hfile h hheld (by simp [hs])
  case comment.comment =>
    refine ⟨hhere, rfl, h.found, h.error, h.failed, ?_⟩
    simp [past, hheld, hmode.1, hs, ModeTracks]
  case quoted.quoted start read =>
    have hslice : file.text.slice start.offset (seen ++ [b]).length =
        doubleQuote :: read ++ [b] := by
      rw [length_append, ← hm.2]
      exact slice_succ hfile hm.1
    have hle : start.offset ≤ (seen ++ [b]).length := by simp; omega
    dsimp only
    rw [h.previous]
    split
    · next hq =>
      rw [Bool.and_eq_true, beq_iff_eq] at hq
      refine ⟨hhere, rfl, ?_, h.error, h.failed, ?_⟩
      · have hstop : (s.past b).here.offset = (seen ++ [b]).length := hhere
        have htext : Form.atomText ⟨some file, start, (s.past b).here, false⟩ true = read :=
          atomText_quoted (by rw [hstop, hslice, hq.1])
        rw [emit, map_cons, ← h.found]
        exact congrArg (fun t => Lexeme.atom t :: s.tokens.map Token.lexeme) htext
      · simp [past, emit, hheld, hmode.1, ModeTracks]
    · refine ⟨hhere, rfl, h.found, h.error, h.failed, ?_⟩
      have hread :
          ModeTracks file.text (seen ++ [b]).length (.quoted start) (.quoted (read ++ [b])) :=
        ⟨hle, hslice⟩
      simpa [past, hheld, hmode.1, hs] using hread

/-- One byte.  A fault is a fault for both. -/
theorem feed_tracks :
    Tracks file (seen ++ [b]) (s.feed file b) (l.feed b) ∨
      Stopped (s.feed file b) (l.feed b) := by
  unfold feed Lexer.feed
  rw [h.error, h.failed, Option.isSome_none, if_neg Bool.false_ne_true, if_neg Bool.false_ne_true]
  have hheld := h.held
  cases hr : s.heldReturn with
  | some =>
    rw [hr] at hheld
    obtain ⟨hl, init, hinit, hstop, hmode⟩ := hheld
    rw [hl, if_pos rfl]
    dsimp only
    split
    · next hb =>
      rw [beq_iff_eq] at hb
      subst hb
      left
      refine endLine_tracks (by simp [h.offset]) (by simp [hstop, hinit]) ?_
        (by rw [hstop]; exact hmode) h.found h.error h.failed
      -- the carriage return and the line feed are the last two bytes seen
      intro start hle
      rw [hstop] at hle ⊢
      have hreturn : file.text = init ++ carriageReturn :: newline :: rest := by
        rw [hfile, hinit]
        simp
      have hlen : seen.length = init.length + 1 := by simp [hinit]
      have h1 := slice_succ hreturn hle
      have h2 := slice_succ hfile (Nat.le_trans hle (by omega))
      rw [length_append, length_singleton, h2, hlen, h1]
      simp
    · exact .inr ⟨h.found, rfl, rfl⟩
  | none =>
    rw [hr] at hheld
    rw [hheld.1, if_neg Bool.false_ne_true]
    dsimp only
    split
    · next hb =>
      left
      refine ⟨by simp [past, h.offset], rfl, h.found, h.error, rfl, rfl, seen, ?_, h.offset,
        hheld.2⟩
      rw [beq_iff_eq] at hb
      rw [hb]
    · split
      · next hb =>
        rw [beq_iff_eq] at hb
        subst hb
        left
        refine endLine_tracks (by simp [h.offset]) (by simp [h.offset]) ?_
          (by rw [h.offset]; exact hheld.2) h.found h.error h.failed
        intro start hle
        rw [h.offset] at hle ⊢
        rw [length_append]
        exact slice_succ hfile hle
      · exact .inl (feedByte_tracks hfile h hr)

end

theorem Stopped.feed (h : Stopped s l) (file : SourceFile) (b : UInt8) :
    Stopped (s.feed file b) (l.feed b) := by
  unfold Scanner.feed Lexer.feed
  rw [if_pos h.error, if_pos h.failed]
  exact h

/-- At the end of the text both have found the same. -/
theorem finish_tracks (h : Tracks file file.text s l ∨ Stopped s l) :
    (s.finish file).tokens.map Token.lexeme = l.finish.found ∧
      (s.finish file).error.isSome = l.finish.failed := by
  unfold finish Lexer.finish
  rcases h with h | h
  · rw [h.error, h.failed, Option.isSome_none, if_neg Bool.false_ne_true,
      if_neg Bool.false_ne_true]
    have hheld := h.held
    cases hr : s.heldReturn with
    | some =>
      rw [hr] at hheld
      rw [hheld.1, if_pos rfl]
      exact ⟨h.found, rfl⟩
    | none =>
      rw [hr] at hheld
      rw [hheld.1, if_neg Bool.false_ne_true]
      have hm := hheld.2
      have hword : (s.endWord file s.here .blank).tokens.map Token.lexeme =
          (l.endWord .blank).found :=
        found_endWord (by rw [h.offset]; exact hm) h.found .blank .blank
      cases hs : s.mode <;> cases hl : l.mode <;> rw [hs, hl] at hm <;>
        simp only [ModeTracks] at hm
      case quoted.quoted start read => exact ⟨h.found, rfl⟩
      all_goals exact ⟨hword, by simp [h.error, h.failed]⟩
  · rw [if_pos h.error, if_pos h.failed, h.failed]
    exact ⟨h.found, h.error⟩

end Scanner

/-- The lexemes of a text, up to the first fault. -/
def Lexer.run (t : Text) : Lexer := (Lexer.feedAll {} t).finish

/-- **The scanner finds what the lexer finds.** -/
theorem SourceFile.scan_lexemes (file : SourceFile) :
    file.scan.tokens.map Token.lexeme = (Lexer.run file.text).found.reverse ∧
      file.scan.error.isSome = (Lexer.run file.text).failed := by
  have hstart : Scanner.Tracks file [] {} {} :=
    ⟨rfl, rfl, rfl, rfl, rfl, rfl, trivial⟩
  have hend : Scanner.Tracks file file.text _ (Lexer.feedAll {} file.text) ∨
      Scanner.Stopped (file.text.foldl (Scanner.feed file) {}) (Lexer.feedAll {} file.text) :=
    foldl_keeps (P := fun seen s => Scanner.Tracks file seen s (Lexer.feedAll {} seen) ∨
      Scanner.Stopped s (Lexer.feedAll {} seen)) (.inl hstart) fun hfile h => by
        rw [Lexer.feedAll_append]
        exact h.elim (Scanner.feed_tracks hfile) fun h => .inr (h.feed file _)
  obtain ⟨hfound, herror⟩ := Scanner.finish_tracks hend
  refine ⟨?_, herror⟩
  rw [scan, map_reverse, hfound]
  rfl

end HaloScript
