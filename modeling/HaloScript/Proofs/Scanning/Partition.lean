/-
# The text of a file, token by token

The scanner cuts a text into tokens and gaps and loses no byte (`SourceFile.scan_partition`).  The
tokens follow one another in the text, each has the shape of its kind, and what stands between
two of them is made of blanks, line ends and comments (`Text.Gap`).  A word is as long as it can
be, and a quote stands at its start only behind a closing bracket.

A scan fails in two ways: at a carriage return that does not belong to a line end, wherever it
stands, and where the text ends inside a quoted atom.

The scanner never looks ahead, so what holds between two bytes is said of the bytes that it has
seen (`Scanner.Tiles`).  While a carriage return is held back, its mode is about the bytes in
front of it.
-/
import HaloScript.Proofs.Scanning.Atoms

namespace HaloScript

open List Text

/-! ## 1. Gaps and shapes -/

namespace Text

/-- A line feed, alone or behind a carriage return. -/
def IsLineEnd (t : Text) : Prop := t = [newline] ∨ t = [carriageReturn, newline]

/-- The text has no byte of a line end. -/
def InLine (t : Text) : Prop := newline ∉ t ∧ carriageReturn ∉ t

/-- Blanks, line ends, and comments with the line ends that they reach to. -/
inductive Gap : Text → Prop
  | nil : Gap []
  | blank {t : Text} (h : Gap t) (b : UInt8) (hb : b = space ∨ b = tab) : Gap (t ++ [b])
  | lineEnd {t ending : Text} (h : Gap t) (hending : ending.IsLineEnd) : Gap (t ++ ending)
  | comment {t body ending : Text} (h : Gap t) (hbody : body.InLine) (hending : ending.IsLineEnd) :
      Gap (t ++ (semicolon :: body ++ ending))

/-- The byte in front of an offset. -/
def before (t : Text) (n : Nat) : Option UInt8 := (t.take n).getLast?

/-- The text has no quote that could close it: each one stands behind a backslash. -/
def Unclosed (t : Text) : Prop :=
  ∀ left right, t = left ++ doubleQuote :: right → left.getLast? = some backslash

end Text

/-- The token has the shape of its kind, in the text where it stands. -/
def Token.Fits (text : Text) (t : Token) : Prop :=
  let bytes := text.slice t.span.start.offset t.span.stop.offset
  match t.kind with
  | .openBracket => bytes = [openBracket]
  | .closeBracket => bytes = [closeBracket]
  | .quotedAtom => ∃ inner : Text, bytes = doubleQuote :: inner ++ [doubleQuote] ∧
      inner.Unclosed ∧ inner.getLast? ≠ some backslash
  | .atom => (∀ b ∈ bytes, IsWordByte b) ∧
      (∀ b, text[t.span.stop.offset]? = some b → ¬ IsWordByte b) ∧
      (bytes.StartsQuote → text.before t.span.start.offset = some closeBracket)

/-- The tokens, with gaps in front of each and behind the last, make up the text up to the offset
`stop`. -/
inductive Text.Tiled (text : Text) : List Token → Nat → Prop
  | gap {stop : Nat} (hgap : Gap (text.slice 0 stop)) (hle : stop ≤ text.length) :
      Tiled text [] stop
  | token {tokens : List Token} {t : Token} {stop : Nat}
      (h : Tiled text tokens t.span.start.offset)
      (hne : t.span.start.offset < t.span.stop.offset)
      (hgap : Gap (text.slice t.span.stop.offset stop)) (hstop : t.span.stop.offset ≤ stop)
      (hle : stop ≤ text.length) : Tiled text (tokens ++ [t]) stop

namespace Text

variable {text : Text} {tokens : List Token} {stop stop' : Nat} {t : Text}

theorem Tiled.le (h : text.Tiled tokens stop) : stop ≤ text.length := by
  cases h with
  | gap _ hle => exact hle
  | token _ _ _ _ hle => exact hle

theorem Tiled.extend (h : text.Tiled tokens stop) (more : Text) (hle : stop ≤ stop')
    (hlen : stop' ≤ text.length) (hslice : ∀ start, start ≤ stop →
      text.slice start stop' = text.slice start stop ++ more)
    (hmore : ∀ t, Gap t → Gap (t ++ more)) : text.Tiled tokens stop' := by
  cases h with
  | gap hgap => exact .gap (by rw [hslice 0 (Nat.zero_le _)]; exact hmore _ hgap) hlen
  | token h hne hgap hstop =>
    exact .token h hne (by rw [hslice _ hstop]; exact hmore _ hgap) (Nat.le_trans hstop hle) hlen

theorem Tiled.concat (t : Token) (h : text.Tiled tokens t.span.start.offset)
    (hne : t.span.start.offset < t.span.stop.offset) (hle : t.span.stop.offset ≤ text.length) :
    text.Tiled (tokens ++ [t]) t.span.stop.offset :=
  .token h hne (by rw [slice_self]; exact .nil) (Nat.le_refl _) hle

theorem Tiled.inside (h : text.Tiled tokens stop) : ∀ t ∈ tokens,
    t.span.start.offset < t.span.stop.offset ∧ t.span.stop.offset ≤ stop := by
  induction h with
  | gap => exact fun t ht => absurd ht not_mem_nil
  | token _ hne _ hstop _ ih =>
    intro u hu
    rcases mem_append.mp hu with hu | hu
    · exact ⟨(ih u hu).1, Nat.le_trans (ih u hu).2 (by omega)⟩
    · rw [mem_singleton.mp hu]
      exact ⟨hne, hstop⟩

theorem Tiled.pairwise (h : text.Tiled tokens stop) :
    tokens.Pairwise fun a b => a.span.stop.offset ≤ b.span.start.offset := by
  induction h with
  | gap => exact .nil
  | token h _ _ _ _ ih =>
    refine pairwise_append.mpr ⟨ih, pairwise_singleton _ _, fun a ha b hb => ?_⟩
    rw [mem_singleton.mp hb]
    exact (h.inside a ha).2

theorem slice_append {a b c : Nat} (hab : a ≤ b) (hbc : b ≤ c) :
    text.slice a c = text.slice a b ++ text.slice b c := by
  rw [slice, show c - a = (b - a) + (c - b) by omega, take_add, drop_drop, slice, slice,
    show a + (b - a) = b by omega]

theorem before_append (seen rest : Text) : (seen ++ rest).before seen.length = seen.getLast? := by
  simp [before]

section Seen

variable {seen rest : Text} {b : UInt8}

theorem before_succ (htext : text = seen ++ b :: rest) :
    text.before (seen.length + 1) = some b := by
  have hseen : text = (seen ++ [b]) ++ rest := by simp [htext]
  have hlength : seen.length + 1 = (seen ++ [b]).length := by simp
  rw [hseen, hlength, before_append]
  simp

theorem slice_one (htext : text = seen ++ b :: rest) :
    text.slice seen.length (seen.length + 1) = [b] := by
  rw [slice_succ htext (Nat.le_refl _), slice_self]
  rfl

theorem getLast?_slice (htext : text = seen ++ rest) {start : Nat} (hstart : start ≤ seen.length)
    (hne : text.slice start seen.length ≠ []) :
    (text.slice start seen.length).getLast? = seen.getLast? := by
  have hwhole : text.slice 0 seen.length = seen := by simp [slice, htext]
  rw [slice_append (Nat.zero_le start) hstart] at hwhole
  obtain ⟨last, hlast⟩ := Option.isSome_iff_exists.mp (getLast?_isSome.mpr hne)
  rw [hlast, ← congrArg List.getLast? hwhole, getLast?_append, hlast, Option.some_or]

end Seen

theorem Quoting.getLast? {last : UInt8} (h : Quoting last t) :
    (doubleQuote :: t).getLast? = some last := by
  cases h with
  | start => rfl
  | byte => simp [getLast?_cons, getLast?_append]
  | lineEnd => simp [getLast?_cons, getLast?_append]

theorem Unclosed.concat (h : t.Unclosed) {b : UInt8}
    (hb : b = doubleQuote → t.getLast? = some backslash) : Unclosed (t ++ [b]) := by
  intro left right heq
  rcases eq_nil_or_concat right with rfl | ⟨right, c, rfl⟩
  · obtain ⟨rfl, hc⟩ := append_inj' heq rfl
    exact hb (List.cons.inj hc).1
  · rw [concat_eq_append, ← cons_append, ← append_assoc] at heq
    exact h left right (append_inj' heq rfl).1

/-- What has been read behind an opening quote is unclosed. -/
theorem Quoting.unclosed {last : UInt8} (h : Quoting last t) : t.Unclosed := by
  induction h with
  | start => exact fun left right heq => absurd heq (by simp)
  | @byte last t h b _ hq ih =>
    refine ih.concat fun hb => ?_
    -- a quote is not the first byte, because the byte in front of it is a backslash
    have hlast := h.getLast?
    rw [hq hb] at hlast
    cases t with
    | nil => exact absurd hlast (by decide)
    | cons => simpa [getLast?_cons] using hlast
  | @lineEnd last t h ih =>
    rw [show t ++ [carriageReturn, newline] = (t ++ [carriageReturn]) ++ [newline] by simp]
    exact (ih.concat fun hb => absurd hb (by decide)).concat fun hb => absurd hb (by decide)

theorem InLine.concat (h : t.InLine) {b : UInt8} (hnl : b ≠ newline) (hcr : b ≠ carriageReturn) :
    InLine (t ++ [b]) := by
  simp only [InLine, mem_append, mem_singleton, not_or]
  exact ⟨⟨h.1, hnl.symm⟩, h.2, hcr.symm⟩

end Text

/-! ## 2. Between two bytes -/

/-- The token is a finished part of the file and has the shape of its kind. -/
def Token.SitsIn (file : SourceFile) (t : Token) : Prop :=
  t.span.file = some file ∧ t.span.unfinished = false ∧ t.Fits file.text

namespace Scanner

/-- What the scanner is in the middle of at the offset `stop`, and the tokens in front of that. -/
def ModeTiles (text : Text) (tokens : List Token) (stop : Nat) : ScanMode → Prop
  | .blank => text.Tiled tokens stop ∧
      (quoteMayFollow (text.before stop) = true ∨ text.before stop = some closeBracket)
  | .comment => ∃ start body, text.Tiled tokens start ∧ start ≤ stop ∧
      text.slice start stop = semicolon :: body ∧ InLine body
  | .word start => text.Tiled tokens start.offset ∧ start.offset < stop ∧
      (∀ b ∈ text.slice start.offset stop, IsWordByte b) ∧
      ((text.slice start.offset stop).StartsQuote →
        text.before start.offset = some closeBracket)
  | .quoted start => text.Tiled tokens start.offset ∧ start.offset ≤ stop ∧ ∃ last read,
      text.slice start.offset stop = doubleQuote :: read ∧ Quoting last read

/-- The scanner after the bytes `seen` of a file. -/
structure Tiles (file : SourceFile) (seen : Text) (s : Scanner) : Prop where
  offset : s.here.offset = seen.length
  previous : s.previous = seen.getLast?
  error : s.error = none
  tokens : ∀ t ∈ s.tokens, t.SitsIn file
  /-- A carriage return that is held back has been seen, and is no part of what is read. -/
  mode : match s.heldReturn with
    | none => ModeTiles file.text s.tokens.reverse seen.length s.mode
    | some stop => ∃ init, seen = init ++ [carriageReturn] ∧ stop.offset = init.length ∧
        ModeTiles file.text s.tokens.reverse init.length s.mode

variable {file : SourceFile} {seen rest : Text} {b : UInt8} {s : Scanner} {stop : Location}

/-- **A word ends** where no byte of a word follows: the tokens reach up to there. -/
theorem endWord_tiled (stop : Location) (htokens : ∀ t ∈ s.tokens, t.SitsIn file)
    (hmode : s.mode = .blank ∨ ∃ start, s.mode = .word start)
    (htiles : ModeTiles file.text s.tokens.reverse stop.offset s.mode)
    (hlen : stop.offset ≤ file.text.length)
    (hnext : ∀ b, file.text[stop.offset]? = some b → ¬ IsWordByte b) (m : ScanMode) :
    (∀ t ∈ (s.endWord file stop m).tokens, t.SitsIn file) ∧
      file.text.Tiled (s.endWord file stop m).tokens.reverse stop.offset := by
  unfold endWord
  rcases hmode with hs | ⟨start, hs⟩
  · rw [hs] at htiles ⊢
    exact ⟨htokens, htiles.1⟩
  · rw [hs] at htiles ⊢
    obtain ⟨htiled, hlt, hbytes, hquote⟩ := htiles
    refine ⟨forall_mem_cons.mpr ⟨⟨rfl, rfl, hbytes, hnext, hquote⟩, htokens⟩, ?_⟩
    simp only [emit, reverse_cons]
    exact Tiled.concat ⟨.atom, ⟨some file, start, stop, false⟩⟩ htiled hlt hlen

/-- **A line ends** with the given bytes, in any mode. -/
theorem endLine_tiles {ending : Text} (hending : ending.IsLineEnd)
    (hhere : s.here.offset + 1 = seen.length) (hlast : seen.getLast? = some newline)
    (hseen : file.text = seen ++ rest) (hle : stop.offset ≤ seen.length)
    (hslice : ∀ start, start ≤ stop.offset →
      file.text.slice start seen.length = file.text.slice start stop.offset ++ ending)
    (hnext : ∀ b, file.text[stop.offset]? = some b → ¬ IsWordByte b)
    (herror : s.error = none) (htokens : ∀ t ∈ s.tokens, t.SitsIn file)
    (htiles : ModeTiles file.text s.tokens.reverse stop.offset s.mode) :
    (s.endLine file stop).Tiles file seen := by
  have hlen : seen.length ≤ file.text.length := by simp [hseen]
  have hbefore : quoteMayFollow (file.text.before seen.length) = true := by
    rw [hseen, before_append, hlast]
    rfl
  unfold endLine
  cases hs : s.mode with
  | quoted =>
    rw [hs] at htiles
    obtain ⟨htiled, hstart, last, read, hread, hquoting⟩ := htiles
    simp only [past, hs]
    refine ⟨by simpa using hhere, hlast.symm, herror, htokens, htiled,
      Nat.le_trans hstart hle, newline, read ++ ending, ?_, ?_⟩
    · rw [hslice _ hstart, hread]
      rfl
    · rcases hending with rfl | rfl
      · exact hquoting.byte _ (by decide) fun he => absurd he (by decide)
      · exact hquoting.lineEnd
  | comment =>
    rw [hs] at htiles
    obtain ⟨start, body, htiled, hstart, hread, hbody⟩ := htiles
    simp only [past, hs, Scanner.endWord]
    refine ⟨by simpa using hhere, hlast.symm, herror, htokens, ?_, .inl hbefore⟩
    refine htiled.extend (semicolon :: body ++ ending) (Nat.le_trans hstart hle) hlen
      (fun from' hfrom => ?_) fun t ht => ht.comment hbody hending
    rw [hslice _ (Nat.le_trans hfrom hstart), slice_append hfrom hstart, hread]
    simp
  | blank | word start =>
    have hplain : s.mode = .blank ∨ ∃ start, s.mode = .word start := by simp [hs]
    obtain ⟨htokens', htiled⟩ := endWord_tiled
      (s := { s.past newline with heldReturn := none }) stop htokens hplain htiles
      (Nat.le_trans hle hlen) hnext .blank
    simp only [past, hs] at htokens' htiled ⊢
    refine ⟨by simpa using hhere, by simpa using hlast.symm, by simpa using herror, htokens', ?_⟩
    simp only [heldReturn_endWord, mode_endWord]
    exact ⟨htiled.extend ending hle hlen hslice fun t ht => ht.lineEnd hending, .inl hbefore⟩

/-- One byte further on, with nothing held back. -/
theorem Tiles.next {s' : Scanner} (h : s.Tiles file seen) (hhere : s'.here = s.here.advance b)
    (hprevious : s'.previous = some b) (herror : s'.error = s.error) (hheld : s'.heldReturn = none)
    (htokens : ∀ t ∈ s'.tokens, t.SitsIn file)
    (hmode : ModeTiles file.text s'.tokens.reverse (seen.length + 1) s'.mode) :
    s'.Tiles file (seen ++ [b]) where
  offset := by simp [hhere, h.offset]
  previous := by simp [hprevious]
  error := herror.trans h.error
  tokens := htokens
  mode := by
    rw [hheld, length_append]
    exact hmode

theorem Tiles.modeTiles (h : s.Tiles file seen) (hheld : s.heldReturn = none) :
    ModeTiles file.text s.tokens.reverse seen.length s.mode := by
  have hmode := h.mode
  rwa [hheld] at hmode

section Plain

variable (h : s.Tiles file seen) (hfile : file.text = seen ++ b :: rest)
  (hheld : s.heldReturn = none) (hmode : s.mode = .blank ∨ ∃ start, s.mode = .word start)

include h hfile hheld hmode

/-- The tokens up to a separator, the word in front of it being the last. -/
theorem Tiles.separate (hb : IsSeparator b) (m : ScanMode) :
    (∀ t ∈ ((s.past b).endWord file s.here m).tokens, t.SitsIn file) ∧
      file.text.Tiled ((s.past b).endWord file s.here m).tokens.reverse seen.length := by
  have hnext : ∀ c, file.text[s.here.offset]? = some c → ¬ IsWordByte c := by
    intro c hc hword
    rw [h.offset, hfile] at hc
    have hcb : b = c := by simpa using hc
    exact hword.1 (hcb ▸ hb)
  have hended := endWord_tiled (s := s.past b) s.here h.tokens hmode
    (by rw [h.offset]; exact h.modeTiles hheld) (by simp [h.offset, hfile]) hnext m
  rwa [h.offset] at hended

theorem Tiles.feedBlank (hb : b = space ∨ b = tab) :
    ((s.past b).endWord file s.here .blank).Tiles file (seen ++ [b]) := by
  have hsep : IsSeparator b :=
    hb.elim (fun hb => .inr (.inl hb)) fun hb => .inr (.inr (.inl hb))
  obtain ⟨htokens, htiled⟩ := h.separate hfile hheld hmode hsep .blank
  refine h.next (by simp [past]) (by simp [past]) (by simp [past]) (by simpa [past] using hheld)
    htokens ?_
  rw [mode_endWord]
  refine ⟨htiled.extend [b] (Nat.le_succ _) (by simp [hfile]) (fun _ => slice_succ hfile)
    fun t ht => ht.blank b hb, .inl ?_⟩
  rw [before_succ hfile]
  rcases hb with rfl | rfl <;> rfl

theorem Tiles.feedSemicolon (hb : b = semicolon) :
    ((s.past b).endWord file s.here .comment).Tiles file (seen ++ [b]) := by
  obtain ⟨htokens, htiled⟩ := h.separate hfile hheld hmode (.inl hb) .comment
  refine h.next (by simp [past]) (by simp [past]) (by simp [past]) (by simpa [past] using hheld)
    htokens ?_
  rw [mode_endWord]
  refine ⟨seen.length, [], htiled, Nat.le_succ _, ?_, not_mem_nil, not_mem_nil⟩
  rw [slice_one hfile, hb]

/-- A bracket ends the word in front of it and is a token by itself. -/
theorem Tiles.feedBracket {kind : TokenKind}
    (hb : (kind = .openBracket ∧ b = openBracket) ∨
      (kind = .closeBracket ∧ b = closeBracket)) :
    (((s.past b).endWord file s.here .blank).emit file kind s.here (s.past b).here .blank).Tiles
      file (seen ++ [b]) := by
  have hsep : IsSeparator b := by
    rcases hb with ⟨-, rfl⟩ | ⟨-, rfl⟩ <;> simp [IsSeparator]
  obtain ⟨htokens, htiled⟩ := h.separate hfile hheld hmode hsep .blank
  have hstop : (s.past b).here.offset = seen.length + 1 := by simp [past, h.offset]
  have hfits : Token.Fits file.text ⟨kind, ⟨some file, s.here, (s.past b).here, false⟩⟩ := by
    have hone := slice_one hfile
    rcases hb with ⟨rfl, rfl⟩ | ⟨rfl, rfl⟩ <;> simpa [Token.Fits, hstop, h.offset] using hone
  refine h.next (by simp [past, emit]) (by simp [past, emit]) (by simp [past, emit])
    (by simpa [past, emit] using hheld)
    (forall_mem_cons.mpr ⟨⟨rfl, rfl, hfits⟩, htokens⟩) ?_
  rw [← h.offset] at htiled
  have hconcat := Tiled.concat ⟨kind, ⟨some file, s.here, (s.past b).here, false⟩⟩ htiled
    (by simp [past]) (by rw [hstop]; simp [hfile])
  rw [hstop] at hconcat
  refine ⟨by rw [emit, reverse_cons]; exact hconcat, ?_⟩
  rw [before_succ hfile]
  rcases hb with ⟨-, rfl⟩ | ⟨-, rfl⟩
  · exact .inl rfl
  · exact .inr rfl

/-- A byte that begins a word or goes on with it, or opens a quoted atom. -/
theorem Tiles.feedWord (hb : IsWordByte b) :
    (s.feedPlain file b).Tiles file (seen ++ [b]) := by
  have htiles := h.modeTiles hheld
  have hone : file.text.slice s.here.offset (seen.length + 1) = [b] := by
    rw [h.offset]
    exact slice_one hfile
  have hnext : ∀ m, ModeTiles file.text s.tokens.reverse (seen.length + 1) m →
      Tiles file (seen ++ [b]) { s.past b with mode := m } :=
    fun m hm => h.next rfl rfl rfl hheld h.tokens hm
  rw [feedPlain_other s file hb.1]
  rcases hmode with hs | ⟨start, hs⟩
  · rw [hs] at htiles ⊢
    obtain ⟨htiled, hquote⟩ := htiles
    rw [← h.offset] at htiled
    dsimp only
    split
    · next hopen =>
      rw [Bool.and_eq_true, beq_iff_eq] at hopen
      refine hnext _ ⟨htiled, by rw [h.offset]; omega, _, [], ?_, .start⟩
      rw [hone, hopen.1]
    · next hopen =>
      refine hnext _ ⟨htiled, by rw [h.offset]; omega, ?_, ?_⟩
      · rw [hone]
        exact forall_mem_singleton.mpr hb
      · rw [hone]
        intro hstarts
        have hb' : b = doubleQuote := by simpa [StartsQuote] using hstarts
        have hbefore : file.text.before seen.length = s.previous := by
          rw [hfile, before_append, h.previous]
        rw [hbefore] at hquote
        rw [h.offset, hbefore]
        exact hquote.resolve_left fun hmay => hopen (by simp [hb', hmay])
  · rw [hs] at htiles ⊢
    obtain ⟨htiled, hlt, hbytes, hquote⟩ := htiles
    have hslice := slice_succ hfile (Nat.le_of_lt hlt)
    have hword := hnext (.word start) ⟨htiled, by omega, ?_, ?_⟩
    · rwa [← hs] at hword
    · rw [hslice]
      exact forall_mem_append.mpr ⟨hbytes, forall_mem_singleton.mpr hb⟩
    · have hne : file.text.slice start.offset seen.length ≠ [] := by
        rw [slice, ← length_pos_iff, length_take, length_drop]
        have hlen : seen.length < file.text.length := by simp [hfile]
        omega
      obtain ⟨c, more, hc⟩ := exists_cons_of_ne_nil hne
      rw [hc] at hquote
      rw [hslice, hc]
      exact hquote

/-- **A byte outside quotes and comments.** -/
theorem Tiles.feedPlain (hnl : b ≠ newline) (hcr : b ≠ carriageReturn) :
    (s.feedPlain file b).Tiles file (seen ++ [b]) := by
  by_cases hb : IsSeparator b
  · rcases hb with rfl | rfl | rfl | rfl | rfl
    · exact h.feedSemicolon hfile hheld hmode rfl
    · exact h.feedBlank hfile hheld hmode (.inl rfl)
    · exact h.feedBlank hfile hheld hmode (.inr rfl)
    · exact h.feedBracket hfile hheld hmode (.inl ⟨rfl, rfl⟩)
    · exact h.feedBracket hfile hheld hmode (.inr ⟨rfl, rfl⟩)
  · exact h.feedWord hfile hheld hmode ⟨hb, hnl, hcr⟩

end Plain

/-- A byte inside a quoted atom. -/
theorem Tiles.feedQuoted (h : s.Tiles file seen) (hfile : file.text = seen ++ b :: rest)
    (hheld : s.heldReturn = none) {start : Location} (hs : s.mode = .quoted start)
    (hcr : b ≠ carriageReturn) : (s.feedByte file b).Tiles file (seen ++ [b]) := by
  have htiles := h.modeTiles hheld
  rw [hs] at htiles
  obtain ⟨htiled, hstart, last, read, hread, hquoting⟩ := htiles
  have hslice : file.text.slice start.offset (seen.length + 1) =
      doubleQuote :: read ++ [b] := by
    rw [slice_succ hfile hstart, hread]
  -- the byte in front is the last one read
  have hprevious : s.previous = some last := by
    rw [h.previous, ← hquoting.getLast?, ← hread,
      getLast?_slice hfile hstart (by simp [hread])]
  unfold Scanner.feedByte
  rw [hs]
  dsimp only
  rw [hprevious]
  split
  · next hclose =>
    rw [Bool.and_eq_true, beq_iff_eq, bne_iff_ne] at hclose
    obtain ⟨rfl, hescape⟩ := hclose
    have hstop : (s.past doubleQuote).here.offset = seen.length + 1 := by simp [past, h.offset]
    have hinner : read.getLast? ≠ some backslash := by
      intro hlast
      rw [← hquoting.getLast?] at hescape
      cases read with
      | nil => cases hlast
      | cons => exact hescape (by rw [← hlast]; exact getLast?_cons_cons)
    have hfits : Token.Fits file.text
        ⟨.quotedAtom, ⟨some file, start, (s.past doubleQuote).here, false⟩⟩ :=
      ⟨read, by rw [hstop]; exact hslice, hquoting.unclosed, hinner⟩
    refine h.next rfl rfl rfl hheld (forall_mem_cons.mpr ⟨⟨rfl, rfl, hfits⟩, h.tokens⟩) ?_
    have hconcat := Tiled.concat
      ⟨.quotedAtom, ⟨some file, start, (s.past doubleQuote).here, false⟩⟩ htiled
      (by rw [hstop]; exact Nat.lt_succ_of_le hstart) (by rw [hstop]; simp [hfile])
    rw [hstop] at hconcat
    refine ⟨by rw [emit, reverse_cons]; exact hconcat, .inl ?_⟩
    rw [before_succ hfile]
    rfl
  · next hopen =>
    have hescaped : b = doubleQuote → last = backslash := by
      intro hb
      simpa [hb] using hopen
    refine h.next rfl rfl rfl hheld h.tokens ?_
    rw [past, hs]
    exact ⟨htiled, Nat.le_succ_of_le hstart, b, read ++ [b], hslice,
      hquoting.byte b hcr hescaped⟩

/-- **A byte that is no part of a line end.** -/
theorem Tiles.feedByte (h : s.Tiles file seen) (hfile : file.text = seen ++ b :: rest)
    (hheld : s.heldReturn = none) (hnl : b ≠ newline) (hcr : b ≠ carriageReturn) :
    (s.feedByte file b).Tiles file (seen ++ [b]) := by
  cases hs : s.mode with
  | blank =>
    rw [Scanner.feedByte, hs]
    exact h.feedPlain hfile hheld (.inl hs) hnl hcr
  | word start =>
    rw [Scanner.feedByte, hs]
    exact h.feedPlain hfile hheld (.inr ⟨start, hs⟩) hnl hcr
  | quoted => exact h.feedQuoted hfile hheld hs hcr
  | comment =>
    have htiles := h.modeTiles hheld
    rw [hs] at htiles
    obtain ⟨start, body, htiled, hstart, hread, hbody⟩ := htiles
    rw [Scanner.feedByte, hs]
    refine h.next rfl rfl rfl hheld h.tokens ?_
    rw [past, hs]
    refine ⟨start, body ++ [b], htiled, Nat.le_succ_of_le hstart, ?_, hbody.concat hnl hcr⟩
    rw [slice_succ hfile hstart, hread]
    rfl

/-- The byte that is at fault where a scan stops: a carriage return that no line feed follows. -/
def LoneReturn (text : Text) (n : Nat) : Prop :=
  text[n]? = some carriageReturn ∧ text[n + 1]? ≠ some newline

/-- A scan that has stopped: the tokens in front, and the carriage return at fault. -/
structure Halted (file : SourceFile) (s : Scanner) : Prop where
  tokens : ∀ t ∈ s.tokens, t.SitsIn file
  tiled : ∃ stop, file.text.Tiled s.tokens.reverse stop
  error : ∃ here n, s.error = some (Fault.loneCarriageReturn.on (.point file here)) ∧
    here.offset = n + 1 ∧ LoneReturn file.text n

theorem ModeTiles.exists_tiled {text : Text} {tokens : List Token} {n : Nat} {m : ScanMode}
    (h : ModeTiles text tokens n m) : ∃ stop, text.Tiled tokens stop := by
  cases m with
  | blank => exact ⟨n, h.1⟩
  | comment =>
    obtain ⟨start, -, htiled, -⟩ := h
    exact ⟨start, htiled⟩
  | word start => exact ⟨start.offset, h.1⟩
  | quoted start => exact ⟨start.offset, h.1⟩

/-- **One byte**, with which the scan goes on or stops. -/
theorem Tiles.feed (h : s.Tiles file seen) (hfile : file.text = seen ++ b :: rest) :
    (s.feed file b).Tiles file (seen ++ [b]) ∨ (s.feed file b).Halted file := by
  have hseen : file.text = (seen ++ [b]) ++ rest := by simp [hfile]
  unfold Scanner.feed
  rw [h.error, Option.isSome_none, if_neg Bool.false_ne_true]
  cases hr : s.heldReturn with
  | some stop =>
    have hmode := h.mode
    rw [hr] at hmode
    obtain ⟨init, rfl, hstop, htiles⟩ := hmode
    have hreturn : file.text = init ++ carriageReturn :: b :: rest := by simp [hfile]
    have hget : file.text[stop.offset]? = some carriageReturn := by simp [hreturn, hstop]
    dsimp only
    split
    · next hb =>
      rw [beq_iff_eq] at hb
      subst hb
      refine .inl (endLine_tiles (.inr rfl) (by simp [h.offset]) (by simp) hseen
        (by simp [hstop]) (fun start hle => ?_) (fun c hc => ?_) h.error h.tokens
        (by rw [hstop]; exact htiles))
      · -- the carriage return and the line feed are the last two bytes seen
        rw [hstop] at hle ⊢
        have hfirst := slice_succ hreturn hle
        have hsecond := slice_succ hfile (by simp; omega : start ≤ _)
        rw [length_append, length_singleton] at hsecond
        rw [length_append, length_append, length_singleton, length_singleton,
          hsecond, hfirst]
        simp
      · rw [hget] at hc
        exact fun hword => hword.2.2 (Option.some.inj hc).symm
    · next hb =>
      obtain ⟨upto, htiled⟩ := htiles.exists_tiled
      refine .inr ⟨h.tokens, ⟨upto, htiled⟩, s.here, init.length, rfl, by simp [h.offset], ?_, ?_⟩
      · simp [hreturn]
      · simpa [hreturn] using hb
  | none =>
    have htiles := h.modeTiles hr
    dsimp only
    split
    · next hb =>
      rw [beq_iff_eq] at hb
      subst hb
      exact .inl ⟨by simp [past, h.offset], by simp [past], h.error, h.tokens, seen, rfl, h.offset,
        htiles⟩
    · next hcr =>
      rw [beq_iff_eq] at hcr
      split
      · next hb =>
        rw [beq_iff_eq] at hb
        subst hb
        refine .inl (endLine_tiles (.inl rfl) (by simp [h.offset]) (by simp) hseen
          (by simp [h.offset]) (fun start hle => ?_) (fun c hc => ?_) h.error h.tokens
          (by rw [h.offset]; exact htiles))
        · rw [h.offset] at hle ⊢
          rw [length_append]
          exact slice_succ hfile hle
        · rw [h.offset, hfile] at hc
          have hcb : newline = c := by simpa using hc
          exact fun hword => hword.2.1 hcb.symm
      · next hnl =>
        rw [beq_iff_eq] at hnl
        exact .inl (h.feedByte hfile hr hnl hcr)

theorem Halted.feed (h : s.Halted file) (b : UInt8) : (s.feed file b).Halted file := by
  obtain ⟨here, n, herror, -⟩ := h.error
  unfold Scanner.feed
  rw [if_pos (by simp [herror])]
  exact h

theorem tiles_start (file : SourceFile) : Tiles file [] {} where
  offset := rfl
  previous := rfl
  error := rfl
  tokens _ ht := absurd ht not_mem_nil
  mode := ⟨.gap (by rw [length_nil, slice_self]; exact .nil) (Nat.zero_le _), .inl rfl⟩

end Scanner

/-! ## 3. Whole files -/

/-- The text, from the offset `stop` on, is empty or a comment that it ends in. -/
def Text.EndsIn (text : Text) (stop : Nat) : Prop :=
  stop = text.length ∨ ∃ body, text.drop stop = semicolon :: body ∧ InLine body

/-- The fault with which a scan ends: a carriage return without its line feed, or a quoted atom
that is still open when the text ends. -/
inductive SourceFile.ScanFault (file : SourceFile) (tokens : List Token) : SourceError → Prop
  | loneReturn (here : Location) (n : Nat) (hhere : here.offset = n + 1)
      (hreturn : Scanner.LoneReturn file.text n) :
      ScanFault file tokens (Fault.loneCarriageReturn.on (.point file here))
  | openQuote (start : Location) (inner : Text) (htiled : file.text.Tiled tokens start.offset)
      (hinner : file.text.drop start.offset = doubleQuote :: inner) (hopen : inner.Unclosed) :
      ScanFault file tokens (Fault.openQuote.on (.point file start))

namespace Scanner

variable {file : SourceFile} {s : Scanner}

/-- What holds of the scanner when the text has ended. -/
structure Finished (file : SourceFile) (s : Scanner) : Prop where
  tokens : ∀ t ∈ s.tokens, t.SitsIn file
  tiled : ∃ stop, file.text.Tiled s.tokens.reverse stop ∧
    (s.error = none → file.text.EndsIn stop)
  error : ∀ e, s.error = some e → file.ScanFault s.tokens.reverse e

theorem slice_length (text : Text) (start : Nat) :
    text.slice start text.length = text.drop start := by
  rw [slice, take_of_length_le (by simp)]

/-- **The end of the text.** -/
theorem Tiles.finish (h : s.Tiles file file.text) : (s.finish file).Finished file := by
  unfold Scanner.finish
  rw [h.error, Option.isSome_none, if_neg Bool.false_ne_true]
  cases hr : s.heldReturn with
  | some =>
    have hmode := h.mode
    rw [hr] at hmode
    obtain ⟨init, hinit, -, htiles⟩ := hmode
    obtain ⟨upto, htiled⟩ := htiles.exists_tiled
    refine ⟨h.tokens, ⟨upto, htiled, fun hno => (nomatch hno)⟩, fun e he => ?_⟩
    obtain rfl := Option.some.inj he
    exact .loneReturn s.here init.length (by simp [h.offset, hinit])
      ⟨by simp [hinit], by simp [hinit]⟩
  | none =>
    have htiles := h.modeTiles hr
    cases hs : s.mode with
    | quoted start =>
      rw [hs] at htiles
      obtain ⟨htiled, -, last, read, hread, hquoting⟩ := htiles
      refine ⟨h.tokens, ⟨_, htiled, fun hno => (nomatch hno)⟩, fun e he => ?_⟩
      obtain rfl := Option.some.inj he
      exact .openQuote start read htiled (by rw [← slice_length, hread]) hquoting.unclosed
    | comment =>
      rw [hs] at htiles
      obtain ⟨start, body, htiled, -, hread, hbody⟩ := htiles
      simp only [endWord, hs]
      refine ⟨h.tokens, ⟨start, htiled, fun _ => .inr ⟨body, ?_, hbody⟩⟩, fun e he => ?_⟩
      · rw [← slice_length, hread]
      · rw [h.error] at he
        cases he
    | blank | word start =>
      have hplain : s.mode = .blank ∨ ∃ start, s.mode = .word start := by simp [hs]
      obtain ⟨htokens, htiled⟩ := endWord_tiled s.here h.tokens hplain
        (by rw [h.offset]; exact htiles) (Nat.le_of_eq h.offset) (by simp [h.offset]) .blank
      refine ⟨htokens, ⟨_, htiled, fun _ => .inl h.offset⟩, fun e he => ?_⟩
      rw [error_endWord, h.error] at he
      cases he

theorem Halted.finish (h : s.Halted file) : (s.finish file).Finished file := by
  obtain ⟨here, n, herror, hhere, hreturn⟩ := h.error
  obtain ⟨stop, htiled⟩ := h.tiled
  unfold Scanner.finish
  rw [if_pos (by simp [herror])]
  refine ⟨h.tokens, ⟨stop, htiled, fun hno => ?_⟩, fun e he => ?_⟩
  · rw [herror] at hno
    cases hno
  · obtain rfl := Option.some.inj (herror.symm.trans he)
    exact .loneReturn here n hhere hreturn

/-- **Every scan** ends so. -/
theorem finished (file : SourceFile) :
    (Scanner.finish file (file.text.foldl (Scanner.feed file) {})).Finished file :=
  (foldl_keeps (P := fun seen s => Tiles file seen s ∨ Halted file s)
    (.inl (tiles_start file)) fun hfile h =>
      h.elim (fun h => h.feed hfile) fun h => .inr (h.feed _)).elim Tiles.finish Halted.finish

end Scanner

/-- The tokens of a file are parts of its text that are not empty and follow one another. -/
theorem SourceFile.scan_tokens (file : SourceFile) :
    (∀ t ∈ file.scan.tokens, t.span.start.offset < t.span.stop.offset ∧
      t.span.stop.offset ≤ file.text.length ∧ t.SitsIn file) ∧
    file.scan.tokens.Pairwise fun a b => a.span.stop.offset ≤ b.span.start.offset := by
  have hend := Scanner.finished file
  obtain ⟨stop, htiled, -⟩ := hend.tiled
  refine ⟨fun t ht => ?_, htiled.pairwise⟩
  obtain ⟨hlt, hle⟩ := htiled.inside t ht
  exact ⟨hlt, Nat.le_trans hle htiled.le, hend.tokens t (mem_reverse.mp ht)⟩

/-- **The scanner loses nothing.**  The tokens of a file are parts of its text that are not empty
and follow one another, each has the shape of its kind, and between them are gaps.  Without a
fault they reach up to the end of the text, or to a comment that the text ends in; and the only
faults are a carriage return that no line feed follows, and a quoted atom that the text ends in. -/
theorem SourceFile.scan_partition (file : SourceFile) :
    (∀ t ∈ file.scan.tokens, t.span.start.offset < t.span.stop.offset ∧
      t.span.stop.offset ≤ file.text.length ∧ t.SitsIn file) ∧
    file.scan.tokens.Pairwise (fun a b => a.span.stop.offset ≤ b.span.start.offset) ∧
    (∃ stop, file.text.Tiled file.scan.tokens stop ∧
      (file.scan.error = none → file.text.EndsIn stop)) ∧
    ∀ e, file.scan.error = some e → file.ScanFault file.scan.tokens e := by
  have hend := Scanner.finished file
  exact ⟨file.scan_tokens.1, file.scan_tokens.2, hend.tiled, hend.error⟩

end HaloScript
