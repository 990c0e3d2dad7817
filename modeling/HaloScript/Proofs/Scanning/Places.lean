/-
# Places

Every place that is reported is accurate (`SourceFile.spans_accurate`).  Offset, line and column of
a location are counted up byte by byte, on several ways through the scanner; what they have to say
is a matter of the bytes in front of the offset alone (`Location.Accurate`).

The scanner keeps no location but those that a text leads to (`Location.after`), so a location is
told by the part of the text in front of it.  The parts that it keeps end between two bytes of
which one is ASCII (`Text.Edge`): no character is cut in two there.
-/
import HaloScript.Proofs.Brackets
import Mathlib.Data.List.Induction

namespace HaloScript

open List Text

/-! ## 1. Locations -/

namespace Text

/-- The bytes behind the last line feed. -/
def lastLine (t : Text) : Text := (t.reverse.takeWhile (· != newline)).reverse

/-- The number of bytes that do not continue a character. -/
def columns (t : Text) : Nat := t.countP fun b => !isContinuation b

@[simp] theorem lastLine_nil : lastLine [] = [] := rfl

theorem lastLine_concat (t : Text) (b : UInt8) :
    lastLine (t ++ [b]) = if b = newline then [] else t.lastLine ++ [b] := by
  by_cases hb : b = newline <;> simp [lastLine, hb]

@[simp] theorem columns_nil : columns [] = 0 := rfl

theorem columns_append (s t : Text) : columns (s ++ t) = s.columns + t.columns :=
  countP_append

/-- Of two bytes that meet here, one is ASCII. -/
def Edge (left right : Text) : Prop :=
  ∀ a ∈ left.getLast?, ∀ b ∈ right.head?, a < 0x80 ∨ b < 0x80

end Text

namespace Location

def after (t : Text) : Location := t.foldl advance origin

theorem after_concat (t : Text) (b : UInt8) : after (t ++ [b]) = (after t).advance b := by
  simp [after]

/-- What a location has to say about a text: its offset is inside, its line is the number of line
feeds in front of it, and its column counts the bytes since the last of them that do not continue
a character. -/
structure Accurate (text : Text) (l : Location) : Prop where
  inside : l.offset ≤ text.length
  line : l.line = (text.take l.offset).count newline
  column : l.column = (lastLine (text.take l.offset)).columns

/-- **Counting byte by byte** gives the length of the text, its line feeds and its last line. -/
theorem after_eq (t : Text) :
    after t = ⟨t.length, t.count newline, t.lastLine.columns⟩ := by
  induction t using List.reverseRecOn with
  | nil => rfl
  | append_singleton t b ih =>
    rw [after_concat, ih, advance, lastLine_concat, length_append, count_append]
    by_cases hb : b = newline
    · simp [hb]
    · rw [if_neg (by simpa using hb), if_neg hb, columns_append]
      cases hc : isContinuation b <;> simp [columns, hc, hb]

@[simp] theorem offset_after (t : Text) : (after t).offset = t.length := by rw [after_eq]

theorem accurate_after {text left right : Text} (htext : text = left ++ right) :
    (after left).Accurate text := by
  have htake : text.take left.length = left := by simp [htext]
  rw [after_eq]
  exact ⟨by simp [htext], by rw [htake], by rw [htake]⟩

/-- A place of the text at which no character is cut in two. -/
def Marks (text : Text) (l : Location) : Prop :=
  ∃ left right, text = left ++ right ∧ l = after left ∧ Edge left right

theorem Marks.accurate {text : Text} {l : Location} (h : l.Marks text) : l.Accurate text := by
  obtain ⟨left, right, htext, rfl, -⟩ := h
  exact accurate_after htext

end Location

/-- A span of the file between two of its places, in this order. -/
structure Span.Sound (file : SourceFile) (s : Span) : Prop where
  source : s.file = some file
  start : s.start.Marks file.text
  stop : s.stop.Marks file.text
  order : s.start.offset ≤ s.stop.offset

theorem Span.sound_point {file : SourceFile} {l : Location} (h : l.Marks file.text) :
    (Span.point file l).Sound file := ⟨rfl, h, h, Nat.le_refl _⟩

/-! ## 2. The scanner -/

namespace Scanner

/-- The location, if there is one, at which the word or quoted atom that is being read starts. -/
def start? : ScanMode → Option Location
  | .word start => some start
  | .quoted start => some start
  | .blank => none
  | .comment => none

/-- The scanner after the bytes `seen` of a file: all locations that it keeps are places. -/
structure Charts (file : SourceFile) (seen : Text) (s : Scanner) : Prop where
  here : s.here = .after seen
  start : ∀ l ∈ start? s.mode, l.Marks file.text
  /-- Between tokens the scanner stands behind an ASCII byte. -/
  blank : s.mode = .blank → ∀ a ∈ seen.getLast?, a < 0x80
  held : ∀ l ∈ s.heldReturn, l.Marks file.text ∧ seen.getLast? = some carriageReturn
  tokens : ∀ t ∈ s.tokens, t.span.start.Marks file.text ∧ t.span.stop.Marks file.text
  error : s.error = none

/-- The scanner after a fault, or at the end. -/
structure Charted (file : SourceFile) (s : Scanner) : Prop where
  tokens : ∀ t ∈ s.tokens, t.span.start.Marks file.text ∧ t.span.stop.Marks file.text
  error : ∀ e ∈ s.error, e.span.Sound file

variable {file : SourceFile} {seen rest : Text} {b : UInt8} {s : Scanner} {stop : Location}

theorem charts_start (file : SourceFile) : Charts file [] {} where
  here := rfl
  start := by simp [start?]
  blank _ := by simp
  held := by simp
  tokens := by simp
  error := rfl

theorem tokens_endWord {m : ScanMode} (hstart : ∀ l ∈ start? s.mode, l.Marks file.text)
    (hstop : stop.Marks file.text)
    (htokens : ∀ t ∈ s.tokens, t.span.start.Marks file.text ∧ t.span.stop.Marks file.text) :
    ∀ t ∈ (s.endWord file stop m).tokens,
      t.span.start.Marks file.text ∧ t.span.stop.Marks file.text := by
  unfold endWord
  cases hmode : s.mode with
  | word start =>
    rw [hmode] at hstart
    exact forall_mem_cons.mpr ⟨⟨hstart start rfl, hstop⟩, htokens⟩
  | blank | comment | quoted => exact htokens

section Byte

variable (h : s.Charts file seen) (hfile : file.text = seen ++ b :: rest)

include h hfile

theorem Charts.marks_here (hedge : (∀ a ∈ seen.getLast?, a < 0x80) ∨ b < 0x80) :
    s.here.Marks file.text := by
  refine ⟨seen, b :: rest, hfile, h.here, fun a ha c hc => ?_⟩
  obtain rfl : b = c := by simpa using hc
  exact hedge.imp_left fun hseen => hseen a ha

theorem Charts.marks_past (hb : b < 0x80) : (s.past b).here.Marks file.text := by
  refine ⟨seen ++ [b], rest, by simp [hfile], ?_, fun a ha c _ => .inl ?_⟩
  · rw [past, h.here, Location.after_concat]
  · obtain rfl : b = a := by simpa using ha
    exact hb

theorem Charts.endWord_past (hheld : s.heldReturn = none) (hb : b < 0x80) {m : ScanMode}
    (hm : start? m = none) : ((s.past b).endWord file s.here m).Charts file (seen ++ [b]) where
  here := by simp [past, h.here, Location.after_concat]
  start := by simp [hm]
  blank _ a ha := by
    obtain rfl : b = a := by simpa using ha
    exact hb
  held := by simp [past, hheld]
  tokens := tokens_endWord (s := s.past b) h.start (h.marks_here hfile (.inr hb)) h.tokens
  error := by simp [past, h.error]

omit hfile in
theorem Charts.next (hheld : s.heldReturn = none) {m : ScanMode} (hne : m ≠ .blank)
    (hm : ∀ l ∈ start? m, l.Marks file.text) :
    Charts file (seen ++ [b]) { s.past b with mode := m } where
  here := by simp [past, h.here, Location.after_concat]
  start := hm
  blank hblank := absurd hblank hne
  held := by simp [past, hheld]
  tokens := h.tokens
  error := h.error

theorem Charts.emit_past {s' : Scanner} (h' : s'.Charts file (seen ++ [b])) (hb : b < 0x80)
    (kind : TokenKind) {start : Location} (hstart : start.Marks file.text) :
    (s'.emit file kind start (s.past b).here .blank).Charts file (seen ++ [b]) where
  here := h'.here
  start := by simp [emit, start?]
  blank _ a ha := by
    obtain rfl : b = a := by simpa using ha
    exact hb
  held := h'.held
  tokens := forall_mem_cons.mpr ⟨⟨hstart, h.marks_past hfile hb⟩, h'.tokens⟩
  error := h'.error

/-- **A byte outside quotes and comments.** -/
theorem Charts.feedPlain (hheld : s.heldReturn = none) (hcomment : s.mode ≠ .comment)
    (hquoted : ∀ start, s.mode ≠ .quoted start) :
    (s.feedPlain file b).Charts file (seen ++ [b]) := by
  by_cases hb : IsSeparator b
  · have hended : b < 0x80 → ∀ m, start? m = none →
        ((s.past b).endWord file s.here m).Charts file (seen ++ [b]) :=
      fun hascii m hm => h.endWord_past hfile hheld hascii hm
    rcases hb with rfl | rfl | rfl | rfl | rfl
    · exact hended (by decide) .comment rfl
    · exact hended (by decide) .blank rfl
    · exact hended (by decide) .blank rfl
    · exact h.emit_past hfile (hended (by decide) .blank rfl) (by decide) .openBracket
        (h.marks_here hfile (.inr (by decide)))
    · exact h.emit_past hfile (hended (by decide) .blank rfl) (by decide) .closeBracket
        (h.marks_here hfile (.inr (by decide)))
  · rw [feedPlain_other s file hb]
    cases hs : s.mode with
    | comment => exact absurd hs hcomment
    | quoted start => exact absurd hs (hquoted start)
    | word start =>
      have hword := h.next (b := b) hheld (m := .word start) (by simp) (hs ▸ h.start)
      rw [← hs] at hword
      exact hword
    | blank =>
      -- a word or a quoted atom begins behind an ASCII byte
      have hhere := h.marks_here hfile (.inl (h.blank hs))
      dsimp only
      split
      · exact h.next hheld (by simp) fun l hl => by
          obtain rfl : s.here = l := by simpa [start?] using hl
          exact hhere
      · exact h.next hheld (by simp) fun l hl => by
          obtain rfl : s.here = l := by simpa [start?] using hl
          exact hhere

/-- **A byte that is no part of a line end.** -/
theorem Charts.feedByte (hheld : s.heldReturn = none) :
    (s.feedByte file b).Charts file (seen ++ [b]) := by
  unfold Scanner.feedByte
  cases hs : s.mode with
  | blank => exact h.feedPlain hfile hheld (by simp [hs]) (by simp [hs])
  | word => exact h.feedPlain hfile hheld (by simp [hs]) (by simp [hs])
  | comment =>
    have hnext := h.next (b := b) hheld (m := .comment) (by simp) (by simp [start?])
    rw [← hs] at hnext
    exact hnext
  | quoted start =>
    have hstart := h.start start (by rw [hs]; rfl)
    have hnext := h.next (b := b) hheld (m := .quoted start) (by simp) (hs ▸ h.start)
    rw [← hs] at hnext
    dsimp only
    split
    · next hclose =>
      rw [Bool.and_eq_true, beq_iff_eq] at hclose
      exact h.emit_past hfile hnext (by rw [hclose.1]; decide) .quotedAtom hstart
    · exact hnext

end Byte

/-- **A line ends**, in any mode, at a place. -/
theorem Charts.endLine (h : s.Charts file seen) (hstop : stop.Marks file.text) :
    (s.endLine file stop).Charts file (seen ++ [newline]) := by
  have hhere : (s.past newline).here = .after (seen ++ [newline]) := by
    rw [past, h.here, Location.after_concat]
  have hended : ((({ s.past newline with heldReturn := none } : Scanner)).endWord file stop
      .blank).Charts file (seen ++ [newline]) := by
    refine ⟨by simpa using hhere, by simp [start?], fun _ a ha => ?_, by simp,
      tokens_endWord (s := { s.past newline with heldReturn := none }) h.start hstop h.tokens,
      by simpa [past] using h.error⟩
    obtain rfl : newline = a := by simpa using ha
    decide
  unfold Scanner.endLine
  cases hs : s.mode with
  | quoted start =>
    simp only [past, hs]
    exact ⟨hhere, hs ▸ h.start, by simp, by simp, h.tokens, h.error⟩
  | blank | comment | word => simpa only [past, hs] using hended

/-- A carriage return without its line feed. -/
theorem Charts.fault (h : s.Charts file seen) (hfile : file.text = seen ++ rest)
    (hlast : seen.getLast? = some carriageReturn) {s' : Scanner}
    (htokens : s'.tokens = s.tokens)
    (herror : s'.error = some (Fault.loneCarriageReturn.on (.point file s.here))) :
    s'.Charted file where
  tokens := htokens ▸ h.tokens
  error e he := by
    rw [herror] at he
    obtain rfl := Option.some.inj he
    refine Span.sound_point ⟨seen, rest, hfile, h.here, fun a ha c _ => .inl ?_⟩
    rw [hlast] at ha
    obtain rfl : carriageReturn = a := by simpa using ha
    decide

/-- **One byte**, with which the scan goes on or stops. -/
theorem Charts.feed (h : s.Charts file seen) (hfile : file.text = seen ++ b :: rest) :
    (s.feed file b).Charts file (seen ++ [b]) ∨
      ((s.feed file b).Charted file ∧ (s.feed file b).error.isSome = true) := by
  unfold Scanner.feed
  rw [h.error, Option.isSome_none, if_neg Bool.false_ne_true]
  cases hr : s.heldReturn with
  | some stop =>
    obtain ⟨hstop, hlast⟩ := h.held stop (by simp [hr])
    dsimp only
    split
    · next hb =>
      rw [beq_iff_eq] at hb
      subst hb
      exact .inl (h.endLine hstop)
    · exact .inr ⟨h.fault hfile hlast rfl rfl, rfl⟩
  | none =>
    dsimp only
    split
    · next hb =>
      rw [beq_iff_eq] at hb
      subst hb
      have hhere := h.marks_here hfile (.inr (by decide))
      refine .inl ⟨by simp [past, h.here, Location.after_concat], h.start, fun _ a ha => ?_, ?_,
        h.tokens, h.error⟩
      · obtain rfl : carriageReturn = a := by simpa using ha
        decide
      · simpa using hhere
    · split
      · next hb =>
        rw [beq_iff_eq] at hb
        subst hb
        exact .inl (h.endLine (h.marks_here hfile (.inr (by decide))))
      · exact .inl (h.feedByte hfile hr)

/-- **The end of the text.** -/
theorem Charts.finish (h : s.Charts file file.text) : (s.finish file).Charted file := by
  unfold Scanner.finish
  rw [h.error, Option.isSome_none, if_neg Bool.false_ne_true]
  have hend : s.here.Marks file.text :=
    ⟨file.text, [], by simp, h.here, fun a _ c hc => absurd hc (by simp)⟩
  cases hr : s.heldReturn with
  | some stop => exact h.fault (append_nil _).symm (h.held stop (by simp [hr])).2 rfl rfl
  | none =>
    have hended : ((s.endWord file s.here .blank)).Charted file :=
      ⟨tokens_endWord h.start hend h.tokens, by simp [h.error]⟩
    cases hs : s.mode with
    | quoted start =>
      refine ⟨h.tokens, fun e he => ?_⟩
      obtain rfl := Option.some.inj he
      exact Span.sound_point (h.start start (by rw [hs]; rfl))
    | blank | comment | word => exact hended

/-- **Every scan** keeps to places. -/
theorem charted (file : SourceFile) :
    (Scanner.finish file (file.text.foldl (Scanner.feed file) {})).Charted file := by
  have hend : Charts file file.text (file.text.foldl (Scanner.feed file) {}) ∨ _ :=
    foldl_keeps (P := fun seen (s : Scanner) =>
      s.Charts file seen ∨ s.Charted file ∧ s.error.isSome = true) (.inl (charts_start file))
      fun {_ b _ s} hfile h => h.elim (fun h => h.feed hfile) fun h => by
        -- after a fault nothing changes
        have hsame : s.feed file b = s := by rw [Scanner.feed, if_pos h.2]
        exact .inr (hsame.symm ▸ h)
  rcases hend with h | ⟨h, herror⟩
  · exact h.finish
  · rw [Scanner.finish, if_pos herror]
    exact h

end Scanner

theorem SourceFile.scan_spans (file : SourceFile) :
    (∀ t ∈ file.scan.tokens, t.span.Sound file) ∧ ∀ e ∈ file.scan.error, e.span.Sound file := by
  have h := Scanner.charted file
  refine ⟨fun t ht => ?_, h.error⟩
  obtain ⟨hlt, -, hsits⟩ := file.scan_tokens.1 t ht
  obtain ⟨hstart, hstop⟩ := h.tokens t (mem_reverse.mp ht)
  exact ⟨hsits.1, hstart, hstop, Nat.le_of_lt hlt⟩

/-! ## 3. The reader -/

namespace Form

mutual

/-- The spans of a form and of all that it holds. -/
def spans : Form → List Span
  | .atom s _ => [s]
  | .list s items => s :: spansAll items

def spansAll : List Form → List Span
  | [] => []
  | f :: rest => spans f ++ spansAll rest

end

theorem mem_spansAll {fs : List Form} {s : Span} : s ∈ spansAll fs ↔ ∃ f ∈ fs, s ∈ f.spans := by
  induction fs with
  | nil => simp [spansAll]
  | cons f rest ih => simp [spansAll, ih]

def Sound (file : SourceFile) (f : Form) : Prop := ∀ s ∈ f.spans, s.Sound file

theorem sound_list {file : SourceFile} {s : Span} {items : List Form} (hs : s.Sound file)
    (hitems : ∀ f ∈ items, f.Sound file) : Form.Sound file (.list s items) := by
  refine forall_mem_cons.mpr ⟨hs, fun s' hs' => ?_⟩
  obtain ⟨f, hf, hmem⟩ := mem_spansAll.mp hs'
  exact hitems f hf s' hmem

end Form

namespace FormReader

variable {file : SourceFile} {r r' : FormReader} {t : Token} {n : Nat}

/-- The reader when all tokens to come start behind the offset `n`. -/
structure Charts (file : SourceFile) (n : Nat) (r : FormReader) : Prop where
  source : r.file = file
  forms : ∀ f ∈ r.forms, f.Sound file
  stack : ∀ top ∈ r.stack, top.start.Marks file.text ∧ top.start.offset ≤ n ∧
    ∀ f ∈ top.items, f.Sound file

theorem Charts.mono {n' : Nat} (h : r.Charts file n) (hn : n ≤ n') : r.Charts file n' :=
  ⟨h.source, h.forms, fun top htop =>
    let ⟨hstart, hle, hitems⟩ := h.stack top htop
    ⟨hstart, Nat.le_trans hle hn, hitems⟩⟩

theorem Charts.add {f : Form} (h : r.Charts file n) (hf : f.Sound file) :
    (r.add f).Charts file n := by
  unfold FormReader.add
  cases hs : r.stack with
  | nil => exact ⟨h.source, forall_mem_cons.mpr ⟨hf, h.forms⟩, by simp⟩
  | cons =>
    obtain ⟨⟨hstart, hle, hitems⟩, hrest⟩ := forall_mem_cons.mp (hs ▸ h.stack)
    exact ⟨h.source, h.forms, forall_mem_cons.mpr
      ⟨⟨hstart, hle, forall_mem_cons.mpr ⟨hf, hitems⟩⟩, hrest⟩⟩

/-- **One token.** -/
theorem Charts.feed (h : r.Charts file n) (ht : t.span.Sound file) (hn : n ≤ t.span.start.offset)
    (hfeed : r.feed t = .ok r') : r'.Charts file t.span.stop.offset := by
  have hle : n ≤ t.span.stop.offset := Nat.le_trans hn ht.order
  rcases feed_cases hfeed with ⟨-, rfl⟩ | ⟨top, rest, -, hs, rfl⟩ | ⟨top, rest, -, -, rfl⟩
  · exact ⟨h.source, h.forms, forall_mem_cons.mpr
      ⟨⟨ht.start, ht.order, by simp⟩, (h.mono hle).stack⟩⟩
  · obtain ⟨⟨hstart, hoffset, hitems⟩, hrest⟩ := forall_mem_cons.mp (hs ▸ h.stack)
    have hpopped : Charts file n { r with stack := rest } := ⟨h.source, h.forms, hrest⟩
    refine (hpopped.mono hle).add (Form.sound_list ?_ fun f hf => hitems f (mem_reverse.mp hf))
    exact ⟨congrArg some h.source, hstart, ht.stop, Nat.le_trans hoffset hle⟩
  · refine (h.mono hle).add fun s hs => ?_
    rw [mem_singleton.mp hs]
    exact ht

/-- **All tokens**, which follow one another; a fault is about one of them. -/
theorem Charts.feedAll {ts : List Token} (h : r.Charts file n)
    (hsound : ∀ t ∈ ts, t.span.Sound file)
    (hn : ∀ t ∈ ts, n ≤ t.span.start.offset)
    (horder : ts.Pairwise fun a b => a.span.stop.offset ≤ b.span.start.offset) :
    (∃ n', (r.feedAll ts).1.Charts file n') ∧ ∀ e ∈ (r.feedAll ts).2, e.span.Sound file := by
  induction ts generalizing r n with
  | nil => exact ⟨⟨n, h⟩, by simp [FormReader.feedAll]⟩
  | cons t rest ih =>
    obtain ⟨ht, hrest⟩ := forall_mem_cons.mp hsound
    obtain ⟨hfirst, horder⟩ := pairwise_cons.mp horder
    unfold FormReader.feedAll
    cases hfeed : r.feed t with
    | ok => exact ih (h.feed ht (hn t mem_cons_self) hfeed) hrest hfirst horder
    | error e =>
      refine ⟨⟨n, h⟩, fun e' he' => ?_⟩
      obtain rfl : e = e' := by simpa using he'
      rcases (feed_error hfeed).2 with ⟨-, rfl⟩ | ⟨-, rfl⟩ <;> exact ht

/-- Lists left open at the end of a file get spans that are sound, from the inside out. -/
theorem sound_closeAll {forms : List Form} {stack : List OpenForm} {inner : Option Form}
    (hforms : ∀ f ∈ forms, f.Sound file) (hinner : ∀ f ∈ inner, f.Sound file)
    (hstack : ∀ top ∈ stack, top.start.Marks file.text ∧ ∀ f ∈ top.items, f.Sound file) :
    ∀ f ∈ closeAll file forms inner stack, f.Sound file := by
  induction stack generalizing inner with
  | nil =>
    intro f hf
    cases inner with
    | none => exact hforms f (mem_reverse.mp hf)
    | some g => exact forall_mem_cons.mpr ⟨hinner g rfl, hforms⟩ f (mem_reverse.mp hf)
  | cons top rest ih =>
    obtain ⟨⟨hstart, hitems⟩, hrest⟩ := forall_mem_cons.mp hstack
    have hopen : Form.Sound file (.list ⟨some file, top.start, top.start, true⟩
        (inner.toList ++ top.items).reverse) := by
      refine Form.sound_list ⟨rfl, hstart, hstart, Nat.le_refl _⟩ fun f hf => ?_
      rcases mem_append.mp (mem_reverse.mp hf) with hf | hf
      · exact hinner f (Option.mem_toList.mp hf)
      · exact hitems f hf
    have hclosed := ih (fun f hf => Option.some.inj hf ▸ hopen) hrest
    cases inner <;> exact hclosed

theorem Charts.allForms (h : r.Charts file n) : ∀ f ∈ r.allForms, f.Sound file := by
  unfold FormReader.allForms
  rw [h.source]
  exact sound_closeAll h.forms (by simp) fun top htop =>
    ⟨(h.stack top htop).1, (h.stack top htop).2.2⟩

end FormReader

/-! ## 4. Whole files -/

namespace SourceFile

/-- Every span that scanning and reading the file gives: those of tokens, of forms, of what they
hold and of faults. -/
def spans (file : SourceFile) : List Span :=
  file.scan.tokens.map Token.span ++ file.scan.error.toList.map SourceError.span ++
    Form.spansAll file.read.forms ++ file.read.error.toList.map SourceError.span

/-- What is read has sound spans, and so has the fault at which reading stops. -/
theorem read_spans (file : SourceFile) :
    (∀ f ∈ file.read.forms, f.Sound file) ∧ ∀ e ∈ file.read.error, e.span.Sound file := by
  obtain ⟨htokens, herror⟩ := file.scan_spans
  have hstart : FormReader.Charts file 0 { file } := ⟨rfl, by simp, by simp⟩
  obtain ⟨⟨n, hr⟩, hfault⟩ := hstart.feedAll htokens (fun _ _ => Nat.zero_le _) file.scan_tokens.2
  unfold SourceFile.read
  dsimp only
  split
  · next hfed => exact ⟨hr.allForms, fun e he => Option.some.inj he ▸ hfault _ hfed⟩
  · next hscan => exact ⟨hr.allForms, fun e he => Option.some.inj he ▸ herror _ hscan⟩
  · next top below hfed hscan hstack =>
    have htop : top.start.Marks file.text :=
      (hr.stack top (by rw [hstack]; exact mem_cons_self)).1
    exact ⟨hr.allForms, fun e he => Option.some.inj he ▸ Span.sound_point htop⟩
  · exact ⟨hr.allForms, by simp⟩

/-- **Every span of a file is sound.** -/
theorem spans_sound {file : SourceFile} {s : Span} (hs : s ∈ file.spans) : s.Sound file := by
  simp only [spans, mem_append, mem_map, Option.mem_toList] at hs
  rcases hs with ((⟨t, ht, rfl⟩ | ⟨e, he, rfl⟩) | hs) | ⟨e, he, rfl⟩
  · exact file.scan_spans.1 t ht
  · exact file.scan_spans.2 e he
  · obtain ⟨f, hf, hmem⟩ := Form.mem_spansAll.mp hs
    exact file.read_spans.1 f hf s hmem
  · exact file.read_spans.2 e he

/-- **Every reported place is accurate.**  Whatever the bytes of a file, the two ends of every
token, of every form and of every fault have an offset in the text, the line that the line feeds
in front of it give, and the column that the bytes since the last of them give, those that
continue a character not counted. -/
theorem spans_accurate (file : SourceFile) (s : Span) (hs : s ∈ file.spans) :
    s.start.Accurate file.text ∧ s.stop.Accurate file.text :=
  ⟨(spans_sound hs).start.accurate, (spans_sound hs).stop.accurate⟩

/-- A quoted atom over two lines with a character of two bytes, behind a line end of two bytes, and
a carriage return without its line feed. -/
def placeSample : SourceFile := ⟨"a", "(f\r\n \"é\n\" x\r"⟩

theorem spans_accurate_placeSample :
    (⟨some placeSample, ⟨5, 1, 1⟩, ⟨10, 2, 1⟩, false⟩ : Span) ∈ placeSample.spans ∧
      (⟨5, 1, 1⟩ : Location).Accurate placeSample.text ∧
      (⟨10, 2, 1⟩ : Location).Accurate placeSample.text ∧
    (⟨some placeSample, ⟨13, 2, 4⟩, ⟨13, 2, 4⟩, false⟩ : Span) ∈ placeSample.spans ∧
      (⟨13, 2, 4⟩ : Location).Accurate placeSample.text := by
  have hatom : (⟨some placeSample, ⟨5, 1, 1⟩, ⟨10, 2, 1⟩, false⟩ : Span) ∈ placeSample.spans := by
    decide
  have hfault : (⟨some placeSample, ⟨13, 2, 4⟩, ⟨13, 2, 4⟩, false⟩ : Span) ∈ placeSample.spans := by
    decide
  obtain ⟨hstart, hstop⟩ := spans_accurate placeSample _ hatom
  exact ⟨hatom, hstart, hstop, hfault, (spans_accurate placeSample _ hfault).1⟩

end SourceFile

end HaloScript
