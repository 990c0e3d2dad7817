/-
# The brackets of a file

A file is read when its tokens are bracketed lists with nothing between them, and not otherwise
(`SourceFile.read_brackets`).  The grammar (`Token.Balanced`, `Token.Bracketed`) is about tokens
only.  The forms that are read give the tokens back, each with its place: a list starts with its
opening bracket and stops with the closing bracket of its own.

The reader keeps the lists that are still open on a stack, so what holds between two tokens is
about the tokens that have been read and the brackets among them that are open
(`Token.Pending`, `FormReader.Reads`).

An open list has a start only.  A reader that carries the whole span of such a list would have to
check that no end is set twice (`CheckedReader`); the last section shows that these checks never
fail, and that it reads the same.
-/
import HaloScript.Proofs.Reading
import HaloScript.Proofs.Scanning.Partition

namespace HaloScript

open List

/-! ## 1. The grammar of brackets -/

namespace Token

def IsAtom (t : Token) : Prop := t.kind = .atom ∨ t.kind = .quotedAtom

/-- Atoms and bracketed lists, one after the other. -/
inductive Balanced : List Token → Prop
  | nil : Balanced []
  | atom {ts : List Token} (h : Balanced ts) {t : Token} (ht : t.IsAtom) : Balanced (ts ++ [t])
  | list {ts inner : List Token} (h : Balanced ts) (hinner : Balanced inner) {first last : Token}
      (hfirst : first.kind = .openBracket) (hlast : last.kind = .closeBracket) :
      Balanced (ts ++ (first :: inner ++ [last]))

/-- Bracketed lists, one after the other. -/
inductive Bracketed : List Token → Prop
  | nil : Bracketed []
  | list {ts inner : List Token} (h : Bracketed ts) (hinner : Balanced inner) {first last : Token}
      (hfirst : first.kind = .openBracket) (hlast : last.kind = .closeBracket) :
      Bracketed (ts ++ (first :: inner ++ [last]))

/-- Tokens that leave some brackets open, the innermost one first. -/
inductive Pending : List Token → List Token → Prop
  | closed {ts : List Token} (h : Bracketed ts) : Pending [] ts
  | opened {opens ts inner : List Token} (h : Pending opens ts) {first : Token}
      (hfirst : first.kind = .openBracket) (hinner : Balanced inner) :
      Pending (first :: opens) (ts ++ first :: inner)

variable {opens ts : List Token} {t first : Token}

theorem Pending.openBracket (h : Pending opens ts) (ht : t.kind = .openBracket) :
    Pending (t :: opens) (ts ++ [t]) :=
  .opened h ht .nil

theorem Pending.closeBracket (h : Pending (first :: opens) ts) (ht : t.kind = .closeBracket) :
    Pending opens (ts ++ [t]) := by
  obtain _ | ⟨h, hfirst, hinner⟩ := h
  rw [append_assoc]
  cases h with
  | closed h => exact .closed (h.list hinner hfirst ht)
  | opened h houter houters =>
    rw [append_assoc]
    exact .opened h houter (houters.list hinner hfirst ht)

theorem Pending.atom (h : Pending (first :: opens) ts) (ht : t.IsAtom) :
    Pending (first :: opens) (ts ++ [t]) := by
  obtain _ | ⟨h, hfirst, hinner⟩ := h
  rw [append_assoc]
  exact .opened h hfirst (hinner.atom ht)

end Token

/-! ## 2. Places -/

/-- What a form keeps of a token. -/
inductive Mark where
  | opening (start : Location)
  | closing (stop : Location)
  | atom (span : Span) (quoted : Bool)

namespace Mark

def first : Mark → Nat
  | .opening start => start.offset
  | .closing stop => stop.offset - 1
  | .atom span _ => span.start.offset

def behind : Mark → Nat
  | .opening start => start.offset + 1
  | .closing stop => stop.offset
  | .atom span _ => span.stop.offset

end Mark

def Token.mark (t : Token) : Mark :=
  match t.kind with
  | .openBracket => .opening t.span.start
  | .closeBracket => .closing t.span.stop
  | .atom => .atom t.span false
  | .quotedAtom => .atom t.span true

theorem Token.IsAtom.mark {t : Token} (h : t.IsAtom) :
    t.mark = .atom t.span (t.kind == .quotedAtom) := by
  unfold Token.mark
  rcases h with h | h <;> rw [h] <;> rfl

theorem Token.first_mark {t : Token} (h : t.span.start.offset < t.span.stop.offset) :
    t.span.start.offset ≤ t.mark.first := by
  unfold Token.mark Mark.first
  cases t.kind <;> simp only <;> omega

theorem Token.behind_mark {t : Token} (h : t.span.start.offset < t.span.stop.offset) :
    t.mark.behind ≤ t.span.stop.offset := by
  unfold Token.mark Mark.behind
  cases t.kind <;> simp only <;> omega

namespace Form

mutual

def marks : Form → List Mark
  | .atom s q => [.atom s q]
  | .list s items => .opening s.start :: (marksAll items ++ [.closing s.stop])

def marksAll : List Form → List Mark
  | [] => []
  | f :: rest => marks f ++ marksAll rest

end

theorem marksAll_eq_flatMap (fs : List Form) : marksAll fs = fs.flatMap marks := by
  induction fs with
  | nil => rfl
  | cons f rest ih => rw [marksAll, ih, flatMap_cons]

/-- The form and all that it holds have ended. -/
inductive Ended (file : SourceFile) : Form → Prop
  | atom {s : Span} {q : Bool} (hfile : s.file = some file) (hdone : s.unfinished = false) :
      Ended file (.atom s q)
  | list {s : Span} {items : List Form} (hfile : s.file = some file) (hdone : s.unfinished = false)
      (hitems : ∀ f ∈ items, f.Ended file) : Ended file (.list s items)

/-- The form has ended; what it holds stands between its ends, one element behind the other. -/
inductive Placed (file : SourceFile) : Form → Prop
  | atom {s : Span} {q : Bool} (hfile : s.file = some file) (hdone : s.unfinished = false) :
      Placed file (.atom s q)
  | list {s : Span} {items : List Form} (hfile : s.file = some file) (hdone : s.unfinished = false)
      (hinside : ∀ f ∈ items, s.start.offset < f.span.start.offset ∧
        f.span.stop.offset < s.stop.offset)
      (horder : items.Pairwise fun f g => f.span.stop.offset ≤ g.span.start.offset)
      (hitems : ∀ f ∈ items, f.Placed file) : Placed file (.list s items)

theorem exists_first (f : Form) : ∃ m ∈ f.marks, m.first = f.span.start.offset := by
  cases f with
  | atom => exact ⟨_, mem_singleton_self _, rfl⟩
  | list => exact ⟨_, mem_cons_self, rfl⟩

theorem exists_behind (f : Form) : ∃ m ∈ f.marks, m.behind = f.span.stop.offset := by
  cases f with
  | atom => exact ⟨_, mem_singleton_self _, rfl⟩
  | list s => exact ⟨.closing s.stop, by simp [marks], rfl⟩

theorem pairwise_of_marks {fs : List Form}
    (h : (marksAll fs).Pairwise fun m n => m.behind ≤ n.first) :
    fs.Pairwise fun f g => f.span.stop.offset ≤ g.span.start.offset := by
  rw [marksAll_eq_flatMap, pairwise_flatMap] at h
  refine h.2.imp fun {f g} hfg => ?_
  obtain ⟨m, hm, hbehind⟩ := f.exists_behind
  obtain ⟨n, hn, hfirst⟩ := g.exists_first
  rw [← hbehind, ← hfirst]
  exact hfg m hm n hn

/-- **Where the marks follow one another, every element is in its place.** -/
theorem Ended.placed {file : SourceFile} {f : Form} (hended : f.Ended file)
    (h : f.marks.Pairwise fun m n => m.behind ≤ n.first) : f.Placed file := by
  induction hended with
  | atom hfile hdone => exact .atom hfile hdone
  | @list s items hfile hdone hitems ih =>
    rw [marks, pairwise_cons, pairwise_append] at h
    obtain ⟨hopening, hmarks, -, hclosing⟩ := h
    have hends : s.start.offset + 1 ≤ s.stop.offset - 1 :=
      hopening (.closing s.stop) (by simp)
    refine .list hfile hdone (fun f hf => ?_) (pairwise_of_marks hmarks) fun f hf => ih f hf ?_
    · obtain ⟨m, hm, hfirst⟩ := f.exists_first
      obtain ⟨n, hn, hbehind⟩ := f.exists_behind
      have hin : ∀ m ∈ f.marks, m ∈ marksAll items := fun m hm => by
        rw [marksAll_eq_flatMap]
        exact mem_flatMap.mpr ⟨f, hf, hm⟩
      have hstart : s.start.offset + 1 ≤ m.first :=
        hopening m (mem_append_left _ (hin m hm))
      have hstop : n.behind ≤ s.stop.offset - 1 :=
        hclosing n (hin n hn) _ (mem_singleton_self _)
      omega
    · rw [marksAll_eq_flatMap, pairwise_flatMap] at hmarks
      exact hmarks.1 f hf

end Form

/-! ## 3. The reader -/

namespace FormReader

variable {file : SourceFile} {r r' : FormReader} {t : Token} {ts seen : List Token}

/-- What a token that is read does. -/
theorem feed_cases (h : r.feed t = .ok r') :
    (t.kind = .openBracket ∧ r' = { r with stack := ⟨t.span.start, []⟩ :: r.stack }) ∨
    (∃ top rest, t.kind = .closeBracket ∧ r.stack = top :: rest ∧
      r' = FormReader.add { r with stack := rest }
        (.list ⟨some r.file, top.start, t.span.stop, false⟩ top.items.reverse)) ∨
    (∃ top rest, t.IsAtom ∧ r.stack = top :: rest ∧
      r' = r.add (.atom t.span (t.kind == .quotedAtom))) := by
  unfold feed at h
  cases hk : t.kind with
  | openBracket =>
    rw [hk] at h
    exact .inl ⟨rfl, (Except.ok.inj h).symm⟩
  | closeBracket =>
    rw [hk] at h
    cases hs : r.stack with
    | nil => simp [hs] at h
    | cons top rest =>
      simp only [hs, Except.ok.injEq] at h
      exact .inr (.inl ⟨top, rest, rfl, rfl, h.symm⟩)
  | atom | quotedAtom =>
    rw [hk] at h
    cases hs : r.stack with
    | nil => simp [hs] at h
    | cons top rest =>
      simp only [hs, Except.ok.injEq] at h
      exact .inr (.inr ⟨top, rest, by simp [Token.IsAtom, hk], rfl, h.symm⟩)

/-- When a token is not read: no list is open. -/
theorem feed_error {e : SourceError} (h : r.feed t = .error e) : r.stack = [] ∧
    (t.kind = .closeBracket ∧ e = Fault.unopenedBracket.on t.span ∨
      t.IsAtom ∧ e = (Fault.looseAtom t.span.text).on t.span) := by
  unfold feed at h
  cases hk : t.kind with
  | openBracket =>
    rw [hk] at h
    cases h
  | closeBracket =>
    rw [hk] at h
    cases hs : r.stack with
    | nil =>
      simp only [hs, Except.error.injEq] at h
      exact ⟨rfl, .inl ⟨rfl, h.symm⟩⟩
    | cons => simp [hs] at h
  | atom | quotedAtom =>
    rw [hk] at h
    cases hs : r.stack with
    | nil =>
      simp only [hs, Except.error.injEq] at h
      exact ⟨rfl, .inr ⟨by simp [Token.IsAtom, hk], h.symm⟩⟩
    | cons => simp [hs] at h

def stackMarks : List OpenForm → List Mark
  | [] => []
  | top :: rest => stackMarks rest ++ .opening top.start :: Form.marksAll top.items.reverse

def marks (r : FormReader) : List Mark := Form.marksAll r.forms.reverse ++ stackMarks r.stack

theorem marks_add (r : FormReader) (f : Form) : (r.add f).marks = r.marks ++ f.marks := by
  unfold add marks
  cases r.stack with
  | nil => simp [stackMarks, Form.marksAll_eq_flatMap]
  | cons => simp [stackMarks, Form.marksAll_eq_flatMap]

/-- **A token that is read leaves its mark.** -/
theorem marks_feed (h : r.feed t = .ok r') : r'.marks = r.marks ++ [t.mark] := by
  rcases feed_cases h with ⟨hk, rfl⟩ | ⟨top, rest, hk, hs, rfl⟩ | ⟨top, rest, hk, hs, rfl⟩
  · simp [marks, stackMarks, Form.marksAll, Token.mark, hk]
  · rw [marks_add]
    simp [marks, hs, stackMarks, Form.marks, Token.mark, hk]
  · rw [marks_add, hk.mark]
    simp [Form.marks]

/-- All forms that the reader holds have ended. -/
def Ended (file : SourceFile) (r : FormReader) : Prop :=
  (∀ f ∈ r.forms, f.Ended file) ∧ ∀ top ∈ r.stack, ∀ f ∈ top.items, f.Ended file

theorem Ended.add {f : Form} (h : r.Ended file) (hf : f.Ended file) : (r.add f).Ended file := by
  unfold FormReader.add
  obtain ⟨hforms, hstack⟩ := h
  cases hs : r.stack with
  | nil => exact ⟨forall_mem_cons.mpr ⟨hf, hforms⟩, by simp⟩
  | cons =>
    rw [hs] at hstack
    obtain ⟨htop, hrest⟩ := forall_mem_cons.mp hstack
    exact ⟨hforms, forall_mem_cons.mpr ⟨forall_mem_cons.mpr ⟨hf, htop⟩, hrest⟩⟩

@[simp] theorem file_add (r : FormReader) (f : Form) : (r.add f).file = r.file := by
  unfold add
  split <;> rfl

@[simp] theorem starts_add (r : FormReader) (f : Form) :
    (r.add f).stack.map OpenForm.start = r.stack.map OpenForm.start := by
  unfold add
  split <;> simp [*]

/-- The reader after the tokens `seen` of a file. -/
structure Reads (file : SourceFile) (seen : List Token) (r : FormReader) : Prop where
  source : r.file = file
  marks : r.marks = seen.map Token.mark
  ended : r.Ended file
  brackets : ∃ opens, Token.Pending opens seen ∧
    r.stack.map OpenForm.start = opens.map fun t => t.span.start

theorem reads_start (file : SourceFile) : Reads file [] { file } where
  source := rfl
  marks := rfl
  ended := ⟨fun _ h => absurd h not_mem_nil, fun _ h => absurd h not_mem_nil⟩
  brackets := ⟨[], .closed .nil, rfl⟩

/-- **One token.** -/
theorem Reads.feed (h : r.Reads file seen) (ht : t.SitsIn file) (hfeed : r.feed t = .ok r') :
    r'.Reads file (seen ++ [t]) := by
  have hmarks : r'.marks = (seen ++ [t]).map Token.mark := by
    rw [marks_feed hfeed, h.marks, map_append, map_singleton]
  obtain ⟨opens, hpending, hstarts⟩ := h.brackets
  rcases feed_cases hfeed with ⟨hk, rfl⟩ | ⟨top, rest, hk, hs, rfl⟩ | ⟨top, rest, hk, hs, rfl⟩
  · exact ⟨h.source, hmarks, ⟨h.ended.1, forall_mem_cons.mpr ⟨by simp, h.ended.2⟩⟩,
      t :: opens, hpending.openBracket hk, by simp [hstarts]⟩
  · obtain ⟨hforms, hstack⟩ := h.ended
    rw [hs] at hstack hstarts
    obtain ⟨htop, hrest⟩ := forall_mem_cons.mp hstack
    obtain ⟨first, opens, rfl, -, hopens⟩ := map_eq_cons_iff.mp hstarts.symm
    refine ⟨by simp [h.source], hmarks,
      Ended.add ⟨hforms, hrest⟩ (.list (by simp [h.source]) rfl ?_),
      opens, hpending.closeBracket hk, by simp [hopens]⟩
    exact fun f hf => htop f (mem_reverse.mp hf)
  · rw [hs] at hstarts
    obtain ⟨first, opens, rfl, -, -⟩ := map_eq_cons_iff.mp hstarts.symm
    exact ⟨by simp [h.source], hmarks, h.ended.add (.atom ht.1 ht.2.1), first :: opens,
      hpending.atom hk, by rw [starts_add, hs, hstarts]⟩

/-- The first token that is not read, and the fault it shows. -/
inductive BracketFault (tokens : List Token) : SourceError → Prop
  | unopened {seen rest : List Token} {t : Token} (htokens : tokens = seen ++ t :: rest)
      (hseen : Token.Bracketed seen) (ht : t.kind = .closeBracket) :
      BracketFault tokens (Fault.unopenedBracket.on t.span)
  | loose {seen rest : List Token} {t : Token} (htokens : tokens = seen ++ t :: rest)
      (hseen : Token.Bracketed seen) (ht : t.IsAtom) :
      BracketFault tokens ((Fault.looseAtom t.span.text).on t.span)

/-- **All tokens**, by induction on those that are still to come: they are read, or one of them
is at fault. -/
theorem Reads.feedAll (rest : List Token) : ∀ {seen : List Token} {r : FormReader},
    r.Reads file seen → (∀ t ∈ rest, t.SitsIn file) →
    match (r.feedAll rest).2 with
    | none => (r.feedAll rest).1.Reads file (seen ++ rest)
    | some e => BracketFault (seen ++ rest) e := by
  induction rest with
  | nil =>
    intro seen r h _
    simpa [FormReader.feedAll] using h
  | cons t rest ih =>
    intro seen r h hrest
    obtain ⟨ht, hrest⟩ := forall_mem_cons.mp hrest
    unfold FormReader.feedAll
    cases hfeed : r.feed t with
    | ok => simpa using ih (h.feed ht hfeed) hrest
    | error =>
      obtain ⟨hs, hfault⟩ := feed_error hfeed
      obtain ⟨opens, hpending, hstarts⟩ := h.brackets
      obtain rfl : opens = [] := by simpa [hs] using hstarts
      obtain ⟨hseen⟩ := hpending
      rcases hfault with ⟨hk, rfl⟩ | ⟨hk, rfl⟩
      · exact .unopened rfl hseen hk
      · exact .loose rfl hseen hk

/-! ## 4. Bracketed tokens are read -/

theorem feedAll_append (ts us : List Token) : ∀ {r r' : FormReader}, r.feedAll ts = (r', none) →
    r.feedAll (ts ++ us) = r'.feedAll us := by
  induction ts with
  | nil =>
    intro r r' h
    rw [(Prod.mk.inj h).1]
    rfl
  | cons t ts ih =>
    intro r r' h
    rw [feedAll] at h
    rw [cons_append, feedAll]
    cases hfeed : r.feed t with
    | ok =>
      rw [hfeed] at h
      exact ih h
    | error => simp [hfeed] at h

theorem feedAll_singleton {t : Token} (h : r.feed t = .ok r') : r.feedAll [t] = (r', none) := by
  rw [feedAll, h]
  rfl

theorem lexeme_openBracket (ht : t.kind = .openBracket) : t.lexeme = .opening := by
  rw [Token.lexeme, ht]

theorem lexeme_closeBracket (ht : t.kind = .closeBracket) : t.lexeme = .closing := by
  rw [Token.lexeme, ht]

theorem feed_isAtom (ht : t.IsAtom) {top : OpenForm} {rest : List OpenForm}
    (hs : r.stack = top :: rest) :
    r.feed t = .ok (r.add (.atom t.span (t.kind == .quotedAtom))) := by
  rcases ht with ht | ht <;> rw [feed, ht, hs]

/-- Balanced tokens are elements of the innermost list that is open. -/
theorem feedAll_balanced (h : Token.Balanced ts) : ∀ {r : FormReader} {top : OpenForm}
    {rest : List OpenForm}, r.stack = top :: rest → ∃ items,
      r.feedAll ts = ({ r with stack := { top with items } :: rest }, none) := by
  induction h with
  | nil =>
    intro r top rest hs
    exact ⟨top.items, by rw [feedAll, ← hs]⟩
  | atom _ ht ih =>
    intro r top rest hs
    obtain ⟨items, hall⟩ := ih hs
    exact ⟨_, (feedAll_append _ _ hall).trans (feedAll_singleton (feed_isAtom ht rfl))⟩
  | @list _ _ _ _ first last hfirst hlast ih ihinner =>
    intro r top rest hs
    obtain ⟨items, hall⟩ := ih hs
    rw [feedAll_append _ _ hall, cons_append, feedAll, feed_opening (lexeme_openBracket hfirst)]
    obtain ⟨inner, hinner⟩ := ihinner (r := ⟨r.file, r.forms, _⟩) rfl
    have hclose := feed_closing (lexeme_closeBracket hlast)
      (r := ⟨r.file, r.forms, ⟨first.span.start, inner⟩ :: ⟨top.start, items⟩ :: rest⟩) rfl
    exact ⟨_, (feedAll_append _ _ hinner).trans (feedAll_singleton hclose)⟩

/-- **Bracketed tokens are read**, and no list is left open. -/
theorem feedAll_bracketed (h : Token.Bracketed ts) : ∀ {r : FormReader}, r.stack = [] →
    ∃ forms, r.feedAll ts = (⟨r.file, forms, []⟩, none) := by
  induction h with
  | nil =>
    intro r hs
    exact ⟨r.forms, by rw [feedAll, ← hs]⟩
  | @list _ _ _ hinner first last hfirst hlast ih =>
    intro r hs
    obtain ⟨forms, hall⟩ := ih hs
    rw [feedAll_append _ _ hall, cons_append, feedAll, feed_opening (lexeme_openBracket hfirst)]
    obtain ⟨inner, hinner⟩ := feedAll_balanced hinner (r := ⟨r.file, forms, _⟩) rfl
    have hclose := feed_closing (lexeme_closeBracket hlast)
      (r := ⟨r.file, forms, [⟨first.span.start, inner⟩]⟩) rfl
    exact ⟨_, (feedAll_append _ _ hinner).trans (feedAll_singleton hclose)⟩

end FormReader

/-! ## 5. Ends that are set once -/

/-- The span with an end, if it has none yet. -/
def Span.finish? (s : Span) (stop : Location) : Option Span :=
  if s.unfinished then some { s with stop, unfinished := false } else none

/-- A reader whose open lists have spans, and which adds its forms to a collection that may have
been sealed. -/
structure CheckedReader where
  file : SourceFile
  isSealed : Bool
  /-- The finished top-level forms, the last one first. -/
  forms : List Form
  /-- The open lists, the innermost one first, and their elements, the last one first. -/
  stack : List (Span × List Form)

namespace CheckedReader

def add (r : CheckedReader) (f : Form) : CheckedReader :=
  match r.stack with
  | [] => { r with forms := f :: r.forms }
  | (span, items) :: rest => { r with stack := (span, f :: items) :: rest }

/-- One token further on, or the fault it shows; nothing where a list that has ended would end
again, or a sealed collection would grow. -/
def feed (r : CheckedReader) (t : Token) : Option (Except SourceError CheckedReader) :=
  match t.kind with
  | .openBracket =>
    if r.stack.isEmpty && r.isSealed then none
    else
      let span : Span := ⟨some r.file, t.span.start, t.span.start, true⟩
      some (.ok { r with stack := (span, []) :: r.stack })
  | .closeBracket =>
    match r.stack with
    | [] => some (.error (Fault.unopenedBracket.on t.span))
    | (span, items) :: rest =>
      (span.finish? t.span.stop).map fun span =>
        .ok (CheckedReader.add { r with stack := rest } (.list span items.reverse))
  | .atom | .quotedAtom =>
    match r.stack with
    | [] => some (.error ((Fault.looseAtom t.span.text).on t.span))
    | _ :: _ => some (.ok (r.add (.atom t.span (t.kind == .quotedAtom))))

def feedAll (r : CheckedReader) : List Token → Option (CheckedReader × Option SourceError)
  | [] => some (r, none)
  | t :: rest =>
    match r.feed t with
    | none => none
    | some (.ok r') => r'.feedAll rest
    | some (.error e) => some (r, some e)

def closeAll (forms : List Form) : Option Form → List (Span × List Form) → List Form
  | none, [] => forms.reverse
  | some f, [] => (f :: forms).reverse
  | inner, (span, items) :: rest =>
    closeAll forms (some (.list span (inner.toList ++ items).reverse)) rest

/-- What has been read of a file, with the fault that ends it. -/
def reading (file : SourceFile) (r : CheckedReader) (fault : Option SourceError) : Reading :=
  let forms := closeAll r.forms none r.stack
  match fault, file.scan.error, r.stack with
  | some e, _, _ => ⟨forms, some e⟩
  | none, some e, _ => ⟨forms, some e⟩
  | none, none, (span, _) :: _ => ⟨forms, some (Fault.openForm.on (.point file span.start))⟩
  | none, none, [] => ⟨forms, none⟩

end CheckedReader

/-- Reads a whole file into an open collection; nothing where a check fails. -/
def SourceFile.readChecked (file : SourceFile) : Option Reading :=
  (CheckedReader.feedAll ⟨file, false, [], []⟩ file.scan.tokens).map fun (r, fault) =>
    r.reading file fault

namespace FormReader

/-- The reader with spans that have no end yet, adding to an open collection. -/
def checked (r : FormReader) : CheckedReader where
  file := r.file
  isSealed := false
  forms := r.forms
  stack := r.stack.map fun o => (⟨some r.file, o.start, o.start, true⟩, o.items)

theorem checked_add (r : FormReader) (f : Form) : (r.add f).checked = r.checked.add f := by
  unfold add CheckedReader.add checked
  cases r.stack <;> rfl

/-- **One token passes the checks.** -/
theorem feed_checked (r : FormReader) (t : Token) :
    r.checked.feed t = some ((r.feed t).map checked) := by
  unfold feed CheckedReader.feed
  cases t.kind with
  | openBracket => simp [checked, Except.map]
  | closeBracket =>
    cases hs : r.stack with
    | nil => simp [checked, hs, Except.map]
    | cons =>
      simp only [Except.map, checked_add]
      simp [checked, hs, Span.finish?]
  | atom | quotedAtom =>
    cases hs : r.stack with
    | nil => simp [checked, hs, Except.map]
    | cons =>
      simp only [Except.map, checked_add]
      simp [checked, hs]

/-- **All tokens pass the checks.** -/
theorem feedAll_checked (ts : List Token) : ∀ r : FormReader,
    r.checked.feedAll ts = some ((r.feedAll ts).1.checked, (r.feedAll ts).2) := by
  induction ts with
  | nil => exact fun r => rfl
  | cons t rest ih =>
    intro r
    unfold feedAll CheckedReader.feedAll
    rw [feed_checked]
    cases r.feed t with
    | ok r' => exact ih r'
    | error => rfl

theorem closeAll_checked (file : SourceFile) (forms : List Form) (stack : List OpenForm) :
    ∀ inner, CheckedReader.closeAll forms inner
      (stack.map fun o => (⟨some file, o.start, o.start, true⟩, o.items)) =
      closeAll file forms inner stack := by
  induction stack with
  | nil => intro inner; cases inner <;> rfl
  | cons top rest ih => intro inner; cases inner <;> exact ih _

end FormReader

/-- **Every file passes the checks.** -/
theorem SourceFile.readChecked_eq (file : SourceFile) : file.readChecked = some file.read := by
  have hall := FormReader.feedAll_checked file.scan.tokens { file }
  unfold readChecked read
  rw [show (⟨file, false, [], []⟩ : CheckedReader) = FormReader.checked { file } from rfl, hall,
    Option.map_some]
  dsimp only
  generalize FormReader.feedAll { file } file.scan.tokens = out
  obtain ⟨r, fault⟩ := out
  have hforms := FormReader.closeAll_checked r.file r.forms r.stack none
  unfold CheckedReader.reading
  simp only [FormReader.checked, FormReader.allForms, hforms]
  cases fault <;> cases file.scan.error <;> cases r.stack <;> rfl

/-! ## 6. Whole files -/

/-- The fault with which the reading of a file ends whose scan has none. -/
inductive SourceFile.ReadFault (file : SourceFile) (tokens : List Token) : SourceError → Prop
  /-- The first token that is not read shows it. -/
  | atToken {e : SourceError} (h : FormReader.BracketFault tokens e) : ReadFault file tokens e
  /-- The innermost list that is still open has no end. -/
  | open {opens : List Token} {first : Token} (h : Token.Pending (first :: opens) tokens) :
      ReadFault file tokens (Fault.openForm.on (.point file first.span.start))

namespace SourceFile

variable {file : SourceFile}

theorem pairwise_mark (file : SourceFile) :
    (file.scan.tokens.map Token.mark).Pairwise fun m n => m.behind ≤ n.first := by
  obtain ⟨htokens, hpairwise⟩ := file.scan_tokens
  rw [pairwise_map]
  refine hpairwise.imp_of_mem fun {t u} ht hu htu => ?_
  calc t.mark.behind ≤ t.span.stop.offset := Token.behind_mark (htokens t ht).1
    _ ≤ u.span.start.offset := htu
    _ ≤ u.mark.first := Token.first_mark (htokens u hu).1

/-- What reading comes to when the scan has no fault. -/
theorem read_cases (hscan : file.scan.error = none) :
    (∃ r : FormReader, file.read = ⟨r.forms.reverse, none⟩ ∧ r.stack = [] ∧
      r.Reads file file.scan.tokens) ∨
    ∃ e, file.read.error = some e ∧ file.ReadFault file.scan.tokens e := by
  have hsits : ∀ t ∈ file.scan.tokens, t.SitsIn file := fun t ht => (file.scan_tokens.1 t ht).2.2
  have hall := (FormReader.reads_start file).feedAll file.scan.tokens hsits
  unfold read
  dsimp only
  rw [hscan]
  generalize FormReader.feedAll { file } file.scan.tokens = out at hall ⊢
  obtain ⟨r, fault⟩ := out
  cases fault with
  | some e => exact .inr ⟨e, rfl, .atToken hall⟩
  | none =>
    dsimp only [nil_append] at hall ⊢
    cases hs : r.stack with
    | nil => exact .inl ⟨r, by simp [FormReader.allForms, hs, FormReader.closeAll], hs, hall⟩
    | cons =>
      obtain ⟨opens, hpending, hstarts⟩ := hall.brackets
      rw [hs] at hstarts
      obtain ⟨first, opens, rfl, hstart, -⟩ := map_eq_cons_iff.mp hstarts.symm
      refine .inr ⟨_, rfl, ?_⟩
      rw [← hstart]
      exact .open hpending

theorem read_of_bracketed (hscan : file.scan.error = none)
    (h : Token.Bracketed file.scan.tokens) : file.read.error = none := by
  obtain ⟨forms, hall⟩ := FormReader.feedAll_bracketed h (r := { file }) rfl
  unfold read
  simp [hall, hscan]

end SourceFile

/-- Nothing is left open, so the tokens are bracketed. -/
theorem FormReader.Reads.bracketed {file : SourceFile} {tokens : List Token} {r : FormReader}
    (h : r.Reads file tokens) (hs : r.stack = []) : Token.Bracketed tokens := by
  obtain ⟨opens, hpending, hstarts⟩ := h.brackets
  obtain rfl : opens = [] := by simpa [hs] using hstarts
  obtain ⟨h⟩ := hpending
  exact h

/-- **The reader accepts the bracket grammar.**  A file whose scan has no fault is read if and only
if its tokens are bracketed lists with nothing between them.  The forms then give the tokens back,
in order and with their places; they have all ended, their elements stand inside of them, and one
element starts where the one in front has stopped, or behind that.

Otherwise the first closing bracket without a partner or the first atom outside of all lists is
reported, whichever comes first, and else the innermost list that is still open.  No list ends
twice, and nothing is added to a sealed collection. -/
theorem SourceFile.read_brackets (file : SourceFile) (hscan : file.scan.error = none) :
    (file.read.error = none ↔ Token.Bracketed file.scan.tokens) ∧
    (file.read.error = none →
      Form.marksAll file.read.forms = file.scan.tokens.map Token.mark ∧
      (∀ f ∈ file.read.forms, f.IsList ∧ f.Placed file) ∧
      file.read.forms.Pairwise fun f g => f.span.stop.offset ≤ g.span.start.offset) ∧
    (∀ e, file.read.error = some e → file.ReadFault file.scan.tokens e) ∧
    file.readChecked = some file.read := by
  refine ⟨⟨fun h => ?_, read_of_bracketed hscan⟩, fun h => ?_, fun e he => ?_, file.readChecked_eq⟩
  · obtain ⟨r, -, hs, hreads⟩ | ⟨e, he, -⟩ := read_cases hscan
    · exact hreads.bracketed hs
    · rw [h] at he
      cases he
  · obtain ⟨r, hread, hs, hreads⟩ | ⟨e, he, -⟩ := read_cases hscan
    · have hmarks : Form.marksAll r.forms.reverse = file.scan.tokens.map Token.mark := by
        rw [← hreads.marks, FormReader.marks, hs, FormReader.stackMarks, append_nil]
      have hpairwise := hmarks ▸ file.pairwise_mark
      rw [hread]
      refine ⟨hmarks, fun f hf => ⟨?_, ?_⟩, Form.pairwise_of_marks hpairwise⟩
      · exact (read_ok h).2.1 f (by rw [hread]; exact hf)
      · rw [Form.marksAll_eq_flatMap, pairwise_flatMap] at hpairwise
        exact (hreads.ended.1 f (mem_reverse.mp hf)).placed (hpairwise.1 f hf)
    · rw [h] at he
      cases he
  · obtain ⟨r, hread, -⟩ | ⟨e', he', hfault⟩ := read_cases hscan
    · rw [hread] at he
      cases he
    · obtain rfl := Option.some.inj (he'.symm.trans he)
      exact hfault

def bracketSample : SourceFile := ⟨"main.hsc", "(a \"b (\" (c)) ; d)\n"⟩

theorem SourceFile.read_bracketSample : bracketSample.scan.error = none ∧
    Token.Bracketed bracketSample.scan.tokens ∧
    ∀ f ∈ bracketSample.read.forms, f.Placed bracketSample := by
  have hscan : bracketSample.scan.error = none := by decide
  have hread : bracketSample.read.error = none := by decide
  obtain ⟨hiff, hforms, -⟩ := read_brackets bracketSample hscan
  exact ⟨hscan, hiff.mp hread, fun f hf => ((hforms hread).2.1 f hf).2⟩

end HaloScript
