/-
# Reading forms

The forms of a file have the lexemes that the scan finds, in order (`read_ok`), so a reading is
determined by its lexemes.  And the lexemes of bracketed shapes are always read, as these shapes
(`read_of_lexemes`).
-/
import HaloScript.Proofs.Scanning.Atoms

namespace HaloScript

open List Form Token

/-! ## 1. The shapes of forms -/

namespace Form

mutual

def shape : Form → Shape
  | .atom s q => .atom (atomText s q)
  | .list _ items => .list (shapes items)

def shapes : List Form → List Shape
  | [] => []
  | f :: rest => shape f :: shapes rest

end

theorem shapes_eq_map (fs : List Form) : shapes fs = fs.map shape := by
  induction fs with
  | nil => rfl
  | cons f rest ih => rw [shapes, ih, map_cons]

theorem shapes_append (fs gs : List Form) : shapes (fs ++ gs) = shapes fs ++ shapes gs := by
  simp [shapes_eq_map]

def IsList (f : Form) : Prop := ∃ s items, f = .list s items

theorem IsList.shape_eq {f : Form} (h : f.IsList) : f.shape = .list (shapes f.items) := by
  obtain ⟨s, items, rfl⟩ := h
  rfl

end Form

namespace FormReader

variable {t : Token} {r : FormReader}

/-! ## 2. What has been read -/

def stackLexemes : List OpenForm → List Lexeme
  | [] => []
  | top :: rest =>
    stackLexemes rest ++ .opening :: Shape.lexemesAll (shapes top.items.reverse)

def lexemes (r : FormReader) : List Lexeme :=
  Shape.lexemesAll (shapes r.forms.reverse) ++ stackLexemes r.stack

theorem lexemes_add (r : FormReader) (f : Form) :
    (r.add f).lexemes = r.lexemes ++ f.shape.lexemes := by
  unfold add lexemes
  cases r.stack with
  | nil =>
    simp [stackLexemes, shapes_append, Shape.lexemesAll_append, shapes, Shape.lexemesAll]
  | cons =>
    simp [stackLexemes, shapes_append, Shape.lexemesAll_append, shapes, Shape.lexemesAll]

/-- A token that is read adds its lexeme. -/
theorem lexemes_feed {r r' : FormReader} (h : r.feed t = .ok r') :
    r'.lexemes = r.lexemes ++ [t.lexeme] := by
  unfold feed at h
  cases hk : t.kind with
  | openBracket =>
    simp only [hk, Except.ok.injEq] at h
    subst h
    simp [lexemes, stackLexemes, shapes, Shape.lexemesAll, lexeme, hk]
  | closeBracket =>
    rw [hk] at h
    cases hs : r.stack with
    | nil => simp [hs] at h
    | cons =>
      simp only [hs, Except.ok.injEq] at h
      subst h
      rw [lexemes_add]
      simp [lexemes, hs, stackLexemes, shape, Shape.lexemes, lexeme, hk]
  | atom =>
    have hplain : (TokenKind.atom == TokenKind.quotedAtom) = false := rfl
    rw [hk] at h
    cases hs : r.stack with
    | nil => simp [hs] at h
    | cons =>
      simp only [hs, Except.ok.injEq] at h
      subst h
      rw [lexemes_add]
      simp [shape, Shape.lexemes, lexeme, hk, hplain]
  | quotedAtom =>
    rw [hk] at h
    cases hs : r.stack with
    | nil => simp [hs] at h
    | cons =>
      simp only [hs, Except.ok.injEq] at h
      subst h
      rw [lexemes_add]
      simp [shape, Shape.lexemes, lexeme, hk]

theorem lexemes_feedAll (ts : List Token) : ∀ {r : FormReader}, (r.feedAll ts).2 = none →
    (r.feedAll ts).1.lexemes = r.lexemes ++ ts.map lexeme := by
  induction ts with
  | nil => intro r _; simp [feedAll]
  | cons t rest ih =>
    intro r h
    unfold feedAll at h ⊢
    cases hf : r.feed t with
    | error => simp [hf] at h
    | ok =>
      rw [hf] at h
      simp [ih h, lexemes_feed hf]

/-- Only lists stand at the top level. -/
theorem isList_feed {r r' : FormReader} (h : r.feed t = .ok r') (hr : ∀ f ∈ r.forms, f.IsList) :
    ∀ f ∈ r'.forms, f.IsList := by
  unfold feed at h
  split at h
  · rw [← Except.ok.inj h]
    exact hr
  · split at h
    · exact absurd h (by simp)
    · next top rest hs =>
      rw [← Except.ok.inj h]
      cases rest with
      | nil => exact forall_mem_cons.mpr ⟨⟨_, _, rfl⟩, hr⟩
      | cons => exact hr
  all_goals
    split at h
    · exact absurd h (by simp)
    · next top rest hs =>
      rw [← Except.ok.inj h, add, hs]
      exact hr

theorem isList_feedAll (ts : List Token) : ∀ {r : FormReader}, (∀ f ∈ r.forms, f.IsList) →
    ∀ f ∈ (r.feedAll ts).1.forms, f.IsList := by
  induction ts with
  | nil => exact fun hr => hr
  | cons t rest ih =>
    intro r hr
    unfold feedAll
    split
    · next hf => exact ih (isList_feed hf hr)
    · exact hr

/-! ## 3. Bracketed lexemes are read -/

theorem feed_opening (ht : t.lexeme = .opening) :
    r.feed t = .ok { r with stack := ⟨t.span.start, []⟩ :: r.stack } := by
  unfold lexeme at ht
  unfold feed
  cases hk : t.kind <;> simp [hk] at ht ⊢

theorem feed_closing (ht : t.lexeme = .closing) {top : OpenForm} {rest : List OpenForm}
    (hs : r.stack = top :: rest) :
    r.feed t = .ok (FormReader.add { r with stack := rest }
      (.list ⟨some r.file, top.start, t.span.stop, false⟩ top.items.reverse)) := by
  unfold lexeme at ht
  unfold feed
  cases hk : t.kind <;> simp [hk, hs] at ht ⊢

theorem feed_atom {text : Text} (ht : t.lexeme = .atom text) {top : OpenForm} {rest : List OpenForm}
    (hs : r.stack = top :: rest) :
    ∃ f, f.shape = .atom text ∧
      r.feed t = .ok { r with stack := { top with items := f :: top.items } :: rest } := by
  refine ⟨.atom t.span (t.kind == .quotedAtom), ?_, ?_⟩
  · unfold lexeme at ht
    cases hk : t.kind <;> simp [hk] at ht
    · rw [shape, ← ht]
      rfl
    · rw [shape, ← ht]
      rfl
  · unfold lexeme at ht
    unfold feed
    cases hk : t.kind <;> simp [hk, hs, add] at ht ⊢

/-- Tokens with the lexemes of some shapes are read as forms of these shapes, inside a list.  By
induction on the shapes, the items of a list being a smaller sequence. -/
theorem feedAll_inside : ∀ (xs : List Shape) (after : List Token) {ts : List Token}
    {r : FormReader} {top : OpenForm} {rest : List OpenForm},
    ts.map lexeme = Shape.lexemesAll xs → r.stack = top :: rest →
    ∃ fs, shapes fs = xs ∧ r.feedAll (ts ++ after) =
      FormReader.feedAll { r with stack := { top with items := fs.reverse ++ top.items } :: rest }
        after
  | [], after, ts, r, top, rest, hts, hs => by
    obtain rfl : ts = [] := by simpa [Shape.lexemesAll] using hts
    obtain ⟨file, forms, stack⟩ := r
    cases hs
    exact ⟨[], rfl, rfl⟩
  | .atom text :: xs, after, ts, r, top, rest, hts, hs => by
    rw [Shape.lexemesAll, Shape.lexemes, cons_append, nil_append] at hts
    obtain ⟨t, ts, rfl, ht, hts⟩ := map_eq_cons_iff.mp hts
    obtain ⟨f, hf, hfeed⟩ := feed_atom (r := r) ht hs
    obtain ⟨fs, hfs, hall⟩ := feedAll_inside xs after
      (r := { r with stack := { top with items := f :: top.items } :: rest }) hts rfl
    refine ⟨f :: fs, by rw [shapes, hf, hfs], ?_⟩
    rw [cons_append, feedAll, hfeed]
    simpa using hall
  | .list items :: xs, after, ts, r, top, rest, hts, hs => by
    rw [← append_nil (Shape.lexemesAll _), Shape.lexemesAll_list_cons, append_nil] at hts
    obtain ⟨t, ts, rfl, ht, hts⟩ := map_eq_cons_iff.mp hts
    obtain ⟨inner, ts, rfl, hinner, hts⟩ := map_eq_append_iff.mp hts
    obtain ⟨t', ts, rfl, ht', hts⟩ := map_eq_cons_iff.mp hts
    -- the opening bracket, the items, the closing bracket, and what follows
    obtain ⟨fs, hfs, hall⟩ := feedAll_inside items (t' :: (ts ++ after))
      (r := { r with stack := ⟨t.span.start, []⟩ :: r.stack }) hinner rfl
    obtain ⟨gs, hgs, hall'⟩ := feedAll_inside xs after
      (r := FormReader.add { r with stack := r.stack }
        (.list ⟨some r.file, t.span.start, t'.span.stop, false⟩ fs)) hts (by rw [add, hs])
    refine ⟨.list ⟨some r.file, t.span.start, t'.span.stop, false⟩ fs :: gs,
      by rw [shapes, shape, hfs, hgs], ?_⟩
    rw [cons_append, append_assoc, cons_append, feedAll, feed_opening ht]
    dsimp only
    rw [hall, feedAll, feed_closing ht' rfl]
    dsimp only
    rw [append_nil, reverse_reverse, hall', add, hs]
    simp

/-- Tokens with the lexemes of lists are read as forms of these shapes, at the top level. -/
theorem feedAll_top : ∀ (forms : List (List Shape)) {ts : List Token} {r : FormReader},
    ts.map lexeme = Shape.lexemesAll (forms.map .list) → r.stack = [] →
    ∃ fs, shapes fs = forms.map .list ∧
      r.feedAll ts = ({ r with forms := fs.reverse ++ r.forms }, none)
  | [], ts, r, hts, hs => by
    obtain rfl : ts = [] := by simpa [Shape.lexemesAll] using hts
    exact ⟨[], rfl, rfl⟩
  | items :: forms, ts, r, hts, hs => by
    rw [map_cons, ← append_nil (Shape.lexemesAll _), Shape.lexemesAll_list_cons,
      append_nil] at hts
    obtain ⟨t, ts, rfl, ht, hts⟩ := map_eq_cons_iff.mp hts
    obtain ⟨inner, ts, rfl, hinner, hts⟩ := map_eq_append_iff.mp hts
    obtain ⟨t', ts, rfl, ht', hts⟩ := map_eq_cons_iff.mp hts
    obtain ⟨fs, hfs, hall⟩ := feedAll_inside items (t' :: ts)
      (r := { r with stack := ⟨t.span.start, []⟩ :: r.stack }) hinner rfl
    obtain ⟨gs, hgs, hall'⟩ := feedAll_top forms
      (r := FormReader.add { r with stack := r.stack }
        (.list ⟨some r.file, t.span.start, t'.span.stop, false⟩ fs)) hts (by rw [add, hs])
    refine ⟨.list ⟨some r.file, t.span.start, t'.span.stop, false⟩ fs :: gs,
      by rw [shapes, shape, hfs, hgs, map_cons], ?_⟩
    rw [feedAll, feed_opening ht]
    dsimp only
    rw [hall, feedAll, feed_closing ht' rfl]
    dsimp only
    rw [append_nil, reverse_reverse, hall', add, hs]
    simp

end FormReader

/-! ## 4. Files -/

namespace SourceFile

/-- **What is read is what was scanned.** -/
theorem read_ok {file : SourceFile} (h : file.read.error = none) :
    file.scan.error = none ∧ (∀ f ∈ file.read.forms, f.IsList) ∧
      Shape.lexemesAll (shapes file.read.forms) = file.scan.tokens.map lexeme := by
  have hlists := FormReader.isList_feedAll file.scan.tokens (r := { file }) (by simp)
  have hlexemes := FormReader.lexemes_feedAll file.scan.tokens (r := { file })
  unfold read at h ⊢
  dsimp only at h ⊢
  generalize FormReader.feedAll { file } file.scan.tokens = out at h hlists hlexemes ⊢
  obtain ⟨r, fault⟩ := out
  split at h
  · exact absurd h (by simp)
  · exact absurd h (by simp)
  · exact absurd h (by simp)
  · next hfault herror hstack =>
    subst hfault
    have hforms : r.allForms = r.forms.reverse := by
      rw [FormReader.allForms, hstack, FormReader.closeAll]
    refine ⟨herror, ?_, ?_⟩
    · simpa [hforms, herror, hstack] using hlists
    · have hread := hlexemes rfl
      rw [FormReader.lexemes, hstack, FormReader.stackLexemes, append_nil] at hread
      simp [hforms, hread, FormReader.lexemes, FormReader.stackLexemes,
        shapes, Shape.lexemesAll]

/-- **Bracketed lexemes are read** as the shapes they come from. -/
theorem read_of_lexemes {file : SourceFile} {forms : List (List Shape)}
    (herror : file.scan.error = none)
    (h : file.scan.tokens.map lexeme = Shape.lexemesAll (forms.map .list)) :
    file.read.error = none ∧ shapes file.read.forms = forms.map .list := by
  obtain ⟨fs, hfs, hfeed⟩ := FormReader.feedAll_top forms (r := { file }) h rfl
  unfold read
  simp [hfeed, herror, FormReader.allForms, FormReader.closeAll, hfs]

end SourceFile

end HaloScript
