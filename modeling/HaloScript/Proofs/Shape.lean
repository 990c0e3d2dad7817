/-
# Shapes

Without its places a source is a sequence of trees whose leaves are atoms.  This module has the
trees (`Shape`), the brackets and atoms they are written with (`Lexeme`), and the text the
printer makes of them.

Two facts carry what follows.  The lexemes determine the shapes (`lexemesAll_injective`), and
if two sequences of shapes have lexemes that first differ in an atom, then the shapes differ in
just this place and agree in all that comes before it (`Splits`).
-/
import HaloScript.Program.Printer
import HaloScript.Proofs.Parts

namespace HaloScript

/-! ## 1. Shapes and lexemes -/

namespace Text

theorem ofString_space : (" " : Text) = [space] := by decide

theorem ofString_newline : ("\n" : Text) = [newline] := by decide

theorem ofString_doubleQuote : ("\"" : Text) = [doubleQuote] := by decide

theorem ofString_openBracket : ("(" : Text) = [openBracket] := by decide

theorem ofString_closeBracket : (")" : Text) = [closeBracket] := by decide

theorem ofString_closeLine : ("\n)" : Text) = [newline, closeBracket] := by decide

end Text

/-- A form without places. -/
inductive Shape where
  | atom (text : Text)
  | list (items : List Shape)
deriving Inhabited

/-- A token without its place; the text of a quoted atom is what stands between its quotes. -/
inductive Lexeme where
  | opening
  | closing
  | atom (text : Text)
deriving DecidableEq, Inhabited

namespace Shape

mutual

def lexemes : Shape → List Lexeme
  | .atom t => [.atom t]
  | .list items => .opening :: (lexemesAll items ++ [.closing])

def lexemesAll : List Shape → List Lexeme
  | [] => []
  | x :: rest => lexemes x ++ lexemesAll rest

end

theorem lexemesAll_append (xs ys : List Shape) :
    lexemesAll (xs ++ ys) = lexemesAll xs ++ lexemesAll ys := by
  induction xs with
  | nil => rfl
  | cons x rest ih => simp [lexemesAll, ih]

theorem lexemesAll_map_atom (ts : List Text) :
    lexemesAll (ts.map .atom) = ts.map .atom := by
  induction ts with
  | nil => rfl
  | cons t rest ih => simp [lexemesAll, lexemes, ih]

/-! ## 2. Where two sequences part -/

/-- The lexemes after a sequence inside a list: none, or a closing bracket first. -/
def Ends (ls : List Lexeme) : Prop := ls = [] ∨ ∃ rest, ls = .closing :: rest

theorem ends_closing (rest : List Lexeme) : Ends (.closing :: rest) := .inr ⟨rest, rfl⟩

/-- The sequences of lexemes agree up to one place, where the first has the atom `t` and the
second the atom `u`. -/
inductive Parts (t u : Text) : List Lexeme → List Lexeme → Prop
  | here (ls ls' : List Lexeme) : Parts t u (.atom t :: ls) (.atom u :: ls')
  | later {ls ls' : List Lexeme} (l : Lexeme) (h : Parts t u ls ls') :
      Parts t u (l :: ls) (l :: ls')

variable {t u : Text}

theorem Parts.append_left {ls ls' : List Lexeme} (h : Parts t u ls ls') (xs : List Lexeme) :
    Parts t u (xs ++ ls) (xs ++ ls') := by
  induction xs with
  | nil => exact h
  | cons x rest ih => exact .later x ih

/-- A sequence does not part from itself. -/
theorem Parts.irrefl (htu : t ≠ u) (ls : List Lexeme) : ¬ Parts t u ls ls := by
  intro h
  induction ls with
  | nil => cases h
  | cons l rest ih =>
    cases h with
    | here => exact htu rfl
    | later _ h => exact ih h

/-- The sequences of shapes agree up to one place, where the first has the atom `t` and the
second the atom `u`. -/
inductive Splits (t u : Text) : List Shape → List Shape → Prop
  | here (xs ys : List Shape) : Splits t u (.atom t :: xs) (.atom u :: ys)
  | inside {xs ys : List Shape} (h : Splits t u xs ys) (xs' ys' : List Shape) :
      Splits t u (.list xs :: xs') (.list ys :: ys')
  | later {xs ys : List Shape} (x : Shape) (h : Splits t u xs ys) : Splits t u (x :: xs) (x :: ys)

theorem lexemesAll_atom_cons (t : Text) (xs : List Shape) (r : List Lexeme) :
    lexemesAll (.atom t :: xs) ++ r = .atom t :: (lexemesAll xs ++ r) := rfl

theorem lexemesAll_list_cons (items xs : List Shape) (r : List Lexeme) :
    lexemesAll (.list items :: xs) ++ r =
      .opening :: (lexemesAll items ++ .closing :: (lexemesAll xs ++ r)) := by
  simp [lexemesAll, lexemes]

/-- Either the sequences part at the place where their lexemes do, or that place lies behind
them.  By induction on the first sequence; the items of a list and what follows it are two
smaller sequences. -/
theorem splits_or_eq : ∀ (xs ys : List Shape) {r r' : List Lexeme}, Ends r → Ends r' →
    Parts t u (lexemesAll xs ++ r) (lexemesAll ys ++ r') →
    Splits t u xs ys ∨ (xs = ys ∧ Parts t u r r')
  | [], [], r, r', _, _, h => .inr ⟨rfl, h⟩
  | [], .atom a :: ys, r, r', hr, _, h => by
    rw [lexemesAll_atom_cons] at h
    rcases hr with rfl | ⟨_, rfl⟩ <;> cases h
  | [], .list items :: ys, r, r', hr, _, h => by
    rw [lexemesAll_list_cons] at h
    rcases hr with rfl | ⟨_, rfl⟩ <;> cases h
  | .atom a :: xs, [], r, r', _, hr', h => by
    rw [lexemesAll_atom_cons] at h
    rcases hr' with rfl | ⟨_, rfl⟩ <;> cases h
  | .list items :: xs, [], r, r', _, hr', h => by
    rw [lexemesAll_list_cons] at h
    rcases hr' with rfl | ⟨_, rfl⟩ <;> cases h
  | .atom a :: xs, .list items :: ys, r, r', _, _, h => by
    rw [lexemesAll_atom_cons, lexemesAll_list_cons] at h
    cases h
  | .list items :: xs, .atom a :: ys, r, r', _, _, h => by
    rw [lexemesAll_atom_cons, lexemesAll_list_cons] at h
    cases h
  | .atom a :: xs, .atom b :: ys, r, r', hr, hr', h => by
    rw [lexemesAll_atom_cons, lexemesAll_atom_cons] at h
    cases h with
    | here => exact .inl (.here xs ys)
    | later _ h =>
      rcases splits_or_eq xs ys hr hr' h with hs | ⟨rfl, hp⟩
      · exact .inl (.later _ hs)
      · exact .inr ⟨rfl, hp⟩
  | .list items :: xs, .list items' :: ys, r, r', hr, hr', h => by
    rw [lexemesAll_list_cons, lexemesAll_list_cons] at h
    cases h with
    | later _ h =>
      rcases splits_or_eq items items' (ends_closing _) (ends_closing _) h with hs | ⟨rfl, hp⟩
      · exact .inl (.inside hs xs ys)
      · cases hp with
        | later _ hp =>
          rcases splits_or_eq xs ys hr hr' hp with hs | ⟨rfl, hrest⟩
          · exact .inl (.later _ hs)
          · exact .inr ⟨rfl, hrest⟩

theorem splits_of_parts {xs ys : List Shape} (h : Parts t u (lexemesAll xs) (lexemesAll ys)) :
    Splits t u xs ys := by
  have h' : Parts t u (lexemesAll xs ++ []) (lexemesAll ys ++ []) := by simpa using h
  rcases splits_or_eq xs ys (.inl rfl) (.inl rfl) h' with hs | ⟨-, hp⟩
  · exact hs
  · cases hp

theorem Splits.parts {xs ys : List Shape} (h : Splits t u xs ys) :
    ∀ r r', Parts t u (lexemesAll xs ++ r) (lexemesAll ys ++ r') := by
  induction h with
  | here => exact fun r r' => .here _ _
  | inside _ xs' ys' ih =>
    intro r r'
    rw [lexemesAll_list_cons, lexemesAll_list_cons]
    exact .later _ (ih _ _)
  | later x _ ih =>
    intro r r'
    rw [lexemesAll, lexemesAll, List.append_assoc, List.append_assoc]
    exact (ih r r').append_left _

/-- **The lexemes determine the shapes.**  With different atoms behind them, the sequences part
there, so they do not part before. -/
theorem lexemesAll_injective {xs ys : List Shape} (h : lexemesAll xs = lexemesAll ys) :
    xs = ys := by
  have hparts : Parts "t" "u" (lexemesAll xs ++ [.closing, .atom "t"])
      (lexemesAll ys ++ [.closing, .atom "u"]) :=
    h ▸ (Parts.later .closing (.here [] [])).append_left _
  rcases splits_or_eq xs ys (ends_closing _) (ends_closing _) hparts with hs | ⟨heq, -⟩
  · exact absurd (h ▸ hs.parts [] []) (Parts.irrefl (by decide) _)
  · exact heq

/-! ## 3. Shapes as text -/

mutual

/-- A shape inside a list, with what separates it from the element before it. -/
def render (layout : Layout) (depth : Nat) (spaced : Bool) : Shape → Text
  | .atom t => Printer.gap spaced ++ Printer.atom t
  | .list items =>
    Printer.callGap layout depth spaced ++ "(" ++ renderAll layout (depth + 1) false items ++ ")"

def renderAll (layout : Layout) (depth : Nat) (spaced : Bool) : List Shape → Text
  | [] => []
  | x :: rest => render layout depth spaced x ++ renderAll layout depth true rest

end

def ending : Layout → Text
  | .compact => ")"
  | .pretty => "\n)"

def renderForms (layout : Layout) (forms : List (List Shape)) : Text :=
  forms.flatMap fun items => "(" ++ renderAll layout 1 false items ++ ending layout ++ "\n"

section

variable (layout : Layout) (depth : Nat)

include layout depth

theorem renderAll_append (xs ys : List Shape) :
    ∀ spaced, renderAll layout depth spaced (xs ++ ys) =
      renderAll layout depth spaced xs ++ renderAll layout depth (spaced || !xs.isEmpty) ys := by
  induction xs with
  | nil => intro spaced; simp [renderAll]
  | cons x rest ih =>
    intro spaced
    simp [renderAll, ih]

theorem render_ne_nil (spaced : Bool) (x : Shape) : render layout depth spaced x ≠ [] := by
  intro h
  cases x with
  | list => simp [render, Text.ofString_openBracket] at h
  | atom =>
    simp only [render, List.append_eq_nil_iff, Printer.atom] at h
    split at h
    · simp [Text.ofString_doubleQuote] at h
    · next hq => simp [Printer.needsQuotes, h.2] at hq

theorem isEmpty_renderAll (spaced : Bool) (xs : List Shape) :
    (renderAll layout depth spaced xs).isEmpty = xs.isEmpty := by
  cases xs with
  | nil => rfl
  | cons => simp [renderAll, render_ne_nil]

/-- Words are separated by single blanks. -/
theorem renderAll_words (ts : List Text) (t : Text) :
    renderAll layout depth false ((t :: ts).map .atom) =
      Text.join " " ((t :: ts).map Printer.atom) := by
  induction ts generalizing t with
  | nil => simp [renderAll, render, Printer.gap, Text.join]
  | cons u rest ih =>
    have hspaced : renderAll layout depth true ((u :: rest).map .atom) =
        (" " : Text) ++ renderAll layout depth false ((u :: rest).map .atom) := by
      simp [renderAll, render, Printer.gap]
    rw [List.map_cons, renderAll, hspaced, ih u]
    simp [render, Printer.gap, Text.join, List.intercalate_cons_cons]

end

end Shape

/-! ## 4. The shapes of values and declarations -/

namespace Value

mutual

def written : Value → List Shape
  | .leaf _ l => (l.text?.map .atom).toList
  | .call _ h args =>
    [.list ((if h.clause then [] else [.atom h.callee.name]) ++ writtenAll args)]

def writtenAll : List Value → List Shape
  | [] => []
  | v :: rest => written v ++ writtenAll rest

end

mutual

theorem print_eq_render (layout : Layout) (depth : Nat) (spaced : Bool) (v : Value) :
    Printer.value layout depth spaced v = Shape.renderAll layout depth spaced v.written := by
  match v with
  | .leaf t l =>
    cases hl : l.text? <;> simp [Printer.value, written, hl, Shape.renderAll, Shape.render]
  | .call t h args =>
    cases hc : h.clause <;>
      simp [Printer.value, written, hc, Shape.renderAll, Shape.render, Printer.gap,
        printAll_eq_renderAll layout (depth + 1) _ args]

theorem printAll_eq_renderAll (layout : Layout) (depth : Nat) (spaced : Bool) (vs : List Value) :
    Printer.values layout depth spaced vs =
      Shape.renderAll layout depth spaced (writtenAll vs) := by
  match vs with
  | [] => rfl
  | v :: rest =>
    rw [Printer.values, writtenAll, Shape.renderAll_append, print_eq_render layout depth spaced v,
      printAll_eq_renderAll layout depth _ rest, Shape.isEmpty_renderAll]

end

end Value

namespace Declaration

def isMacro : Declaration → Bool
  | .global _ => false
  | .script s => s.isMacro

def keyword : Declaration → Text
  | .global _ => "global"
  | .script _ => "script"

def heading : Declaration → List Text
  | .global g => [g.type, g.id.name]
  | .script s =>
    s.kind.name :: ((if s.kind.hasReturnType then [s.returnType] else []) ++ [s.id.name])

def written (d : Declaration) : List Shape :=
  (d.keyword :: d.heading).map .atom ++
    Value.writtenAll d.values

/-- The printer writes the shape of a declaration, and nothing for a macro. -/
theorem print?_eq_render (layout : Layout) (d : Declaration) :
    d.print? layout = if d.isMacro then none
      else some ("(" ++ Shape.renderAll layout 1 false d.written ++ Shape.ending layout) := by
  have hdecl : ∀ (w : Text) (ws : List Text) (vs : List Value),
      Printer.declaration layout (w :: ws) vs =
        "(" ++ Shape.renderAll layout 1 false ((w :: ws).map .atom ++ Value.writtenAll vs) ++
          Shape.ending layout := by
    intro w ws vs
    rw [Shape.renderAll_append, Shape.renderAll_words]
    cases layout <;> simp [Printer.declaration, Value.printAll_eq_renderAll, Shape.ending]
  cases d with
  | global g => exact congrArg some (hdecl "global" [g.type, g.id.name] [g.value])
  | script s =>
    rw [print?, isMacro]
    split
    · rfl
    · refine congrArg some ?_
      rw [Printer.script]
      exact hdecl "script" _ s.body

end Declaration

namespace Program

def written (p : Program) : List (List Shape) :=
  (p.declarations.filter (!·.isMacro)).map Declaration.written

/-- **The printer writes the shapes of the declarations.** -/
theorem print_eq_renderForms (layout : Layout) (p : Program) :
    p.print layout = Shape.renderForms layout p.written := by
  unfold print written
  generalize p.declarations = ds
  induction ds with
  | nil => rfl
  | cons d rest ih =>
    simp only [Shape.renderForms] at ih ⊢
    cases hm : d.isMacro <;> simp [d.print?_eq_render, hm, ih]

end Program

end HaloScript
