/-
# Outlines

An outline is what a program says apart from how it came about: the declarations of the table
in order, with their values, and for every name what it is linked to.  Places in a source, the
numbers of nodes, serial numbers and whether a global is constant are left out, so programs
built from different texts can be compared.

A link is given by the place of the declaration in the table.  `Outline.link` links an outline
in a directory of names, as `Value.resolve` links a value; `strip` forgets the links again.
-/
import HaloScript.Build.Resolve
import HaloScript.Proofs.Shape

namespace HaloScript

/-! ## 1. Outlines of values -/

/-- What a name is linked to. -/
inductive Link where
  /-- To nothing: the name is a word. -/
  | word
  /-- To a declaration, by its place in the table. -/
  | declared (place : Option Nat)
deriving DecidableEq, Inhabited

/-- A value without numbers and places. -/
inductive Outline where
  | leaf (text : Option Text) (link : Link)
  | call (function : Text) (link : Link) (clause : Bool) (args : List Outline)
deriving Inhabited

def Leaf.outline (place : DeclId → Option Nat) : Leaf → Outline
  | .blank => .leaf none .word
  | .atom t => .leaf (some t) .word
  | .global g => .leaf (some g.name) (.declared (place (.global g)))
  | .script s => .leaf (some s.name) (.declared (place (.script s)))

def Callee.link (place : DeclId → Option Nat) : Callee → Link
  | .word _ _ => .word
  | .script s => .declared (place (.script s))

namespace Value

mutual

def outline (place : DeclId → Option Nat) : Value → Outline
  | .leaf _ l => l.outline place
  | .call _ h args => .call h.callee.name (h.callee.link place) h.clause (outlineAll place args)

def outlineAll (place : DeclId → Option Nat) : List Value → List Outline
  | [] => []
  | v :: rest => outline place v :: outlineAll place rest

end

end Value

namespace Outline

mutual

/-- What is written for an outline; for a leaf without content, nothing. -/
def written : Outline → List Shape
  | .leaf text _ => (text.map .atom).toList
  | .call function _ clause args =>
    [.list ((if clause then [] else [.atom function]) ++ writtenAll args)]

def writtenAll : List Outline → List Shape
  | [] => []
  | o :: rest => written o ++ writtenAll rest

end

mutual

def strip : Outline → Outline
  | .leaf text _ => .leaf text .word
  | .call function _ clause args => .call function .word clause (stripAll args)

def stripAll : List Outline → List Outline
  | [] => []
  | o :: rest => strip o :: stripAll rest

end

end Outline

namespace Value

mutual

theorem written_outline (place : DeclId → Option Nat) (v : Value) :
    (v.outline place).written = v.written := by
  match v with
  | .leaf t l => cases l <;> rfl
  | .call t h args =>
    rw [outline, Outline.written, written, writtenAll_outlineAll place args]

theorem writtenAll_outlineAll (place : DeclId → Option Nat) (vs : List Value) :
    Outline.writtenAll (outlineAll place vs) = writtenAll vs := by
  match vs with
  | [] => rfl
  | v :: rest =>
    rw [outlineAll, Outline.writtenAll, writtenAll, written_outline place v,
      writtenAll_outlineAll place rest]

end

end Value

/-! ## 2. Linking -/

/-- What names mean: whether a name is that of a script, and the place of its declaration. -/
abbrev Directory := Text → Option (Bool × Nat)

def Directory.without (dir : Directory) (params : List Param) : Directory := fun name =>
  if params.any (·.name == name) then none else dir name

namespace Link

def ofLeaf (dir : Directory) (name : Text) : Link :=
  match dir name with
  | some (_, k) => .declared (some k)
  | none => .word

/-- The link of a word that is called; only scripts are linked. -/
def ofCall (dir : Directory) (name : Text) : Link :=
  match dir name with
  | some (true, k) => .declared (some k)
  | _ => .word

end Link

namespace Outline

mutual

def link (dir : Directory) : Outline → Outline
  | .leaf (some t) .word => .leaf (some t) (.ofLeaf dir t)
  | .leaf text l => .leaf text l
  | .call function .word false args =>
    .call function (.ofCall dir function) false (linkAll dir args)
  | .call function l clause args => .call function l clause (linkAll dir args)

def linkAll (dir : Directory) : List Outline → List Outline
  | [] => []
  | o :: rest => link dir o :: linkAll dir rest

end

mutual

def callsGlobal (dir : Directory) : Outline → Bool
  | .leaf _ _ => false
  | .call function l clause args =>
    (l == .word && !clause && (dir function).any (!·.1)) || callsGlobalAll dir args

def callsGlobalAll (dir : Directory) : List Outline → Bool
  | [] => false
  | o :: rest => callsGlobal dir o || callsGlobalAll dir rest

end

mutual

theorem strip_link (dir : Directory) (o : Outline) : (o.link dir).strip = o.strip := by
  match o with
  | .leaf none l => cases l <;> rfl
  | .leaf (some t) l => cases l <;> rfl
  | .call f l clause args =>
    have ih := stripAll_linkAll dir args
    cases l <;> cases clause <;> simp [link, strip, ih]

theorem stripAll_linkAll (dir : Directory) (os : List Outline) :
    stripAll (linkAll dir os) = stripAll os := by
  match os with
  | [] => rfl
  | o :: rest => rw [linkAll, stripAll, stripAll, strip_link dir o, stripAll_linkAll dir rest]

end

mutual

theorem written_link (dir : Directory) (o : Outline) : (o.link dir).written = o.written := by
  match o with
  | .leaf none l => cases l <;> rfl
  | .leaf (some t) l => cases l <;> rfl
  | .call f l clause args =>
    have ih := writtenAll_linkAll dir args
    cases l <;> cases clause <;> simp [link, written, ih]

theorem writtenAll_linkAll (dir : Directory) (os : List Outline) :
    writtenAll (linkAll dir os) = writtenAll os := by
  match os with
  | [] => rfl
  | o :: rest =>
    rw [linkAll, writtenAll, writtenAll, written_link dir o, writtenAll_linkAll dir rest]

end

end Outline

/-! ## 3. Outlines of declarations and programs -/

/-- A declaration without numbers and places. -/
inductive DeclOutline where
  | global (type name : Text) (value : Outline)
  | script (kind : ScriptKind) (returnType name : Text) (params : List Param) (body : List Outline)
deriving Inhabited

namespace DeclOutline

def name : DeclOutline → Text
  | .global _ name _ => name
  | .script _ _ name _ _ => name

def isScript : DeclOutline → Bool
  | .global _ _ _ => false
  | .script _ _ _ _ _ => true

def isMacro : DeclOutline → Bool
  | .global _ _ _ => false
  | .script kind _ _ _ _ => kind == .macroScript

def keyword : DeclOutline → Text
  | .global _ _ _ => "global"
  | .script _ _ _ _ _ => "script"

def heading : DeclOutline → List Text
  | .global type name _ => [type, name]
  | .script kind returnType name _ _ =>
    kind.name :: ((if kind.hasReturnType then [returnType] else []) ++ [name])

def values : DeclOutline → List Outline
  | .global _ _ value => [value]
  | .script _ _ _ _ body => body

def written (d : DeclOutline) : List Shape :=
  (d.keyword :: d.heading).map .atom ++ Outline.writtenAll d.values

def hidden : DeclOutline → List Param
  | .global _ _ _ => []
  | .script kind _ _ params _ => if kind == .macroScript then params else []

def link (dir : Directory) (d : DeclOutline) : DeclOutline :=
  match d with
  | .global type name value => .global type name (value.link (dir.without d.hidden))
  | .script kind returnType name params body =>
    .script kind returnType name params (Outline.linkAll (dir.without d.hidden) body)

def strip : DeclOutline → DeclOutline
  | .global type name value => .global type name value.strip
  | .script kind returnType name params body =>
    .script kind returnType name params (Outline.stripAll body)

def callsGlobal (dir : Directory) (d : DeclOutline) : Bool :=
  Outline.callsGlobalAll (dir.without d.hidden) d.values

def directory (ds : List DeclOutline) : Directory := fun name =>
  (ds.findIdx? (·.name == name)).bind fun k => ds[k]?.map fun d => (d.isScript, k)

theorem strip_link (dir : Directory) (d : DeclOutline) : (d.link dir).strip = d.strip := by
  cases d with
  | global => simp [link, strip, Outline.strip_link]
  | script => simp [link, strip, Outline.stripAll_linkAll]

theorem written_link (dir : Directory) (d : DeclOutline) : (d.link dir).written = d.written := by
  cases d with
  | global =>
    simp [link, written, keyword, heading, values, Outline.writtenAll, Outline.written_link]
  | script =>
    simp [link, written, keyword, heading, values, Outline.writtenAll_linkAll]

end DeclOutline

def Declaration.outline (place : DeclId → Option Nat) : Declaration → DeclOutline
  | .global g => .global g.type g.id.name (g.value.outline place)
  | .script s => .script s.kind s.returnType s.id.name s.params (Value.outlineAll place s.body)

theorem Declaration.written_outline (place : DeclId → Option Nat) (d : Declaration) :
    (d.outline place).written = d.written := by
  cases d with
  | global g =>
    have hvalue := Value.written_outline place g.value
    simp [outline, DeclOutline.written, DeclOutline.keyword, DeclOutline.heading,
      DeclOutline.values, written, keyword, heading, values, Outline.writtenAll,
      Value.writtenAll, hvalue]
  | script s =>
    have hbody := Value.writtenAll_outlineAll place s.body
    simp [outline, DeclOutline.written, DeclOutline.keyword, DeclOutline.heading,
      DeclOutline.values, written, keyword, heading, values, hbody]

namespace Program

def place (p : Program) (d : DeclId) : Option Nat := p.table.entries.idxOf? d

/-- **The outline of a program:** its declarations in table order. -/
def outline (p : Program) : List DeclOutline := p.declarations.map (Declaration.outline p.place)

end Program

/-! ## 4. Linking values is linking outlines -/

def DeclId.isScript : DeclId → Bool
  | .global _ => false
  | .script _ => true

/-- A scope knows the names of a directory, and what it knows stands at the places given. -/
structure Scope.Charted (scope : Scope) (place : DeclId → Option Nat) (dir : Directory) : Prop where
  unknown : ∀ name, scope name = none → dir name = none
  known : ∀ name d, scope name = some d →
    d.name = name ∧ ∃ k, place d = some k ∧ dir name = some (d.isScript, k)

section Linking

variable {scope : Scope} {place : DeclId → Option Nat} {dir : Directory}

theorem Leaf.outline_resolve (hc : scope.Charted place dir) (l : Leaf) :
    (l.resolve scope).outline place = (l.outline place).link dir := by
  cases l with
  | blank => rfl
  | global => rfl
  | script => rfl
  | atom t =>
    cases ht : scope t with
    | none => simp [Leaf.resolve, ht, outline, Outline.link, Link.ofLeaf, hc.unknown t ht]
    | some d =>
      obtain ⟨hname, k, hplace, hdir⟩ := hc.known t d ht
      have hlink : (outline place (.atom t)).link dir = .leaf (some t) (.declared (some k)) := by
        simp [outline, Outline.link, Link.ofLeaf, hdir]
      rw [hlink, Leaf.resolve, ht, ← hname, ← hplace]
      cases d <;> rfl

theorem Report.hasErrors_tellCalledGlobal (r : Report) (span : Option Span) (g : GlobalId) :
    (r.tellCalledGlobal span g).hasErrors = true := by
  simp [Report.tellCalledGlobal, Report.tellAt, Report.add, Report.hasErrors]

/-- All that linking a head can do: a clause and a name without meaning stay, a script is linked,
and a global that is called is complained about. -/
theorem Head.resolve_run (h : Head) (r : Report) : h.resolve scope r =
    match h.callee with
    | .script _ => (h, r)
    | .word t s =>
      if h.clause then (h, r)
      else match scope t with
        | none => (h, r)
        | some (.script id) => ({ h with callee := .script id }, r)
        | some (.global g) => (h, r.tellCalledGlobal (s.or h.span) g) := by
  obtain ⟨id, span, callee, clause⟩ := h
  cases callee with
  | script => rfl
  | word t =>
    cases clause with
    | true => rfl
    | false =>
      unfold Head.resolve
      simp only [Bool.false_eq_true, if_false]
      cases scope t with
      | none => rfl
      | some d => cases d <;> rfl

/-- Linking a head links the name, or reports that it is a global's. -/
theorem Head.outline_resolve (hc : scope.Charted place dir) (h : Head) (r : Report)
    (args : List Outline) :
    let h' := (h.resolve scope r).1
    (Outline.call h'.callee.name (h'.callee.link place) h'.clause (Outline.linkAll dir args) =
        (Outline.call h.callee.name (h.callee.link place) h.clause args).link dir) ∧
      (h.resolve scope r).2.hasErrors =
        (r.hasErrors || (h.callee.link place == .word && !h.clause &&
          (dir h.callee.name).any (!·.1))) := by
  rw [Head.resolve_run]
  obtain ⟨id, span, callee, clause⟩ := h
  cases callee with
  | script => simp [Callee.link, Outline.link]
  | word t s =>
    cases clause with
    | true => simp [Callee.link, Outline.link]
    | false =>
      cases ht : scope t with
      | none => simp [ht, Callee.link, Outline.link, Callee.name, Link.ofCall, hc.unknown t ht]
      | some d =>
        obtain ⟨hname, k, hplace, hdir⟩ := hc.known t d ht
        cases d with
        | script id =>
          have hname : id.name = t := hname
          simp [ht, Callee.link, Outline.link, Callee.name, Link.ofCall, hdir, hplace, hname,
            DeclId.isScript]
        | global g =>
          have herr := r.hasErrors_tellCalledGlobal (s.or span) g
          simp [ht, Callee.link, Outline.link, Callee.name, Link.ofCall, hdir, DeclId.isScript,
            herr]

namespace Value

theorem resolve_leaf_run (t : Tag) (l : Leaf) (r : Report) :
    resolve scope (.leaf t l) r = (.leaf t (l.resolve scope), r) := rfl

theorem resolve_call_run (t : Tag) (h : Head) (args : List Value) (r : Report) :
    resolve scope (.call t h args) r =
      (.call t (h.resolve scope r).1 (resolveAll scope args (h.resolve scope r).2).1,
        (resolveAll scope args (h.resolve scope r).2).2) := rfl

theorem resolveAll_cons_run (v : Value) (rest : List Value) (r : Report) :
    resolveAll scope (v :: rest) r =
      ((v.resolve scope r).1 :: (resolveAll scope rest (v.resolve scope r).2).1,
        (resolveAll scope rest (v.resolve scope r).2).2) := rfl

mutual

/-- **Linking a value** links its outline, and there is an error exactly if a global is called. -/
theorem outline_resolve (hc : scope.Charted place dir) (v : Value) (r : Report) :
    (v.resolve scope r).1.outline place = (v.outline place).link dir ∧
      (v.resolve scope r).2.hasErrors = (r.hasErrors || (v.outline place).callsGlobal dir) := by
  match v with
  | .leaf t l =>
    rw [resolve_leaf_run]
    exact ⟨l.outline_resolve hc, by cases l <;> simp [outline, Leaf.outline, Outline.callsGlobal]⟩
  | .call t h args =>
    obtain ⟨hhead, herr⟩ := h.outline_resolve hc r (outlineAll place args)
    obtain ⟨hargs, herrs⟩ := outlineAll_resolveAll hc args (h.resolve scope r).2
    rw [resolve_call_run]
    refine ⟨?_, ?_⟩
    · rw [outline, outline, hargs, hhead]
    · dsimp only
      rw [herrs, herr, outline, Outline.callsGlobal, Bool.or_assoc]

/-- The same for several values. -/
theorem outlineAll_resolveAll (hc : scope.Charted place dir) (vs : List Value) (r : Report) :
    outlineAll place (resolveAll scope vs r).1 = Outline.linkAll dir (outlineAll place vs) ∧
      (resolveAll scope vs r).2.hasErrors =
        (r.hasErrors || Outline.callsGlobalAll dir (outlineAll place vs)) := by
  match vs with
  | [] =>
    have hrun : resolveAll scope [] r = ([], r) := rfl
    rw [hrun]
    exact ⟨rfl, by simp [outlineAll, Outline.callsGlobalAll]⟩
  | v :: rest =>
    obtain ⟨hv, herr⟩ := outline_resolve hc v r
    obtain ⟨hrest, herrs⟩ := outlineAll_resolveAll hc rest (v.resolve scope r).2
    rw [resolveAll_cons_run]
    refine ⟨?_, ?_⟩
    · rw [outlineAll, outlineAll, Outline.linkAll, hv, hrest]
    · dsimp only
      rw [herrs, herr, outlineAll, Outline.callsGlobalAll, Bool.or_assoc]

end

end Value

/-- Parameters hide the same names in a scope and in its directory. -/
theorem Table.charted_without {t : Table} (hc : (t.scope []).Charted place dir)
    (params : List Param) : (t.scope params).Charted place (dir.without params) where
  unknown name h := by
    unfold Table.scope at h
    unfold Directory.without
    split at h
    · next hp => rw [if_pos hp]
    · next hp => rw [if_neg hp]; exact hc.unknown name (by simpa [Table.scope] using h)
  known name d h := by
    unfold Table.scope at h
    unfold Directory.without
    split at h
    · exact absurd h (by simp)
    · next hp => rw [if_neg hp]; exact hc.known name d (by simpa [Table.scope] using h)

end Linking

end HaloScript
