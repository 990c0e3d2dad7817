/-
# The grammar of declarations

What a top-level form declares depends on its shape alone.  This module states the grammar as a
function from shapes to outlines, with no places, no numbers and no messages, and shows that
building follows it: a form is refused exactly if its shape has no reading, and otherwise what
is built has the outline of the reading (`Build.declaration_refines`).

Two facts lead back from readings to shapes: a reading is written as it was read
(`declaration?_written`), up to the keyword, and what is written for it has it as its reading
(`declaration?_self`).
-/
import HaloScript.Proofs.Building
import HaloScript.Proofs.Outline
import HaloScript.Proofs.Reading

namespace HaloScript

open List Option Form Outline Shape
open DeclOutline (heading isMacro isScript keyword)

namespace Shape

/-! ## 1. The grammar -/

def text? : Shape → Option Text
  | .atom t => some t
  | .list _ => none

mutual

def value? (inCond : Bool) : Shape → Option Outline
  | .atom t => some (.leaf (some t) .word)
  | .list items =>
    match items with
    | [] => none
    | first :: rest =>
      if inCond then (values? false (first :: rest)).map fun args => .call "if" .word true args
      else first.text?.bind fun name =>
        (values? (name == ("cond" : Text)) rest).map fun args => .call name .word false args

def values? (inCond : Bool) : List Shape → Option (List Outline)
  | [] => some []
  | x :: rest => (value? inCond x).bind fun v => (values? inCond rest).map fun vs => v :: vs

end

def body? : List Shape → Option (List Outline)
  | [] => some []
  | [x] => (x.value? false).map fun v => [v]
  | .atom _ :: _ :: _ => none
  | .list items :: y :: rest =>
    (value? false (.list items)).bind fun v => (body? (y :: rest)).map fun vs => v :: vs

def nextAtom? : List Shape → Option (Text × List Shape)
  | [] => none
  | x :: rest => x.text?.map fun t => (t, rest)

def flattenParams? : List Shape → Option (List Shape)
  | [] => some []
  | .list items :: rest =>
    if items.length = 2 then (flattenParams? rest).map fun flat => items ++ flat else none
  | .atom t :: rest => (flattenParams? rest).map fun flat => .atom t :: flat

def pairParams? : List Shape → Option (List Param)
  | type :: name :: rest =>
    type.text?.bind fun type => name.text?.bind fun name =>
      (pairParams? rest).map fun params => ⟨type, name⟩ :: params
  | _ => some []

def params? (items : List Shape) : Option (List Param) :=
  (flattenParams? items).bind fun flat =>
    if flat.length % 2 = 0 then pairParams? flat else none

/-- The parameter list, where the type of the script asks for one, and the rest. -/
def nextParams? (kind : ScriptKind) (items : List Shape) : Option (List Param × List Shape) :=
  if kind = .macroScript then
    match items with
    | .list params :: rest => (params? params).map fun params => (params, rest)
    | _ => none
  else some ([], items)

/-- The return type, where the type of the script has one, and the rest. -/
def nextReturnType? (kind : ScriptKind) (items : List Shape) : Option (Text × List Shape) :=
  if kind.hasReturnType then nextAtom? items else some ([], items)

def script? (items : List Shape) : Option DeclOutline :=
  if items.length < 3 then none
  else (nextAtom? items).bind fun a =>
    if ScriptKind.ofName a.1 = .invalid then none
    else (nextReturnType? (.ofName a.1) a.2).bind fun r => (nextAtom? r.2).bind fun b =>
      (nextParams? (.ofName a.1) b.2).bind fun q =>
        (body? q.2).map fun vs => .script (.ofName a.1) r.1 b.1 q.1 vs

def global? : List Shape → Option DeclOutline
  | [type, name, init] =>
    type.text?.bind fun type => name.text?.bind fun name =>
      (init.value? false).map fun value => .global type name value
  | _ => none

def declaration? : List Shape → Option (Option DeclOutline)
  | [] => none
  | first :: rest => first.text?.bind fun word =>
    if word = ("global" : Text) ∨ word = ("constglobal" : Text) then (global? rest).map some
    else if word = ("script" : Text) then (script? rest).map some
    else if word = ("import" : Text) then some none
    else none

end Shape

/-! ## 2. Building follows the grammar -/

namespace Build

variable {α β γ δ : Type} {reading : Option β}

/-- The outcome of a computation beside a reading: a fault where there is no reading, and
otherwise something that stands for it. -/
inductive Outcome (rel : α → β → Prop) : Except SourceError (α × NodeId) → Option β → Prop
  | stopped (e : SourceError) : Outcome rel (.error e) none
  | given {a : α} {b : β} (n : NodeId) (h : rel a b) : Outcome rel (.ok (a, n)) (some b)

/-- A computation follows a reading, whatever number it starts from. -/
def Refines (rel : α → β → Prop) (x : Build α) (reading : Option β) : Prop :=
  ∀ n, Outcome rel (x n) reading

variable {rel : α → β → Prop} {rel' : γ → δ → Prop}

theorem refines_pure {a : α} {b : β} (h : rel a b) : Refines rel (pure a) (some b) :=
  fun n => .given n h

theorem refines_fail (f : Fault) (span : Span) : Refines rel (fail f span) none :=
  fun _ => .stopped _

/-- Computations follow readings one after another, though numbers are drawn in between. -/
theorem Refines.bind {x : Build α} {f : α → Build γ} {g : β → Option δ} (hx : Refines rel x reading)
    (hf : ∀ a b, rel a b → Refines rel' (f a) (g b)) : Refines rel' (x >>= f) (reading.bind g) := by
  intro n
  cases reading with
  | none =>
    cases hrun : x n with
    | error e => rw [bind_run_error hrun]; exact .stopped e
    | ok => exact absurd (hrun ▸ hx n) (by rintro ⟨⟩)
  | some b =>
    cases hrun : x n with
    | error => exact absurd (hrun ▸ hx n) (by rintro ⟨⟩)
    | ok r =>
      obtain ⟨a, n'⟩ := r
      cases hrun ▸ hx n with
      | given _ hab =>
        rw [bind_run_ok hrun]
        exact hf a b hab n'

theorem Refines.map {x : Build α} {f : α → γ} {g : β → δ} (hx : Refines rel x reading)
    (hf : ∀ a b, rel a b → rel' (f a) (g b)) :
    Refines rel' (x >>= fun a => pure (f a)) (reading.map g) := by
  rw [map_eq_bind]
  exact hx.bind fun a b hab => refines_pure (hf a b hab)

theorem refines_fresh {f : NodeId → Build α} (h : ∀ id, Refines rel (f id) reading) :
    Refines rel (fresh >>= f) reading := by
  intro n
  rw [bind_run_ok (fresh_run n)]
  exact h n (n + 1)

/-- A value that is not linked yet has one outline, whatever the places. -/
def Drawn (v : Value) (o : Outline) : Prop := ∀ place, v.outline place = o

def DrawnAll (vs : List Value) (os : List Outline) : Prop := ∀ place, Value.outlineAll place vs = os

theorem expectAtom_refines (expected : Expectation) (f : Form) :
    Refines (fun a t => a.1 = t) (expectAtom expected f) f.shape.text? := by
  cases f with
  | atom => exact refines_pure rfl
  | list => exact refines_fail _ _

/-- What is left of a form stands for what is left of its shape. -/
def Rest {α β : Type} (rel : α → β → Prop) (a : α × List Form) (b : β × List Shape) : Prop :=
  rel a.1 b.1 ∧ shapes a.2 = b.2

theorem nextAtom_refines (expected : Expectation) (whole : Span) (items : List Form) :
    Refines (Rest fun a t => a.1 = t) (nextAtom expected whole items)
      (nextAtom? (shapes items)) := by
  cases items with
  | nil => exact refines_fail _ _
  | cons f => exact (expectAtom_refines expected f).map fun a t h => ⟨h, rfl⟩

mutual

/-- **Building a value** follows the grammar. -/
theorem value_refines (inCond : Bool) (f : Form) :
    Refines Drawn (value inCond f) (f.shape.value? inCond) := by
  match f with
  | .atom s q =>
    rw [value, shape, value?]
    exact refines_fresh fun id => refines_pure fun place => rfl
  | .list s [] =>
    rw [value, shape, shapes, value?]
    exact refines_fresh fun id => refines_fresh fun callId => refines_fail _ _
  | .list s (first :: rest) =>
    rw [value, shape, shapes, value?]
    refine refines_fresh fun id => refines_fresh fun callId => ?_
    cases inCond with
    | true =>
      refine (values_refines false (first :: rest)).map fun vs os h place => ?_
      rw [Value.outline, h place]
      rfl
    | false =>
      refine (expectAtom_refines _ first).bind fun a name ha => ?_
      subst ha
      refine (values_refines (a.1 == ("cond" : Text)) rest).map fun vs os h place => ?_
      rw [Value.outline, h place]
      rfl

theorem values_refines (inCond : Bool) (fs : List Form) :
    Refines DrawnAll (values inCond fs) (values? inCond (shapes fs)) := by
  match fs with
  | [] =>
    rw [values, shapes, values?]
    exact refines_pure fun place => rfl
  | f :: rest =>
    rw [values, shapes, values?]
    refine (value_refines inCond f).bind fun v o hv => ?_
    refine (values_refines inCond rest).map fun vs os hvs place => ?_
    rw [Value.outlineAll, hv place, hvs place]

end

theorem body_refines : ∀ fs : List Form,
    Refines DrawnAll (body fs) (body? (shapes fs))
  | [] => refines_pure fun _ => rfl
  | [f] => (value_refines false f).map fun v o hv place => by
      rw [Value.outlineAll, hv place, Value.outlineAll]
  | .atom s q :: y :: rest => refines_fail _ _
  | .list s items :: y :: rest => by
    refine (value_refines false (.list s items)).bind fun v o hv => ?_
    refine (body_refines (y :: rest)).map fun vs os hvs place => ?_
    rw [Value.outlineAll, hv place, hvs place]

theorem flattenParams_refines : ∀ fs : List Form,
    Refines (fun flat xs => shapes flat = xs) (flattenParams fs)
      (flattenParams? (shapes fs))
  | [] => refines_pure rfl
  | .atom s q :: rest =>
    (flattenParams_refines rest).map fun flat xs h => by rw [shapes, h, shape]
  | .list s items :: rest => by
    have hlength : (shapes items).length = items.length := by
      rw [shapes_eq_map, length_map]
    rw [shapes, shape, flattenParams, flattenParams?, hlength]
    split
    · exact (flattenParams_refines rest).map fun flat xs h => by rw [shapes_append, h]
    · exact refines_fail _ _

theorem pairParams_refines : ∀ fs : List Form,
    Refines Eq (pairParams fs) (pairParams? (shapes fs))
  | [] => refines_pure rfl
  | [_] => refines_pure rfl
  | type :: name :: rest => by
    refine (expectAtom_refines _ type).bind fun a t ha => ?_
    refine (expectAtom_refines _ name).bind fun b u hb => ?_
    exact (pairParams_refines rest).map fun ps qs h => by rw [ha, hb, h]

theorem params_refines (span : Span) (items : List Form) :
    Refines Eq (params span items) (params? (shapes items)) := by
  refine (flattenParams_refines items).bind fun flat xs h => ?_
  have hlength : xs.length = flat.length := by rw [← h, shapes_eq_map, length_map]
  rw [hlength]
  split
  · exact h ▸ pairParams_refines flat
  · exact refines_fail _ _

theorem nextParams_refines (kind : ScriptKind) (whole : Span) (items : List Form) :
    Refines (Rest Eq) (nextParams kind whole items)
      (nextParams? kind (shapes items)) := by
  unfold nextParams nextParams?
  split
  · match items with
    | [] => exact refines_fail _ _
    | .atom s q :: rest => exact refines_fail _ _
    | .list s ps :: rest => exact (params_refines s ps).map fun qs qs' h => ⟨h, rfl⟩
  · exact refines_pure ⟨rfl, rfl⟩

theorem nextReturnType_refines (kind : ScriptKind) (whole : Span) (items : List Form) :
    Refines (Rest Eq) (nextReturnType kind whole items)
      (nextReturnType? kind (shapes items)) := by
  unfold nextReturnType nextReturnType?
  split
  · have hnext : Refines (Rest Eq)
        (nextAtom .returnType whole items >>= fun a => pure (a.1.1, a.2))
        ((nextAtom? (shapes items)).map id) :=
      (nextAtom_refines .returnType whole items).map fun a b h => ⟨h.1, h.2⟩
    rwa [Option.map_id] at hnext
  · exact refines_pure ⟨rfl, rfl⟩

def DrawnScript (s : Script) (o : DeclOutline) : Prop :=
  ∀ place, (Declaration.script s).outline place = o

/-- Building a script follows the grammar.  The number of the script is free as long as it has the
name that was read. -/
theorem script_refines {id : Text → ScriptId} (hid : ∀ name, (id name).name = name) (span : Span)
    (items : List Form) :
    Refines DrawnScript (script id span items) (script? (shapes items)) := by
  have hlength : (shapes items).length = items.length := by
    rw [shapes_eq_map, length_map]
  rw [script_eq, script?, hlength]
  split
  · exact refines_fail _ _
  · refine (nextAtom_refines _ span items).bind fun a a' ⟨hword, hrest⟩ => ?_
    rw [hword]
    split
    · exact refines_fail _ _
    · rw [← hrest]
      refine (nextReturnType_refines _ span a.2).bind fun r r' ⟨hr, hrest⟩ => ?_
      rw [← hrest]
      refine (nextAtom_refines _ span r.2).bind fun b b' ⟨hb, hrest⟩ => ?_
      rw [← hrest]
      refine (nextParams_refines _ span b.2).bind fun q q' ⟨hq, hrest⟩ => ?_
      rw [← hrest]
      refine (body_refines q.2).map fun vs os hvs place => ?_
      rw [Declaration.outline, hvs place, hr, hq, hid, hb]

def DrawnGlobal (g : Global) (o : DeclOutline) : Prop :=
  ∀ place, (Declaration.global g).outline place = o

theorem global_refines {id : Text → GlobalId} (hid : ∀ name, (id name).name = name)
    (isConst : Bool) (span : Span) (first : Form) (items : List Form) :
    Refines DrawnGlobal (global id isConst span (first :: items))
      (global? (shapes items)) := by
  match items with
  | [] => exact refines_fail _ _
  | [_] => exact refines_fail _ _
  | [_, _] => exact refines_fail _ _
  | _ :: _ :: _ :: _ :: _ => exact refines_fail _ _
  | [type, name, init] =>
    refine (expectAtom_refines _ type).bind fun a t ha => ?_
    refine (expectAtom_refines _ name).bind fun b u hb => ?_
    refine (value_refines false init).map fun v o hv place => ?_
    rw [Declaration.outline, hv place, ha, hid, hb]

/-- A declaration stands for an outline, and no declaration for none. -/
def DrawnDecl (d : Option Declaration) (o : Option DeclOutline) : Prop :=
  ∀ place, d.map (Declaration.outline place) = o

/-- **Building a declaration** follows the grammar. -/
theorem declaration_refines (p : Program) (f : Form) :
    Refines DrawnDecl (declaration p f) (declaration? (shapes f.items)) := by
  unfold declaration
  cases hitems : f.items with
  | nil => exact refines_fail _ _
  | cons first rest =>
    rw [shapes, declaration?]
    refine (expectAtom_refines _ first).bind fun a word ha => ?_
    have hglobal : ∀ isConst, Refines DrawnDecl
        (global p.newGlobalId isConst f.span (first :: rest) >>= fun g =>
          pure (some (.global g))) ((global? (shapes rest)).map some) := fun isConst =>
      (global_refines (fun _ => rfl) isConst f.span first rest).map fun g o hg place => by
        rw [map_some, hg place]
    simp only [beq_iff_eq, ha]
    by_cases h₁ : word = ("global" : Text)
    · rw [if_pos h₁, if_pos (.inl h₁)]
      exact hglobal false
    · by_cases h₂ : word = ("constglobal" : Text)
      · rw [if_neg h₁, if_pos h₂, if_pos (.inr h₂)]
        exact hglobal true
      · rw [if_neg h₁, if_neg h₂, if_neg (not_or.mpr ⟨h₁, h₂⟩)]
        by_cases h₃ : word = ("script" : Text)
        · rw [if_pos h₃, if_pos h₃]
          exact (script_refines (fun _ => rfl) f.span rest).map fun s o hs place => by
            rw [map_some, hs place]
        · rw [if_neg h₃, if_neg h₃]
          by_cases h₄ : word = ("import" : Text)
          · rw [if_pos h₄, if_pos h₄]
            exact refines_pure fun place => rfl
          · rw [if_neg h₄, if_neg h₄]
            exact refines_fail _ _

end Build

/-! ## 3. From readings back to shapes -/

namespace Shape

mutual

/-- A value is written as it was read, and has no links. -/
theorem value?_written {inCond : Bool} {x : Shape} {o : Outline} (h : x.value? inCond = some o) :
    o.written = [x] ∧ o.strip = o := by
  match x with
  | .atom t =>
    rw [value?, some_inj] at h
    subst h
    exact ⟨rfl, rfl⟩
  | .list [] => simp [value?] at h
  | .list (first :: rest) =>
    rw [value?] at h
    split at h
    · obtain ⟨args, hargs, rfl⟩ := map_eq_some_iff.mp h
      obtain ⟨hwritten, hstrip⟩ := values?_written hargs
      exact ⟨by simp [written, hwritten], by simp [strip, hstrip]⟩
    · obtain ⟨name, hname, h⟩ := bind_eq_some_iff.mp h
      obtain ⟨args, hargs, rfl⟩ := map_eq_some_iff.mp h
      obtain ⟨hwritten, hstrip⟩ := values?_written hargs
      cases first with
      | list => simp [text?] at hname
      | atom =>
        rw [text?, some_inj] at hname
        subst hname
        exact ⟨by simp [written, hwritten], by simp [strip, hstrip]⟩

theorem values?_written {inCond : Bool} {xs : List Shape} {os : List Outline}
    (h : values? inCond xs = some os) : writtenAll os = xs ∧ stripAll os = os := by
  match xs with
  | [] =>
    rw [values?, some_inj] at h
    subst h
    exact ⟨rfl, rfl⟩
  | x :: rest =>
    rw [values?] at h
    obtain ⟨v, hv, h⟩ := bind_eq_some_iff.mp h
    obtain ⟨vs, hvs, rfl⟩ := map_eq_some_iff.mp h
    obtain ⟨hwritten, hstrip⟩ := value?_written hv
    obtain ⟨hwrittens, hstrips⟩ := values?_written hvs
    exact ⟨by simp [writtenAll, hwritten, hwrittens],
      by simp [stripAll, hstrip, hstrips]⟩

end

/-- What is read as a body was written for it, and nothing in it is linked yet. -/
theorem body?_written : ∀ {xs : List Shape} {os : List Outline}, body? xs = some os →
    writtenAll os = xs ∧ stripAll os = os
  | [], os, h => by
    rw [body?, some_inj] at h
    subst h
    exact ⟨rfl, rfl⟩
  | [x], os, h => by
    rw [body?] at h
    obtain ⟨v, hv, rfl⟩ := map_eq_some_iff.mp h
    obtain ⟨hwritten, hstrip⟩ := value?_written hv
    exact ⟨by simp [writtenAll, hwritten], by simp [stripAll, hstrip]⟩
  | .atom _ :: _ :: _, os, h => by simp [body?] at h
  | .list items :: y :: rest, os, h => by
    rw [body?] at h
    obtain ⟨v, hv, h⟩ := bind_eq_some_iff.mp h
    obtain ⟨vs, hvs, rfl⟩ := map_eq_some_iff.mp h
    obtain ⟨hwritten, hstrip⟩ := value?_written hv
    obtain ⟨hwrittens, hstrips⟩ := body?_written hvs
    exact ⟨by simp [writtenAll, hwritten, hwrittens],
      by simp [stripAll, hstrip, hstrips]⟩

end Shape

namespace ScriptKind

theorem mem_known_of_ofName {word : Text} (h : ofName word ≠ invalid) :
    ofName word ∈ known ∧ (ofName word).name = word := by
  unfold ofName at h ⊢
  cases hfind : known.find? (·.name == word) with
  | none => simp [hfind] at h
  | some =>
    exact ⟨mem_of_find?_eq_some hfind, by simpa using find?_some hfind⟩

theorem ofName_name {kind : ScriptKind} (h : kind ∈ known) : ofName kind.name = kind := by
  simp only [known, mem_cons, not_mem_nil, or_false] at h
  rcases h with rfl | rfl | rfl | rfl | rfl | rfl | rfl <;> decide

theorem ne_invalid_of_mem_known {kind : ScriptKind} (h : kind ∈ known) : kind ≠ invalid := by
  simp only [known, mem_cons, not_mem_nil, or_false] at h
  rcases h with rfl | rfl | rfl | rfl | rfl | rfl | rfl <;> decide

end ScriptKind

namespace DeclOutline

def frame : DeclOutline → DeclOutline
  | .global type name _ => .global type name default
  | .script kind returnType name params _ => .script kind returnType name params []

/-- A declaration that can be written: no macro, and with no more than its type of script has. -/
def Regular : DeclOutline → Prop
  | .global _ _ _ => True
  | .script kind returnType _ params _ => kind ∈ ScriptKind.known ∧ kind ≠ .macroScript ∧
      params = [] ∧ (kind.hasReturnType = false → returnType = [])

theorem name_eq_of_frame {d d' : DeclOutline} (h : d.frame = d'.frame) : d.name = d'.name := by
  cases d <;> cases d' <;> simp_all [frame, name]

end DeclOutline

namespace Shape

variable {items : List Shape} {d : DeclOutline} {kind : ScriptKind}

theorem nextAtom?_eq_some {xs : List Shape} {a : Text × List Shape} :
    nextAtom? xs = some a ↔ xs = .atom a.1 :: a.2 := by
  obtain ⟨t, rest⟩ := a
  match xs with
  | [] => simp [nextAtom?]
  | .list items :: ys => simp [nextAtom?, text?]
  | .atom u :: ys => simp [nextAtom?, text?]

theorem nextParams?_of_ne (h : kind ≠ .macroScript) (items : List Shape) :
    nextParams? kind items = some ([], items) := by
  unfold nextParams?
  rw [if_neg h]

/-- A script starts with the words of its heading, and ends with its body. -/
theorem script?_heading {returnType name : Text} {body : List Outline} {items rest : List Shape}
    (hk : kind ∈ ScriptKind.known) (hm : kind ≠ .macroScript)
    (hr : kind.hasReturnType = false → returnType = [])
    (hitems : items = (DeclOutline.script kind returnType name [] body).heading.map .atom ++ rest) :
    script? items = if items.length < 3 then none
      else (body? rest).map fun vs => .script kind returnType name [] vs := by
  have hofName := ScriptKind.ofName_name hk
  have hinvalid := ScriptKind.ne_invalid_of_mem_known hk
  rw [script?]
  split
  · rfl
  · cases hret : kind.hasReturnType with
    | true =>
      simp [hitems, heading, hret, nextAtom?, text?, hofName, hinvalid,
        nextReturnType?, nextParams?_of_ne hm]
    | false =>
      simp [hitems, heading, hret, nextAtom?, text?, hofName, hinvalid,
        nextReturnType?, nextParams?_of_ne hm, hr hret]

theorem nextParams?_suffix {items tail : List Shape} {params : List Param}
    (h : nextParams? kind items = some (params, tail)) : ∃ front, items = front ++ tail := by
  unfold nextParams? at h
  split at h
  · split at h
    · next ps rest =>
      obtain ⟨_, -, heq⟩ := map_eq_some_iff.mp h
      rw [Prod.mk.injEq] at heq
      exact ⟨[.list ps], heq.2 ▸ rfl⟩
    · exact absurd h (by simp)
  · rw [some_inj, Prod.mk.injEq] at h
    exact ⟨[], h.2⟩

/-- **What is read as a script:** the words of its heading, its parameters and its body. -/
theorem script?_parts (h : script? items = some d) :
    ∃ kind returnType name params body rest tail,
      d = .script kind returnType name params body ∧ kind ∈ ScriptKind.known ∧
      (kind.hasReturnType = false → returnType = []) ∧
      items = d.heading.map .atom ++ rest ∧ nextParams? kind rest = some (params, tail) ∧
      body? tail = some body := by
  rw [script?] at h
  split at h
  · exact absurd h (by simp)
  · obtain ⟨⟨word, rest⟩, hword, h⟩ := bind_eq_some_iff.mp h
    split at h
    · exact absurd h (by simp)
    · next hvalid =>
      obtain ⟨hknown, hname⟩ := ScriptKind.mem_known_of_ofName hvalid
      obtain ⟨⟨returnType, rest'⟩, hreturn, h⟩ := bind_eq_some_iff.mp h
      obtain ⟨⟨name, rest''⟩, hat, h⟩ := bind_eq_some_iff.mp h
      obtain ⟨⟨params, tail⟩, hparams, h⟩ := bind_eq_some_iff.mp h
      obtain ⟨vs, hbody, rfl⟩ := map_eq_some_iff.mp h
      rw [nextAtom?_eq_some] at hword hat
      dsimp only at hword hat hreturn
      have hsplit : rest =
          ((if (ScriptKind.ofName word).hasReturnType then [returnType] else []).map Shape.atom) ++
            rest' ∧ ((ScriptKind.ofName word).hasReturnType = false → returnType = []) := by
        rw [nextReturnType?] at hreturn
        split at hreturn
        · next hret => exact ⟨by simpa [hret] using nextAtom?_eq_some.mp hreturn, by simp [hret]⟩
        · next hret =>
          rw [some_inj, Prod.mk.injEq] at hreturn
          exact ⟨by simp [hret, hreturn.2], fun _ => hreturn.1.symm⟩
      refine ⟨_, _, _, _, _, rest'', tail, rfl, hknown, hsplit.2, ?_, hparams, hbody⟩
      rw [hword, hsplit.1, hat]
      simp [heading, hname]

/-- What is read as a script that is no macro. -/
theorem script?_eq_some (h : script? items = some d) (hd : d.isMacro = false) :
    d.Regular ∧ d.isScript = true ∧
      items = d.heading.map .atom ++ writtenAll d.values ∧
      body? (writtenAll d.values) = some d.values := by
  obtain ⟨kind, returnType, name, params, vs, rest, tail, rfl, hknown, hreturn, hitems, hparams,
    hbody⟩ := script?_parts h
  have hplain : kind ≠ .macroScript := by simpa [isMacro] using hd
  rw [nextParams?_of_ne hplain, some_inj, Prod.mk.injEq] at hparams
  obtain ⟨rfl, rfl⟩ := hparams
  obtain ⟨hwritten, -⟩ := body?_written hbody
  refine ⟨⟨hknown, hplain, rfl, hreturn⟩, rfl, ?_, ?_⟩
  · rw [DeclOutline.values, hwritten]
    exact hitems
  · rw [DeclOutline.values, hwritten, hbody]

/-- What is read as a global. -/
theorem global?_eq_some (h : global? items = some d) :
    d.Regular ∧ d.isScript = false ∧
      items = d.heading.map .atom ++ writtenAll d.values ∧
      body? (writtenAll d.values) = some d.values := by
  match items with
  | [] => simp [global?] at h
  | [_] => simp [global?] at h
  | [_, _] => simp [global?] at h
  | _ :: _ :: _ :: _ :: _ => simp [global?] at h
  | [.list _, _, _] => simp [global?, text?] at h
  | [.atom _, .list _, _] => simp [global?, text?] at h
  | [.atom type, .atom name, init] =>
    simp only [global?, text?, bind_some] at h
    obtain ⟨v, hv, rfl⟩ := map_eq_some_iff.mp h
    obtain ⟨hwritten, -⟩ := value?_written hv
    exact ⟨trivial, rfl,
      by simp [heading, DeclOutline.values, writtenAll, hwritten],
      by simp [DeclOutline.values, writtenAll, hwritten, body?, hv]⟩

theorem declaration?_global (rest : List Shape) :
    declaration? (.atom "global" :: rest) = (global? rest).map some := by
  simp [declaration?, text?]

theorem declaration?_script (rest : List Shape) :
    declaration? (.atom "script" :: rest) = (script? rest).map some := by
  have h₁ : ("script" : Text) ≠ "global" := by decide
  have h₂ : ("script" : Text) ≠ "constglobal" := by decide
  simp [declaration?, text?, h₁, h₂]

section

variable (h : declaration? items = some (some d))

include h

/-- What is read as a declaration is a word and then a global or a script. -/
theorem declaration?_eq_some :
    ∃ word rest, items = .atom word :: rest ∧
      (global? rest = some d ∨ script? rest = some d) := by
  match items with
  | [] => simp [declaration?] at h
  | .list _ :: _ => simp [declaration?, text?] at h
  | .atom word :: rest =>
    rw [declaration?, text?, bind_some] at h
    refine ⟨word, rest, rfl, ?_⟩
    split at h
    · obtain ⟨d', hd', hsome⟩ := map_eq_some_iff.mp h
      exact .inl (some.inj hsome ▸ hd')
    · split at h
      · obtain ⟨d', hd', hsome⟩ := map_eq_some_iff.mp h
        exact .inr (some.inj hsome ▸ hd')
      · split at h <;> simp at h

theorem declaration?_strip : stripAll d.values = d.values := by
  obtain ⟨word, rest, rfl, hglobal | hscript⟩ := declaration?_eq_some h
  · obtain ⟨-, -, -, hbody⟩ := global?_eq_some hglobal
    exact (body?_written hbody).2
  · obtain ⟨_, _, _, _, _, _, _, rfl, -, -, -, -, hbody⟩ := script?_parts hscript
    exact (body?_written hbody).2

/-- **A declaration is written as it was read**, up to the keyword. -/
theorem declaration?_written (hd : d.isMacro = false) :
    d.Regular ∧ body? (writtenAll d.values) = some d.values ∧
      ∃ word, items = .atom word :: (d.heading.map .atom ++ writtenAll d.values) := by
  obtain ⟨word, rest, rfl, hglobal | hscript⟩ := declaration?_eq_some h
  · obtain ⟨hr, -, hitems, hs⟩ := global?_eq_some hglobal
    exact ⟨hr, hs, word, by rw [hitems]⟩
  · obtain ⟨hr, -, hitems, hs⟩ := script?_eq_some hscript hd
    exact ⟨hr, hs, word, by rw [hitems]⟩

/-- **What is written for a declaration** is read as this declaration. -/
theorem declaration?_self (hd : d.isMacro = false) : declaration? d.written = some (some d) := by
  obtain ⟨word, rest, rfl, hglobal | hscript⟩ := declaration?_eq_some h
  · obtain ⟨-, hsort, hitems, -⟩ := global?_eq_some hglobal
    have hwritten : d.written = .atom "global" :: rest := by
      rw [hitems]
      cases d with
      | global => rfl
      | script => simp [isScript] at hsort
    rw [hwritten, declaration?_global, hglobal, map_some]
  · obtain ⟨-, hsort, hitems, -⟩ := script?_eq_some hscript hd
    have hwritten : d.written = .atom "script" :: rest := by
      rw [hitems]
      cases d with
      | global => simp [isScript] at hsort
      | script => rfl
    rw [hwritten, declaration?_script, hscript, map_some]

end

/-- The heading determines all of a declaration but its values. -/
theorem declaration?_frame (hd : d.Regular) {rest : List Shape} {o : Option DeclOutline}
    (h : declaration? ((d.keyword :: d.heading).map .atom ++ rest) = some o) :
    ∃ d', o = some d' ∧ d'.frame = d.frame ∧ d'.isMacro = false := by
  cases d with
  | global =>
    rw [keyword, map_cons, cons_append, declaration?_global] at h
    obtain ⟨d', hd', rfl⟩ := map_eq_some_iff.mp h
    refine ⟨d', rfl, ?_⟩
    obtain ⟨-, hsort, hitems, -⟩ := global?_eq_some hd'
    cases d' with
    | script => simp [isScript] at hsort
    | global =>
      simp only [heading, map_cons, map_nil, cons_append, nil_append,
        List.cons.injEq, Shape.atom.injEq] at hitems
      exact ⟨by rw [DeclOutline.frame, DeclOutline.frame, hitems.1, hitems.2.1], rfl⟩
  | script =>
    obtain ⟨hk, hm, rfl, hr⟩ := hd
    rw [keyword, map_cons, cons_append, declaration?_script] at h
    obtain ⟨d', hd', rfl⟩ := map_eq_some_iff.mp h
    rw [script?_heading hk hm hr rfl] at hd'
    generalize List.length _ = length at hd'
    split at hd'
    · exact absurd hd' (by simp)
    · obtain ⟨vs, -, rfl⟩ := map_eq_some_iff.mp hd'
      exact ⟨_, rfl, rfl, by simpa [isMacro] using hm⟩

end Shape

end HaloScript
