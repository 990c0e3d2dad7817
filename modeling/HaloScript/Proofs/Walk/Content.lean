/-
# What a walk has made of a program so far

The stack of a walk holds lists of values that are being edited.  Put back where they belong,
they give the program as the walk has made it so far (`Machine.now`).  This module says how
programs change when the values of some declarations are replaced, and how an edit of the
innermost list of a stack looks in the declaration it belongs to (`Frame.surround`).
-/
import HaloScript.Proofs.Walk.Steps

namespace HaloScript

open List

/-! ## 1. Replacing a declaration -/

namespace Declaration

/-- The declaration with other values.  A global has one value. -/
def withValues : Declaration → List Value → Declaration
  | .global g, v :: _ => .global { g with value := v }
  | .global g, [] => .global g
  | .script s, vs => .script { s with body := vs }

/-- What can be the values of a declaration: a global has one. -/
def Suits : DeclId → List Value → Prop
  | .global _, vs => vs.length = 1
  | .script _, _ => True

/-- The declaration without what a walk may change. -/
def signature : Declaration → Declaration
  | .global g => .global g.signature
  | .script s => .script s.signature

@[simp] theorem id_withValues (d : Declaration) (vs : List Value) :
    (d.withValues vs).id = d.id := by
  cases d with
  | global => cases vs <;> rfl
  | script => rfl

@[simp] theorem signature_withValues (d : Declaration) (vs : List Value) :
    (d.withValues vs).signature = d.signature := by
  cases d with
  | global => cases vs <;> rfl
  | script => rfl

theorem values_withValues {d : Declaration} {vs : List Value} (h : Suits d.id vs) :
    (d.withValues vs).values = vs := by
  cases d with
  | global =>
    obtain ⟨v, rfl⟩ := length_eq_one_iff.mp h
    rfl
  | script => rfl

theorem suits_values (d : Declaration) : Suits d.id d.values := by
  cases d with
  | global => exact rfl
  | script => exact True.intro

theorem withValues_values (d : Declaration) : d.withValues d.values = d := by
  cases d <;> rfl

theorem withValues_withValues {d : Declaration} {vs ws : List Value} (h : Suits d.id ws) :
    (d.withValues vs).withValues ws = d.withValues ws := by
  cases d with
  | global =>
    obtain ⟨w, rfl⟩ := length_eq_one_iff.mp h
    cases vs <;> rfl
  | script => rfl

end Declaration

namespace Program

variable {p : Program} {a : Declaration}

/-- The same program with another declaration of the same reference. -/
def set (p : Program) : Declaration → Program
  | .global g => p.setGlobal g
  | .script s => p.setScript s

@[simp] theorem table_set (p : Program) (d : Declaration) : (p.set d).table = p.table := by
  cases d <;> rfl

theorem set_set (p : Program) {a b : Declaration} (h : a.id = b.id) :
    (p.set a).set b = p.set b := by
  cases a with
  | global g =>
    cases b with
    | global g' =>
      have hid : g.id = g'.id := by simpa [Declaration.id] using h
      simp [set, setGlobal, hid, Array.setIfInBounds_setIfInBounds]
    | script => simp [Declaration.id] at h
  | script s =>
    cases b with
    | global => simp [Declaration.id] at h
    | script s' =>
      have hid : s.id = s'.id := by simpa [Declaration.id] using h
      simp [set, setScript, hid, Array.setIfInBounds_setIfInBounds]

theorem set_self (h : p.declaration? a.id = some a) : p.set a = p := by
  cases a with
  | global g =>
    have hg : p.globals[g.id.serial]? = some g := by
      simpa [declaration?, Declaration.id, global?] using h
    simp [set, setGlobal, setIfInBounds_self hg]
  | script s =>
    have hs : p.scripts[s.id.serial]? = some s := by
      simpa [declaration?, Declaration.id, script?] using h
    simp [set, setScript, setIfInBounds_self hs]

theorem alike_set {a b : Declaration} (hb : p.declaration? a.id = some b)
    (hs : a.signature = b.signature) : p.Alike (p.set a) := by
  cases a with
  | global =>
    obtain ⟨g', hg', rfl⟩ := Option.map_eq_some_iff.mp hb
    exact alike_setGlobal hg' rfl (by simpa [Declaration.signature] using hs)
  | script =>
    obtain ⟨s', hs', rfl⟩ := Option.map_eq_some_iff.mp hb
    exact alike_setScript hs' rfl (by simpa [Declaration.signature] using hs)

def content (p : Program) (d : DeclId) : List Value :=
  ((p.declaration? d).map Declaration.values).getD []

def put (p : Program) (d : DeclId) (vs : List Value) : Program :=
  ((p.declaration? d).map fun a => p.set (a.withValues vs)).getD p

theorem content_eq {d : DeclId} (h : p.declaration? d = some a) : p.content d = a.values := by
  simp [content, h]

theorem put_eq {d : DeclId} (h : p.declaration? d = some a) (vs : List Value) :
    p.put d vs = p.set (a.withValues vs) := by
  simp [put, h]

@[simp] theorem table_put (p : Program) (d : DeclId) (vs : List Value) :
    (p.put d vs).table = p.table := by
  unfold put
  cases p.declaration? d with
  | none => rfl
  | some => exact table_set p _

namespace Tidy

variable {p : Program} {a b : Declaration} {d e : DeclId} {vs ws : List Value}

section

variable (hp : p.Tidy)

include hp

theorem exists_declaration (hd : d ∈ p.allIds) : ∃ a, p.declaration? d = some a ∧ a.id = d := by
  rw [allIds_eq_map, mem_map] at hd
  obtain ⟨a, ha, rfl⟩ := hd
  exact ⟨a, hp.declaration?_id ha, rfl⟩

theorem global_serial_ne {i j : GlobalId} (hi : .global i ∈ p.allIds) (hj : .global j ∈ p.allIds)
    (hne : i ≠ j) : i.serial ≠ j.serial := by
  obtain ⟨g, -, hg, rfl⟩ := hp.global?_of_mem_allIds hi
  obtain ⟨g', -, hg', rfl⟩ := hp.global?_of_mem_allIds hj
  intro hserial
  rw [global?, hserial, ← global?, hg'] at hg
  exact hne (by rw [Option.some.inj hg])

theorem script_serial_ne {i j : ScriptId} (hi : .script i ∈ p.allIds) (hj : .script j ∈ p.allIds)
    (hne : i ≠ j) : i.serial ≠ j.serial := by
  obtain ⟨s, -, hs, rfl⟩ := hp.script?_of_mem_allIds hi
  obtain ⟨s', -, hs', rfl⟩ := hp.script?_of_mem_allIds hj
  intro hserial
  rw [script?, hserial, ← script?, hs'] at hs
  exact hne (by rw [Option.some.inj hs])

theorem set_comm (ha : a.id ∈ p.allIds) (hb : b.id ∈ p.allIds) (hne : a.id ≠ b.id) :
    (p.set a).set b = (p.set b).set a := by
  cases a with
  | global =>
    cases b with
    | global =>
      have hserial := hp.global_serial_ne ha hb fun h => hne (congrArg DeclId.global h)
      simp [Program.set, setGlobal, Array.setIfInBounds_comm _ _ hserial]
    | script => rfl
  | script =>
    cases b with
    | global => rfl
    | script =>
      have hserial := hp.script_serial_ne ha hb fun h => hne (congrArg DeclId.script h)
      simp [Program.set, setScript, Array.setIfInBounds_comm _ _ hserial]

theorem declaration?_set_self (ha : a.id ∈ p.allIds) : (p.set a).declaration? a.id = some a := by
  cases a with
  | global =>
    obtain ⟨g', -, hg', -⟩ := hp.global?_of_mem_allIds ha
    have hlt := (Array.getElem?_eq_some_iff.mp hg').1
    simp [Program.set, setGlobal, declaration?, Declaration.id, global?,
      Array.getElem?_setIfInBounds_self_of_lt hlt]
  | script =>
    obtain ⟨s', -, hs', -⟩ := hp.script?_of_mem_allIds ha
    have hlt := (Array.getElem?_eq_some_iff.mp hs').1
    simp [Program.set, setScript, declaration?, Declaration.id, script?,
      Array.getElem?_setIfInBounds_self_of_lt hlt]

/-- Another declaration is not touched. -/
theorem declaration?_set_of_ne (ha : a.id ∈ p.allIds) (he : e ∈ p.allIds) (hne : a.id ≠ e) :
    (p.set a).declaration? e = p.declaration? e := by
  cases a with
  | global =>
    cases e with
    | script => rfl
    | global =>
      have hserial := hp.global_serial_ne ha he fun h => hne (congrArg DeclId.global h)
      simp [Program.set, setGlobal, declaration?, global?,
        Array.getElem?_setIfInBounds_ne hserial]
  | script =>
    cases e with
    | global => rfl
    | script =>
      have hserial := hp.script_serial_ne ha he fun h => hne (congrArg DeclId.script h)
      simp [Program.set, setScript, declaration?, script?,
        Array.getElem?_setIfInBounds_ne hserial]

section

variable (hd : d ∈ p.allIds)

include hd

theorem alike_put (vs : List Value) : p.Alike (p.put d vs) := by
  obtain ⟨a, ha, rfl⟩ := hp.exists_declaration hd
  rw [put_eq ha]
  exact alike_set (by rwa [Declaration.id_withValues]) (Declaration.signature_withValues a vs)

theorem put (vs : List Value) : (p.put d vs).Tidy :=
  hp.of_alike (hp.alike_put hd vs) (by rw [table_put])

theorem allIds_put (vs : List Value) :
    (p.put d vs).allIds = p.allIds := (hp.alike_put hd vs).allIds_eq.symm

theorem declaration?_put_self (ha : p.declaration? d = some a) (vs : List Value) :
    (p.put d vs).declaration? d = some (a.withValues vs) := by
  obtain ⟨a', ha', rfl⟩ := hp.exists_declaration hd
  obtain rfl : a = a' := Option.some.inj (ha.symm.trans ha')
  rw [put_eq ha, ← Declaration.id_withValues a vs]
  exact hp.declaration?_set_self (by rwa [Declaration.id_withValues])

theorem declaration?_put_of_ne (he : e ∈ p.allIds) (hne : d ≠ e) (vs : List Value) :
    (p.put d vs).declaration? e = p.declaration? e := by
  obtain ⟨a, ha, rfl⟩ := hp.exists_declaration hd
  rw [put_eq ha]
  exact hp.declaration?_set_of_ne (by simpa using hd) he (by simpa using hne)

theorem content_put_of_ne (he : e ∈ p.allIds) (hne : d ≠ e) (vs : List Value) :
    (p.put d vs).content e = p.content e := by
  rw [content, hp.declaration?_put_of_ne hd he hne, content]

theorem content_put_self (hvs : Declaration.Suits d vs) : (p.put d vs).content d = vs := by
  obtain ⟨a, ha, hid⟩ := hp.exists_declaration hd
  rw [content_eq (hp.declaration?_put_self hd ha vs)]
  exact Declaration.values_withValues (hid ▸ hvs)

theorem put_put (hws : Declaration.Suits d ws) : (p.put d vs).put d ws = p.put d ws := by
  obtain ⟨a, ha, hid⟩ := hp.exists_declaration hd
  rw [put_eq (hp.declaration?_put_self hd ha vs), put_eq ha, put_eq ha, set_set _ (by simp),
    Declaration.withValues_withValues (hid ▸ hws)]

theorem set_put_comm (hb : b.id ∈ p.allIds) (hne : d ≠ b.id) (vs : List Value) :
    (p.set b).put d vs = (p.put d vs).set b := by
  obtain ⟨a, ha, rfl⟩ := hp.exists_declaration hd
  have ha' : (p.set b).declaration? a.id = some a :=
    (hp.declaration?_set_of_ne hb hd hne.symm).trans ha
  rw [put_eq ha, put_eq ha']
  exact hp.set_comm hb (by simpa using hd) (by simpa using hne.symm)

theorem put_content : p.put d (p.content d) = p := by
  obtain ⟨a, ha, rfl⟩ := hp.exists_declaration hd
  rw [put_eq ha, content_eq ha, Declaration.withValues_values]
  exact set_self ha

end

end

end Tidy

def fill (p : Program) (contents : List (DeclId × List Value)) : Program :=
  contents.foldl (fun p c => p.put c.1 c.2) p

/-- Contents for known declarations, one for each. -/
structure Fillable (p : Program) (contents : List (DeclId × List Value)) : Prop where
  nodup : (contents.map Prod.fst).Nodup
  known : ∀ d ∈ contents.map Prod.fst, d ∈ p.allIds
  suits : ∀ c ∈ contents, Declaration.Suits c.1 c.2

namespace Fillable

variable {p : Program} {c : DeclId × List Value} {rest contents : List (DeclId × List Value)}
  {d : DeclId} {b : Declaration}

theorem tail (h : p.Fillable (c :: rest)) : p.Fillable rest where
  nodup := (nodup_cons.mp h.nodup).2
  known d hd := h.known d (mem_cons_of_mem _ hd)
  suits c hc := h.suits c (mem_cons_of_mem _ hc)

theorem of_alike {p' : Program} (h : p.Fillable contents) (halike : p.Alike p') :
    p'.Fillable contents :=
  ⟨h.nodup, fun d hd => halike.allIds_eq ▸ h.known d hd, h.suits⟩

theorem head_known (h : p.Fillable (c :: rest)) : c.1 ∈ p.allIds := h.known _ (by simp)

theorem head_not_mem (h : p.Fillable (c :: rest)) : c.1 ∉ rest.map Prod.fst :=
  (nodup_cons.mp h.nodup).1

theorem alike_fill (h : p.Fillable contents) (hp : p.Tidy) : p.Alike (p.fill contents) := by
  induction contents generalizing p with
  | nil => exact .refl p
  | cons c rest ih =>
    have hput := hp.alike_put h.head_known c.2
    exact hput.trans (ih (h.tail.of_alike hput) (hp.put h.head_known c.2))

theorem table_fill (p : Program) (contents : List (DeclId × List Value)) :
    (p.fill contents).table = p.table := by
  induction contents generalizing p with
  | nil => rfl
  | cons c rest ih => exact (ih (p.put c.1 c.2)).trans (table_put p c.1 c.2)

section

variable (h : p.Fillable contents) (hp : p.Tidy)

include h hp

theorem tidy_fill : (p.fill contents).Tidy :=
  hp.of_alike (h.alike_fill hp) (by rw [table_fill])

/-- A declaration can be replaced before or after others are filled. -/
theorem fill_set (hb : b.id ∈ p.allIds) (hd : b.id ∉ contents.map Prod.fst) :
    (p.set b).fill contents = (p.fill contents).set b := by
  induction contents generalizing p with
  | nil => rfl
  | cons c rest ih =>
    rw [map_cons, mem_cons, not_or] at hd
    have hput := hp.alike_put h.head_known c.2
    have hcomm : (p.set b).put c.1 c.2 = (p.put c.1 c.2).set b :=
      hp.set_put_comm h.head_known hb (Ne.symm hd.1) c.2
    show ((p.set b).put c.1 c.2).fill rest = ((p.put c.1 c.2).fill rest).set b
    rw [hcomm]
    exact ih (h.tail.of_alike hput) (hp.put h.head_known c.2) (hput.allIds_eq ▸ hb) hd.2

theorem declaration?_fill (hd : d ∉ contents.map Prod.fst) (hknown : d ∈ p.allIds) :
    (p.fill contents).declaration? d = p.declaration? d := by
  induction contents generalizing p with
  | nil => rfl
  | cons c rest ih =>
    rw [map_cons, mem_cons, not_or] at hd
    have hput := hp.alike_put h.head_known c.2
    refine (ih (h.tail.of_alike hput) (hp.put h.head_known c.2) hd.2
      (hput.allIds_eq ▸ hknown)).trans ?_
    exact hp.declaration?_put_of_ne h.head_known hknown (Ne.symm hd.1) c.2

theorem fill_put (hd : d ∉ contents.map Prod.fst) (hknown : d ∈ p.allIds) (vs : List Value) :
    (p.put d vs).fill contents = (p.fill contents).put d vs := by
  obtain ⟨a, ha, rfl⟩ := hp.exists_declaration hknown
  rw [put_eq ha, put_eq ((h.declaration?_fill hp hd hknown).trans ha)]
  exact h.fill_set hp (by simpa using hknown) (by simpa using hd)

/-- A declaration that is filled has the values it is filled with. -/
theorem declaration?_fill_of_mem (hc : c ∈ contents) {a : Declaration}
    (ha : p.declaration? c.1 = some a) :
    (p.fill contents).declaration? c.1 = some (a.withValues c.2) := by
  induction contents generalizing p with
  | nil => exact absurd hc not_mem_nil
  | cons c' rest ih =>
    have hput := hp.alike_put h.head_known c'.2
    have htidy := hp.put h.head_known c'.2
    have hrest := h.tail.of_alike hput
    rcases mem_cons.mp hc with rfl | hc
    · refine (hrest.declaration?_fill htidy h.head_not_mem (hput.allIds_eq ▸ h.head_known)).trans ?_
      exact hp.declaration?_put_self h.head_known ha c.2
    · have hne : c'.1 ≠ c.1 := fun heq => h.head_not_mem (heq ▸ mem_map_of_mem hc)
      refine ih hrest htidy hc ?_
      rw [hp.declaration?_put_of_ne h.head_known
        (h.known _ (mem_map_of_mem (mem_cons_of_mem _ hc))) hne, ha]

end

end Fillable

end Program

/-! ## 2. Frames put back together -/

/-- Where a value stands in a list. -/
structure Spot where
  owner : Owner
  before : List Value
  focus : Value
  after : List Value

def Spot.place (spot : Spot) : Place := ⟨spot.owner, !spot.before.isEmpty, !spot.after.isEmpty⟩

/-- A list of values and the same list after the value at a spot, in it or inside one of its
calls, was replaced by others. -/
inductive Spot.Edit (spot : Spot) (vs : List Value) : Owner → List Value → List Value → Prop
  | here : Edit spot vs spot.owner (spot.before ++ spot.focus :: spot.after)
      (spot.before ++ (vs ++ spot.after))
  | inside {outer : Owner} {t : Tag} {h : Head} {args args' : List Value} (left right : List Value)
      (hargs : Edit spot vs (.call t h) args args') :
      Edit spot vs outer (left ++ .call t h args :: right) (left ++ .call t h args' :: right)

/-- An edit exchanges the parts of one value for the parts of others, whatever parts are counted:
what is counted in a list is counted value by value, and in a call argument by argument. -/
theorem Spot.Edit.perm {α : Type} {spot : Spot} {vs xs ys : List Value} {o : Owner}
    (h : spot.Edit vs o xs ys) (parts : List Value → List α) (own : Tag → Head → List α)
    (happend : ∀ xs ys, parts (xs ++ ys) = parts xs ++ parts ys)
    (hcall : ∀ t h args, parts [.call t h args] = own t h ++ parts args) :
    ∃ others, (parts xs).Perm (parts [spot.focus] ++ others) ∧
      (parts ys).Perm (parts vs ++ others) := by
  have hcons : ∀ v vs, parts (v :: vs) = parts [v] ++ parts vs := fun v vs => happend [v] vs
  induction h with
  | here =>
    refine ⟨parts spot.before ++ parts spot.after, ?_, ?_⟩
    · rw [happend, hcons, ← append_assoc, ← append_assoc]
      exact List.perm_append_comm.append_right _
    · rw [happend, happend, ← append_assoc, ← append_assoc]
      exact List.perm_append_comm.append_right _
  | @inside outer t h args args' left right hargs ih =>
    obtain ⟨others, hxs, hys⟩ := ih
    have hshift : ∀ inner focus : List α, inner.Perm (focus ++ others) →
        (parts left ++ (own t h ++ inner ++ parts right)).Perm
          (focus ++ (parts left ++ own t h ++ parts right ++ others)) := by
      intro inner focus hinner
      refine (((hinner.append_left (own t h)).append_right _).append_left _).trans ?_
      classical
      rw [perm_iff_count]
      intro a
      simp only [count_append]
      omega
    refine ⟨parts left ++ own t h ++ parts right ++ others, ?_, ?_⟩
    · rw [happend, hcons, hcall]
      exact hshift _ _ hxs
    · rw [happend, hcons, hcall]
      exact hshift _ _ hys

namespace Frame

/-- What a walk has made so far of the declarations on a stack, the innermost first; `focus` is
the call whose arguments were walked in the frame before. -/
def contents : Option Value → List Frame → List (DeclId × List Value)
  | _, [] => []
  | focus, f :: rest =>
    match f.owner with
    | .call tag head => contents (some (.call tag head (f.items focus))) rest
    | .global id => (.global id, f.items focus) :: contents none rest
    | .script id => (.script id, f.items focus) :: contents none rest

/-- Under the arguments of a call lies the list in which the call stands. -/
def Rooted : List Frame → Prop
  | [] => True
  | f :: rest => (f.owner.decl? = none → rest ≠ []) ∧ Rooted rest

/-- The value of a global that is being walked is what the walk has made of it. -/
theorem globalValue?_eq (id : GlobalId) : ∀ (focus : Option Value) (frames : List Frame),
    globalValue? id focus frames =
      ((contents focus frames).lookup (.global id)).bind List.head?
  | _, [] => rfl
  | _, ⟨.call t h, done, todo⟩ :: rest => globalValue?_eq id _ rest
  | _, ⟨.script s, done, todo⟩ :: rest => globalValue?_eq id none rest
  | focus, ⟨.global g, done, todo⟩ :: rest => by
    by_cases hid : g = id
    · subst hid
      simp [globalValue?, contents]
    · have hne : ((DeclId.global id == DeclId.global g) : Bool) = false := by
        simpa using fun h => hid h.symm
      simp only [globalValue?, contents, if_neg hid, lookup_cons, hne]
      exact globalValue?_eq id none rest

theorem contents_decl (d : DeclId) (done todo : List Value) (below : List Frame) :
    contents none (⟨d.owner, done, todo⟩ :: below) =
      (d, done.reverse ++ todo) :: contents none below := by
  cases d <;> simp [contents, items, DeclId.owner]

/-- What a stack holds depends on its innermost list only through the values in it. -/
theorem contents_congr {owner : Owner} {done done' todo todo' : List Value}
    {focus focus' : Option Value} (below : List Frame)
    (h : done.reverse ++ focus.toList ++ todo = done'.reverse ++ focus'.toList ++ todo') :
    contents focus (⟨owner, done, todo⟩ :: below) =
      contents focus' (⟨owner, done', todo'⟩ :: below) := by
  cases owner <;> simp only [contents, items, h]

/-- **The innermost list stands in a context.**  Its declaration is the first on the stack, and
an edit of the list is an edit of the declaration. -/
theorem surround (owner : Owner) : ∀ below : List Frame, (owner.decl? = none → below ≠ []) →
    Rooted below →
    ∃ (d : DeclId) (context : List Value → List Value) (rest : List Frame),
      (∀ focus done todo, contents focus (⟨owner, done, todo⟩ :: below) =
        (d, context (done.reverse ++ focus.toList ++ todo)) :: contents none rest) ∧
      (∀ (spot : Spot) (vs xs ys : List Value), spot.Edit vs owner xs ys →
        spot.Edit vs d.owner (context xs) (context ys)) ∧
      (∀ xs ys : List Value, owner.decl? = none ∨ xs.length = ys.length →
        (context xs).length = (context ys).length) ∧
      (∀ e, owner.decl? = some e → e = d) := by
  intro below
  induction below generalizing owner with
  | nil =>
    intro howner _
    cases owner with
    | global | script =>
      exact ⟨_, fun xs => xs, [], fun _ _ _ => rfl, fun _ _ _ _ h => h,
        fun _ _ h => by simpa [Owner.decl?] using h, fun _ he => (Option.some.inj he).symm⟩
    | call => exact absurd rfl (howner rfl)
  | cons f below ih =>
    intro _ hrooted
    cases owner with
    | global | script =>
      exact ⟨_, fun xs => xs, f :: below, fun _ _ _ => rfl, fun _ _ _ _ h => h,
        fun _ _ h => by simpa [Owner.decl?] using h, fun _ he => (Option.some.inj he).symm⟩
    | call t h =>
      obtain ⟨d, context, rest, hcontents, hedit, hlength, -⟩ := ih f.owner hrooted.1 hrooted.2
      refine ⟨d, fun xs => context (f.done.reverse ++ .call t h xs :: f.todo), rest, ?_, ?_, ?_,
        by simp [Owner.decl?]⟩
      · intro focus done todo
        refine (hcontents (some (.call t h (done.reverse ++ focus.toList ++ todo))) f.done
          f.todo).trans ?_
        simp
      · intro spot vs xs ys h
        exact hedit spot vs _ _ (.inside _ _ h)
      · intro xs ys _
        exact hlength _ _ (.inr (by simp))

end Frame

def Machine.now {σ : Type} (m : Machine σ) : Program :=
  m.program.fill (Frame.contents none m.frames)

end HaloScript
