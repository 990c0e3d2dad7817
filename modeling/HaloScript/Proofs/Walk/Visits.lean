/-
# A walk comes by everything once

What hooks are told on a walk is a list of visits.  Hooks that change nothing are told the same
visits whatever they do with them, and the program stays as it is (`Machine.Calm.run`).

The visits of one declaration come in the order of its text: a list of values element by element,
an element before its value, a value before its call, a call before its arguments
(`Value.visitsAll`).  Between them come the visits of what is entered on the way, and which
declaration that is depends on what has been entered before (`Program.walkVisits`).  But every
declaration of the table is entered once, whatever refers to what, so nothing is left out and
nothing comes twice (`Program.walk_visits`).

The sample is evaluated by `cbv`, which needs equations that only the whole library has.
-/
import HaloScript.Proofs.Numbering
import HaloScript.Proofs.Walk.Moments
import HaloScript.Proofs.Walk.Order
import Mathlib

namespace HaloScript

open List Option HaloScript.Frame Value

variable {σ : Type}

/-! ## 1. Visits -/

/-- What a hook is told, apart from the view. -/
inductive Visit where
  | global (g : Global)
  | script (a : Script)
  | element (place : Place) (v : Value)
  | value (v : Value)
  | call (tag : Tag) (head : Head) (args : List Value)

/-- What becomes of the state at a visit. -/
def Edits.tell (h : Edits σ) (view : View) (s : σ) : Visit → σ
  | .global g => (h.onGlobal view g s).2
  | .script a => (h.onScript a s).2
  | .element place v => (h.onElement view place v s).2
  | .value v => (h.onValue view v s).2
  | .call _ head _ => h.onCall head s

/-- Nothing is edited or removed. -/
structure Edits.Idle (h : Edits σ) : Prop where
  global : ∀ view g s, (h.onGlobal view g s).1 = ⟨false, g.isConst⟩
  script : ∀ a s, (h.onScript a s).1 = false
  element : ∀ view place v s, (h.onElement view place v s).1 = .keep v []
  value : ∀ view v s, (h.onValue view v s).1 = v

/-- Edits that change nothing have run dry. -/
def Edits.Idle.hooks {h : Edits σ} (hh : h.Idle) : Hooks σ where
  toEdits := h
  potential _ := 0
  onGlobal_le _ _ _ := Nat.le_refl 0
  onScript_le _ _ := Nat.le_refl 0
  onCall_le _ _ := Nat.le_refl 0
  onElement_lt view place v s :=
    .inr ⟨Nat.le_refl 0, Nat.le_of_eq (congrArg Offer.size (hh.element view place v s))⟩
  onValue_lt view v s :=
    .inr ⟨Nat.le_refl 0, Nat.le_of_eq (congrArg Value.nodeCount (hh.value view v s))⟩

/-- The visit of a value as an element of a list.  The value of a global is none. -/
def Owner.offers (o : Owner) (hasPrevious hasNext : Bool) (v : Value) : List Visit :=
  match o with
  | .global _ => []
  | o => [.element ⟨o, hasPrevious, hasNext⟩ v]

def Owner.elements (o : Owner) (hasPrevious : Bool) : List Value → List Visit
  | [] => []
  | v :: rest => o.offers hasPrevious (!rest.isEmpty) v ++ o.elements true rest

namespace Value

mutual

/-- The visits of a value and of all that is in it. -/
def visits : Value → List Visit
  | .leaf t l => [.value (.leaf t l)]
  | .call t h args => .value (.call t h args) :: .call t h args :: visitsAll (.call t h) false args

def visitsAll (o : Owner) (hasPrevious : Bool) : List Value → List Visit
  | [] => []
  | v :: rest => o.offers hasPrevious (!rest.isEmpty) v ++ visits v ++ visitsAll o true rest

end

end Value

namespace Visit

def ofDeclaration : Declaration → Visit
  | .global g => .global g
  | .script a => .script a

def children : Visit → List Visit
  | .global g => [.value g.value]
  | .script a => Owner.elements (.script a.id) false a.body
  | .element _ v => [.value v]
  | .value (.leaf _ _) => []
  | .value (.call t h args) => [.call t h args]
  | .call t h args => Owner.elements (.call t h) false args

/-- The declaration that is entered after a visit, unless it has been entered before. -/
def lead? (references : Bool) : Visit → Option DeclId
  | .value (.leaf _ l) => if references then l.target? else none
  | .call _ h _ => h.callee.target?
  | _ => none

end Visit

def Declaration.visits (a : Declaration) : List Visit :=
  .ofDeclaration a :: visitsAll a.id.owner false a.values

namespace Program

def visitsAt (p : Program) (d : DeclId) : List Visit :=
  (p.declaration? d).toList.flatMap Declaration.visits

/-- All that there is to visit: the declarations of the table and what is in them. -/
def stations (p : Program) : List Visit := p.declarations.flatMap Declaration.visits

end Program

/-! ## 2. Parents come first -/

namespace Value

theorem value_mem_visits (v : Value) : .value v ∈ v.visits := by
  cases v <;> exact mem_cons_self

theorem mem_visitsAll_of_mem_elements {o : Owner} {x : Visit} {hasPrevious : Bool}
    {vs : List Value} (hx : x ∈ o.elements hasPrevious vs) : x ∈ visitsAll o hasPrevious vs := by
  induction vs generalizing hasPrevious with
  | nil => exact hx
  | cons v rest ih =>
    rw [visitsAll, append_assoc]
    rcases mem_append.mp hx with hx | hx
    · exact mem_append_left _ hx
    · exact mem_append_right _ (mem_append_right _ (ih hx))

mutual

theorem parent_visits (v : Value) {x y : Visit} (hx : x ∈ v.visits) (hy : y ∈ x.children) :
    [x, y].Sublist v.visits := by
  match v with
  | .leaf t l =>
    obtain rfl := mem_singleton.mp hx
    exact absurd hy not_mem_nil
  | .call t h args =>
    rcases mem_cons.mp hx with rfl | hx
    · obtain rfl := mem_singleton.mp hy
      exact sublist_cons_of_mem mem_cons_self
    rcases mem_cons.mp hx with rfl | hx
    · exact (sublist_cons_of_mem (mem_visitsAll_of_mem_elements hy)).cons _
    · exact ((parent_visitsAll (.call t h) false args hx hy).cons _).cons _

/-- A visit comes before those of its parts.  By recursion on the values, the parts of a call lying
in its own argument list. -/
theorem parent_visitsAll (o : Owner) (hasPrevious : Bool) (vs : List Value) {x y : Visit}
    (hx : x ∈ visitsAll o hasPrevious vs) (hy : y ∈ x.children) :
    [x, y].Sublist (visitsAll o hasPrevious vs) := by
  match vs with
  | [] => exact absurd hx not_mem_nil
  | v :: rest =>
    rw [visitsAll, append_assoc] at hx ⊢
    rcases mem_append.mp hx with hx | hx
    · have helement : x = .element ⟨o, hasPrevious, !rest.isEmpty⟩ v ∧
          o.offers hasPrevious (!rest.isEmpty) v = [x] := by
        cases o with
        | global => exact absurd hx not_mem_nil
        | script => exact ⟨mem_singleton.mp hx, by rw [mem_singleton.mp hx]; rfl⟩
        | call => exact ⟨mem_singleton.mp hx, by rw [mem_singleton.mp hx]; rfl⟩
      obtain ⟨rfl, hoffers⟩ := helement
      obtain rfl := mem_singleton.mp hy
      rw [hoffers, singleton_append]
      exact sublist_cons_of_mem (mem_append_left _ v.value_mem_visits)
    rcases mem_append.mp hx with hx | hx
    · have hv := parent_visits v hx hy
      exact (hv.trans (sublist_append_left _ _)).trans (sublist_append_right _ _)
    · have hrest := parent_visitsAll o true rest hx hy
      exact (hrest.trans (sublist_append_right _ _)).trans (sublist_append_right _ _)

end

end Value

theorem Declaration.parent_visits (a : Declaration) {x y : Visit} (hx : x ∈ a.visits)
    (hy : y ∈ x.children) : [x, y].Sublist a.visits := by
  rcases mem_cons.mp hx with rfl | hx
  · refine sublist_cons_of_mem ?_
    cases a with
    | global g =>
      obtain rfl := mem_singleton.mp hy
      exact mem_append_left _ g.value.value_mem_visits
    | script => exact mem_visitsAll_of_mem_elements hy
  · exact (parent_visitsAll a.id.owner false a.values hx hy).cons _

section

variable {lead? : Visit → Option DeclId} {content : DeclId → List Visit} {unseen : List DeclId}
  {ahead : List (DeclId ⊕ Visit)}

/-- What lies ahead is come by in this order. -/
theorem sublist_tour (lead? : Visit → Option DeclId) (content : DeclId → List Visit)
    (unseen : List DeclId) (ahead : List (DeclId ⊕ Visit)) :
    (ahead.filterMap Sum.getRight?).Sublist (tour lead? content unseen ahead) := by
  fun_induction tour lead? content unseen ahead with
  | case1 unseen => exact .slnil
  | case2 unseen d rest hd ih =>
    rw [filterMap_append] at ih
    exact (sublist_append_right _ _).trans ih
  | case3 unseen d rest hd ih => exact ih
  | case4 unseen x rest ih =>
    rw [filterMap_append] at ih
    exact ((sublist_append_right _ _).trans ih).cons_cons x

/-- What is come by lies ahead or is in a declaration that is entered, and then all that is in
this declaration is come by, in order. -/
theorem mem_tour {x : Visit} (hx : x ∈ tour lead? content unseen ahead) :
    .inr x ∈ ahead ∨ ∃ d, x ∈ content d ∧
      (content d).Sublist (tour lead? content unseen ahead) := by
  fun_induction tour lead? content unseen ahead with
  | case1 unseen => exact absurd hx not_mem_nil
  | case2 unseen d rest hd ih =>
    rcases ih hx with hmem | hfound
    · rcases mem_append.mp hmem with hmem | hmem
      · obtain ⟨x', hx', hinr⟩ := List.mem_map.mp hmem
        obtain rfl := Sum.inr.inj hinr
        have hsub := sublist_tour lead? content (unseen.erase d) ((content d).map .inr ++ rest)
        rw [filterMap_append, filterMap_getRight?] at hsub
        exact .inr ⟨d, hx', (sublist_append_left _ _).trans hsub⟩
      · exact .inl (mem_cons_of_mem _ hmem)
    · exact .inr hfound
  | case3 unseen d rest hd ih => exact (ih hx).imp_left (mem_cons_of_mem _)
  | case4 unseen x' rest ih =>
    rcases mem_cons.mp hx with rfl | hx
    · exact .inl mem_cons_self
    · rcases ih hx with hmem | ⟨d, hxd, hsub⟩
      · rcases mem_append.mp hmem with hmem | hmem
        · obtain ⟨d, -, hinl⟩ := List.mem_map.mp hmem
          cases hinl
        · exact .inl (mem_cons_of_mem _ hmem)
      · exact .inr ⟨d, hxd, hsub.cons _⟩

end

namespace Program

variable {p : Program} {references : Bool}

def walkVisits (p : Program) (references : Bool) : List Visit :=
  tour (Visit.lead? references) p.visitsAt p.allIds (p.table.entries.map .inl)

/-- **A parent is visited before its children.** -/
theorem parent_walkVisits {x y : Visit} (hx : x ∈ p.walkVisits references)
    (hy : y ∈ x.children) : [x, y].Sublist (p.walkVisits references) := by
  rcases mem_tour hx with hmem | ⟨d, hxd, hsub⟩
  · obtain ⟨d, -, hinl⟩ := List.mem_map.mp hmem
    cases hinl
  · obtain ⟨a, ha, hxa⟩ := mem_flatMap.mp hxd
    rw [visitsAt, mem_toList.mp ha, toList_some, flatMap_singleton] at hsub
    exact (a.parent_visits hxa hy).trans hsub

end Program

/-! ## 3. Everything is visited once -/

namespace Visit

def declaration? : Visit → Option Declaration
  | .global g => some (.global g)
  | .script a => some (.script a)
  | _ => none

/-- The value or call that is visited. -/
def node? : Visit → Option Node
  | .value v => some (.value v)
  | .call _ h args => some (.call h args)
  | _ => none

def element? : Visit → Option Node
  | .element _ v => some (.value v)
  | _ => none

/-- A visit is of a declaration, of a value or call, or of an element. -/
theorem nodup_of {xs : List Visit} (hdeclaration : (xs.filterMap declaration?).Nodup)
    (hnode : (xs.filterMap node?).Nodup) (helement : (xs.filterMap element?).Nodup) : xs.Nodup := by
  induction xs with
  | nil => exact nodup_nil
  | cons x xs ih =>
    have hrest : ∀ {β : Type} (f : Visit → Option β), ((x :: xs).filterMap f).Nodup →
        (xs.filterMap f).Nodup := fun f h => h.sublist ((sublist_cons_self x xs).filterMap f)
    have hfirst : ∀ {β : Type} (f : Visit → Option β) (b : β), ((x :: xs).filterMap f).Nodup →
        f x = some b → x ∉ xs := by
      intro β f b h hb hx
      rw [filterMap_cons_some hb] at h
      exact (nodup_cons.mp h).1 (mem_filterMap.mpr ⟨x, hx, hb⟩)
    refine nodup_cons.mpr
      ⟨?_, ih (hrest _ hdeclaration) (hrest _ hnode) (hrest _ helement)⟩
    cases x with
    | global => exact hfirst declaration? _ hdeclaration rfl
    | script => exact hfirst declaration? _ hdeclaration rfl
    | element => exact hfirst element? _ helement rfl
    | value => exact hfirst node? _ hnode rfl
    | call => exact hfirst node? _ hnode rfl

end Visit

namespace Value

open Visit

mutual

theorem classes_visits (v : Value) : v.visits.filterMap declaration? = [] ∧
    v.visits.filterMap node? = v.nodes ∧
      (.value v :: v.visits.filterMap element?).Sublist v.nodes := by
  match v with
  | .leaf t l => exact ⟨rfl, rfl, .refl _⟩
  | .call t h args =>
    obtain ⟨hdeclaration, hnode, helement⟩ := classes_visitsAll (.call t h) false args
    refine ⟨hdeclaration, ?_, (helement.cons _).cons_cons _⟩
    rw [nodes, ← hnode]
    rfl

/-- Sorted by kind, the visits of values are all nodes in order, and elements are some of these. -/
theorem classes_visitsAll (o : Owner) (hasPrevious : Bool) (vs : List Value) :
    (visitsAll o hasPrevious vs).filterMap declaration? = [] ∧
      (visitsAll o hasPrevious vs).filterMap node? = nodesAll vs ∧
        ((visitsAll o hasPrevious vs).filterMap element?).Sublist (nodesAll vs) := by
  match vs with
  | [] => exact ⟨rfl, rfl, .slnil⟩
  | v :: rest =>
    obtain ⟨hdeclaration, hnode, helement⟩ := classes_visits v
    obtain ⟨hdeclaration', hnode', helement'⟩ := classes_visitsAll o true rest
    have hoffers : ∀ after, (o.offers hasPrevious after v).filterMap declaration? = [] ∧
        (o.offers hasPrevious after v).filterMap node? = [] ∧
        ((o.offers hasPrevious after v).filterMap element?).Sublist [.value v] := by
      intro after
      cases o with
      | global => exact ⟨rfl, rfl, nil_sublist _⟩
      | script id | call t h => exact ⟨rfl, rfl, .refl _⟩
    obtain ⟨hdeclaration'', hnode'', helement''⟩ := hoffers !rest.isEmpty
    rw [visitsAll, filterMap_append, filterMap_append, filterMap_append,
      filterMap_append, filterMap_append, filterMap_append, hdeclaration,
      hdeclaration', hdeclaration'', hnode, hnode', hnode'']
    exact ⟨rfl, rfl, ((helement''.append_right _).trans helement).append helement'⟩

end

end Value

/-- Where a visit leads is what the values refer to. -/
theorem Value.refer_of_lead {o : Owner} {hasPrevious references : Bool} {vs : List Value}
    {x : Visit} {d : DeclId} (hx : x ∈ visitsAll o hasPrevious vs)
    (hd : x.lead? references = some d) : Refer vs d := by
  have hnode : ∀ K, x.node? = some K → K ∈ nodesAll vs := fun K hK => by
    rw [← (classes_visitsAll o hasPrevious vs).2.1]
    exact mem_filterMap.mpr ⟨x, hx, hK⟩
  cases x with
  | global | script | element => cases hd
  | value v =>
    cases v with
    | call => cases hd
    | leaf t l =>
      refine ⟨.leaf t l, root_mem_rootsAll (value_mem_nodesAll.mp (hnode _ rfl)), ?_⟩
      cases references with
      | true => exact hd
      | false => cases hd
  | call t h =>
    obtain ⟨t', hpart⟩ := call_mem_nodesAll.mp (hnode _ rfl)
    exact ⟨.call t' h, root_mem_rootsAll hpart, hd⟩

namespace Program

variable {p : Program}

/-- **The visits of a walk are all that there is to visit**, where declarations of the table refer
to declarations of the table. -/
theorem walkVisits_perm (references : Bool) (hp : p.Tidy)
    (hin : p.Bounds (· ∈ p.table.entries)) :
    (p.walkVisits references).Perm p.stations := by
  have hstations : p.stations = p.table.entries.flatMap p.visitsAt := by
    rw [stations, declarations, filterMap_eq_flatMap_toList, flatMap_assoc]
    rfl
  rw [hstations]
  refine tour_listed_perm (· ∈ p.table.entries) (fun d hd x hx e he => ?_)
    (fun d hd => ⟨hp.known d hd, hd⟩) (fun d _ hd => hd) hp.allIds_nodup
    (Nodup.of_map _ hp.names)
  obtain ⟨a, ha, hxa⟩ := mem_flatMap.mp hx
  rcases mem_cons.mp hxa with rfl | hxa
  · cases a <;> cases he
  · refine hin.refer (closes_refersIn _) hd ?_
    rw [content_eq (mem_toList.mp ha)]
    exact refer_of_lead hxa he

end Program

/-- **Nothing is listed twice** in what there is to visit, if no node has two owners. -/
theorem Program.nodup_stations {p : Program} (hp : p.Tidy)
    (howned : (p.declarations.flatMap fun a => Value.numbers a.values).Nodup) :
    p.stations.Nodup := by
  have hnodes : (p.declarations.flatMap fun a => nodesAll a.values).Nodup := by
    refine Nodup.of_map Node.number ?_
    rwa [map_flatMap]
  have hclass := fun a : Declaration => classes_visitsAll a.id.owner false a.values
  have hids : (p.declarations.map Declaration.id).Nodup :=
    hp.map_id_declarations ▸ Nodup.of_map _ hp.names
  refine Visit.nodup_of ?_ ?_ ?_
  · have hone : ∀ a : Declaration, a.visits.filterMap Visit.declaration? = [a] := by
      intro a
      rw [Declaration.visits, filterMap_cons_some (b := a) (by cases a <;> rfl), (hclass a).1]
    rw [stations, filterMap_flatMap, funext hone, flatMap_singleton']
    exact Nodup.of_map _ hids
  · have hnode : ∀ a : Declaration, a.visits.filterMap Visit.node? = nodesAll a.values := by
      intro a
      rw [Declaration.visits, filterMap_cons_none (by cases a <;> rfl), (hclass a).2.1]
    rw [stations, filterMap_flatMap, funext hnode]
    exact hnodes
  · have helement : ∀ a : Declaration,
        (a.visits.filterMap Visit.element?).Sublist (nodesAll a.values) := by
      intro a
      rw [Declaration.visits, filterMap_cons_none (by cases a <;> rfl)]
      exact (hclass a).2.2
    obtain ⟨hinner, hapart⟩ := nodup_flatMap.mp hnodes
    rw [stations, filterMap_flatMap]
    refine nodup_flatMap.mpr ⟨fun a ha => (hinner a ha).sublist (helement a), ?_⟩
    exact hapart.imp fun {a b} h K hK hK' => h ((helement a).subset hK) ((helement b).subset hK')

/-! ## 4. Hooks that change nothing -/

/-- What is still to be visited of the lists on a stack; `focus` says whether a call of the first
list is being walked. -/
def Frame.ahead : Bool → List Frame → List Visit
  | _, [] => []
  | focus, f :: below =>
    visitsAll f.owner (focus || !f.done.isEmpty) f.todo ++ ahead f.owner.decl?.isNone below

namespace Machine

variable {p : Program} {m : Machine σ} {h : Hooks σ} {references : Bool} {last : σ}
  {next : List (DeclId ⊕ Visit)}

/-- The walk has changed nothing so far.  If the visits are made that lie ahead, those of `next`
first, it will end with the state `last`. -/
structure Calm (h : Hooks σ) (references : Bool) (p : Program) (last : σ)
    (next : List (DeclId ⊕ Visit)) (m : Machine σ) : Prop where
  program : m.program = p
  known : ∀ d ∈ m.unseen, d ∈ p.allIds
  opened : ∀ c ∈ contents none m.frames, c.1 ∈ p.allIds ∧ p.content c.1 = c.2
  removals : m.removals = []
  outcome : (tour (Visit.lead? references) p.visitsAt m.unseen
    (next ++ (ahead false m.frames).map .inr ++ m.entries.map .inl)).foldl
    (h.tell (.during p [])) m.state = last

namespace Calm

/-- A visit is made. -/
theorem tell {x : Visit} (hm : m.Calm h references p last (.inr x :: next)) :
    Calm h references p last ((x.lead? references).toList.map .inl ++ next)
      { m with state := h.tell (.during p []) m.state x } := by
  refine { hm with outcome := ?_ }
  rw [← hm.outcome]
  simp only [cons_append, tour_item, foldl_cons, append_assoc]

/-- Another stack that holds the same. -/
theorem reframe (hm : m.Calm h references p last next) (frames : List Frame)
    (next' : List (DeclId ⊕ Visit))
    (hcontents : contents none frames = contents none m.frames)
    (hahead : next' ++ (ahead false frames).map .inr =
      next ++ (ahead false m.frames).map .inr) :
    Calm h references p last next' { m with frames } where
  program := hm.program
  known := hm.known
  opened := by
    rw [hcontents]
    exact hm.opened
  removals := hm.removals
  outcome := by
    rw [← hm.outcome, ← hahead]

/-- What hooks see is the program as it is. -/
theorem during {frames : List Frame}
    (hopened : ∀ c ∈ contents none frames, c.1 ∈ p.allIds ∧ p.content c.1 = c.2) :
    View.during p frames = .during p [] := by
  have hvalue : ∀ id g, p.global? id = some g →
      (globalValue? id none frames).getD g.value = g.value := by
    intro id g hg
    rw [globalValue?_eq]
    rcases lookup_cases (contents none frames) (.global id) with
      ⟨hnone, -⟩ | ⟨vs, hsome, hmem⟩
    · rw [hnone]
      rfl
    · have hcontent : p.content (.global id) = [g.value] := by
        simp [Program.content, Program.declaration?, hg, Declaration.values]
      obtain rfl : [g.value] = vs := hcontent.symm.trans (hopened _ hmem).2
      rw [hsome]
      rfl
  simp only [View.during, View.mk.injEq, Scene.mk.injEq, and_true]
  funext id
  cases hg : p.global? id with
  | none => rfl
  | some g =>
    rw [Option.map_some, Option.map_some, hvalue id g hg]
    rfl

/-- Idle hooks keep a declaration that is entered as it is. -/
theorem allow_eq (hh : h.Idle) {a : Declaration} (ha : p.declaration? a.id = some a) (s : σ) :
    h.allow (.during p []) p s a = (false, p, h.tell (.during p []) s (.ofDeclaration a)) := by
  cases a with
  | global g =>
    have hset : p.setGlobal g = p := Program.set_self ha
    rw [Edits.allow, hh.global, hset]
    rfl
  | script =>
    rw [Edits.allow, hh.script]
    rfl

/-- **Going into a declaration** keeps calm. -/
theorem enter (hp : p.Tidy) (hh : h.Idle) {d : DeclId}
    (hm : m.Calm h references p last [.inl d]) : (m.enter h d).Calm h references p last [] := by
  have hout := hm.outcome
  by_cases hd : d ∈ m.unseen
  · obtain ⟨a, ha, rfl⟩ := hp.exists_declaration (hm.known d hd)
    have hat : p.visitsAt a.id = a.visits := by
      rw [Program.visitsAt, ha, Option.toList_some, flatMap_singleton]
    have hlead : (Visit.ofDeclaration a).lead? references = none := by cases a <;> rfl
    have hahead : ahead false (⟨a.id.owner, [], a.values⟩ :: m.frames) =
        visitsAll a.id.owner false a.values ++ ahead false m.frames := by
      cases a <;> rfl
    rw [enter_of_some hd (hm.program ▸ ha), hm.program, during hm.opened, allow_eq hh ha]
    refine ⟨rfl, fun e he => hm.known e (mem_of_mem_erase he), ?_, hm.removals, ?_⟩
    · show ∀ c ∈ contents none (⟨a.id.owner, [], a.values⟩ :: m.frames), _
      rw [contents_decl]
      exact forall_mem_cons.mpr ⟨⟨hm.known _ hd, Program.content_eq ha⟩, hm.opened⟩
    · rw [← hout]
      simp only [cons_append, nil_append, tour_of_mem hd, hat, Declaration.visits, map_cons,
        tour_item, hlead, Option.toList_none, map_nil, foldl_cons]
      simp only [allow, Bool.false_eq_true, if_false, hahead, map_append, append_assoc]
  · rw [enter_of_not_mem hd]
    rw [cons_append, nil_append, cons_append, tour_of_not_mem hd] at hout
    exact { hm with outcome := hout }

/-- Going where a visit leads. -/
theorem follow (hp : p.Tidy) (hh : h.Idle) (lead : Option DeclId)
    (hm : m.Calm h references p last (lead.toList.map .inl)) :
    (lead.elim m fun d => m.enter h d).Calm h references p last [] := by
  cases lead with
  | none => exact hm
  | some => exact hm.enter hp hh

variable {unseen entries : List DeclId} {removals : List Text} {state : σ} {owner : Owner}
  {done rest : List Value} {v : Value} {below : List Frame}

/-- The first value of a list comes next, as an element and as a value. -/
theorem advance (hm : Calm h references p last []
      ⟨p, unseen, entries, ⟨owner, done, v :: rest⟩ :: below, removals, state⟩) :
    Calm h references p last
      ((owner.offers (!done.isEmpty) (!rest.isEmpty) v).map .inr ++ v.visits.map .inr)
      ⟨p, unseen, entries, ⟨owner, v :: done, rest⟩ :: below, removals, state⟩ :=
  hm.reframe _ _ (contents_congr below (by simp)) (by simp [ahead, visitsAll])

/-- **Visiting a value** keeps calm. -/
theorem visit (hp : p.Tidy) (hh : h.Idle) (hm : Calm h references p last (v.visits.map .inr)
      ⟨p, unseen, entries, ⟨owner, v :: done, rest⟩ :: below, removals, state⟩) :
    (Machine.visit h references owner done v rest below
      ⟨p, unseen, entries, [], removals, state⟩).Calm h references p last [] := by
  have hsame : contents none (⟨owner, v :: done, rest⟩ :: below) =
      contents none (⟨owner, done, v :: rest⟩ :: below) :=
    contents_congr below (by simp)
  have hanswer : h.onValue (.during p []) v state =
      (v, h.tell (.during p []) state (.value v)) := Prod.ext (hh.value _ _ _) rfl
  rw [visit_eq]
  rw [during (hsame ▸ hm.opened), hanswer]
  cases v with
  | leaf =>
    have hnext := hm.tell
    rw [map_nil, append_nil] at hnext
    exact hnext.follow hp hh _
  | call t head =>
    refine follow hp hh _ (hm.tell.tell.reframe _ (head.callee.target?.toList.map .inl)
      (contents_congr below (by simp [items])) ?_)
    simp [answered, ahead, Owner.decl?, Visit.lead?]

/-- **Offering an element** keeps calm. -/
theorem offer (hp : p.Tidy) (hh : h.Idle) (howner : owner.offers (!done.isEmpty) (!rest.isEmpty) v =
      [.element ⟨owner, !done.isEmpty, !rest.isEmpty⟩ v])
    (hm : Calm h references p last []
      ⟨p, unseen, entries, ⟨owner, done, v :: rest⟩ :: below, removals, state⟩) :
    (Machine.offer h references owner done v rest below
      ⟨p, unseen, entries, [], removals, state⟩).Calm h references p last [] := by
  have hanswer : h.onElement (.during p []) ⟨owner, !done.isEmpty, !rest.isEmpty⟩ v state =
      (.keep v [], h.tell (.during p []) state
        (.element ⟨owner, !done.isEmpty, !rest.isEmpty⟩ v)) := Prod.ext (hh.element _ _ _ _) rfl
  have hnext := hm.advance
  rw [howner] at hnext
  unfold Machine.offer
  dsimp only
  rw [during hm.opened, hanswer]
  exact hnext.tell.visit hp hh

/-- **Ending a list** keeps calm: what is put where it belongs has been there. -/
theorem close (hp : p.Tidy) (hm : Calm h references p last []
      ⟨p, unseen, entries, ⟨owner, done, []⟩ :: below, removals, state⟩) :
    (Machine.close ⟨owner, done, []⟩ below ⟨p, unseen, entries, ⟨owner, done, []⟩ :: below,
      removals, state⟩).Calm h references p last [] := by
  obtain ⟨d, rfl⟩ | ⟨t, head, rfl⟩ := owner.decl_or_call
  · have hopened := hm.opened
    rw [contents_decl, append_nil] at hopened
    obtain ⟨⟨hd, hcontent⟩, hbelow⟩ := forall_mem_cons.mp hopened
    dsimp only at hd hcontent
    have hsuits : Declaration.Suits d done.reverse := by
      obtain ⟨a, ha, rfl⟩ := hp.exists_declaration hd
      rw [← hcontent, Program.content_eq ha]
      exact a.suits_values
    rw [close_decl hp hd hsuits, ← hcontent, hp.put_content hd]
    refine ⟨rfl, hm.known, hbelow, hm.removals, ?_⟩
    rw [← hm.outcome]
    cases d <;> rfl
  · cases below with
    | nil => exact hm.reframe _ _ rfl rfl
    | cons f rest => exact hm.reframe _ _ (contents_congr rest (by simp [items])).symm rfl

/-- **Every step keeps calm.** -/
theorem step (hp : p.Tidy) (hh : h.Idle) (hm : m.Calm h references p last []) :
    (m.step h references).Calm h references p last [] := by
  obtain ⟨program, unseen, entries, frames, removals, state⟩ := m
  obtain rfl := hm.program
  match frames with
  | [] =>
    match entries with
    | [] => exact hm
    | d :: rest => exact enter hp hh ⟨rfl, hm.known, hm.opened, hm.removals, hm.outcome⟩
  | ⟨owner, done, []⟩ :: below => exact hm.close hp
  | ⟨owner, done, v :: rest⟩ :: below =>
    cases owner with
    | global => exact hm.advance.visit hp hh
    | script => exact hm.offer hp hh rfl
    | call => exact hm.offer hp hh rfl

/-- **A run with hooks that change nothing** ends with the program as it was, and with a state that
has been told what lay ahead. -/
theorem run (hp : p.Tidy) (hh : h.Idle) (hm : m.Calm h references p last []) :
    (m.run h references).program = p ∧ (m.run h references).removals = [] ∧
      (m.run h references).state = last := by
  fun_induction m.run h references with
  | case1 m hover =>
    have hout := hm.outcome
    simp only [isOver, Bool.and_eq_true, List.isEmpty_iff] at hover
    rw [hover.1, hover.2] at hout
    exact ⟨hm.program, hm.removals, by simpa [ahead] using hout⟩
  | case2 m hover ih => exact ih (hm.step hp hh)

end Calm

end Machine

/-! ## 5. Walks -/

namespace Program

/-- **A walk comes by everything once.**  Where declarations of the table refer to declarations of
the table, in circles or not, and no node has two owners, a walk with hooks that change nothing
ends and leaves the program as it is, whether it goes after references or not.  There is one list of
visits that all such hooks are told.  It has every declaration of the table and everything in them,
nothing twice, and each before what is right below it. -/
theorem walk_visits {p : Program} (hp : p.Tidy) (hin : p.Bounds (· ∈ p.table.entries))
    (howned : (p.declarations.flatMap fun a => Value.numbers a.values).Nodup)
    (references : Bool) : ∃ visits : List Visit,
    (∀ {σ : Type} (h : Edits σ) (hh : h.Idle) (s : σ),
      (∃ k, ((Machine.step h references)^[k] (.start p s)).isOver = true) ∧
        p.walk hh.hooks references s = (p, visits.foldl (h.tell (.during p [])) s)) ∧
      visits.Perm p.stations ∧ visits.Nodup ∧
        ∀ x ∈ visits, ∀ y ∈ x.children, [x, y].Sublist visits := by
  have hperm := walkVisits_perm references hp hin
  refine ⟨p.walkVisits references, fun {σ} h hh s => ⟨?_, ?_⟩, hperm,
    hperm.nodup_iff.mpr (nodup_stations hp howned), fun x hx y hy => parent_walkVisits hx hy⟩
  · have hend : ∃ k, (Machine.start p s).run hh.hooks references =
        (Machine.step h references)^[k] (.start p s) ∧ _ := Machine.run_eq_iterate _
    exact hend.imp fun _ h => h.2
  · have hcalm : (Machine.start p s).Calm hh.hooks references p
        ((p.walkVisits references).foldl (h.tell (.during p [])) s) [] :=
      ⟨rfl, fun d hd => hd, fun c hc => absurd hc not_mem_nil, rfl, rfl⟩
    obtain ⟨hprogram, hremovals, hstate⟩ := hcalm.run hp hh
    rw [walk, hprogram, hremovals, hstate]
    rfl

/-- Two globals and two scripts in a circle each. -/
def circleSample : Program := (load {} {} {} (.source ⟨"a",
  "(global long a(+ b(f)))(global long b a)(script static long f(not(g)))(script static long g(f))"⟩
  )).program

def counter : Edits Nat where
  onGlobal _ g n := (⟨false, g.isConst⟩, n + 1)
  onScript _ n := (false, n + 1)
  onElement _ _ v n := (.keep v [], n + 1)
  onValue _ v n := (v, n + 1)
  onCall _ n := n + 1

theorem idle_counter : counter.Idle :=
  ⟨fun _ _ _ => rfl, fun _ _ => rfl, fun _ _ _ _ => rfl, fun _ _ _ => rfl⟩

theorem foldl_counter (view : View) (xs : List Visit) (n : Nat) :
    xs.foldl (counter.tell view) n = n + xs.length := by
  induction xs generalizing n with
  | nil => rfl
  | cons x xs ih =>
    have htell : counter.tell view n x = n + 1 := by cases x <;> rfl
    rw [foldl_cons, htell, ih, length_cons, Nat.add_right_comm, Nat.add_assoc]

set_option maxRecDepth 20000 in
/-- In the sample hooks are called 21 times, with references and without. -/
theorem walk_visits_circleSample :
    circleSample.walk idle_counter.hooks true 0 = (circleSample, 21) ∧
      circleSample.walk idle_counter.hooks false 0 = (circleSample, 21) := by
  obtain ⟨hp, -, hin, -⟩ : circleSample.Anchors _ := load_anchors {} {} _
  have hwalk : ∀ references,
      circleSample.walk idle_counter.hooks references 0 = (circleSample, 21) := by
    intro references
    obtain ⟨visits, hvisits, hperm, -⟩ := walk_visits hp hin (of_decide_eq_true (by cbv)) references
    have hlength : visits.length = 21 := hperm.length_eq.trans (by cbv)
    rw [(hvisits counter idle_counter 0).2, foldl_counter, hlength]
  exact ⟨hwalk true, hwalk false⟩

end Program

end HaloScript
