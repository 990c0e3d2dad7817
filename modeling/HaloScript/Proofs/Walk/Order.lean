/-
# Walk order

A walk visits the values of a program in an order that can be read off the program: a value comes
before its arguments, and what it refers to is gone through in between, unless that has been
entered before (`Program.walkOrder`).  The order lists every value of the table once
(`Program.walkOrder_perm`).

A walk that edits the program as it goes visits the values in the order of the program that it
leaves.  For what is still to be visited is not what the walk has in sight: it is what will have
become of that.  So the argument runs backwards, from the end of the walk to its start.  At every
moment there is a stack of frames whose unwalked parts are as they will be at the end
(`Machine.Foretold`), and the answers that are still to come settle as the values that this stack
has ahead (`Machine.Ahead`).

The result is `Program.walk_settles`: the answers of the hook for values, in the order in which
they were given, are the values of the order up to what becomes of their arguments.
-/
import HaloScript.Proofs.Walk.Enclosed
import HaloScript.Proofs.Walk.Record

namespace HaloScript

open List Value

variable {σ : Type}

/-! ## 1. The order of a program -/

/-- What a walk comes to: a declaration, which it may have entered before, or a value. -/
inductive Waypoint where
  | decl (d : DeclId)
  | value (v : Value)

namespace Waypoint

/-- The work that a waypoint stands for, apart from declarations that are entered. -/
def weight : Waypoint → Nat
  | .decl _ => 1
  | .value v => 2 * v.nodeCount

def weightAll : List Waypoint → Nat
  | [] => 0
  | w :: rest => w.weight + weightAll rest

theorem weightAll_append (ws ws' : List Waypoint) :
    weightAll (ws ++ ws') = weightAll ws + weightAll ws' := by
  induction ws with
  | nil => exact (Nat.zero_add _).symm
  | cons w rest ih => rw [cons_append, weightAll, ih, weightAll, Nat.add_assoc]

theorem weightAll_value (vs : List Value) :
    weightAll (vs.map Waypoint.value) = 2 * nodeCountAll vs := by
  induction vs with
  | nil => rfl
  | cons v rest ih =>
    rw [map_cons, weightAll, ih, weight, nodeCountAll]
    omega

end Waypoint

/-- What a walk comes to right after a value: the declaration it refers to, and its arguments. -/
def Value.next (v : Value) : List Waypoint :=
  v.root.refers?.toList.map .decl ++ v.args.map .value

theorem Value.weightAll_next (v : Value) : Waypoint.weightAll v.next < 2 * v.nodeCount := by
  have hrefers : Waypoint.weightAll (v.root.refers?.toList.map Waypoint.decl) ≤ 1 := by
    cases v.root.refers? with
    | none => exact Nat.zero_le 1
    | some => exact Nat.le_refl 1
  rw [next, Waypoint.weightAll_append, Waypoint.weightAll_value]
  cases v with
  | leaf =>
    simp only [args, nodeCountAll, nodeCount]
    omega
  | call t h args =>
    simp only [Value.args, nodeCount]
    omega

namespace Program

/-- The values that a walk visits from here on, if it has not entered the declarations `unseen`
and has these waypoints before it. -/
def orderFrom (q : Program) (unseen : List DeclId) (agenda : List Waypoint) : List Value :=
  match agenda with
  | [] => []
  | .decl d :: rest =>
    if _hd : d ∈ unseen then q.orderFrom (unseen.erase d) ((q.content d).map .value ++ rest)
    else q.orderFrom unseen rest
  | .value v :: rest => v :: q.orderFrom unseen (v.next ++ rest)
termination_by (unseen.length, Waypoint.weightAll agenda)
decreasing_by
  · exact Prod.Lex.left _ _ (Machine.length_erase_lt _hd)
  · refine Prod.Lex.right _ ?_
    simp only [Waypoint.weightAll, Waypoint.weight]
    omega
  · refine Prod.Lex.right _ ?_
    have := v.weightAll_next
    rw [Waypoint.weightAll_append, Waypoint.weightAll, Waypoint.weight]
    omega

/-- **The order in which a walk visits the values of a program**, if it enters those declarations
only for which `enters` holds. -/
def walkOrder (q : Program) (enters : DeclId → Bool) : List Value :=
  q.orderFrom (q.allIds.filter enters) (q.table.entries.map .decl)

variable {q q' : Program} {unseen : List DeclId} {agenda : List Waypoint} {d : DeclId}

@[simp] theorem orderFrom_nil : q.orderFrom unseen [] = [] := by rw [orderFrom]

theorem orderFrom_value (v : Value) (rest : List Waypoint) :
    q.orderFrom unseen (.value v :: rest) = v :: q.orderFrom unseen (v.next ++ rest) := by
  rw [orderFrom]

theorem orderFrom_of_mem (hd : d ∈ unseen) (rest : List Waypoint) :
    q.orderFrom unseen (.decl d :: rest) =
      q.orderFrom (unseen.erase d) ((q.content d).map .value ++ rest) := by
  rw [orderFrom, dif_pos hd]

theorem orderFrom_of_not_mem (hd : d ∉ unseen) (rest : List Waypoint) :
    q.orderFrom unseen (.decl d :: rest) = q.orderFrom unseen rest := by
  rw [orderFrom, dif_neg hd]

theorem orderFrom_congr (h : ∀ d, q.content d = q'.content d) (unseen : List DeclId)
    (agenda : List Waypoint) : q.orderFrom unseen agenda = q'.orderFrom unseen agenda := by
  fun_induction q.orderFrom unseen agenda with
  | case1 unseen => rw [orderFrom_nil]
  | case2 unseen d rest hd ih => rw [ih, orderFrom_of_mem hd, h]
  | case3 unseen d rest hd ih => rw [ih, orderFrom_of_not_mem hd]
  | case4 unseen v rest ih => rw [ih, orderFrom_value]

/-- Entries of the table that are not to be entered make no difference. -/
theorem orderFrom_filter {f : DeclId → Bool} (before : List Waypoint) (entries : List DeclId)
    (h : ∀ d ∈ entries, f d = false → d ∉ unseen) :
    q.orderFrom unseen (before ++ (entries.filter f).map .decl) =
      q.orderFrom unseen (before ++ entries.map .decl) := by
  generalize hagenda : before ++ entries.map Waypoint.decl = agenda
  fun_induction q.orderFrom unseen agenda generalizing before entries with
  | case1 unseen =>
    obtain ⟨rfl, hnil⟩ := append_eq_nil_iff.mp hagenda
    obtain rfl := map_eq_nil_iff.mp hnil
    simp
  | case2 unseen d rest hd ih =>
    have herase : ∀ entries : List DeclId, (∀ d ∈ entries, f d = false → d ∉ unseen) →
        ∀ e ∈ entries, f e = false → e ∉ unseen.erase d := fun _ h e he hf hmem =>
      h e he hf (mem_of_mem_erase hmem)
    rcases append_eq_cons_iff.mp hagenda with ⟨rfl, hentries⟩ | ⟨before', rfl, rfl⟩
    · obtain ⟨e, entries', rfl, heq, rfl⟩ := map_eq_cons_iff.mp hentries
      obtain rfl := Waypoint.decl.inj heq
      have hf : f e = true := by
        cases hf : f e with
        | true => rfl
        | false => exact absurd hd (h e mem_cons_self hf)
      rw [filter_cons_of_pos hf, map_cons, nil_append, orderFrom_of_mem hd]
      exact ih _ entries' (herase _ fun e he => h e (mem_cons_of_mem _ he)) rfl
    · rw [cons_append, orderFrom_of_mem hd, ← append_assoc]
      exact ih _ entries (herase _ h) (append_assoc _ _ _)
  | case3 unseen d rest hd ih =>
    rcases append_eq_cons_iff.mp hagenda with ⟨rfl, hentries⟩ | ⟨before', rfl, rfl⟩
    · obtain ⟨e, entries', rfl, heq, rfl⟩ := map_eq_cons_iff.mp hentries
      obtain rfl := Waypoint.decl.inj heq
      have hrest := ih [] entries' (fun e he => h e (mem_cons_of_mem _ he)) rfl
      rw [nil_append] at hrest ⊢
      cases hf : f e with
      | true =>
        rw [filter_cons_of_pos hf, map_cons, orderFrom_of_not_mem hd]
        exact hrest
      | false =>
        rw [filter_cons_of_neg (by simp [hf])]
        exact hrest
    · rw [cons_append, orderFrom_of_not_mem hd]
      exact ih _ entries h rfl
  | case4 unseen v rest ih =>
    rcases append_eq_cons_iff.mp hagenda with ⟨rfl, hentries⟩ | ⟨before', rfl, rfl⟩
    · obtain ⟨e, entries', rfl, heq, -⟩ := map_eq_cons_iff.mp hentries
      cases heq
    · rw [cons_append, orderFrom_value, ← append_assoc]
      exact congrArg (v :: ·) (ih _ entries h (append_assoc _ _ _))

end Program

/-! ## 2. The order lists everything once -/

section

variable {α : Type} {lead? : α → Option DeclId} {content : DeclId → List α}
  {unseen : List DeclId} {ahead : List (DeclId ⊕ α)} {inside : DeclId → Prop}

/-- What is come by on the way through a list, if after an item the content of the declaration
comes that the item leads to, unless it has come before. -/
def tour (lead? : α → Option DeclId) (content : DeclId → List α) (unseen : List DeclId)
    (ahead : List (DeclId ⊕ α)) : List α :=
  match ahead with
  | [] => []
  | .inl d :: rest =>
    if _hd : d ∈ unseen then tour lead? content (unseen.erase d) ((content d).map .inr ++ rest)
    else tour lead? content unseen rest
  | .inr a :: rest => a :: tour lead? content unseen ((lead? a).toList.map .inl ++ rest)
termination_by (unseen.length, ahead.length + ahead.countP Sum.isRight)
decreasing_by
  · exact Prod.Lex.left _ _ (Machine.length_erase_lt _hd)
  · refine Prod.Lex.right _ ?_
    simp
  · refine Prod.Lex.right _ ?_
    cases lead? a <;> simp [countP_cons]; omega

@[simp] theorem tour_nil : tour lead? content unseen [] = [] := by rw [tour]

theorem tour_item (a : α) (rest : List (DeclId ⊕ α)) :
    tour lead? content unseen (.inr a :: rest) =
      a :: tour lead? content unseen ((lead? a).toList.map .inl ++ rest) := by
  rw [tour]

theorem tour_of_mem {d : DeclId} (hd : d ∈ unseen) (rest : List (DeclId ⊕ α)) :
    tour lead? content unseen (.inl d :: rest) =
      tour lead? content (unseen.erase d) ((content d).map .inr ++ rest) := by
  rw [tour, dif_pos hd]

theorem tour_of_not_mem {d : DeclId} (hd : d ∉ unseen) (rest : List (DeclId ⊕ α)) :
    tour lead? content unseen (.inl d :: rest) = tour lead? content unseen rest := by
  rw [tour, dif_neg hd]

theorem filterMap_getRight? (as : List α) :
    (as.map Sum.inr).filterMap (Sum.getRight? (α := DeclId)) = as := by
  simp [filterMap_map, Function.comp_def]

theorem filterMap_getRight?_inl (ds : List DeclId) :
    (ds.map Sum.inl).filterMap (Sum.getRight? (β := α)) = [] := by
  simp [filterMap_map]

/-- What lies ahead leads to nothing but declarations that are allowed. -/
def LeadsIn (lead? : α → Option DeclId) (inside : DeclId → Prop) : DeclId ⊕ α → Prop
  | .inl d => inside d
  | .inr a => ∀ d, lead? a = some d → inside d

/-- **What is come by** is what lies ahead and what is entered on the way: that is at least all
declarations that lie ahead, and none that is not allowed. -/
theorem tour_perm (hclosed : ∀ d, inside d → ∀ a ∈ content d, LeadsIn lead? inside (.inr a))
    (hahead : ∀ a ∈ ahead, LeadsIn lead? inside a) (hunseen : unseen.Nodup) :
    ∃ entered : List DeclId, entered.Nodup ∧ (∀ d ∈ entered, d ∈ unseen ∧ inside d) ∧
      (∀ d ∈ unseen, .inl d ∈ ahead → d ∈ entered) ∧
      (tour lead? content unseen ahead).Perm
        (ahead.filterMap Sum.getRight? ++ entered.flatMap content) := by
  fun_induction tour lead? content unseen ahead with
  | case1 unseen =>
    exact ⟨[], nodup_nil, fun _ h => absurd h not_mem_nil,
      fun _ _ h => absurd h not_mem_nil, .refl _⟩
  | case2 unseen d rest hd ih =>
    obtain ⟨hinside, hrest⟩ := forall_mem_cons.mp hahead
    have hnext : ∀ a ∈ (content d).map Sum.inr ++ rest, LeadsIn lead? inside a := by
      intro a ha
      rcases mem_append.mp ha with ha | ha
      · obtain ⟨x, hx, rfl⟩ := mem_map.mp ha
        exact hclosed d hinside x hx
      · exact hrest a ha
    obtain ⟨entered, hnodup, hin, hall, hperm⟩ := ih hnext (hunseen.erase d)
    refine ⟨d :: entered, nodup_cons.mpr ⟨fun hmem => ?_, hnodup⟩, ?_, fun e he hmem => ?_, ?_⟩
    · exact hunseen.not_mem_erase (hin d hmem).1
    · exact forall_mem_cons.mpr ⟨⟨hd, hinside⟩, fun e he =>
        ⟨mem_of_mem_erase (hin e he).1, (hin e he).2⟩⟩
    · by_cases heq : e = d
      · exact heq ▸ mem_cons_self
      · rcases mem_cons.mp hmem with hmem | hmem
        · exact absurd (Sum.inl.inj hmem) heq
        · exact mem_cons_of_mem _ (hall e (hunseen.mem_erase_iff.mpr ⟨heq, he⟩)
            (mem_append_right _ hmem))
    · rw [filterMap_append, filterMap_getRight?] at hperm
      rw [filterMap_cons_none rfl, flatMap_cons, ← append_assoc]
      exact hperm.trans (List.perm_append_comm.append_right _)
  | case3 unseen d rest hd ih =>
    obtain ⟨entered, hnodup, hin, hall, hperm⟩ := ih (forall_mem_cons.mp hahead).2 hunseen
    refine ⟨entered, hnodup, hin, fun e he hmem => ?_, hperm⟩
    rcases mem_cons.mp hmem with hmem | hmem
    · exact absurd (Sum.inl.inj hmem ▸ he) hd
    · exact hall e he hmem
  | case4 unseen a rest ih =>
    obtain ⟨ha, hrest⟩ := forall_mem_cons.mp hahead
    have hnext : ∀ b ∈ (lead? a).toList.map Sum.inl ++ rest, LeadsIn lead? inside b := by
      intro b hb
      rcases mem_append.mp hb with hb | hb
      · obtain ⟨d, hd, rfl⟩ := mem_map.mp hb
        exact ha d (Option.mem_toList.mp hd)
      · exact hrest b hb
    obtain ⟨entered, hnodup, hin, hall, hperm⟩ := ih hnext hunseen
    refine ⟨entered, hnodup, hin, fun e he hmem => hall e he ?_, ?_⟩
    · rcases mem_cons.mp hmem with hmem | hmem
      · cases hmem
      · exact mem_append_right _ hmem
    · rw [filterMap_append, filterMap_getRight?_inl, nil_append] at hperm
      exact hperm.cons a

/-- **A tour of listed declarations comes by their content once**, whatever leads where among
them. -/
theorem tour_listed_perm (inside : DeclId → Prop) {entries : List DeclId}
    (hclosed : ∀ d, inside d → ∀ a ∈ content d, LeadsIn lead? inside (.inr a))
    (hlisted : ∀ d ∈ entries, d ∈ unseen ∧ inside d)
    (hinside : ∀ d ∈ unseen, inside d → d ∈ entries) (hunseen : unseen.Nodup)
    (hentries : entries.Nodup) :
    (tour lead? content unseen (entries.map .inl)).Perm (entries.flatMap content) := by
  have hahead : ∀ a ∈ entries.map Sum.inl, LeadsIn lead? inside a := by
    intro a ha
    obtain ⟨d, hd, rfl⟩ := mem_map.mp ha
    exact (hlisted d hd).2
  obtain ⟨entered, hnodup, hin, hall, hperm⟩ := tour_perm hclosed hahead hunseen
  have hentered : entered.Perm entries := by
    rw [perm_ext_iff_of_nodup hnodup hentries]
    exact fun d => ⟨fun hd => hinside d (hin d hd).1 (hin d hd).2,
      fun hd => hall d (hlisted d hd).1 (mem_map_of_mem hd)⟩
  rw [filterMap_getRight?_inl, nil_append] at hperm
  exact hperm.trans (hentered.flatMap_right _)

end

namespace Value

theorem parts_eq (v : Value) : v.parts = v :: partsAll v.args := by
  cases v <;> simp [parts, partsAll, args]

end Value

/-- What lies behind a waypoint, part by part. -/
def Waypoint.items : Waypoint → List (DeclId ⊕ Value)
  | .decl d => [.inl d]
  | .value v => v.parts.map .inr

theorem Waypoint.flatMap_items (vs : List Value) :
    (vs.map Waypoint.value).flatMap items = (partsAll vs).map Sum.inr := by
  induction vs with
  | nil => rfl
  | cons v rest ih =>
    rw [map_cons, flatMap_cons, ih, partsAll, map_append]
    rfl

namespace Program

variable {q : Program} {inside : DeclId → Prop}

/-- The order is a tour of the parts of values. -/
theorem orderFrom_eq_tour (unseen : List DeclId) (agenda : List Waypoint) :
    q.orderFrom unseen agenda = tour (fun v => v.root.refers?)
      (fun d => partsAll (q.content d)) unseen (agenda.flatMap Waypoint.items) := by
  fun_induction q.orderFrom unseen agenda with
  | case1 unseen => rw [flatMap_nil, tour_nil]
  | case2 unseen d rest hd ih =>
    rw [ih, flatMap_cons, flatMap_append, Waypoint.flatMap_items]
    exact (tour_of_mem hd _).symm
  | case3 unseen d rest hd ih =>
    rw [ih, flatMap_cons]
    exact (tour_of_not_mem hd _).symm
  | case4 unseen v rest ih =>
    have hrefers : (v.root.refers?.toList.map Waypoint.decl).flatMap Waypoint.items =
        v.root.refers?.toList.map Sum.inl := by
      cases v.root.refers? <;> rfl
    rw [ih, flatMap_cons, Waypoint.items, parts_eq, map_cons, cons_append,
      tour_item, flatMap_append, Value.next, flatMap_append, Waypoint.flatMap_items,
      hrefers, append_assoc]

theorem Tidy.flatMap_declarations {α : Type} (hq : q.Tidy) (f : List Value → List α) :
    (q.declarations.flatMap fun a => f a.values) =
      q.table.entries.flatMap fun d => f (q.content d) := by
  rw [declarations, filterMap_eq_flatMap_toList, flatMap_assoc]
  refine flatMap_congr fun d hd => ?_
  obtain ⟨a, ha, -⟩ := hq.exists_declaration (hq.known d hd)
  rw [content_eq ha, ha, Option.toList_some, flatMap_singleton]

/-- **The walk order lists every value of the table once**, where the declarations that are entered
are those of the table. -/
theorem walkOrder_perm {enters : DeclId → Bool} (hq : q.Tidy) (hbounds : q.Bounds inside)
    (hlisted : ∀ d ∈ q.table.entries, enters d = true)
    (hinside : ∀ d, inside d → enters d = true → d ∈ q.table.entries) :
    (q.walkOrder enters).Perm (q.declarations.flatMap fun a => partsAll a.values) := by
  have hitems : (q.table.entries.map Waypoint.decl).flatMap Waypoint.items =
      q.table.entries.map Sum.inl := (flatMap_map ..).trans map_eq_flatMap.symm
  rw [walkOrder, orderFrom_eq_tour, hitems, hq.flatMap_declarations partsAll]
  refine tour_listed_perm inside (fun d hd v hv e he => ?_) (fun d hd => ?_) (fun d hd hin => ?_)
    (hq.allIds_nodup.filter enters) (Nodup.of_map _ hq.names)
  · exact hbounds.refer (closes_refersIn inside) hd ⟨v.root, root_mem_rootsAll hv, he⟩
  · exact ⟨mem_filter.mpr ⟨hq.known d hd, hlisted d hd⟩, hbounds.table d hd⟩
  · exact hinside d hin (mem_filter.mp hd).2

end Program

/-! ## 3. What becomes of an answer -/

/-- What an answer of the hook for values settles as: the value keeps everything but its
arguments, and only a block comes to have another number of them. -/
inductive Value.Settles : Value → Value → Prop
  | leaf (t : Tag) (l : Leaf) : Settles (.leaf t l) (.leaf t l)
  | call (t : Tag) (h : Head) {args args' : List Value}
      (hlength : h.isCallOf "begin" = false → args'.length = args.length) :
      Settles (.call t h args) (.call t h args')

theorem Value.Settles.root_eq {v w : Value} (h : v.Settles w) : w.root = v.root := by
  cases h <;> rfl

/-- The answers of the hook for values, put on record. -/
def Hooks.answers (h : Hooks σ) : Recorder σ Value where
  onElement _ _ _ _ := []
  onValue view v s := [(h.onValue view v s).1]

/-- Which declarations of a program the hooks open; all others they remove. -/
structure Hooks.Enters (h : Hooks σ) (p : Program) (enters : DeclId → Bool) : Prop where
  global : ∀ view g s, (h.onGlobal view g s).1.remove = !enters (.global g.id)
  script : ∀ q : Program, p.Alike q → ∀ a s, q.script? a.id = some a →
    (h.onScript a s).1 = !enters (.script a.id)

/-- Only among statements an element is replaced by none or by several. -/
def Hooks.Splices (h : Hooks σ) : Prop := ∀ view place v s,
  (h.onElement view place v s).1.values.length = 1 ∨ place.owner.takesStatements = true

/-! ## 4. What a walk has ahead -/

theorem Frame.map_fst_contents (focus : Option Value) (frames : List Frame) :
    (contents focus frames).map Prod.fst = frames.filterMap fun f => f.owner.decl? := by
  induction frames generalizing focus with
  | nil => rfl
  | cons f rest ih =>
    obtain ⟨owner, done, todo⟩ := f
    cases owner with
    | call => exact ih _
    | global id => exact congrArg (DeclId.global id :: ·) (ih none)
    | script id => exact congrArg (DeclId.script id :: ·) (ih none)

/-- What will become of a frame whose owner is the same and whose walked part is done with. -/
structure Frame.Becomes (f f' : Frame) : Prop where
  owner : f'.owner = f.owner
  done : f'.done = f.done
  length : f.owner.takesStatements = false → f'.todo.length = f.todo.length

/-- What a stack becomes has the same list on top, with other values to come. -/
theorem Frame.Becomes.top {owner : Owner} {done todo : List Value} {below frames : List Frame}
    (h : Forall₂ Becomes (⟨owner, done, todo⟩ :: below) frames) : ∃ todo' below',
    (owner.takesStatements = false → todo'.length = todo.length) ∧
      Forall₂ Becomes below below' ∧ frames = ⟨owner, done, todo'⟩ :: below' := by
  obtain ⟨⟨owner', done', todo'⟩, below', ⟨howner, hdone, hlength⟩, hbelow, rfl⟩ :=
    forall₂_cons_left_iff.mp h
  subst howner hdone
  exact ⟨todo', below', hlength, hbelow, rfl⟩

theorem Frame.Becomes.decls {frames frames' : List Frame}
    (h : Forall₂ Becomes frames frames') :
    (contents none frames').map Prod.fst = (contents none frames).map Prod.fst := by
  rw [map_fst_contents, map_fst_contents]
  induction h with
  | nil => rfl
  | cons hf _ ih => simp only [filterMap_cons, hf.owner, ih]

namespace Machine

variable {below : List Frame} {owner : Owner} {program : Program}

/-- The stack as it will be at the end of the walk, which leaves the program `q`: the declarations
on it are put together from it, and those that are done with are as they will be. -/
structure Foretold (p q : Program) (m : Machine σ) (frames : List Frame) : Prop where
  becomes : Forall₂ Frame.Becomes m.frames frames
  contents : ∀ c ∈ Frame.contents none frames, q.content c.1 = c.2
  closed : ∀ d ∈ p.allIds, d ∉ m.unseen → d ∉ (Frame.contents none frames).map Prod.fst →
    m.program.content d = q.content d

/-- The waypoints that a stack and the entries of the table stand for. -/
def agenda (frames : List Frame) (entries : List DeclId) : List Waypoint :=
  (pending frames).map .value ++ entries.map .decl

/-- The answers on the record `log` that are still to be given settle as what lies ahead; the
waypoints `next` come first. -/
def Ahead (p q : Program) (enters : DeclId → Bool) (log : List Value) (next : List Waypoint)
    (m : Machine (σ × List Value)) : Prop :=
  ∃ frames rest, m.Foretold p q frames ∧ log = m.state.2 ++ rest ∧
    Forall₂ Settles rest
      (q.orderFrom (m.unseen.filter enters) (next ++ agenda frames m.entries))

variable {p q : Program} {enters : DeclId → Bool} {log : List Value} {h : Hooks σ}
  {m m' : Machine (σ × List Value)} {d : DeclId} {trail : Trail}

theorem agenda_cons (f : Frame) (frames : List Frame) (entries : List DeclId) :
    agenda (f :: frames) entries = f.todo.map .value ++ agenda frames entries := by
  simp [agenda, pending]

/-- A declaration that has been entered before, or that is removed, adds nothing. -/
theorem Ahead.pass (hahead : m'.Ahead p q enters log []) (hd : d ∉ m.unseen.filter enters)
    (hunseen : m'.unseen.filter enters = m.unseen.filter enters)
    (hsub : m'.unseen ⊆ m.unseen) (hentries : m'.entries = m.entries)
    (hframes : m'.frames = m.frames) (hlog : m'.state.2 = m.state.2)
    (hcontent : ∀ d ∈ p.allIds, m'.program.content d = m.program.content d) :
    m.Ahead p q enters log [.decl d] := by
  obtain ⟨frames, rest, hfore, hrest, horder⟩ := hahead
  refine ⟨frames, rest, ⟨hframes ▸ hfore.becomes, hfore.contents, fun e he hseen hnot => ?_⟩,
    hlog ▸ hrest, ?_⟩
  · rw [← hcontent e he]
    exact hfore.closed e he (fun hmem => hseen (hsub hmem)) hnot
  · rw [singleton_append, Program.orderFrom_of_not_mem hd, ← hunseen, ← hentries]
    exact horder

/-- A declaration that is opened comes with its values. -/
theorem Ahead.opened {vs : List Value} (hahead : m'.Ahead p q enters log []) (hd : d ∈ m.unseen)
    (henters : enters d = true) (hunseen : m'.unseen = m.unseen.erase d)
    (hentries : m'.entries = m.entries) (hframes : m'.frames = ⟨d.owner, [], vs⟩ :: m.frames)
    (hlog : m'.state.2 = m.state.2)
    (hcontent : ∀ d ∈ p.allIds, m'.program.content d = m.program.content d) :
    m.Ahead p q enters log [.decl d] := by
  obtain ⟨frames', rest, ⟨hbecomes, hcontents, hclosed⟩, hrest, horder⟩ := hahead
  rw [hframes] at hbecomes
  obtain ⟨todo, frames, -, hbelow, rfl⟩ := Frame.Becomes.top hbecomes
  have htop : Frame.contents none (⟨d.owner, [], todo⟩ :: frames) =
      (d, todo) :: Frame.contents none frames := Frame.contents_decl _ _ _ _
  rw [htop] at hcontents hclosed
  obtain ⟨hvalues, hothers⟩ := forall_mem_cons.mp hcontents
  refine ⟨frames, rest, ⟨hbelow, hothers, fun e he hseen hnot => ?_⟩, hlog ▸ hrest, ?_⟩
  · rw [← hcontent e he]
    refine hclosed e he (fun hmem => hseen (mem_of_mem_erase (hunseen ▸ hmem))) ?_
    exact fun hmem => (mem_cons.mp hmem).elim (fun heq => hseen (heq ▸ hd)) hnot
  · have hmem : d ∈ m.unseen.filter enters := mem_filter.mpr ⟨hd, henters⟩
    rw [hunseen, hentries, ← erase_filter, nil_append, agenda_cons] at horder
    rw [singleton_append, Program.orderFrom_of_mem hmem, hvalues]
    exact horder

/-- **Going into a declaration**, backwards. -/
theorem enter_ahead (henters : h.Enters p enters) (hp : m.program.Tidy)
    (halike : p.Alike m.program) (hknown : ∀ d ∈ m.unseen, d ∈ p.allIds) (d : DeclId)
    (hahead : (m.enter (h.recorded h.answers) d).Ahead p q enters log []) :
    m.Ahead p q enters log [.decl d] := by
  by_cases hd : d ∈ m.unseen
  case neg =>
    rw [enter_of_not_mem hd] at hahead
    exact hahead.pass (fun hmem => hd (mem_of_mem_filter hmem)) rfl (Subset.refl _) rfl
      rfl rfl fun _ _ => rfl
  obtain ⟨a, ha, rfl⟩ := hp.exists_declaration (halike.allIds_eq ▸ hknown d hd)
  have hspec := allow_spec (h := h.recorded h.answers) hp ha (.during m.program m.frames) m.state
  have hcontent := fun e he => hspec.2.2 e (halike.allIds_eq ▸ he)
  have hremove : ((h.recorded h.answers).allow (.during m.program m.frames) m.program m.state a).1 =
      !enters a.id := by
    cases a with
    | global g => exact henters.global _ g m.state.1
    | script =>
      obtain ⟨a', ha', heq⟩ := Option.map_eq_some_iff.mp ha
      obtain rfl := Declaration.script.inj heq
      exact henters.script m.program halike a' m.state.1 ha'
  have hlog : ((h.recorded h.answers).allow (.during m.program m.frames) m.program m.state
      a).2.2.2 = m.state.2 := by
    cases a <;> rfl
  rw [enter_of_some hd ha] at hahead
  generalize (h.recorded h.answers).allow (.during m.program m.frames) m.program m.state a = r
    at hahead hcontent hremove hlog
  obtain ⟨remove, program', state'⟩ := r
  subst hremove
  cases hsort : enters a.id with
  | true =>
    rw [hsort] at hahead
    exact hahead.opened hd hsort rfl rfl rfl hlog hcontent
  | false =>
    rw [hsort] at hahead
    have hnot : a.id ∉ m.unseen.filter enters := fun hmem => by
      simpa [hsort] using (mem_filter.mp hmem).2
    have hfilter : (m.unseen.erase a.id).filter enters = m.unseen.filter enters := by
      rw [← erase_filter, erase_of_not_mem hnot]
    exact hahead.pass hnot hfilter erase_subset rfl rfl hlog hcontent

/-! ## 5. Steps and runs -/

/-- What will become of the stack after the answer tells what will become of the stack before it,
and what the answer settles as. -/
theorem exists_settled {done rest : List Value} {below frames' : List Frame} (v v' : Value)
    (hbecomes : Forall₂ Frame.Becomes (answered owner done rest below v') frames') :
    ∃ w todo below', v'.Settles w ∧
      Forall₂ Frame.Becomes (⟨owner, done, v :: rest⟩ :: below)
        (⟨owner, done, w :: todo⟩ :: below') ∧
      Frame.contents none (⟨owner, done, w :: todo⟩ :: below') = Frame.contents none frames' ∧
      pending frames' = w.args ++ pending (⟨owner, done, todo⟩ :: below') := by
  cases v' with
  | leaf t l =>
    obtain ⟨todo, below', hlength, hbelow, rfl⟩ := Frame.Becomes.top hbecomes
    refine ⟨.leaf t l, todo, below', .leaf t l, .cons ⟨rfl, rfl, fun hno => ?_⟩ hbelow, ?_, rfl⟩
    · simp only [length_cons, hlength hno]
    · exact Frame.contents_congr below' (by simp)
  | call t head =>
    obtain ⟨args', frames, hargs, houter, rfl⟩ := Frame.Becomes.top hbecomes
    obtain ⟨todo, below', hlength, hbelow, rfl⟩ := Frame.Becomes.top houter
    refine ⟨.call t head args', todo, below', .call t head hargs,
      .cons ⟨rfl, rfl, fun hno => ?_⟩ hbelow, ?_, rfl⟩
    · simp only [length_cons, hlength hno]
    · exact Frame.contents_congr below' (by simp [Frame.items])

/-- An answer is the next one on the record. -/
theorem Ahead.visited {unseen entries : List DeclId} {done rest : List Value} {removals : List Text}
    {s : σ} {answers : List Value} (v v' : Value) (s' : σ)
    (hahead : Ahead p q enters log (v'.root.refers?.toList.map .decl)
      ⟨program, unseen, entries, answered owner done rest below v',
      removals, (s', answers ++ [v'])⟩) :
    Ahead p q enters log []
      ⟨program, unseen, entries, ⟨owner, done, v :: rest⟩ :: below, removals, (s, answers)⟩ := by
  obtain ⟨frames', more, ⟨hbecomes, hcontents, hclosed⟩, hlog, horder⟩ := hahead
  obtain ⟨w, todo, below', hsettles, hframes, hsame, hpending⟩ := exists_settled v v' hbecomes
  refine ⟨_, v' :: more, ⟨hframes, hsame ▸ hcontents, hsame ▸ hclosed⟩, by simp [hlog], ?_⟩
  have hagenda : w.next ++ agenda (⟨owner, done, todo⟩ :: below') entries =
      v'.root.refers?.toList.map .decl ++ agenda frames' entries := by
    simp [Value.next, agenda, hpending, hsettles.root_eq]
  rw [nil_append, agenda_cons, map_cons, cons_append, Program.orderFrom_value]
  refine .cons hsettles ?_
  rw [← agenda_cons ⟨owner, done, todo⟩, hagenda]
  exact horder

/-- **Visiting a value**, backwards. -/
theorem visit_ahead (henters : h.Enters p enters) (hp : m.program.Tidy) (halike : p.Alike m.program)
    (hknown : ∀ d ∈ m.unseen, d ∈ p.allIds) {done : List Value} {v : Value} {rest : List Value}
    (hahead : Ahead p q enters log []
      (m.visit (h.recorded h.answers) true owner done v rest below)) :
    Ahead p q enters log [] { m with frames := ⟨owner, done, v :: rest⟩ :: below } := by
  obtain ⟨program, unseen, entries, frames, removals, state⟩ := m
  rw [visit_eq] at hahead
  dsimp only [Hooks.recorded, Hooks.answers] at hp halike hknown hahead
  generalize h.onValue (.during program (⟨owner, done, v :: rest⟩ :: below)) v state.1 = answer
    at hahead
  obtain ⟨v', state'⟩ := answer
  have hlead : v'.lead? true = v'.root.refers? := by cases v' <;> rfl
  have htold : (h.recorded h.answers).told v' (state', state.2 ++ [v']) =
      (h.told v' state', state.2 ++ [v']) := by
    cases v' <;> rfl
  refine Ahead.visited v v' (h.told v' state') ?_
  rw [← htold, ← hlead]
  cases hrefers : v'.lead? true with
  | none =>
    rw [hrefers] at hahead
    exact hahead
  | some e =>
    rw [hrefers] at hahead
    exact enter_ahead henters hp halike hknown e hahead

/-- Another list of values still to come will become the same, if it has as many members or the
number does not matter. -/
theorem Ahead.retodo {unseen entries : List DeclId} {done todo todo' : List Value}
    {removals : List Text} {s s' : σ} {answers : List Value}
    (hlength : owner.takesStatements = false → todo'.length = todo.length)
    (hahead : Ahead p q enters log []
      ⟨program, unseen, entries, ⟨owner, done, todo'⟩ :: below, removals, (s', answers)⟩) :
    Ahead p q enters log []
      ⟨program, unseen, entries, ⟨owner, done, todo⟩ :: below, removals, (s, answers)⟩ := by
  obtain ⟨frames, rest, ⟨hbecomes, hcontents, hclosed⟩, hlog, horder⟩ := hahead
  obtain ⟨f, below', ⟨howner, hdone, hf⟩, hbelow, rfl⟩ := forall₂_cons_left_iff.mp hbecomes
  exact ⟨f :: below', rest, ⟨.cons ⟨howner, hdone, fun hno => (hf hno).trans (hlength hno)⟩ hbelow,
    hcontents, hclosed⟩, hlog, horder⟩

/-- **Offering an element**, backwards. -/
theorem offer_ahead (henters : h.Enters p enters) (hsplices : h.Splices) (hp : m.program.Tidy)
    (halike : p.Alike m.program) (hknown : ∀ d ∈ m.unseen, d ∈ p.allIds) {done : List Value}
    {v : Value} {rest : List Value} (hframes : m.frames = ⟨owner, done, v :: rest⟩ :: below)
    (hahead : Ahead p q enters log []
      (m.offer (h.recorded h.answers) true owner done v rest below)) :
    m.Ahead p q enters log [] := by
  obtain ⟨program, unseen, entries, frames, removals, state⟩ := m
  subst hframes
  have hlength := hsplices (.during program (⟨owner, done, v :: rest⟩ :: below))
    ⟨owner, !done.isEmpty, !rest.isEmpty⟩ v state.1
  have hanswer : ∀ view place, (h.recorded h.answers).onElement view place v state =
      ((h.onElement view place v state.1).1, (h.onElement view place v state.1).2, state.2) :=
    fun view place => by simp [Hooks.recorded, Hooks.answers]
  unfold offer at hahead
  dsimp only at hp halike hknown hahead
  rw [hanswer] at hahead
  generalize h.onElement (.during program (⟨owner, done, v :: rest⟩ :: below))
    ⟨owner, !done.isEmpty, !rest.isEmpty⟩ v state.1 = answer at hahead hlength
  obtain ⟨offer, state'⟩ := answer
  have hone : owner.takesStatements = false → offer.values.length = 1 := fun hno =>
    hlength.resolve_right (by simp [hno])
  cases offer with
  | drop =>
    refine hahead.retodo fun hno => ?_
    have := hone hno
    simp only [Offer.values] at this
    simp only [length_append, length_cons]
    omega
  | keep =>
    have hvisit := visit_ahead henters hp halike hknown hahead
    refine hvisit.retodo fun hno => ?_
    have := hone hno
    simp only [Offer.values, length_cons] at this
    simp only [length_append, length_cons]
    omega

theorem Stands.content_now {m : Machine σ} (hm : m.Stands p trail) (hp : p.Tidy)
    {c : DeclId × List Value} (hc : c ∈ Frame.contents none m.frames) :
    m.now.content c.1 = c.2 := by
  have hmem := hm.fillable_program.known _ (mem_map_of_mem (f := Prod.fst) hc)
  obtain ⟨a, ha, hid⟩ := (hm.tidy hp).exists_declaration hmem
  rw [now, Program.content_eq (hm.fillable_program.declaration?_fill_of_mem (hm.tidy hp) hc ha)]
  exact Declaration.values_withValues (hid ▸ hm.fillable.suits c hc)

theorem Stands.content_now_of_not_mem {m : Machine σ} (hm : m.Stands p trail) (hp : p.Tidy)
    (hd : d ∈ p.allIds) (hnot : d ∉ (Frame.contents none m.frames).map Prod.fst) :
    m.now.content d = m.program.content d := by
  rw [Program.content, hm.declaration?_now hp hd hnot, Program.content]

/-- **Ending an argument list**, backwards.  The call becomes a value of the list below. -/
theorem close_call_ahead {t : Tag} {head : Head} {done : List Value} {f : Frame}
    (hframes : m.frames = ⟨.call t head, done, []⟩ :: f :: below)
    (hahead : (m.close ⟨.call t head, done, []⟩ (f :: below)).Ahead p q enters log []) :
    m.Ahead p q enters log [] := by
  obtain ⟨program, unseen, entries, frames, removals, state⟩ := m
  subst hframes
  obtain ⟨frames, rest, ⟨hbecomes, hcontents, hclosed⟩, hlog, horder⟩ := hahead
  obtain ⟨todo, below', hlength, hbelow, rfl⟩ := Frame.Becomes.top hbecomes
  have hsame : Frame.contents none
      (⟨.call t head, done, []⟩ :: ⟨f.owner, f.done, todo⟩ :: below') =
      Frame.contents none
        (⟨f.owner, .call t head done.reverse :: f.done, todo⟩ :: below') :=
    (Frame.contents_congr below' (by simp [Frame.items]) :
      Frame.contents (some (.call t head _)) (⟨f.owner, f.done, todo⟩ :: below') = _)
  refine ⟨⟨.call t head, done, []⟩ :: ⟨f.owner, f.done, todo⟩ :: below', rest, ⟨?_, ?_, ?_⟩,
    hlog, ?_⟩
  · exact .cons ⟨rfl, rfl, fun _ => rfl⟩ (.cons ⟨rfl, rfl, hlength⟩ hbelow)
  · rw [hsame]
    exact hcontents
  · rw [hsame]
    exact hclosed
  · rw [agenda_cons, agenda_cons]
    rw [agenda_cons] at horder
    exact horder

/-- **Ending a list**, backwards. -/
theorem close_ahead (hp : p.Tidy) {f : Frame} (hm : m.Stands p trail)
    (hframes : m.frames = f :: below) (htodo : f.todo = [])
    (hahead : (m.close f below).Ahead p q enters log []) : m.Ahead p q enters log [] := by
  obtain ⟨hstanding, hclose⟩ := close_stands hp hm hframes htodo
  have hnow : (m.close f below).now = m.now := congrArg Standing.now hstanding
  have hunseen : (m.close f below).unseen = m.unseen := congrArg Standing.unseen hstanding
  have hstate : (m.close f below).state = m.state := congrArg Standing.state hstanding
  have hentries : (m.close f below).entries = m.entries := (m.close_keeps f below).2
  obtain ⟨owner, done, todo⟩ := f
  subst htodo
  obtain ⟨d, rfl⟩ | ⟨t, head, rfl⟩ := owner.decl_or_call
  · -- a declaration that leaves the stack has its values for good
    have hbelow : (m.close ⟨d.owner, done, []⟩ below).frames = below := by
      obtain ⟨program, unseen, entries, frames, removals, state⟩ := m
      cases d <;> rfl
    have htop : ∀ frames, Frame.contents none (⟨d.owner, done, []⟩ :: frames) =
        (d, done.reverse) :: Frame.contents none frames := fun frames => by
      rw [Frame.contents_decl, append_nil]
    obtain ⟨frames, rest, ⟨hbecomes, hcontents, hclosed⟩, hlog, horder⟩ := hahead
    rw [hbelow] at hbecomes
    rw [hunseen] at hclosed
    have hmem : (d, done.reverse) ∈ Frame.contents none m.frames := by
      rw [hframes, htop]
      exact mem_cons_self
    have hopened := hm.opened_known d (hm.open' _ hmem)
    have hfresh : d ∉ (Frame.contents none below).map Prod.fst := by
      have hnodup := hm.fillable.nodup
      rw [hframes, htop, map_cons] at hnodup
      exact (nodup_cons.mp hnodup).1
    have hsettled : ∀ e ∈ p.allIds, e ∉ (Frame.contents none below).map Prod.fst →
        (m.close ⟨d.owner, done, []⟩ below).program.content e = m.now.content e := by
      intro e he hnot
      rw [← hnow, hclose.content_now_of_not_mem hp he (hbelow.symm ▸ hnot)]
    refine ⟨⟨d.owner, done, []⟩ :: frames, rest, ⟨?_, ?_, fun e he hseen hnot => ?_⟩,
      hstate ▸ hlog, ?_⟩
    · rw [hframes]
      exact .cons ⟨rfl, rfl, fun _ => rfl⟩ hbecomes
    · rw [htop]
      refine forall_mem_cons.mpr ⟨?_, hcontents⟩
      rw [← hclosed d hopened.1 hopened.2 (Frame.Becomes.decls hbecomes ▸ hfresh),
        hsettled d hopened.1 hfresh]
      exact hm.content_now hp hmem
    · rw [htop, map_cons, mem_cons, not_or] at hnot
      have hout : e ∉ (Frame.contents none below).map Prod.fst :=
        Frame.Becomes.decls hbecomes ▸ hnot.2
      rw [← hclosed e he hseen hnot.2, hsettled e he hout, hm.content_now_of_not_mem hp he]
      rw [hframes, htop, map_cons, mem_cons, not_or]
      exact ⟨hnot.1, hout⟩
    · rw [agenda_cons, map_nil, nil_append, ← hunseen, ← hentries]
      exact horder
  · cases below with
    | nil =>
      have hrooted := hm.rooted
      rw [hframes] at hrooted
      exact absurd rfl (hrooted.1 rfl)
    | cons => exact close_call_ahead hframes hahead

/-- **A step**, backwards. -/
theorem step_ahead (hp : p.Tidy) (henters : h.Enters p enters) (hsplices : h.Splices)
    (hm : m.Stands p trail)
    (hahead : (m.step (h.recorded h.answers) true).Ahead p q enters log []) :
    m.Ahead p q enters log [] := by
  unfold step at hahead
  split at hahead
  · next hframes =>
    split at hahead
    · exact hahead
    · next d rest hentries =>
      have henter := enter_ahead (m := { m with entries := rest }) henters (hm.tidy hp) hm.alike
        hm.known d hahead
      obtain ⟨frames, answers, ⟨hbecomes, hcontents, hclosed⟩, hlog, horder⟩ := henter
      rw [hframes, forall₂_nil_left_iff] at hbecomes
      subst hbecomes
      refine ⟨[], answers, ⟨by rw [hframes]; exact .nil, hcontents, hclosed⟩, hlog, ?_⟩
      rw [hentries]
      exact horder
  · next owner done below hframes => exact close_ahead hp hm hframes rfl hahead
  · next owner done v rest below hframes =>
    split at hahead
    · next id =>
      have hvisit := visit_ahead henters (hm.tidy hp) hm.alike hm.known hahead
      rw [← hframes] at hvisit
      exact hvisit
    · exact offer_ahead henters hsplices (hm.tidy hp) hm.alike hm.known hframes hahead

/-- **A run answers what lies ahead**, in this order. -/
theorem run_ahead (hp : p.Tidy) (henters : h.Enters p enters) (hsplices : h.Splices)
    (m : Machine (σ × List Value)) (trail : Trail) (hm : m.Stands p trail) :
    m.Ahead p (m.run (h.recorded h.answers) true).program enters
      (m.run (h.recorded h.answers) true).state.2 [] := by
  fun_induction run (h.recorded h.answers) true m generalizing trail with
  | case1 m hover =>
    simp only [isOver, Bool.and_eq_true, List.isEmpty_iff] at hover
    refine ⟨[], [], ⟨by rw [hover.1]; exact .nil, by simp [Frame.contents], fun _ _ _ _ => rfl⟩,
      by simp, ?_⟩
    simp [hover.2, agenda, pending]
  | case2 m hover ih =>
    obtain ⟨trail', -, hstands⟩ := step_moves (h := h.recorded h.answers) hp hm
    exact step_ahead hp henters hsplices hm (ih trail' hstands)

end Machine

/-- **The answers of a walk settle as the values of the walk order** of the program that it
leaves. -/
theorem Program.walk_settles {p : Program} (hp : p.Tidy) {h : Hooks σ} {enters : DeclId → Bool}
    (henters : h.Enters p enters) (hsplices : h.Splices) (s : σ) :
    Forall₂ Settles (p.walk (h.recorded h.answers) true (s, [])).2.2
      ((p.walk (h.recorded h.answers) true (s, [])).1.orderFrom (p.allIds.filter enters)
        (p.table.entries.map .decl)) := by
  obtain ⟨frames, rest, ⟨hbecomes, -, -⟩, hlog, horder⟩ := Machine.run_ahead hp henters hsplices
    (Machine.start p (s, [])) _ (Machine.stands_start hp _)
  obtain rfl := forall₂_nil_left_iff.mp hbecomes
  rw [walk]
  rw [hlog]
  refine cast ?_ horder
  congr 1
  refine orderFrom_congr (fun d => ?_) _ _
  obtain ⟨hglobals, hscripts, -⟩ := foldl_remove
    ((Machine.start p (s, ([] : List Value))).run (h.recorded h.answers) true).removals.reverse
    ((Machine.start p (s, [])).run (h.recorded h.answers) true).program
  cases d <;> simp only [content, declaration?, global?, script?, hglobals, hscripts]

end HaloScript
