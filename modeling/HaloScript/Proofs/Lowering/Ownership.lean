/-
# Every node has one owner

A declaration of the table owns its values, a value owns the call in it, and a call owns its
arguments; a reference owns nothing.  A node is the same node as another if the two have one number:
under its number a result is remembered and a call is set aside.  A copy that kept the numbers of
its original would put one node into two places, and whatever is found out about the one would be
taken for the other.

This does not happen.  Whatever steps are run on a loaded program, in whatever order, with whatever
budget and memory, and whether they fail or not, different paths from the table lead to different
nodes, and no node lies below itself; that holds at every moment of every step, too
(`Program.load_owned_once`).  It is enough that numbers stay distinct, in all of a program
(`Program.Tidy.ownedOnce`).  For the same reason no step goes into a node twice, so a walk has no
need of a record of where it has been (`Program.load_visits_nodup`).
-/
import HaloScript.Proofs.Lowering.Numbers
import HaloScript.Proofs.Walk.Enclosed
import HaloScript.Proofs.Walk.Record

namespace HaloScript

open List Option

/-! ## 1. Paths -/

namespace Node

/-- What a node owns: a value the call in it, a call its arguments. -/
def owned : Node → List Node
  | .global _ | .value (.leaf _ _) => []
  | .value (.call _ h args) => [.call h args]
  | .call _ args => args.map .value

/-- The node at the end of a path, which says at each node which of those it owns comes next. -/
def at? : Node → List Nat → Option Node
  | K, [] => some K
  | K, i :: path => K.owned[i]?.bind fun A => A.at? path

/-- The node and all that it owns, directly or not. -/
def parts : Node → List Node
  | .global id => [.global id]
  | .value v => v.nodes
  | .call h args => .call h args :: Value.nodesAll args

def numbers (K : Node) : List NodeId := K.parts.map number

end Node

theorem Value.nodesAll_eq_flatMap (vs : List Value) :
    nodesAll vs = (vs.map Node.value).flatMap Node.parts := by
  induction vs with
  | nil => rfl
  | cons v rest ih =>
    rw [nodesAll, ih]
    rfl

namespace Node

variable {path : List Nat} {K A : Node}

theorem parts_eq (K : Node) : K.parts = K :: K.owned.flatMap parts := by
  cases K with
  | global => rfl
  | call => rw [parts, Value.nodesAll_eq_flatMap, owned]
  | value v =>
    cases v with
    | leaf => simp [parts, owned, Value.nodes]
    | call => simp [parts, owned, Value.nodes]

theorem numbers_eq (K : Node) : K.numbers = K.number :: K.owned.flatMap numbers := by
  rw [numbers, parts_eq, map_cons, map_flatMap]
  rfl

theorem mem_numbers_of_at? (h : K.at? path = some A) : A.number ∈ K.numbers := by
  induction path generalizing K with
  | nil =>
    obtain rfl := some.inj h
    rw [numbers_eq]
    exact mem_cons_self
  | cons i path ih =>
    obtain ⟨B, hB, hA⟩ := bind_eq_some_iff.mp h
    rw [numbers_eq]
    exact mem_cons_of_mem _
      (mem_flatMap.mpr ⟨B, mem_of_getElem? hB, ih hA⟩)

/-- A path that goes on leads to something below. -/
theorem mem_owned_of_at? {i : Nat} (h : K.at? (i :: path) = some A) :
    A.number ∈ K.owned.flatMap numbers := by
  obtain ⟨B, hB, hA⟩ := bind_eq_some_iff.mp h
  exact mem_flatMap.mpr ⟨B, mem_of_getElem? hB, mem_numbers_of_at? hA⟩

/-- A path goes on from the node that a shorter one leads to. -/
theorem at?_append (h : K.at? path = some A) (rest : List Nat) :
    K.at? (path ++ rest) = A.at? rest := by
  induction path generalizing K with
  | nil =>
    obtain rfl := some.inj h
    rfl
  | cons i path ih =>
    obtain ⟨B, hB, hA⟩ := bind_eq_some_iff.mp h
    rw [cons_append, Node.at?, hB, bind_some, ih hA]

end Node

/-- **Different paths lead to different numbers**, where numbers are distinct. -/
theorem Node.path_eq {K A A' : Node} {path path' : List Nat} (hnodup : K.numbers.Nodup)
    (h : K.at? path = some A) (h' : K.at? path' = some A') (hsame : A.number = A'.number) :
    path = path' := by
  induction path generalizing K path' with
  | nil =>
    cases path' with
    | nil => rfl
    | cons =>
      obtain rfl := some.inj h
      rw [numbers_eq] at hnodup
      exact absurd (hsame ▸ mem_owned_of_at? h') (nodup_cons.mp hnodup).1
  | cons i path ih =>
    have hbelow := (nodup_cons.mp (K.numbers_eq ▸ hnodup)).2
    cases path' with
    | nil =>
      obtain rfl := some.inj h'
      rw [numbers_eq] at hnodup
      exact absurd (hsame ▸ mem_owned_of_at? h) (nodup_cons.mp hnodup).1
    | cons j =>
      obtain ⟨B, hB, hA⟩ := bind_eq_some_iff.mp h
      obtain ⟨B', hB', hA'⟩ := bind_eq_some_iff.mp h'
      obtain rfl : i = j := index_eq_of_nodup_flatMap hbelow hB hB' (mem_numbers_of_at? hA)
        (hsame ▸ mem_numbers_of_at? hA')
      obtain rfl : B = B' := some.inj (hB.symm.trans hB')
      have hinner := (nodup_flatMap.mp hbelow).1 B (mem_of_getElem? hB)
      rw [ih hinner hA hA']

/-! ## 2. Programs -/

namespace Program

/-- The node at the end of a path from the table.  The path begins with the place of a declaration
in the table and the place of a value in this declaration. -/
def ownedAt? (p : Program) : List Nat → Option Node
  | i :: j :: path =>
    p.declarations[i]?.bind fun d => d.values[j]?.bind fun v => (Node.value v).at? path
  | _ => none

/-- Ownership is a forest. -/
structure OwnedOnce (p : Program) : Prop where
  /-- No node is owned along two paths. -/
  path : ∀ {path path' : List Nat} {A A' : Node}, p.ownedAt? path = some A →
    p.ownedAt? path' = some A' → A.number = A'.number → path = path'
  /-- No node owns itself. -/
  self : ∀ {path : List Nat} {A : Node}, p.ownedAt? path = some A →
    ∀ (i : Nat) (rest : List Nat) (B : Node), A.at? (i :: rest) = some B → B.number ≠ A.number

variable {p : Program}

theorem ownedAt?_eq_some {path : List Nat} {A : Node} (h : p.ownedAt? path = some A) :
    ∃ i j rest d v, path = i :: j :: rest ∧ p.declarations[i]? = some d ∧
      d.values[j]? = some v ∧ (Node.value v).at? rest = some A := by
  match path with
  | [] | [_] => exact absurd h (by simp [ownedAt?])
  | i :: j :: rest =>
    obtain ⟨d, hd, h⟩ := bind_eq_some_iff.mp h
    obtain ⟨v, hv, h⟩ := bind_eq_some_iff.mp h
    exact ⟨i, j, rest, d, v, rfl, hd, hv, h⟩

theorem numbers_eq_flatMap (vs : List Value) :
    Value.numbers vs = vs.flatMap fun v => (Node.value v).numbers := by
  rw [Value.numbers, Value.nodesAll_eq_flatMap, map_flatMap, flatMap_map]
  rfl

/-- Numbers that are distinct in the program are distinct in the declarations of the table. -/
theorem Tidy.nodup_declarations (hp : p.Tidy) (hnodup : p.numbers.Nodup) :
    (p.declarations.flatMap fun d => Value.numbers d.values).Nodup := by
  have hknown : ∀ d ∈ p.declarations, d.id ∈ p.allIds ∧ p.content d.id = d.values := by
    intro d hd
    obtain ⟨hall, hlisted⟩ := hp.mem_declarations.mp hd
    exact ⟨hp.known _ hlisted, content_eq (hp.declaration?_id hall)⟩
  have hids : (p.declarations.map Declaration.id).Nodup := by
    rw [hp.map_id_declarations]
    exact Nodup.of_map _ hp.names
  refine nodup_flatMap.mpr ⟨fun d hd => ?_, ?_⟩
  · obtain ⟨hd, hcontent⟩ := hknown d hd
    exact hcontent ▸ numbers_content hnodup hd
  · refine (pairwise_map.mp hids).imp_of_mem fun {a b} ha hb hne => ?_
    obtain ⟨ha, hcontent⟩ := hknown a ha
    obtain ⟨hb, hcontent'⟩ := hknown b hb
    intro i hi hi'
    exact numbers_disjoint hnodup ha hb hne i (hcontent ▸ hi) (hcontent' ▸ hi')

/-- **Where numbers are distinct, ownership is a forest.** -/
theorem Tidy.ownedOnce (hp : p.Tidy) (hnodup : p.numbers.Nodup) : p.OwnedOnce := by
  have hnodup := hp.nodup_declarations hnodup
  have hvalues : ∀ d ∈ p.declarations, (d.values.flatMap fun v => (Node.value v).numbers).Nodup :=
    fun d hd => numbers_eq_flatMap d.values ▸ (nodup_flatMap.mp hnodup).1 d hd
  have hpath : ∀ {path path' : List Nat} {A A' : Node}, p.ownedAt? path = some A →
      p.ownedAt? path' = some A' → A.number = A'.number → path = path' := by
    intro path path' A A' h h' hsame
    obtain ⟨i, j, rest, d, v, rfl, hd, hv, hA⟩ := ownedAt?_eq_some h
    obtain ⟨i', j', rest', d', v', rfl, hd', hv', hA'⟩ := ownedAt?_eq_some h'
    have hmem : A.number ∈ (Node.value v).numbers := Node.mem_numbers_of_at? hA
    have hmem' : A.number ∈ (Node.value v').numbers := hsame ▸ Node.mem_numbers_of_at? hA'
    -- the first two positions are those of the list of lists that the number is in
    have hin : ∀ (d : Declaration) (v : Value) (j : Nat), d.values[j]? = some v →
        A.number ∈ (Node.value v).numbers → A.number ∈ Value.numbers d.values :=
      fun d v j hv hmem => numbers_eq_flatMap d.values ▸
        mem_flatMap.mpr ⟨v, mem_of_getElem? hv, hmem⟩
    obtain rfl := index_eq_of_nodup_flatMap hnodup hd hd' (hin d v j hv hmem)
      (hin d' v' j' hv' hmem')
    obtain rfl : d = d' := some.inj (hd.symm.trans hd')
    have hlist := hvalues d (mem_of_getElem? hd)
    obtain rfl := index_eq_of_nodup_flatMap hlist hv hv' hmem hmem'
    obtain rfl : v = v' := some.inj (hv.symm.trans hv')
    rw [Node.path_eq ((nodup_flatMap.mp hlist).1 v (mem_of_getElem? hv)) hA hA' hsame]
  refine ⟨hpath, fun {path A} h i rest B hB hsame => ?_⟩
  have hlonger : p.ownedAt? (path ++ i :: rest) = some B := by
    obtain ⟨k, j, inner, d, v, rfl, hd, hv, hA⟩ := ownedAt?_eq_some h
    simp only [cons_append, ownedAt?, hd, hv, bind_some, Node.at?_append hA, hB]
  exact absurd (hpath h hlonger hsame.symm) (by simp)

end Program

/-! ## 3. Steps -/

/-- A step on a program after some steps of its walk. -/
def Pass.moment (pass : Pass) (p : Program) (e : Env) (k : Nat) : Machine Env :=
  p.moment pass.hooks { e with nextNode := p.nextNode, marks := {} } k

/-- **At every moment of a step ownership is a forest**, whatever the step has to start from. -/
theorem Pass.moment_ownedOnce (pass : Pass) {p : Program} (hp : p.Tidy) (hn : p.Numbered) (e : Env)
    (k : Nat) : (pass.moment p e k).now.OwnedOnce := by
  obtain ⟨trail, hs, -, hrenews⟩ := Program.moment_keeps (h := pass.hooks) hp
    { e with nextNode := p.nextNode, marks := {} }
    (Q := fun s => Renews p.nextNode s.state.nextNode p.numbers s.now.numbers) (.refl _ _)
    (fun s s' hs hq hmove => hq.trans (hs.renews_move hp pass.hooks_renew hmove)) k
  obtain ⟨hnodup, hbelow⟩ := hn.numbers hp
  exact (hs.tidy hp).ownedOnce (hrenews.nodup hnodup hbelow)

namespace Program

/-- The program after some steps, each with what it has to start from: the report, the budget and
what is remembered, which steps may share or not. -/
def runAll (p : Program) (steps : List (Pass × Env)) : Program :=
  steps.foldl (fun p step => (step.1.run p step.2).1) p

variable {p : Program}

theorem runAll_tidy_numbered (hp : p.Tidy) (hn : p.Numbered) (steps : List (Pass × Env)) :
    (p.runAll steps).Tidy ∧ (p.runAll steps).Numbered := by
  induction steps generalizing p with
  | nil => exact ⟨hp, hn⟩
  | cons step rest ih =>
    exact ih (step.1.run_tidy_from hp step.2) (step.1.run_numbered_from hp hn step.2)

/-- **No node is ever owned along two paths, and none owns itself.**  This is so after any steps in
any order, whatever they report, and at every moment of the step that follows. -/
theorem load_owned_once (report : Report) (lib : Library) (entry : Entry)
    (steps : List (Pass × Env)) :
    ((({} : Program).load report lib entry).program.runAll steps).OwnedOnce ∧
      ∀ (pass : Pass) (e : Env) (k : Nat), (pass.moment
        ((({} : Program).load report lib entry).program.runAll steps) e k).now.OwnedOnce := by
  obtain ⟨hp, hn⟩ := runAll_tidy_numbered (load_tidy tidy_empty report lib entry)
    (loaded_numbered report lib entry) steps
  exact ⟨hp.ownedOnce (hn.numbers hp).1, fun pass e k => pass.moment_ownedOnce hp hn e k⟩

end Program

/-! ## 4. Visits -/

/-- The numbers of a value and of the call in it. -/
def Root.numbers : Root → List NodeId
  | .leaf t _ => [t.id]
  | .call t h => [t.id, h.id]

mutual

theorem Value.flatMap_roots (v : Value) : v.roots.flatMap Root.numbers = Value.numbers [v] := by
  match v with
  | .leaf t l => rfl
  | .call t h args =>
    rw [roots, flatMap_cons, flatMap_rootsAll args, numbers_call, numbers_nil, append_nil]
    rfl

theorem Value.flatMap_rootsAll (vs : List Value) :
    (rootsAll vs).flatMap Root.numbers = Value.numbers vs := by
  match vs with
  | [] => rfl
  | v :: rest =>
    rw [rootsAll, flatMap_append, flatMap_roots v, flatMap_rootsAll rest, ← numbers_cons]

end

/-- The numbers under which a visit goes into nodes, put on record: that of the value before the
hook is asked, and then that of the call which the hook leaves in it. -/
def Hooks.visits {σ : Type} (h : Hooks σ) : Recorder σ NodeId where
  onElement _ _ _ _ := []
  onValue view v s := v.id :: (h.onValue view v s).1.root.numbers.tail

/-- A hook leaves a value in its place, whatever it puts into it. -/
theorem Pass.onValue_id (pass : Pass) (view : View) (v : Value) (e : Env) :
    (pass.hooks.onValue view v e).1.id = v.id := by
  cases pass with
  | macros =>
    show (Macros.expandValue view v e).1.id = v.id
    fun_induction Macros.expandValue view v e with
    | case1 | case2 | case4 => rfl
    | case3 e t h args w e' hx ih => rw [ih]; cases w <;> rfl
  | loops =>
    show (Loops.unrollValue view v e).1.id = v.id
    unfold Loops.unrollValue
    split
    · rfl
    · split <;> rfl
  | constGlobals =>
    show (ConstGlobals.inline view v e).1.id = v.id
    unfold ConstGlobals.inline
    split
    · split
      · split <;> rfl
      · rfl
    · rfl
  | folding => exact congrArg Tag.id (Folding.foldValue_tag view v e)

/-- The numbers of what has been visited are distinct, where those of the program are: it is part of
the declarations that have been opened, and each of them was opened once. -/
theorem Standing.Covered.nodup_visited {σ : Type} {p : Program} {s : Standing σ}
    (hc : s.Covered p) (hs : s.Orderly p) (hnodup : s.now.numbers.Nodup) :
    (s.visited.flatMap Root.numbers).Nodup := by
  have hknown : ∀ d ∈ s.opened, d ∈ s.now.allIds := fun d hd => hs.known_now (hs.opened_known d hd)
  have hopened : (s.openedRoots.flatMap Root.numbers).Nodup := by
    rw [openedRoots, flatMap_assoc]
    simp only [Value.flatMap_rootsAll]
    refine nodup_flatMap.mpr ⟨fun d hd => Program.numbers_content hnodup (hknown d hd), ?_⟩
    refine hs.opened.imp_of_mem fun {d d'} hd hd' hne => ?_
    exact Program.numbers_disjoint hnodup (hknown d hd) (hknown d' hd') hne
  have hall := (hc.roots.flatMap_right Root.numbers).nodup_iff.mp hopened
  rw [flatMap_append] at hall
  exact (nodup_append.mp hall).2.1

/-- Every move keeps the record of visits in step with what has been visited. -/
theorem Pass.visits_move (pass : Pass) {s s' : Standing (Env × List NodeId)}
    (hlog : s.state.2.Perm (s.visited.flatMap Root.numbers))
    (hmove : Move (pass.hooks.recorded pass.hooks.visits) s s') :
    s'.state.2.Perm (s'.visited.flatMap Root.numbers) := by
  cases hmove with
  | global | script | call | skip => exact hlog
  | element =>
    show (s.state.2 ++ []).Perm _
    rwa [append_nil]
  | value view d spot =>
    have hroot :
        spot.focus.id :: (pass.hooks.onValue view spot.focus s.state.1).1.root.numbers.tail =
        (pass.hooks.onValue view spot.focus s.state.1).1.root.numbers := by
      rw [← pass.onValue_id view spot.focus s.state.1]
      cases (pass.hooks.onValue view spot.focus s.state.1).1 <;> rfl
    show (s.state.2 ++ spot.focus.id :: _).Perm (Root.numbers _ ++ _)
    rw [hroot]
    exact (hlog.append_right _).trans perm_append_comm

/-- **A step goes into no node twice.**  So a walk that looked up whether it had been at a node
would never find that it had.  Numbers have to be distinct when the step starts: two nodes with one
number would be taken for one. -/
theorem Pass.visits_nodup (pass : Pass) {p : Program} (hp : p.Tidy) (hn : p.Numbered) (e : Env)
    (k : Nat) : (p.moment (pass.hooks.recorded pass.hooks.visits)
      ({ e with nextNode := p.nextNode, marks := {} }, []) k).state.2.Nodup := by
  obtain ⟨trail, hs, -, hc, hlog, hrenews⟩ :=
    Program.moment_keeps (h := pass.hooks.recorded pass.hooks.visits) hp
      ({ e with nextNode := p.nextNode, marks := {} }, [])
      (Q := fun s => s.Covered p ∧ s.state.2.Perm (s.visited.flatMap Root.numbers) ∧
        Renews p.nextNode s.state.1.nextNode p.numbers s.now.numbers)
      ⟨Standing.covered_start p _, .refl _, .refl _ _⟩
      (fun s s' hs hq hmove => ⟨hq.1.move hs hp hmove, pass.visits_move hq.2.1 hmove,
        hq.2.2.trans (hs.plain.renews_move hp pass.hooks_renew hmove.plain)⟩) k
  obtain ⟨hnodup, hbelow⟩ := hn.numbers hp
  exact hlog.nodup_iff.mpr (hc.nodup_visited hs (hrenews.nodup hnodup hbelow))

/-- **No step on a loaded program goes into a node twice**, after any steps in any order. -/
theorem Program.load_visits_nodup (report : Report) (lib : Library) (entry : Entry)
    (steps : List (Pass × Env)) (pass : Pass) (e : Env) (k : Nat) :
    let p := (({} : Program).load report lib entry).program.runAll steps
    let m := p.moment (pass.hooks.recorded pass.hooks.visits)
      ({ e with nextNode := p.nextNode, marks := {} }, []) k
    m.plain = pass.moment p e k ∧ m.state.2.Nodup := by
  obtain ⟨hp, hn⟩ := runAll_tidy_numbered (load_tidy tidy_empty report lib entry)
    (loaded_numbered report lib entry) steps
  exact ⟨moment_recorded _ _ _ _ _ k, pass.visits_nodup hp hn e k⟩

end HaloScript
