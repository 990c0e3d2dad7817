/-
# Numbers of nodes

Every value and every call has a number, under which its result is remembered.  Building draws
the numbers one after another (`Build.Draws`), linking keeps them, and nothing else happens while
a program is loaded.  So no two nodes of a loaded program have one number
(`Program.load_numbered`).
-/
import HaloScript.Constant.Eval
import HaloScript.Proofs.Loading
import HaloScript.Proofs.Outline
import Mathlib.Data.List.Range

namespace HaloScript

open List

/-! ## 1. The nodes of a program -/

/-- What can be evaluated. -/
inductive Node where
  | global (id : GlobalId)
  | value (v : Value)
  | call (head : Head) (args : List Value)

namespace Node

/-- What the result for the node is remembered under. -/
def key : Node → MemoKey
  | .global id => .global id
  | .value v => .value v.id
  | .call h _ => .call h.id

def global? : Node → Option GlobalId
  | .global id => some id
  | _ => none

theorem eq_global {K : Node} {id : GlobalId} (h : K.global? = some id) : K = .global id := by
  cases K <;> simp_all [global?]

def number : Node → NodeId
  | .global id => id.serial
  | .value v => v.id
  | .call h _ => h.id

theorem number_eq_of_key {K A : Node} (h : K.key = A.key) : K.number = A.number := by
  cases K <;> cases A <;> simp_all [key, number]

end Node

namespace Value

mutual

/-- The value, the call in it, and the nodes of the arguments. -/
def nodes : Value → List Node
  | .leaf t l => [.value (.leaf t l)]
  | .call t h args => .value (.call t h args) :: .call h args :: nodesAll args

def nodesAll : List Value → List Node
  | [] => []
  | v :: rest => nodes v ++ nodesAll rest

end

def own : Value → List Node
  | .leaf t l => [.value (.leaf t l)]
  | .call t h args => [.value (.call t h args), .call h args]

mutual

theorem mem_nodes_parts {K : Node} (v : Value) : K ∈ v.nodes ↔ ∃ w ∈ v.parts, K ∈ w.own := by
  match v with
  | .leaf t l => simp [nodes, parts, own]
  | .call t h args => simp [nodes, parts, own, mem_nodesAll_parts args, or_assoc]

theorem mem_nodesAll_parts {K : Node} (vs : List Value) :
    K ∈ nodesAll vs ↔ ∃ w ∈ partsAll vs, K ∈ w.own := by
  match vs with
  | [] => simp [nodesAll, partsAll]
  | v :: rest =>
    simp [nodesAll, partsAll, mem_nodes_parts v, mem_nodesAll_parts rest, or_and_right, exists_or]

end

theorem value_mem_own {v w : Value} : .value v ∈ w.own ↔ v = w := by
  cases w <;> simp [own]

theorem call_mem_own {h : Head} {args : List Value} {w : Value} :
    .call h args ∈ w.own ↔ ∃ t, w = .call t h args := by
  cases w with
  | leaf => simp [own]
  | call => simp [own, eq_comm]

theorem value_mem_nodesAll {v : Value} {vs : List Value} :
    .value v ∈ nodesAll vs ↔ v ∈ partsAll vs := by
  simp [mem_nodesAll_parts, value_mem_own]

theorem call_mem_nodesAll {h : Head} {args vs : List Value} :
    .call h args ∈ nodesAll vs ↔ ∃ t, .call t h args ∈ partsAll vs := by
  simp only [mem_nodesAll_parts, call_mem_own]
  exact ⟨fun ⟨_, hw, t, heq⟩ => ⟨t, heq ▸ hw⟩, fun ⟨t, hw⟩ => ⟨_, hw, t, rfl⟩⟩

theorem mem_nodesAll_trans {w : Value} {K : Node} (hK : K ∈ w.nodes) (vs : List Value)
    (hw : .value w ∈ nodesAll vs) : K ∈ nodesAll vs := by
  obtain ⟨x, hx, hown⟩ := (mem_nodes_parts w).mp hK
  exact (mem_nodesAll_parts vs).mpr ⟨x, partsAll_trans hx vs (value_mem_nodesAll.mp hw), hown⟩

theorem nodes_eq_nodesAll (v : Value) : v.nodes = nodesAll [v] := by simp [nodesAll]

theorem global?_of_mem_nodesAll {K : Node} (vs : List Value) (h : K ∈ nodesAll vs) :
    K.global? = none := by
  obtain ⟨w, -, hown⟩ := (mem_nodesAll_parts vs).mp h
  cases K with
  | global => cases w <;> simp [own] at hown
  | value => rfl
  | call => rfl

def numbers (vs : List Value) : List NodeId := (nodesAll vs).map Node.number

@[simp] theorem numbers_nil : numbers [] = [] := rfl

theorem numbers_call (t : Tag) (h : Head) (args rest : List Value) :
    numbers (.call t h args :: rest) = t.id :: h.id :: (numbers args ++ numbers rest) := by
  simp only [numbers, nodesAll, nodes, map_append, map_cons, cons_append]
  rfl

theorem numbers_cons (v : Value) (rest : List Value) :
    numbers (v :: rest) = numbers [v] ++ numbers rest := by
  simp [numbers, nodesAll]

end Value

/-! ## 2. Building draws numbers in order -/

/-- The numbers from `n` up to `n'`, in order. -/
def Consecutive (n n' : Nat) (ids : List Nat) : Prop := n ≤ n' ∧ ids = List.range' n (n' - n)

namespace Consecutive

variable {n n' : Nat} {ids : List Nat}

theorem nil (n : Nat) : Consecutive n n [] := ⟨Nat.le_refl n, by simp⟩

theorem eq_of_nil (h : Consecutive n n' []) : n = n' := by
  obtain ⟨hle, hids⟩ := h
  have hlength := congrArg List.length hids
  rw [length_nil, length_range'] at hlength
  omega

theorem cons (h : Consecutive (n + 1) n' ids) : Consecutive n n' (n :: ids) := by
  obtain ⟨hle, rfl⟩ := h
  have hsub : n' - n = (n' - (n + 1)) + 1 := by omega
  exact ⟨by omega, by rw [hsub, range'_succ]⟩

theorem append {n m n' : Nat} {xs ys : List Nat} (hx : Consecutive n m xs)
    (hy : Consecutive m n' ys) : Consecutive n n' (xs ++ ys) := by
  obtain ⟨hnm, rfl⟩ := hx
  obtain ⟨hmn', rfl⟩ := hy
  have hsplit : n' - n = (m - n) + (n' - m) := by omega
  have hstart : n + (m - n) = m := by omega
  exact ⟨by omega, by rw [hsplit, ← range'_append_1, hstart]⟩

theorem nodup (h : Consecutive n n' ids) : ids.Nodup :=
  h.2 ▸ nodup_range'

theorem mem_iff (h : Consecutive n n' ids) {i : Nat} : i ∈ ids ↔ n ≤ i ∧ i < n' := by
  obtain ⟨hle, rfl⟩ := h
  rw [mem_range'_1]
  omega

end Consecutive

namespace Build

variable {α β : Type}

/-- The computation draws the numbers of its result and no others. -/
def Draws (numbers : α → List NodeId) (x : Build α) : Prop :=
  ∀ n n' a, x n = .ok (a, n') → Consecutive n n' (numbers a)

/-- The computation draws no numbers. -/
abbrev Steady (x : Build α) : Prop := x.Draws fun _ => []

variable {numbers : α → List NodeId} {numbers' : β → List NodeId}

theorem draws_pure {a : α} (h : numbers a = []) : Draws numbers (pure a) := by
  intro n n' b hb
  obtain ⟨rfl, rfl⟩ := pure_eq_ok.mp hb
  exact h ▸ .nil n

theorem draws_fail (f : Fault) (span : Span) : Draws numbers (fail f span) :=
  fun _ _ _ h => absurd h fail_ne_ok

theorem Steady.bind {x : Build α} {f : α → Build β} (hx : x.Steady)
    (hf : ∀ a, (f a).Draws numbers') : Draws numbers' (x >>= f) := by
  intro n n' b h
  obtain ⟨a, m, hxa, hfb⟩ := bind_eq_ok.mp h
  exact (hx n m a hxa).append (hf a m n' b hfb)

theorem Draws.map {x : Build α} {f : α → β} (hx : x.Draws numbers)
    (hf : ∀ a, numbers' (f a) = numbers a) : Draws numbers' (x >>= fun a => pure (f a)) := by
  intro n n' b h
  obtain ⟨a, m, hxa, hfb⟩ := bind_eq_ok.mp h
  obtain ⟨rfl, rfl⟩ := pure_eq_ok.mp hfb
  exact hf a ▸ hx n m a hxa

theorem expectAtom_steady (expected : Expectation) (f : Form) : (expectAtom expected f).Steady := by
  cases f with
  | atom => exact draws_pure rfl
  | list => exact draws_fail _ _

theorem nextAtom_steady (expected : Expectation) (whole : Span) (items : List Form) :
    (nextAtom expected whole items).Steady := by
  cases items with
  | nil => exact draws_fail _ _
  | cons f => exact (expectAtom_steady expected f).bind fun a => draws_pure rfl

theorem flattenParams_steady (fs : List Form) : (flattenParams fs).Steady := by
  induction fs with
  | nil => exact draws_pure rfl
  | cons f rest ih =>
    cases f with
    | atom => exact ih.bind fun flat => draws_pure rfl
    | list =>
      rw [flattenParams]
      split
      · exact ih.bind fun flat => draws_pure rfl
      · exact draws_fail _ _

theorem pairParams_steady : ∀ fs : List Form, (pairParams fs).Steady
  | [] | [_] => draws_pure rfl
  | type :: name :: rest =>
    (expectAtom_steady _ type).bind fun _ => (expectAtom_steady _ name).bind fun _ =>
      (pairParams_steady rest).bind fun _ => draws_pure rfl

theorem nextParams_steady (kind : ScriptKind) (whole : Span) (items : List Form) :
    (nextParams kind whole items).Steady := by
  unfold nextParams
  split
  · split
    · exact draws_fail _ _
    · exact draws_fail _ _
    · next s items' rest =>
      have hparams : (params s items').Steady := by
        refine (flattenParams_steady items').bind fun flat => ?_
        split
        · exact pairParams_steady flat
        · exact draws_fail _ _
      exact hparams.bind fun ps => draws_pure rfl
  · exact draws_pure rfl

theorem nextReturnType_steady (kind : ScriptKind) (whole : Span) (items : List Form) :
    (nextReturnType kind whole items).Steady := by
  unfold nextReturnType
  split
  · exact (nextAtom_steady _ whole items).bind fun a => draws_pure rfl
  · exact draws_pure rfl

mutual

/-- **A value draws the numbers of its nodes**, from the outside in. -/
theorem value_draws (inCond : Bool) (f : Form) :
    (value inCond f).Draws fun v => Value.numbers [v] := by
  intro n n' v h
  match f with
  | .atom s q =>
    rw [value, bind_run_ok (fresh_run n)] at h
    obtain ⟨rfl, rfl⟩ := pure_eq_ok.mp h
    exact (Consecutive.nil (n + 1)).cons
  | .list s [] =>
    rw [value, bind_run_ok (fresh_run n), bind_run_ok (fresh_run (n + 1))] at h
    exact absurd h fail_ne_ok
  | .list s (first :: rest) =>
    rw [value, bind_run_ok (fresh_run n), bind_run_ok (fresh_run (n + 1))] at h
    have hcall : ∀ (callee : Callee) (clause inside : Bool) (items : List Form),
        (values inside items >>= fun args =>
          pure (Value.call ⟨n, some s⟩ ⟨n + 1, some s, callee, clause⟩ args)) (n + 2) =
            .ok (v, n') →
        Consecutive n n' (Value.numbers [v]) := by
      intro callee clause inside items hitems
      obtain ⟨args, m, hargs, hv⟩ := bind_eq_ok.mp hitems
      obtain ⟨rfl, rfl⟩ := pure_eq_ok.mp hv
      rw [Value.numbers_call, Value.numbers_nil, append_nil]
      exact (values_draws inside items (n + 2) m args hargs).cons.cons
    dsimp only at h
    split at h
    · exact hcall _ _ _ _ h
    · obtain ⟨name, m, hname, h⟩ := bind_eq_ok.mp h
      obtain rfl : n + 2 = m := (expectAtom_steady _ first _ _ _ hname).eq_of_nil
      exact hcall _ _ _ _ h

theorem values_draws (inCond : Bool) (fs : List Form) :
    (values inCond fs).Draws Value.numbers := by
  intro n n' vs h
  match fs with
  | [] =>
    obtain ⟨rfl, rfl⟩ := pure_eq_ok.mp h
    exact .nil n
  | f :: rest =>
    rw [values] at h
    obtain ⟨v, m, hv, h⟩ := bind_eq_ok.mp h
    obtain ⟨ws, k, hws, h⟩ := bind_eq_ok.mp h
    obtain ⟨rfl, rfl⟩ := pure_eq_ok.mp h
    rw [Value.numbers_cons]
    exact (value_draws inCond f n m v hv).append (values_draws inCond rest m k ws hws)

end

theorem body_draws : ∀ fs : List Form, (body fs).Draws Value.numbers
  | [] => draws_pure rfl
  | [f] => by
    rw [body]
    exact (value_draws false f).map fun v => rfl
  | .atom s q :: f :: rest => draws_fail _ _
  | .list s items :: f :: rest => by
    intro n n' vs h
    simp only [body] at h
    obtain ⟨v, m, hv, h⟩ := bind_eq_ok.mp h
    obtain ⟨ws, k, hws, h⟩ := bind_eq_ok.mp h
    obtain ⟨rfl, rfl⟩ := pure_eq_ok.mp h
    rw [Value.numbers_cons]
    exact (value_draws false _ n m v hv).append (body_draws (f :: rest) m k ws hws)

theorem global_draws (id : Text → GlobalId) (isConst : Bool) (span : Span) (items : List Form) :
    (global id isConst span items).Draws fun g => Value.numbers [g.value] := by
  unfold global
  split
  · exact (expectAtom_steady _ _).bind fun _ => (expectAtom_steady _ _).bind fun _ =>
      (value_draws false _).map fun v => rfl
  · exact draws_fail _ _

theorem script_draws (id : Text → ScriptId) (span : Span) (items : List Form) :
    (script id span items).Draws fun s => Value.numbers s.body := by
  rw [script_eq]
  split
  · exact draws_fail _ _
  · refine (nextAtom_steady _ _ _).bind fun a => ?_
    split
    · exact draws_fail _ _
    · exact (nextReturnType_steady _ _ _).bind fun r => (nextAtom_steady _ _ _).bind fun b =>
        (nextParams_steady _ _ _).bind fun q => (body_draws _).map fun vs => rfl

def declared : Option Declaration → List NodeId
  | none => []
  | some d => Value.numbers d.values

/-- **A declaration draws the numbers of its nodes.** -/
theorem declaration_draws (p : Program) (f : Form) : (declaration p f).Draws declared := by
  unfold declaration
  split
  · exact draws_fail _ _
  · refine (expectAtom_steady _ _).bind fun word => ?_
    dsimp only
    split
    · exact (global_draws _ _ _ _).map fun g => rfl
    · split
      · exact (global_draws _ _ _ _).map fun g => rfl
      · split
        · exact (script_draws _ _ _).map fun s => rfl
        · split
          · exact draws_pure rfl
          · exact draws_fail _ _

end Build

/-! ## 3. Linking keeps numbers -/

theorem Head.id_resolve {scope : Scope} (h : Head) (r : Report) :
    (h.resolve scope r).1.id = h.id := by
  rw [Head.resolve_run]
  split
  · rfl
  · split
    · rfl
    · split <;> rfl

namespace Value

variable {scope : Scope}

mutual

theorem numbers_resolve (v : Value) (r : Report) :
    numbers [(v.resolve scope r).1] = numbers [v] := by
  match v with
  | .leaf t l =>
    rw [resolve_leaf_run]
    rfl
  | .call t h args =>
    rw [resolve_call_run]
    simp only [numbers_call, numbers_nil, append_nil, Head.id_resolve, numbers_resolveAll args]

theorem numbers_resolveAll (vs : List Value) (r : Report) :
    numbers (resolveAll scope vs r).1 = numbers vs := by
  match vs with
  | [] => rfl
  | v :: rest =>
    rw [resolveAll_cons_run, numbers_cons, numbers_cons v rest]
    simp only [numbers_resolve v, numbers_resolveAll rest]

end

end Value

namespace Program

variable {p : Program}

/-- The nodes of all declarations ever made. -/
def nodes (p : Program) : List Node := p.all.flatMap fun d => Value.nodesAll d.values

/-- No two nodes have one number, and the next number is new. -/
structure Numbered (p : Program) : Prop where
  nodup : (p.nodes.map Node.number).Nodup
  below : ∀ K ∈ p.nodes, K.number < p.nextNode

theorem Numbered.distinct (h : p.Numbered) {K A : Node} (hK : K ∈ p.nodes) (hA : A ∈ p.nodes)
    (hkey : K.key = A.key) : K = A :=
  inj_on_of_nodup_map h.nodup hK hA (Node.number_eq_of_key hkey)

theorem numbered_empty : Program.Numbered {} := ⟨by simp [nodes, all], by simp [nodes, all]⟩

theorem map_number_nodes (p : Program) :
    p.nodes.map Node.number = (p.globals.map fun g => Value.numbers [g.value]).toList.flatten ++
      (p.scripts.map fun s => Value.numbers s.body).toList.flatten := by
  rw [nodes, all, flatMap_append, map_append]
  simp only [flatMap_map, map_flatMap, Array.toList_map]
  rfl

theorem Numbered.of_eq {p p' : Program} (h : p.Numbered)
    (heq : p'.nodes.map Node.number = p.nodes.map Node.number) (hnext : p.nextNode ≤ p'.nextNode) :
    p'.Numbered where
  nodup := heq ▸ h.nodup
  below K hK := by
    have hmem : K.number ∈ p.nodes.map Node.number := heq ▸ mem_map_of_mem hK
    obtain ⟨A, hA, hnumber⟩ := mem_map.mp hmem
    exact hnumber ▸ Nat.lt_of_lt_of_le (h.below A hA) hnext

theorem numbers_setGlobal {id : GlobalId} {g g' : Global} (hg : p.global? id = some g)
    (hserial : g'.id.serial = id.serial) (h : Value.numbers [g'.value] = Value.numbers [g.value]) :
    (p.setGlobal g').nodes.map Node.number = p.nodes.map Node.number := by
  rw [map_number_nodes, map_number_nodes, setGlobal, hserial,
    map_setIfInBounds_self _ _ _ g g' hg h]

theorem numbers_setScript {id : ScriptId} {s s' : Script} (hs : p.script? id = some s)
    (hserial : s'.id.serial = id.serial) (h : Value.numbers s'.body = Value.numbers s.body) :
    (p.setScript s').nodes.map Node.number = p.nodes.map Node.number := by
  rw [map_number_nodes, map_number_nodes, setScript, hserial,
    map_setIfInBounds_self _ _ _ s s' hs h]

/-- Linking a declaration keeps the numbers. -/
theorem resolve_numbered (hp : p.Tidy) (hn : p.Numbered) (d : DeclId) (r : Report) :
    (p.resolve d r).1.Numbered := by
  unfold resolve
  cases d with
  | global id =>
    cases hg : p.global? id with
    | none =>
      simp only [declaration?, hg, Option.map_none]
      exact hn
    | some g =>
      simp only [declaration?, hg, Option.map_some]
      refine hn.of_eq (numbers_setGlobal hg (hp.globalSerial _ g hg) ?_) (Nat.le_refl _)
      exact Value.numbers_resolve g.value r
  | script id =>
    cases hs : p.script? id with
    | none =>
      simp only [declaration?, hs, Option.map_none]
      exact hn
    | some s =>
      simp only [declaration?, hs, Option.map_some]
      refine hn.of_eq (numbers_setScript hs (hp.scriptSerial _ s hs) ?_) (Nat.le_refl _)
      exact Value.numbers_resolveAll s.body r

theorem resolveAll_numbered (ds : List DeclId) : ∀ {p : Program}, p.Tidy → p.Numbered →
    ∀ r : Report, (p.resolveAll ds r).1.Numbered := by
  induction ds with
  | nil => exact fun _ hn r => hn
  | cons d rest ih =>
    intro p hp hn r
    obtain ⟨halike, htable⟩ := resolve_alike hp d r
    exact ih (hp.of_alike halike (by rw [htable])) (resolve_numbered hp hn d r) (p.resolve d r).2

/-! ## 4. Loading -/

theorem all_declare_perm (p : Program) (new : Declaration) :
    (p.declare new).all.Perm (new :: p.all) := by
  cases new with
  | global g =>
    have hall : (p.declare (.global g)).all =
        p.globals.toList.map .global ++ .global g :: p.scripts.toList.map .script := by
      simp [all, declare]
    rw [hall]
    exact perm_middle
  | script s =>
    have hall : (p.declare (.script s)).all = p.all ++ [.script s] := by
      simp [all, declare]
    rw [hall]
    exact perm_append_singleton _ _

/-- A new declaration keeps a program numbered if its numbers were drawn after all others. -/
theorem Numbered.declare (hn : p.Numbered) {new : Declaration} {next : NodeId}
    (hnew : Consecutive p.nextNode next (Value.numbers new.values)) :
    ({ p with nextNode := next }.declare new).Numbered := by
  have hperm : ({ p with nextNode := next }.declare new).nodes.Perm
      (Value.nodesAll new.values ++ p.nodes) :=
    (all_declare_perm { p with nextNode := next } new).flatMap_right _
  have hnext : ({ p with nextNode := next }.declare new).nextNode = next := by
    cases new <;> rfl
  refine ⟨(hperm.map Node.number).nodup_iff.mpr ?_, fun K hK => ?_⟩
  · rw [map_append, nodup_append]
    refine ⟨hnew.nodup, hn.nodup, fun i hi j hj heq => ?_⟩
    obtain ⟨A, hA, rfl⟩ := mem_map.mp hj
    have hlt := hn.below A hA
    have hle := (hnew.mem_iff.mp hi).1
    rw [heq] at hle
    exact absurd hlt (Nat.not_lt.mpr hle)
  · rw [hnext]
    rcases mem_append.mp (hperm.mem_iff.mp hK) with hK | hK
    · exact (hnew.mem_iff.mp (mem_map_of_mem hK)).2
    · exact Nat.lt_of_lt_of_le (hn.below K hK) hnew.1

end Program

namespace Drafting

theorem forms_numbered (fs : List Form) {d : Drafting} (hd : d.program.Numbered) :
    (d.forms fs).1.program.Numbered := by
  refine forms_keep (fun hp hnew => ?_) fs hd
  have hdrawn := Build.declaration_draws _ _ _ _ _ hnew
  exact ⟨hp.of_eq rfl hdrawn.1, hp.declare hdrawn⟩

end Drafting

namespace Program

/-- **Loading keeps a program numbered**, whether it fails or not. -/
theorem load_numbered {p : Program} (hp : p.Tidy) (hn : p.Numbered) (report : Report)
    (lib : Library) (entry : Entry) : (p.load report lib entry).program.Numbered := by
  unfold load declareAll
  dsimp only
  split
  · exact hn
  · generalize (gather _ lib entry).2 = pool
    have hd := Drafting.forms_numbered pool (d := { program := p }) hn
    have htidy := Drafting.forms_tidy pool (d := { program := p }) hp
    split
    · exact hd
    · exact resolveAll_numbered _ htidy hd _

theorem loaded_numbered (report : Report) (lib : Library) (entry : Entry) :
    (load {} report lib entry).program.Numbered :=
  load_numbered tidy_empty numbered_empty report lib entry

end Program

end HaloScript
