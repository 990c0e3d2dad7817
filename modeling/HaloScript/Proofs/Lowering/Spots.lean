/-
# Folding at one spot

Constant folding goes through a declaration from the outside in.  Once no constant globals are
left, what it does at one place depends on nothing but the value that stands there and on the list
around it (`Folding.applies`).  An element that is offered (`Folding.foldElement_cases`) and a
value that is visited (`Folding.foldValue_cases`) stay as they are, or folding applies and the
declaration gets lighter.  Nothing ever gets heavier.
-/
import HaloScript.Proofs.Constant.Footprint
import HaloScript.Proofs.Lowering.Decisions
import HaloScript.Proofs.Lowering.Numbers
import Mathlib.Algebra.BigOperators.Group.List.Basic

namespace HaloScript

open List Scene Value

/-! ## 1. The spots of a list -/

namespace Spot

variable {spot : Spot}

mutual

def inside : Value → List Spot
  | .leaf _ _ => []
  | .call t h args => allFrom (.call t h) [] args

/-- The spots of a list, and those inside its values; `before` stands in front of the list. -/
def allFrom (o : Owner) (before : List Value) : List Value → List Spot
  | [] => []
  | v :: rest => ⟨o, before, v, rest⟩ :: (inside v ++ allFrom o (before ++ [v]) rest)

end

/-- The spots of a list, and those inside its values. -/
def all (o : Owner) (vs : List Value) : List Spot := allFrom o [] vs

theorem mem_allFrom_here (o : Owner) (v : Value) (right : List Value) (left : List Value) :
    ∀ before, ⟨o, before ++ left, v, right⟩ ∈ allFrom o before (left ++ v :: right) := by
  induction left with
  | nil =>
    intro before
    rw [nil_append, allFrom, append_nil]
    exact mem_cons_self
  | cons w left ih =>
    intro before
    have hbefore : before ++ w :: left = (before ++ [w]) ++ left := by simp
    rw [cons_append, allFrom, hbefore]
    exact mem_cons_of_mem _ (mem_append_right _ (ih _))

theorem mem_allFrom_inside (o : Owner) {v : Value} (hv : spot ∈ inside v) (right : List Value)
    (left : List Value) : ∀ before, spot ∈ allFrom o before (left ++ v :: right) := by
  induction left with
  | nil =>
    intro before
    rw [nil_append, allFrom]
    exact mem_cons_of_mem _ (mem_append_left _ hv)
  | cons w left ih =>
    intro before
    rw [cons_append, allFrom]
    exact mem_cons_of_mem _ (mem_append_right _ (ih _))

theorem Edit.mem_all {vs xs ys : List Value} {o : Owner} (h : spot.Edit vs o xs ys) :
    spot ∈ all o xs := by
  induction h with
  | here => exact mem_allFrom_here _ _ _ _ []
  | inside left right _ ih => exact mem_allFrom_inside _ ih right left []

mutual

theorem ids_inside (v : Value) :
    (v.id :: (inside v).map (·.focus.id)).Sublist (v.nodes.map Node.number) := by
  match v with
  | .leaf t l => exact Sublist.refl _
  | .call t h args => exact ((ids_allFrom (.call t h) args []).cons h.id).cons_cons t.id

/-- The numbers of the values at the spots are among those of the nodes. -/
theorem ids_allFrom (o : Owner) (vs : List Value) (before : List Value) :
    ((allFrom o before vs).map (·.focus.id)).Sublist (numbers vs) := by
  match vs with
  | [] => exact Sublist.refl _
  | v :: rest =>
    rw [allFrom, map_cons, map_append, ← cons_append, numbers,
      nodesAll, map_append]
    exact (ids_inside v).append (ids_allFrom o rest (before ++ [v]))

end

/-- If no number occurs twice, the number of the value tells the spot. -/
theorem eq_of_id_eq {o : Owner} {vs : List Value} (hvs : (numbers vs).Nodup) {spot spot' : Spot}
    (h : spot ∈ all o vs) (h' : spot' ∈ all o vs) (hid : spot.focus.id = spot'.focus.id) :
    spot = spot' :=
  inj_on_of_nodup_map ((ids_allFrom o vs []).nodup hvs) h h' hid

theorem id_mem_numbers {o : Owner} {vs : List Value} (h : spot ∈ all o vs) :
    spot.focus.id ∈ numbers vs :=
  (ids_allFrom o vs []).subset (mem_map_of_mem h)

mutual

theorem nodes_inside {spot : Spot} (v : Value) (h : spot ∈ inside v) :
    .value spot.focus ∈ v.nodes := by
  match v with
  | .leaf t l => exact absurd h not_mem_nil
  | .call t head args =>
    exact mem_cons_of_mem _ (mem_cons_of_mem _ (nodes_allFrom (.call t head) args [] h))

theorem nodes_allFrom {spot : Spot} (o : Owner) (vs : List Value) (before : List Value)
    (h : spot ∈ allFrom o before vs) : .value spot.focus ∈ nodesAll vs := by
  match vs with
  | v :: rest =>
    rw [allFrom, mem_cons, mem_append] at h
    rw [nodesAll, mem_append]
    rcases h with rfl | h | h
    · exact .inl (Value.mem_nodes_self v)
    · exact .inl (nodes_inside v h)
    · exact .inr (nodes_allFrom o rest (before ++ [v]) h)

end

end Spot

/-! ## 2. The bulk of a list -/

/-- How much a part weighs: a call more than a leaf. -/
def Root.bulk : Root → Nat
  | .leaf _ _ => 1
  | .call _ _ => 2

/-- The weight of all parts of some values. -/
def Value.bulk (vs : List Value) : Nat := ((rootsAll vs).map Root.bulk).sum

namespace Value

theorem bulk_append (xs ys : List Value) : bulk (xs ++ ys) = bulk xs + bulk ys := by
  rw [bulk, rootsAll_append, map_append, sum_append, bulk, bulk]

theorem bulk_cons (v : Value) (rest : List Value) : bulk (v :: rest) = bulk [v] + bulk rest :=
  bulk_append [v] rest

theorem bulk_call (t : Tag) (h : Head) (args : List Value) :
    bulk [.call t h args] = 2 + bulk args := by
  rw [bulk, rootsAll_singleton, map_cons, sum_cons]
  rfl

theorem bulk_withTag (v : Value) (t : Tag) : bulk [v.withTag t] = bulk [v] := by
  cases v with
  | leaf => rfl
  | call => rw [withTag, bulk_call, bulk_call]

theorem bulk_pos {vs : List Value} (h : vs ≠ []) : 0 < bulk vs := by
  obtain ⟨v, rest, rfl⟩ := exists_cons_of_ne_nil h
  rw [bulk_cons]
  cases v with
  | leaf =>
    show 0 < 1 + _
    omega
  | call =>
    rw [bulk_call]
    omega

theorem bulk_le_of_mem {v : Value} {vs : List Value} (hv : v ∈ vs) : bulk [v] ≤ bulk vs := by
  obtain ⟨left, right, rfl⟩ := append_of_mem hv
  rw [bulk_append, bulk_cons v right]
  omega

end Value

theorem Spot.Edit.bulk {spot : Spot} {vs xs ys : List Value} {o : Owner}
    (h : spot.Edit vs o xs ys) :
    Value.bulk ys + Value.bulk [spot.focus] = Value.bulk xs + Value.bulk vs := by
  obtain ⟨others, hxs, hys⟩ := h.roots_perm
  have hold := (hxs.map Root.bulk).sum_eq
  have hnew := (hys.map Root.bulk).sum_eq
  rw [map_append, sum_append] at hold hnew
  rw [Value.bulk, Value.bulk, Value.bulk, Value.bulk, hold, hnew]
  omega

/-! ## 3. Evaluation without globals -/

/-- No globals at all. -/
def Scene.bare : Scene := ⟨fun _ => none, 0⟩

/-- A node of the list, or a reference to a global. -/
def Node.BelongsTo (vs : List Value) (K : Node) : Prop := K.global? = none → K ∈ nodesAll vs

/-- The nodes of a list in which no number occurs twice are evaluated among themselves. -/
theorem Scene.bare_closed {vs : List Value} (hvs : (numbers vs).Nodup) :
    bare.Closed (Node.BelongsTo vs) where
  needs {K A} hK hA hglobal := by
    cases hsort : K.global? with
    | none => exact Value.mem_nodesAll_of_needs hA hsort hglobal vs (hK hsort)
    | some =>
      cases hA with
      | content hg => cases hg
      | link | call | arg => cases hsort
  distinct := Node.eq_of_key_eq fun _ hK _ hA hkey =>
    inj_on_of_nodup_map hvs hK hA (Node.number_eq_of_key hkey)

theorem Scene.bare_lists : bare.Lists [] := ⟨Nat.le_refl 0, fun h => nomatch h⟩

theorem Scene.bare_plain (leaves : List Leaf) : bare.Plain leaves := fun _ _ => rfl

/-- What was done about some values: results were remembered and marks were set for their nodes
only, and nothing was reported. -/
structure Env.Local (vs : List Value) (e e' : Env) : Prop where
  memo : ∀ k, (∀ A ∈ nodesAll vs, A.key ≠ k) → e'.memo[k]? = e.memo[k]?
  marks : ∀ i, e'.isMarked i = true → e.isMarked i = true ∨ i ∈ numbers vs
  report : e'.report = e.report

namespace Env.Local

variable {vs : List Value} {e e' e'' : Env}

theorem refl (vs : List Value) (e : Env) : Local vs e e := ⟨fun _ _ => rfl, fun _ h => .inl h, rfl⟩

theorem trans (h : Local vs e e') (h' : Local vs e' e'') : Local vs e e'' where
  memo k hk := (h'.memo k hk).trans (h.memo k hk)
  marks i hi := (h'.marks i hi).elim (h.marks i) .inr
  report := h'.report.trans h.report

theorem eval {scene : Scene} (h : scene.Plain (leavesAll vs)) {K : Node}
    (hK : K ∈ nodesAll vs) (e : Env) : Local vs e (e.eval (scene.ask K)).2 where
  memo k hk := ask_touches_nodes h hK e.memo k fun ⟨A, hA, hkey⟩ => absurd hkey (hk A hA)
  marks _ hi := .inl hi
  report := rfl

theorem mark {i : NodeId} (hi : i ∈ numbers vs) (e : Env) : Local vs e (e.mark i) where
  memo _ _ := rfl
  marks j hj := by
    have hor : (i == j) = true ∨ e.isMarked j = true := by
      simpa [Env.mark, Env.isMarked, Std.HashSet.contains_insert] using hj
    rcases hor with heq | hj
    · exact .inr (eq_of_beq heq ▸ hi)
    · exact .inl hj
  report := rfl

end Env.Local

namespace Folding

variable {view : View} {vs : List Value} {h : Head} {args : List Value} {e : Env} {spot : Spot}
  {t : Tag}

theorem args_mem (hv : .value (.call t h args) ∈ nodesAll vs) :
    .call h args ∈ nodesAll vs ∧ ∀ w ∈ args, .value w ∈ nodesAll vs := by
  have hinner : ∀ K ∈ (Value.call t h args).nodes, K ∈ nodesAll vs :=
    fun K hK => Value.mem_nodesAll_trans hK vs hv
  constructor
  · exact hinner _ (mem_cons_of_mem _ mem_cons_self)
  · exact fun w hw => hinner _
      (mem_cons_of_mem _ (mem_cons_of_mem _ (Value.mem_nodesAll_of_mem hw)))

theorem keeps_local (hplain : view.scene.Plain (leavesAll vs)) (e : Env) :
    Keeps view (fun v => .value v ∈ nodesAll vs) (Env.Local vs e) where
  args {v} hv := by
    cases v with
    | leaf => exact fun w hw => absurd hw not_mem_nil
    | call => exact (args_mem hv).2
  call hv he := he.trans (.eval hplain (args_mem hv).1 _)
  value hv he := he.trans (.eval hplain hv _)

theorem foldValue_local (hplain : view.scene.Plain (leavesAll vs)) (v : Value) (e : Env)
    (hv : .value v ∈ nodesAll vs) : Env.Local vs e (foldValue view v e).2 :=
  (keeps_local hplain e).foldValue hv (.refl vs e)

theorem foldElement_local (hplain : view.scene.Plain (leavesAll vs)) (place : Place)
    (v : Value) (e : Env) (hv : .value v ∈ nodesAll vs) :
    Env.Local vs e (foldElement view place v e).2 :=
  (keeps_local hplain e).foldElement
    (fun he => he.trans (.mark (mem_map_of_mem (f := Node.number) hv) _)) place hv (.refl vs e)

/-! ## 4. What folding does at a spot -/

/-- The literal of a call that is evaluated without globals. -/
def literalOf? (h : Head) (args : List Value) : Option Text :=
  (bare.fresh (.call h args)).bind Const.literal?

/-- The condition of an `if` with one or two branches, evaluated without globals. -/
def conditionOf? (h : Head) : List Value → Option Bool
  | test :: branches =>
    if h.isCallOf "if" && (branches.length == 1 || branches.length == 2) then
      (bare.fresh (.value test)).bind Const.toBool?
    else none
  | [] => none

/-- What takes the place of a call: the only argument of a `begin`, or the branch of an `if` that
is taken. -/
def branchOf? (h : Head) (args : List Value) : Option Value :=
  match onlyArgument? h args, conditionOf? h args with
  | some v, _ => some v
  | none, some true => args[1]?
  | none, some false => args[2]?
  | none, none => none

/-- Whether folding has something to do at a spot, if there are no constant globals: the call has
a literal, it is a statement that is never run, or something else can take its place.  A statement
other than the last of a script is replaced by calls only. -/
def applies (spot : Spot) : Bool :=
  match spot.focus with
  | .leaf _ _ => false
  | .call _ h args =>
    (literalOf? h args).isSome ||
      (spot.owner.takesStatements && args.length == 2 && conditionOf? h args == some false) ||
      (branchOf? h args).any fun w => isCall w || !isInnerStatement spot.place

/-- What is remembered about a list is right, and only statements other than the last are
marked. -/
structure Aware (o : Owner) (vs : List Value) (e : Env) : Prop where
  memo : bare.Consistent (Node.BelongsTo vs) e.memo
  marks : ∀ spot ∈ Spot.all o vs, e.isMarked spot.focus.id = true →
    isInnerStatement spot.place = true

variable {o : Owner}

section

variable (he : Aware o vs e) (hvs : (numbers vs).Nodup) (hplain : view.scene.Plain (leavesAll vs))

include he hvs hplain

/-- A node of the list has the value that it has by itself. -/
theorem Aware.eval {K : Node} (hK : K ∈ nodesAll vs) :
    (e.eval (view.scene.ask K)).1 = bare.fresh K ∧
      Aware o vs (e.eval (view.scene.ask K)).2 := by
  have hsame : view.scene.ask K = bare.ask K :=
    ask_congr (hplain.mono (Value.leavesAll_subset_of_mem_nodesAll vs hK))
      (bare_plain _)
  have hclosed := bare_closed hvs
  obtain ⟨hanswer, hmemo, -⟩ :=
    ask_settled hclosed bare_lists (fun _ => hK) he.memo
  rw [hsame]
  refine ⟨Option.ext fun c => ?_, hmemo, he.marks⟩
  exact (hanswer c).trans (fresh_eq_some_iff hclosed bare_lists (fun _ => hK) c).symm

theorem Aware.literal? (hcall : .call h args ∈ nodesAll vs) :
    (literal? view h args e).1 = literalOf? h args ∧ Aware o vs (literal? view h args e).2 := by
  obtain ⟨hvalue, hstate⟩ := he.eval hvs hplain hcall
  exact ⟨congrArg (fun r => Option.bind r Const.literal?) hvalue, hstate⟩

theorem Aware.condition? (hargs : ∀ w ∈ args, .value w ∈ nodesAll vs) :
    (condition? view h args e).1 = conditionOf? h args ∧
      Aware o vs (condition? view h args e).2 := by
  cases args with
  | nil => exact ⟨rfl, he⟩
  | cons test branches =>
    have hlength : (h.isCallOf "if" && ((test :: branches).length == 2 ||
        (test :: branches).length == 3)) =
        (h.isCallOf "if" && (branches.length == 1 || branches.length == 2)) := by simp
    rw [Folding.condition?, conditionOf?, hlength]
    split
    · obtain ⟨hvalue, hstate⟩ := he.eval hvs hplain (hargs test mem_cons_self)
      exact ⟨congrArg (fun r => Option.bind r Const.toBool?) hvalue, hstate⟩
    · exact ⟨rfl, he⟩

theorem Aware.simplify? (hargs : ∀ w ∈ args, .value w ∈ nodesAll vs) :
    (simplify? view h args e).1 = branchOf? h args ∧ Aware o vs (simplify? view h args e).2 := by
  obtain ⟨hcondition, hstate⟩ := he.condition? (h := h) hvs hplain hargs
  unfold Folding.simplify? branchOf?
  cases onlyArgument? h args with
  | some => exact ⟨rfl, he⟩
  | none =>
    rw [← hcondition]
    generalize Folding.condition? view h args e = out at hstate
    obtain ⟨answer, e'⟩ := out
    cases answer with
    | none => exact ⟨rfl, hstate⟩
    | some b =>
      cases b with
      | true => exact ⟨rfl, hstate⟩
      | false => exact ⟨rfl, hstate⟩

end

/-- A mark on a statement other than the last. -/
theorem Aware.mark (he : Aware o vs e) (hvs : (numbers vs).Nodup)
    (hspot : spot ∈ Spot.all o vs) (hinner : isInnerStatement spot.place = true) :
    Aware o vs (e.mark spot.focus.id) where
  memo := he.memo
  marks spot' hspot' hmarked := by
    have hor : (spot.focus.id == spot'.focus.id) = true ∨ e.isMarked spot'.focus.id = true := by
      simpa [Env.mark, Env.isMarked, Std.HashSet.contains_insert] using hmarked
    rcases hor with heq | hmarked
    · rw [← Spot.eq_of_id_eq hvs hspot hspot' (eq_of_beq heq)]
      exact hinner
    · exact he.marks spot' hspot' hmarked

/-! Nothing gets heavier. -/

theorem bulk_branch {w : Value} (hw : w ∈ args) (t : Tag) (h : Head) :
    Value.bulk [w.withTag t] < Value.bulk [.call t h args] := by
  have hle := Value.bulk_le_of_mem hw
  rw [Value.bulk_withTag, bulk_call]
  omega

theorem Reduces.bulk_le {v w : Value} (h : Reduces v w) : Value.bulk [w] ≤ Value.bulk [v] := by
  induction h with
  | refl => exact Nat.le_refl _
  | branch hw _ ih => exact Nat.le_trans ih (Nat.le_of_lt (bulk_branch hw _ _))

theorem foldValue_bulk (view : View) (v : Value) (e : Env) :
    Value.bulk [(foldValue view v e).1] ≤ Value.bulk [v] := by
  rcases foldValue_reduces view v e with hred | ⟨t, h, args, text, rfl, -, heq⟩
  · exact hred.bulk_le
  · rw [heq, bulk_call]
    show 1 ≤ _
    omega

theorem foldElement_bulk (view : View) (place : Place) (v : Value) (e : Env) :
    Value.bulk (foldElement view place v e).1.values ≤ Value.bulk [v] := by
  have hoffered := foldElement_offered view place v e
  generalize (foldElement view place v e).1 = o at hoffered
  cases hoffered with
  | keep => exact Nat.le_refl _
  | drop => exact Nat.zero_le _
  | empty =>
    rw [Offer.values, bulk_call, bulk_call]
    show 2 + 0 ≤ _
    omega

/-- The element at the spot was offered, and has stayed. -/
structure Passed (spot : Spot) (e : Env) : Prop where
  runs : ∀ t h args, spot.focus = .call t h args → spot.owner.takesStatements = true →
    args.length = 2 → conditionOf? h args ≠ some false
  inner : ∀ t h args, spot.focus = .call t h args → isInnerStatement spot.place = true →
    literalOf? h args = none ∧ e.isMarked t.id = true

theorem passed_leaf {l : Leaf} (hfocus : spot.focus = .leaf t l) (e : Env) :
    Passed spot e where
  runs t' h args heq := by
    rw [hfocus] at heq
    cases heq
  inner t' h args heq := by
    rw [hfocus] at heq
    cases heq

/-- Evaluating sets no marks. -/
theorem keeps_isMarked (view : View) (i : NodeId) (b : Bool) :
    Keeps view (fun _ => True) fun e => e.isMarked i = b :=
  ⟨fun _ _ _ => trivial, fun _ he => he, fun _ he => he⟩

theorem isMarked_condition? (view : View) (h : Head) (args : List Value) (e : Env) (i : NodeId) :
    (condition? view h args e).2.isMarked i = e.isMarked i :=
  (keeps_isMarked view i _).condition h (fun _ _ => trivial) rfl

theorem isMarked_simplify? (view : View) (h : Head) (args : List Value) (e : Env) (i : NodeId) :
    (simplify? view h args e).2.isMarked i = e.isMarked i :=
  (keeps_isMarked view i _).simplify h (fun _ _ => trivial) rfl

/-- An `if` that is offered stays, unless its condition is false and it has no `else`. -/
theorem foldConditional_cases (he : Aware o vs e) (hvs : (numbers vs).Nodup)
    (hplain : view.scene.Plain (leavesAll vs)) (place : Place) (t : Tag)
    (hargs : ∀ w ∈ args, .value w ∈ nodesAll vs) :
    ((foldConditional view place t h args e).1 = .keep (.call t h args) [] ∧
      Aware o vs (foldConditional view place t h args e).2 ∧
      (∀ i, (foldConditional view place t h args e).2.isMarked i = e.isMarked i) ∧
      (args.length = 2 → conditionOf? h args ≠ some false)) ∨
    (args.length = 2 ∧ conditionOf? h args = some false ∧
      Value.bulk (foldConditional view place t h args e).1.values <
        Value.bulk [.call t h args]) := by
  obtain ⟨hcondition, hstate⟩ := he.condition? (h := h) hvs hplain hargs
  have hmarks := isMarked_condition? view h args e
  unfold foldConditional
  generalize condition? view h args e = out at hcondition hstate hmarks
  obtain ⟨answer, e'⟩ := out
  have hkeep : answer ≠ some false ∨ args.length ≠ 2 →
      args.length = 2 → conditionOf? h args ≠ some false := by
    rintro (hanswer | hlength) htwo
    · exact hcondition ▸ hanswer
    · exact absurd htwo hlength
  match answer with
  | none => exact .inl ⟨rfl, hstate, hmarks, hkeep (.inl (by simp))⟩
  | some true => exact .inl ⟨rfl, hstate, hmarks, hkeep (.inl (by simp))⟩
  | some false =>
    by_cases hlength : args.length = 2
    · refine .inr ⟨hlength, hcondition.symm, ?_⟩
      have hpos : 0 < Value.bulk args := Value.bulk_pos (by
        rintro rfl
        cases hlength)
      rw [bulk_call]
      simp only [hlength, beq_self_eq_true, if_true]
      split
      · rw [Offer.values, bulk_call]
        show 2 + 0 < _
        omega
      · show 0 < _
        omega
    · refine .inl ⟨?_, ?_, ?_, hkeep (.inr hlength)⟩
      all_goals simp only [beq_eq_false_iff_ne.mpr hlength, Bool.false_eq_true, if_false]
      · exact hstate
      · exact hmarks

theorem takesStatements_of_inner (h : isInnerStatement spot.place = true) :
    spot.owner.takesStatements = true := by
  have hbody : spot.owner.isBody = true := (Bool.and_eq_true_iff.mp h).1
  cases howner : spot.owner with
  | script => rfl
  | global | call =>
    rw [howner] at hbody
    cases hbody

/-- What is done about a call that is offered. -/
theorem foldElement_call (view : View) (place : Place) (t : Tag) (h : Head) (args : List Value)
    (e : Env) : foldElement view place (.call t h args) e =
      if place.owner.takesStatements then
        if isInnerStatement place then
          if (literal? view h args e).1.isSome then (.drop [], (literal? view h args e).2)
          else foldConditional view place t h args ((literal? view h args e).2.mark t.id)
        else foldConditional view place t h args e
      else (.keep (.call t h args) [], e) := by
  unfold foldElement
  dsimp only
  generalize literal? view h args e = out
  obtain ⟨answer, e'⟩ := out
  cases answer with
  | none => rfl
  | some => rfl

/-- A call that is offered among statements stays, unless it is never run. -/
theorem foldConditional_passes (he : Aware o vs e) (hvs : (numbers vs).Nodup)
    (hplain : view.scene.Plain (leavesAll vs)) (hfocus : spot.focus = .call t h args)
    (hargs : ∀ w ∈ args, .value w ∈ nodesAll vs) (htakes : spot.owner.takesStatements = true)
    (hinner : isInnerStatement spot.place = true →
      literalOf? h args = none ∧ e.isMarked t.id = true) :
    ((foldConditional view spot.place t h args e).1 = .keep (.call t h args) [] ∧
      Aware o vs (foldConditional view spot.place t h args e).2 ∧
      Passed spot (foldConditional view spot.place t h args e).2) ∨
    (applies spot = true ∧ Value.bulk (foldConditional view spot.place t h args e).1.values <
      Value.bulk [.call t h args]) := by
  obtain ⟨hkeep, haware, hmarks, hruns⟩ | ⟨hlength, hcondition, hbulk⟩ :=
    foldConditional_cases he hvs hplain spot.place t hargs
  · refine .inl ⟨hkeep, haware, ?_, ?_⟩
    · intro t' h' args' heq _
      obtain ⟨rfl, rfl, rfl⟩ := Value.call.inj (hfocus.symm.trans heq)
      exact hruns
    · intro t' h' args' heq hyes
      obtain ⟨rfl, rfl, rfl⟩ := Value.call.inj (hfocus.symm.trans heq)
      exact ⟨(hinner hyes).1, (hmarks t.id).trans (hinner hyes).2⟩
  · exact .inr ⟨by simp [applies, hfocus, htakes, hlength, hcondition], hbulk⟩

/-- **An element is offered.**  It stays as it is, or folding applies at the spot. -/
theorem foldElement_cases (he : Aware o vs e) (hvs : (numbers vs).Nodup)
    (hplain : view.scene.Plain (leavesAll vs)) (hspot : spot ∈ Spot.all o vs) :
    ((foldElement view spot.place spot.focus e).1 = .keep spot.focus [] ∧
      Aware o vs (foldElement view spot.place spot.focus e).2 ∧
      Passed spot (foldElement view spot.place spot.focus e).2) ∨
    (applies spot = true ∧ Value.bulk (foldElement view spot.place spot.focus e).1.values <
      Value.bulk [spot.focus]) := by
  have hnode := Spot.nodes_allFrom o vs [] hspot
  cases hfocus : spot.focus with
  | leaf => exact .inl ⟨rfl, he, passed_leaf hfocus e⟩
  | call t h args =>
    rw [hfocus] at hnode
    obtain ⟨hcall, hargs⟩ := args_mem hnode
    rw [foldElement_call]
    split
    · next htakes =>
      split
      · next hinner =>
        obtain ⟨hliteral, hstate⟩ := he.literal? hvs hplain hcall
        rw [hliteral]
        split
        · next hsome =>
          refine .inr ⟨by simp [applies, hfocus, hsome], ?_⟩
          rw [bulk_call]
          show 0 < _
          omega
        · next hnone =>
          have hid : spot.focus.id = t.id := by rw [hfocus]; rfl
          have hmarked : Aware o vs ((literal? view h args e).2.mark t.id) :=
            hid ▸ hstate.mark hvs hspot hinner
          exact foldConditional_passes hmarked hvs hplain hfocus hargs htakes
            fun _ => ⟨by simpa using hnone, by simp [Env.mark, Env.isMarked]⟩
      · next hinner =>
        exact foldConditional_passes he hvs hplain hfocus hargs htakes fun hyes =>
          absurd hyes hinner
    · next htakes =>
      refine .inl ⟨rfl, he, fun _ _ _ _ hyes => absurd hyes htakes, fun _ _ _ _ hinner => ?_⟩
      exact absurd (takesStatements_of_inner hinner) htakes

theorem foldValue_call (view : View) (t : Tag) (h : Head) (args : List Value) (e : Env) :
    foldValue view (.call t h args) e =
      match (literal? view h args e).1 with
      | some text =>
        if e.isMarked t.id then (.call t h args, (literal? view h args e).2)
        else (.leaf t (.atom text), (literal? view h args e).2)
      | none => simplifyValue view (.call t h args) (literal? view h args e).2 := by
  have hmarked : (literal? view h args e).2.isMarked t.id = e.isMarked t.id := rfl
  unfold foldValue
  dsimp only
  rw [← hmarked]
  generalize literal? view h args e = out
  obtain ⟨answer, e'⟩ := out
  cases answer with
  | none => rfl
  | some => rfl

theorem simplifyValue_call (view : View) (t : Tag) (h : Head) (args : List Value) (e : Env) :
    simplifyValue view (.call t h args) e =
      match (simplify? view h args e).1 with
      | none => (.call t h args, (simplify? view h args e).2)
      | some w =>
        if !isCall w && (simplify? view h args e).2.isMarked t.id then
          (.call t h args, (simplify? view h args e).2)
        else simplifyValue view (w.withTag t) (simplify? view h args e).2 := by
  rw [simplifyValue]
  split
  · next hx => rw [hx]
  · next hx => rw [hx]

/-- What remains to be done at a spot where the element has stayed. -/
theorem Passed.applies_eq (hpassed : Passed spot e) (hfocus : spot.focus = .call t h args)
    (hliteral : literalOf? h args = none) :
    applies spot = (branchOf? h args).any fun w => isCall w || !isInnerStatement spot.place := by
  have hruns : (spot.owner.takesStatements && args.length == 2 &&
      conditionOf? h args == some false) = false := by
    by_contra hyes
    simp only [Bool.not_eq_false, Bool.and_eq_true, beq_iff_eq] at hyes
    exact hpassed.runs t h args hfocus hyes.1.1 hyes.1.2 hyes.2
  rw [applies, hfocus]
  dsimp only
  rw [hliteral, hruns, Option.isSome_none, Bool.false_or, Bool.false_or]

/-- **A value is visited** that has stayed when it was offered.  It stays as it is, or folding
applies at the spot. -/
theorem foldValue_cases (he : Aware o vs e) (hvs : (numbers vs).Nodup)
    (hplain : view.scene.Plain (leavesAll vs)) (hspot : spot ∈ Spot.all o vs)
    (hpassed : Passed spot e) :
    ((foldValue view spot.focus e).1 = spot.focus ∧ Aware o vs (foldValue view spot.focus e).2 ∧
      applies spot = false) ∨
    (applies spot = true ∧
      Value.bulk [(foldValue view spot.focus e).1] < Value.bulk [spot.focus]) := by
  have hnode := Spot.nodes_allFrom o vs [] hspot
  cases hfocus : spot.focus with
  | leaf => exact .inl ⟨rfl, he, by rw [applies, hfocus]⟩
  | call t h args =>
    rw [hfocus] at hnode
    obtain ⟨hcall, hargs⟩ := args_mem hnode
    -- the marks are on the statements other than the last
    have hmarked : e.isMarked t.id = isInnerStatement spot.place := by
      cases hinner : isInnerStatement spot.place with
      | true => exact (hpassed.inner t h args hfocus hinner).2
      | false =>
        by_contra hyes
        have hid : spot.focus.id = t.id := by rw [hfocus]; rfl
        have htrue := he.marks spot hspot (by rw [hid]; simpa using hyes)
        rw [hinner] at htrue
        cases htrue
    obtain ⟨hliteral, hstate⟩ := he.literal? hvs hplain hcall
    rw [foldValue_call, hliteral]
    cases hlit : literalOf? h args with
    | some =>
      have hinner : isInnerStatement spot.place = false := by
        by_contra hyes
        have hnone := (hpassed.inner t h args hfocus (by simpa using hyes)).1
        rw [hlit] at hnone
        cases hnone
      refine .inr ⟨by simp [applies, hfocus, hlit], ?_⟩
      dsimp only
      rw [hmarked, hinner, if_neg Bool.false_ne_true, bulk_call]
      show 1 < _
      omega
    | none =>
      obtain ⟨hbranch, hstate'⟩ := hstate.simplify? (h := h) hvs hplain hargs
      have hmarks := isMarked_simplify? view h args (literal? view h args e).2 t.id
      rw [simplifyValue_call, hbranch, hmarks]
      have happlies := hpassed.applies_eq hfocus hlit
      cases hw : branchOf? h args with
      | none =>
        rw [hw] at happlies
        exact .inl ⟨rfl, hstate', happlies⟩
      | some w =>
        have hmarked' : (literal? view h args e).2.isMarked t.id = isInnerStatement spot.place :=
          hmarked
        rw [hw, Option.any_some] at happlies
        dsimp only
        rw [hmarked']
        split
        · next hstays =>
          refine .inl ⟨rfl, hstate', ?_⟩
          rw [happlies]
          simpa using hstays
        · next hgoes =>
          refine .inr ⟨?_, ?_⟩
          · rw [happlies]
            cases hw : isCall w with
            | true => rfl
            | false => simpa [hw] using hgoes
          · have hx : simplify? view h args (literal? view h args e).2 =
                (some w, (simplify? view h args (literal? view h args e).2).2) :=
              Prod.ext (hbranch.trans hw) rfl
            exact Nat.lt_of_le_of_lt (simplifyValue_reduces view _ _).bulk_le
              (bulk_branch ((simplify?_spec hx).2 w rfl) t h)

end Folding

end HaloScript
