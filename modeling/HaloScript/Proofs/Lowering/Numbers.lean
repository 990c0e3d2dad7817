/-
# Lowering keeps nodes apart

Results of evaluation are remembered under the numbers of nodes, so a step may look at them only
as long as no two nodes have one number.  Every step keeps it that way: an edit uses the numbers
of the value that it edits, each at most once, and otherwise new ones (`Renews`).  Copying draws
all of its numbers, and a substitution keeps the number of the leaf that it replaces.

The numbers of the program change in one declaration with each move of a walk, so what an edit
does to the numbers of a value a whole step does to the numbers of a program
(`Pass.run_numbered`).
-/
import HaloScript.Proofs.Lowering.Folding
import HaloScript.Proofs.Lowering.Loops
import HaloScript.Proofs.Numbering
import HaloScript.Proofs.Walk.Coverage

namespace HaloScript

open List Value

/-! ## 1. New numbers for old ones -/

/-- Numbers that come from `old` or were drawn between `n` and `n'`.  If the old ones are distinct
and all below `n`, the new ones are distinct as well. -/
structure Renews (n n' : Nat) (old new : List Nat) : Prop where
  le : n ≤ n'
  mem : ∀ i ∈ new, i ∈ old ∨ (n ≤ i ∧ i < n')
  nodup : old.Nodup → (∀ i ∈ old, i < n) → new.Nodup

namespace Renews

variable {n m n' : Nat} {old old' new new' ids : List Nat}

theorem refl (n : Nat) (old : List Nat) : Renews n n old old :=
  ⟨Nat.le_refl n, fun _ hi => .inl hi, fun h _ => h⟩

theorem of_consecutive (h : Consecutive n n' new) : Renews n n' old new :=
  ⟨h.1, fun _ hi => .inr (h.mem_iff.mp hi), fun _ _ => h.nodup⟩

theorem below (h : Renews n n' old new) (hold : ∀ i ∈ old, i < n) : ∀ i ∈ new, i < n' := by
  intro i hi
  rcases h.mem i hi with hmem | ⟨-, hlt⟩
  · exact Nat.lt_of_lt_of_le (hold i hmem) h.le
  · exact hlt

theorem trans (h : Renews n m old new) (h' : Renews m n' new new') : Renews n n' old new' where
  le := Nat.le_trans h.le h'.le
  mem i hi := by
    have hle := h.le
    have hle' := h'.le
    rcases h'.mem i hi with hmem | ⟨hm, hn'⟩
    · rcases h.mem i hmem with hold | ⟨hn, hm⟩
      · exact .inl hold
      · exact .inr ⟨hn, by omega⟩
    · exact .inr ⟨by omega, hn'⟩
  nodup hold hbelow := h'.nodup (h.nodup hold hbelow) (h.below hbelow)

theorem sublist (h : Renews n n' old new) (hsub : new'.Sublist new) : Renews n n' old new' :=
  ⟨h.le, fun i hi => h.mem i (hsub.subset hi), fun hold hb => (h.nodup hold hb).sublist hsub⟩

theorem of_sublist (n : Nat) (hsub : new.Sublist old) : Renews n n old new :=
  (refl n old).sublist hsub

theorem weaken (h : Renews n n' old new) (hsub : old.Sublist old') : Renews n n' old' new :=
  ⟨h.le, fun i hi => (h.mem i hi).imp_left fun hmem => hsub.subset hmem,
    fun hold hb => h.nodup (hold.sublist hsub) fun i hi => hb i (hsub.subset hi)⟩

theorem perm (h : Renews n n' old new) (hold : old.Perm old') (hnew : new.Perm new') :
    Renews n n' old' new' where
  le := h.le
  mem i hi := (h.mem i (hnew.mem_iff.mpr hi)).imp_left hold.mem_iff.mp
  nodup hnodup hb := hnew.nodup_iff.mp
    (h.nodup (hold.nodup_iff.mpr hnodup) fun i hi => hb i (hold.mem_iff.mp hi))

/-- Two parts, one after the other. -/
theorem append (h : Renews n m old new) (h' : Renews m n' old' new') :
    Renews n n' (old ++ old') (new ++ new') where
  le := Nat.le_trans h.le h'.le
  mem i hi := by
    have hle := h.le
    have hle' := h'.le
    rw [mem_append]
    rcases mem_append.mp hi with hi | hi
    · rcases h.mem i hi with hmem | ⟨hn, hm⟩
      · exact .inl (.inl hmem)
      · exact .inr ⟨hn, by omega⟩
    · rcases h'.mem i hi with hmem | ⟨hm, hn'⟩
      · exact .inl (.inr hmem)
      · exact .inr ⟨by omega, hn'⟩
  nodup hold hbelow := by
    have hle := h.le
    obtain ⟨hnodup, hnodup', hdisjoint⟩ := nodup_append.mp hold
    have hb : ∀ i ∈ old, i < n := fun i hi => hbelow i (mem_append_left _ hi)
    have hb' : ∀ i ∈ old', i < n := fun i hi => hbelow i (mem_append_right _ hi)
    have hnew' := h'.nodup hnodup' fun i hi => Nat.lt_of_lt_of_le (hb' i hi) hle
    refine nodup_append.mpr ⟨h.nodup hnodup hb, hnew', fun i hi j hj heq => ?_⟩
    -- a number of both parts would be old in both or drawn in both
    subst heq
    rcases h.mem i hi with hmem | ⟨hn, hm⟩
    · rcases h'.mem i hj with hmem' | ⟨hm, -⟩
      · exact hdisjoint i hmem i hmem' rfl
      · have := hb i hmem
        omega
    · rcases h'.mem i hj with hmem' | ⟨hm', -⟩
      · have := hb' i hmem'
        omega
      · omega

theorem of_parts (h : Renews n n' [] ids) (hsub : new.Sublist old) :
    Renews n n' old (new ++ ids) := by
  have hparts := (of_sublist n hsub).append h
  rwa [append_nil] at hparts

/-- Numbers were drawn, but none of them is used. -/
theorem unused (h : Renews n n' [] []) (ids : List Nat) : Renews n n' ids ids := by
  simpa using h.of_parts (.refl ids)

end Renews

/-! ## 2. Copies and substitutions -/

namespace Value

theorem nodesAll_append (xs ys : List Value) :
    nodesAll (xs ++ ys) = nodesAll xs ++ nodesAll ys := by
  induction xs with
  | nil => rfl
  | cons x xs ih => rw [cons_append, nodesAll, ih, nodesAll, append_assoc]

theorem numbers_append (xs ys : List Value) : numbers (xs ++ ys) = numbers xs ++ numbers ys := by
  rw [numbers, nodesAll_append, map_append]
  rfl

theorem exists_numbers_withTag (v : Value) (t : Tag) :
    ∃ inner, numbers [v] = v.id :: inner ∧ numbers [v.withTag t] = t.id :: inner := by
  cases v with
  | leaf => exact ⟨[], rfl, rfl⟩
  | call t' h args =>
    refine ⟨h.id :: numbers args, ?_, ?_⟩
    · rw [numbers_call, numbers_nil, append_nil]
      rfl
    · rw [withTag, numbers_call, numbers_nil, append_nil]

theorem numbers_sublist_of_mem {v : Value} {vs : List Value} (hv : v ∈ vs) :
    (numbers [v]).Sublist (numbers vs) := by
  obtain ⟨xs, ys, rfl⟩ := append_of_mem hv
  rw [numbers_append, numbers_cons v ys]
  exact (sublist_append_left _ _).trans (sublist_append_right _ _)

mutual

/-- **A copy draws the numbers of its nodes.** -/
theorem copy_consecutive (v : Value) (n : NodeId) :
    Consecutive n (v.copy n).2 (numbers [(v.copy n).1]) := by
  match v with
  | .leaf t l => exact (Consecutive.nil (n + 1)).cons
  | .call t h args =>
    rw [copy_call_run, numbers_call, numbers_nil, append_nil]
    exact (copyAll_consecutive args (n + 1 + 1)).cons.cons

theorem copyAll_consecutive (vs : List Value) (n : NodeId) :
    Consecutive n (copyAll vs n).2 (numbers (copyAll vs n).1) := by
  match vs with
  | [] => exact .nil n
  | v :: rest =>
    rw [copyAll_cons_run, numbers_cons]
    exact (copy_consecutive v n).append (copyAll_consecutive rest _)

end

theorem copyAt_renews (id : NodeId) (v : Value) (n : NodeId) :
    Renews n (v.copyAt id n).2 [id] (numbers [(v.copyAt id n).1]) := by
  cases v with
  | leaf => exact .refl n _
  | call t h args =>
    show Renews n (copyAll args (n + 1)).2 [id]
      (numbers [.call { t with id } { h with id := n } (copyAll args (n + 1)).1])
    rw [numbers_call, numbers_nil, append_nil]
    exact (Renews.of_consecutive (copyAll_consecutive args (n + 1)).cons).of_parts (.refl [id])

variable {m : Substitution}

mutual

/-- **A substitution keeps the numbers of a value** and draws those of the replacements. -/
theorem substitute_renews (v : Value) (n : NodeId) :
    Renews n (v.substitute m n).2 (numbers [v]) (numbers [(v.substitute m n).1]) := by
  match v with
  | .leaf t l =>
    rw [substitute_leaf_run]
    split
    · exact .refl n _
    · next new hnew => exact copyAt_renews t.id new n
  | .call t h args =>
    rw [substitute_call_run, numbers_call, numbers_call]
    simp only [numbers_nil, append_nil]
    exact (Renews.refl n [t.id, h.id]).append (substituteAll_renews args n)

theorem substituteAll_renews (vs : List Value) (n : NodeId) :
    Renews n (substituteAll m vs n).2 (numbers vs) (numbers (substituteAll m vs n).1) := by
  match vs with
  | [] => exact .refl n _
  | v :: rest =>
    rw [substituteAll_cons_run]
    rw [numbers_cons v rest, numbers_cons (v.substitute m n).1]
    exact (substitute_renews v n).append (substituteAll_renews rest _)

end

/-- **An instance has new numbers only.** -/
theorem instantiateAll_renews (vs : List Value) (n : NodeId) :
    Renews n (instantiateAll m vs n).2 [] (numbers (instantiateAll m vs n).1) := by
  rw [instantiateAll_run]
  exact (Renews.of_consecutive (copyAll_consecutive vs n)).trans (substituteAll_renews _ _)

end Value

theorem Supply.mapM_renews {α : Type} {f : α → Supply (List Value)}
    (hf : ∀ a n, Renews n (f a n).2 [] (Value.numbers (f a n).1)) (xs : List α) (n : NodeId) :
    Renews n (xs.mapM f n).2 [] (Value.numbers (xs.mapM f n).1.flatten) := by
  induction xs generalizing n with
  | nil => exact .refl n _
  | cons x rest ih =>
    rw [mapM_cons]
    have hrest := (hf x n).append (ih (f x n).2)
    rw [append_nil, ← numbers_append] at hrest
    exact hrest

/-! ## 3. The edits -/

/-- The edits of a step use the numbers of what they edit, and new ones. -/
structure Hooks.Renew (h : Hooks Env) : Prop where
  onGlobal : ∀ view g e, (h.onGlobal view g e).2.nextNode = e.nextNode
  onScript : ∀ script e, (h.onScript script e).2.nextNode = e.nextNode
  onCall : ∀ head e, (h.onCall head e).nextNode = e.nextNode
  onElement : ∀ view place v e, Renews e.nextNode (h.onElement view place v e).2.nextNode
    (Value.numbers [v]) (Value.numbers (h.onElement view place v e).1.values)
  onValue : ∀ view v e, Renews e.nextNode (h.onValue view v e).2.nextNode
    (Value.numbers [v]) (Value.numbers [(h.onValue view v e).1])

theorem Value.numbers_sublist_call (t : Tag) (h : Head) (args : List Value) :
    [t.id, h.id].Sublist (Value.numbers [.call t h args]) := by
  rw [numbers_call]
  exact ((nil_sublist _).cons_cons h.id).cons_cons t.id

theorem Env.nextNode_spend (e : Env) (n : Int64) (span : Option Span) :
    (e.spend n span).2.nextNode = e.nextNode := by
  unfold Env.spend
  split
  · rfl
  · split <;> rfl

namespace Macros

/-- An expansion has new numbers only. -/
theorem expand?_renews (view : View) (h : Head) (args : List Value) (e : Env) :
    Renews e.nextNode (expand? view h args e).2.nextNode []
      (Value.numbers ((expand? view h args e).1.getD [])) := by
  unfold expand?
  split
  · exact .refl _ _
  · split
    · exact .refl _ _
    · next m hm =>
      split
      · exact .refl _ _
      · split
        · exact .refl _ _
        · have hspend := Env.nextNode_spend e 1 h.span
          split
          · next hx =>
            rw [hx] at hspend
            rw [← hspend]
            exact .refl _ _
          · next hx =>
            rw [hx] at hspend
            rw [← hspend]
            exact instantiateAll_renews m.body _

/-- The numbers of an expanded value are among those that it had and those that were drawn. -/
theorem expandValue_renews (view : View) (v : Value) (e : Env) :
    Renews e.nextNode (expandValue view v e).2.nextNode (Value.numbers [v])
      (Value.numbers [(expandValue view v e).1]) := by
  fun_induction expandValue view v e with
  | case1 e t l => exact .refl _ _
  | case2 e t h args e' hx =>
    have hdrawn := expand?_renews view h args e
    rw [hx] at hdrawn
    exact hdrawn.unused _
  | case3 e t h args w e' hx ih =>
    have hdrawn := expand?_renews view h args e
    rw [hx, Option.getD_some] at hdrawn
    obtain ⟨inner, hw, htag⟩ := exists_numbers_withTag w t
    rw [hw] at hdrawn
    rw [htag] at ih
    have hkept : [t.id].Sublist (Value.numbers [.call t h args]) :=
      (sublist_append_left [t.id] [h.id]).trans (numbers_sublist_call t h args)
    exact ((hdrawn.sublist (sublist_cons_self _ _)).of_parts hkept).trans ih
  | case4 e t h args vs e' _ hx =>
    have hdrawn := expand?_renews view h args e
    rw [hx, Option.getD_some] at hdrawn
    have hcall := hdrawn.of_parts (numbers_sublist_call t h args)
    rw [numbers_call t h.becomeBegin, numbers_nil, append_nil]
    exact hcall

theorem expandElement_renews (view : View) (place : Place) (v : Value) (e : Env) :
    Renews e.nextNode (expandElement view place v e).2.nextNode (Value.numbers [v])
      (Value.numbers (expandElement view place v e).1.values) := by
  unfold expandElement
  split
  · exact .refl _ _
  · next t h args =>
    split
    · have hdrawn := expand?_renews view h args e
      split
      · next vs e' hx =>
        rw [hx] at hdrawn
        exact hdrawn.weaken (nil_sublist _)
      · next e' hx =>
        rw [hx] at hdrawn
        exact hdrawn.unused _
    · exact .refl _ _

theorem hooks_renew : hooks.Renew where
  onGlobal _ _ _ := rfl
  onScript _ _ := rfl
  onCall _ _ := rfl
  onElement := expandElement_renews
  onValue := expandValue_renews

end Macros

namespace Loops

theorem copies_renews (counter : Value) (body : List Value) (start stop : Int64) (n : NodeId) :
    Renews n (copies counter body start stop n).2 []
      (Value.numbers (copies counter body start stop n).1) := by
  rw [copies_eq]
  refine Supply.mapM_renews (fun i n => ?_) _ n
  -- the counter takes a number of its own, which no copy has
  have hinstance := instantiateAll_renews
    (m := (Substitution.add? {} counter (.leaf ⟨n, none⟩
      (.atom (Text.ofInt i.toInt)))).getD {}) body (n + 1)
  have hcounter : Renews n (n + 1) [] [] := ⟨Nat.le_succ n, fun i hi => absurd hi not_mem_nil,
    fun _ _ => nodup_nil⟩
  exact hcounter.trans hinstance

theorem nextNode_bound? (view : View) (name : Text) (v : Value) (e : Env) :
    (bound? view name v e).2.nextNode = e.nextNode := by
  unfold bound?
  dsimp only
  split
  · rfl
  · split <;> rfl

/-- The copies of a loop's body have numbers that were drawn for them. -/
theorem tryUnroll_renews (view : View) (h : Head) (args : List Value) (e : Env) :
    Renews e.nextNode (tryUnroll view h args e).2.nextNode []
      (Value.numbers ((tryUnroll view h args e).1.getD [])) := by
  unfold tryUnroll
  split
  · next counter low high body =>
    have h₁ := nextNode_bound? view "start" low e
    split
    · next hx =>
      rw [hx] at h₁
      rw [← h₁]
      exact .refl _ _
    · next start e₁ hx =>
      rw [hx] at h₁
      have h₂ := nextNode_bound? view "end" high e₁
      split
      · next hx =>
        rw [hx] at h₂
        rw [← h₁, ← h₂]
        exact .refl _ _
      · next stop e₂ hx =>
        rw [hx] at h₂
        rw [← h₁, ← h₂]
        split
        · exact .refl _ _
        · have h₃ := Env.nextNode_spend e₂
            (price e₂.budget.limit start stop body.length).toInt64 h.span
          split
          · next hx =>
            rw [hx] at h₃
            rw [← h₃]
            exact .refl _ _
          · next hx =>
            rw [hx] at h₃
            rw [← h₃]
            exact copies_renews counter body start stop _
  · exact .refl _ _

theorem unroll?_renews (view : View) (h : Head) (args : List Value) (e : Env) :
    Renews e.nextNode (unroll? view h args e).2.nextNode []
      (Value.numbers ((unroll? view h args e).1.getD [])) := by
  unfold unroll?
  split
  · exact .refl _ _
  · have htry := tryUnroll_renews view h args e
    split
    · next hx =>
      rw [hx] at htry
      exact htry
    · next hx =>
      rw [hx] at htry
      exact htry

theorem unrollElement_renews (view : View) (place : Place) (v : Value) (e : Env) :
    Renews e.nextNode (unrollElement view place v e).2.nextNode (Value.numbers [v])
      (Value.numbers (unrollElement view place v e).1.values) := by
  unfold unrollElement
  split
  · exact .refl _ _
  · next t h args =>
    split
    · have hdrawn := unroll?_renews view h args e
      split
      · next e' hx =>
        rw [hx] at hdrawn
        exact hdrawn.unused _
      · next vs e' hx =>
        rw [hx] at hdrawn
        split
        · exact (hdrawn.sublist (nil_sublist _)).of_parts (numbers_sublist_call t h args)
        · exact hdrawn.weaken (nil_sublist _)
    · exact .refl _ _

theorem unrollValue_renews (view : View) (v : Value) (e : Env) :
    Renews e.nextNode (unrollValue view v e).2.nextNode (Value.numbers [v])
      (Value.numbers [(unrollValue view v e).1]) := by
  unfold unrollValue
  split
  · exact .refl _ _
  · next t h args =>
    have hdrawn := unroll?_renews view h args e
    split
    · next e' hx =>
      rw [hx] at hdrawn
      exact hdrawn.unused _
    · next vs e' hx =>
      rw [hx] at hdrawn
      rw [numbers_call t h.becomeBegin, numbers_nil, append_nil]
      exact hdrawn.of_parts (numbers_sublist_call t h args)

theorem hooks_renew : hooks.Renew where
  onGlobal _ _ _ := rfl
  onScript _ _ := rfl
  onCall _ _ := rfl
  onElement := unrollElement_renews
  onValue := unrollValue_renews

end Loops

namespace ConstGlobals

theorem hooks_renew : hooks.Renew where
  onGlobal view g e := by
    show (judge view g e).2.nextNode = e.nextNode
    unfold judge
    split
    · split
      · next hx => exact congrArg (fun r => r.2.nextNode) hx.symm
      · next hx => exact congrArg (fun r => r.2.nextNode) hx.symm
    · rfl
  onScript _ _ := rfl
  onCall _ _ := rfl
  onElement _ _ _ _ := .refl _ _
  onValue view v e := by
    show Renews e.nextNode (inline view v e).2.nextNode (Value.numbers [v])
      (Value.numbers [(inline view v e).1])
    unfold inline
    split
    · next t id =>
      have hnext : (literal? view id e).2.nextNode = e.nextNode := rfl
      split
      · split
        · next hx =>
          rw [hx] at hnext
          rw [← hnext]
          exact .refl _ _
        · next hx =>
          rw [hx] at hnext
          rw [← hnext]
          exact .refl _ _
      · exact .refl _ _
    · exact .refl _ _

end ConstGlobals

namespace Folding

/-- Folding draws no numbers. -/
theorem keeps_nextNode (view : View) (n : NodeId) :
    Keeps view (fun _ => True) fun e => e.nextNode = n :=
  ⟨fun _ _ _ => trivial, fun _ he => he, fun _ he => he⟩

theorem Reduces.numbers_sublist {v w : Value} (h : Reduces v w) :
    (Value.numbers [w]).Sublist (Value.numbers [v]) := by
  induction h with
  | refl => exact .refl _
  | @branch t h args w v hw _ ih =>
    obtain ⟨inner, hold, hnew⟩ := exists_numbers_withTag w t
    have hargs := Value.numbers_sublist_of_mem hw
    rw [hold] at hargs
    refine ih.trans ?_
    rw [hnew, numbers_call, numbers_nil, append_nil]
    exact (((sublist_cons_self _ _).trans hargs).cons h.id).cons_cons t.id

theorem foldValue_renews (view : View) (v : Value) (e : Env) :
    Renews e.nextNode (foldValue view v e).2.nextNode (Value.numbers [v])
      (Value.numbers [(foldValue view v e).1]) := by
  rw [(keeps_nextNode view e.nextNode).foldValue (v := v) trivial rfl]
  refine .of_sublist _ ?_
  rcases foldValue_reduces view v e with hred | ⟨t, h, args, text, rfl, -, heq⟩
  · exact hred.numbers_sublist
  · rw [heq]
    exact (sublist_append_left [t.id] [h.id]).trans (numbers_sublist_call t h args)

theorem foldElement_renews (view : View) (place : Place) (v : Value) (e : Env) :
    Renews e.nextNode (foldElement view place v e).2.nextNode (Value.numbers [v])
      (Value.numbers (foldElement view place v e).1.values) := by
  rw [(keeps_nextNode view e.nextNode).foldElement (v := v) id place trivial rfl]
  refine .of_sublist _ ?_
  have hoffered := foldElement_offered view place v e
  generalize (foldElement view place v e).1 = o at hoffered
  cases hoffered with
  | keep => exact .refl _
  | drop => exact nil_sublist _
  | empty t h args => exact numbers_sublist_call t h args

theorem hooks_renew : hooks.Renew where
  onGlobal _ _ _ := rfl
  onScript _ _ := rfl
  onCall _ _ := rfl
  onElement := foldElement_renews
  onValue := foldValue_renews

end Folding

theorem Pass.hooks_renew (pass : Pass) : pass.hooks.Renew := by
  cases pass with
  | macros => exact Macros.hooks_renew
  | loops => exact Loops.hooks_renew
  | constGlobals => exact ConstGlobals.hooks_renew
  | folding => exact Folding.hooks_renew

/-! ## 4. Steps -/

namespace Program

variable {p : Program}

theorem Tidy.nodes_eq (hp : p.Tidy) :
    p.nodes = p.allIds.flatMap fun d => Value.nodesAll (p.content d) := by
  rw [allIds_eq_map, flatMap_map, nodes]
  refine flatMap_congr fun a ha => ?_
  rw [content_eq (hp.declaration?_id ha)]

def numbers (p : Program) : List NodeId := p.allIds.flatMap fun d => Value.numbers (p.content d)

theorem Tidy.numbers_eq (hp : p.Tidy) : p.numbers = p.nodes.map Node.number := by
  rw [hp.nodes_eq, map_flatMap, numbers]
  rfl

theorem numbers_content (h : p.numbers.Nodup) {d : DeclId} (hd : d ∈ p.allIds) :
    (Value.numbers (p.content d)).Nodup := (nodup_flatMap.mp h).1 d hd

theorem Numbered.numbers (hn : p.Numbered) (hp : p.Tidy) :
    p.numbers.Nodup ∧ ∀ i ∈ p.numbers, i < p.nextNode := by
  rw [hp.numbers_eq]
  refine ⟨hn.nodup, fun i hi => ?_⟩
  obtain ⟨K, hK, rfl⟩ := mem_map.mp hi
  exact hn.below K hK

/-- Declarations have no numbers in common. -/
theorem numbers_disjoint (h : p.numbers.Nodup) {d d' : DeclId} (hd : d ∈ p.allIds)
    (hd' : d' ∈ p.allIds) (hne : d ≠ d') :
    ∀ i ∈ Value.numbers (p.content d), i ∉ Value.numbers (p.content d') := by
  have : Std.Symm (Function.onFun List.Disjoint fun d => Value.numbers (p.content d)) :=
    ⟨fun _ _ h _ hi hi' => h hi' hi⟩
  intro i hi hi'
  exact (nodup_flatMap.mp h).2.forall hd hd' hne hi hi'

end Program

theorem Spot.Edit.numbers_perm {spot : Spot} {vs xs ys : List Value} {o : Owner}
    (h : spot.Edit vs o xs ys) : ∃ others,
      (Value.numbers xs).Perm (Value.numbers [spot.focus] ++ others) ∧
        (Value.numbers ys).Perm (Value.numbers vs ++ others) :=
  h.perm Value.numbers (fun t h => [t.id, h.id]) numbers_append
    fun t h args => by simp [numbers_call]

namespace Standing

variable {p : Program} {s s' : Standing Env} {h : Hooks Env}

/-- An edit of one declaration does to the numbers of the program what it does to those of the
value. -/
theorem Orderly.renews_put (hs : s.Orderly p) (hp : p.Tidy) {d : DeclId} (hd : d ∈ s.opened)
    {vs ws : List Value} (hsuits : Declaration.Suits d vs) {spot : Spot} {o : Owner}
    (hedit : spot.Edit ws o (s.now.content d) vs) {n n' : NodeId}
    (hws : Renews n n' (Value.numbers [spot.focus]) (Value.numbers ws)) :
    Renews n n' s.now.numbers (s.now.put d vs).numbers := by
  have hknown := hs.known_now (hs.opened_known d hd)
  obtain ⟨others, hold, hnew⟩ := hedit.numbers_perm
  obtain ⟨rest, hbefore, hafter⟩ := flatMap_perm_exchange (hs.tidy hp).allIds_nodup hknown
    (f := fun e => Value.numbers (s.now.content e))
    (g := fun e => Value.numbers ((s.now.put d vs).content e))
    fun e he hne => by rw [(hs.tidy hp).content_put_of_ne hknown he hne.symm]
  rw [hs.content_put_self hp hd hsuits] at hafter
  have hids : (s.now.put d vs).numbers =
      s.now.allIds.flatMap fun e => Value.numbers ((s.now.put d vs).content e) := by
    rw [Program.numbers, (hs.tidy hp).allIds_put hknown]
  rw [hids]
  refine Renews.perm ((hws.append (.refl n' others)).append (.refl n' rest)) ?_ ?_
  · exact (hbefore.trans (hold.append_right rest)).symm
  · exact (hafter.trans (hnew.append_right rest)).symm

/-- **Every move of a step keeps nodes apart.** -/
theorem Orderly.renews_move (hs : s.Orderly p) (hp : p.Tidy) (hh : h.Renew) (hmove : Move h s s') :
    Renews s.state.nextNode s'.state.nextNode s.now.numbers s'.now.numbers := by
  cases hmove with
  | global view g hview hg hunseen =>
    have hknown := hs.unseen_known _ hunseen
    have halike : s.now.Alike (s.enterGlobal g (h.onGlobal view g s.state)).now :=
      Program.alike_setGlobal hg rfl rfl
    have hnumbers : (s.enterGlobal g (h.onGlobal view g s.state)).now.numbers = s.now.numbers := by
      rw [Program.numbers, ← halike.allIds_eq, Program.numbers]
      refine flatMap_congr fun e he => ?_
      rw [hs.content_enterGlobal hp hg hknown (hs.alike.allIds_eq ▸ he)]
    have hnext : (s.enterGlobal g (h.onGlobal view g s.state)).state.nextNode = s.state.nextNode :=
      hh.onGlobal view g s.state
    rw [hnumbers, hnext]
    exact .refl _ _
  | script a =>
    have hnext : (s.enterScript a (h.onScript a s.state)).state.nextNode = s.state.nextNode :=
      hh.onScript a s.state
    rw [hnext]
    exact .refl _ _
  | element view d spot vs rest hview hd howner hdue hpending hedit hsuits =>
    exact hs.renews_put hp hd hsuits hedit (hh.onElement view spot.place spot.focus s.state)
  | value view d spot vs rest hview hd hoffered hdue hpending hedit hsuits =>
    exact hs.renews_put hp hd hsuits hedit (hh.onValue view spot.focus s.state)
  | call head =>
    have hnext := hh.onCall head s.state
    rw [hnext]
    exact .refl _ _
  | skip => exact .refl _ _

end Standing

/-- **A step keeps the nodes of a program apart**, whatever it has to start from. -/
theorem Pass.run_numbered_from (pass : Pass) {p : Program} (hp : p.Tidy) (hn : p.Numbered)
    (e : Env) : (pass.run p e).1.Numbered := by
  unfold Pass.run
  generalize he : ({ e with nextNode := p.nextNode, marks := {} } : Env) = e
  have hnext : e.nextNode = p.nextNode := by rw [← he]
  obtain ⟨s, hs, -, -, hrenews, hwalk⟩ := Program.walk_covered hp pass.hooks e
    (Q := fun s => Renews p.nextNode s.state.nextNode p.numbers s.now.numbers)
    (by rw [← hnext]; exact .refl _ _)
    fun s s' hs hq hmove => hq.trans (hs.renews_move hp pass.hooks_renew hmove)
  obtain ⟨hglobals, hscripts, -⟩ := Program.foldl_remove (s.removed.map DeclId.name).reverse s.now
  have hnodes : (({ (p.walk pass.hooks true e).1 with
      nextNode := (p.walk pass.hooks true e).2.nextNode } : Program).nodes).map Node.number =
      s.now.numbers := by
    rw [(hs.tidy hp).numbers_eq, hwalk, Program.nodes, Program.all, hglobals, hscripts,
      Program.nodes, Program.all]
  obtain ⟨hnodup, hbelow⟩ := hn.numbers hp
  show Program.Numbered { (p.walk pass.hooks true e).1 with
    nextNode := (p.walk pass.hooks true e).2.nextNode }
  constructor
  · rw [hnodes]
    exact hrenews.nodup hnodup hbelow
  · intro K hK
    have hmem : K.number ∈ s.now.numbers := hnodes ▸ mem_map_of_mem hK
    rw [hwalk]
    exact hrenews.below hbelow _ hmem

theorem Pass.run_numbered (pass : Pass) {p : Program} (hp : p.Tidy) (hn : p.Numbered)
    (report : Report) (limit : Int64) :
    (pass.run p (.fresh p.nextNode report limit)).1.Numbered :=
  pass.run_numbered_from hp hn _

end HaloScript
