/-
# Folding keeps statements

The body of a script is a list of statements.  All of them are calls, except that the last one may
be any value: it is what the script returns.  Constant folding drops statements, folds calls to
atoms and puts branches in the place of conditionals while it goes through the list, and still
leaves such a body, and no body empty that was not (`Program.folding_keeps_statements`).

Whether a statement is the last one, or the only one, is judged when it is offered.  What is dropped
there is neither the last statement that is left nor needed to be a call.  A call that stays and is
not the last is marked, and a marked call is a call also after it has been visited
(`Folding.isCall_foldValue`).  Since nothing is ever put in behind a statement, a judgement once
made stays right.
-/
import HaloScript.Proofs.Lowering.Kept

namespace HaloScript

open Folding List

/-! ## 1. Lists of statements -/

/-- Values other than calls stand only at the end. -/
def Value.Statements (vs : List Value) : Prop := ∀ v ∈ vs.dropLast, isCall v = true

instance (vs : List Value) : Decidable (Value.Statements vs) :=
  inferInstanceAs (Decidable (∀ v ∈ vs.dropLast, isCall v = true))

namespace Value

variable {xs ys : List Value}

theorem statements_append (hxs : ∀ v ∈ xs, isCall v = true) (hys : Statements ys) :
    Statements (xs ++ ys) := by
  intro v hv
  rw [dropLast_append] at hv
  split at hv
  · exact hxs v (dropLast_subset _ hv)
  · exact (mem_append.mp hv).elim (hxs v) (hys v)

theorem statements_cons {v : Value} {rest : List Value} (hv : rest ≠ [] → isCall v = true)
    (hrest : Statements rest) : Statements (v :: rest) := by
  cases rest with
  | nil => exact fun _ h => absurd h not_mem_nil
  | cons => exact forall_mem_cons.mpr ⟨hv (cons_ne_nil _ _), hrest⟩

/-- What can be said of the parts of a list of statements. -/
theorem Statements.split {v : Value} (h : Statements (xs ++ v :: ys)) :
    (∀ u ∈ xs, isCall u = true) ∧ (ys ≠ [] → isCall v = true) ∧ Statements ys := by
  rw [Statements, dropLast_append_cons, forall_mem_append] at h
  refine ⟨h.1, fun hne => h.2 v ?_, fun u hu => h.2 u ?_⟩
  · rw [dropLast_cons_of_ne_nil hne]
    exact mem_cons_self
  · have hne : ys ≠ [] := by
      rintro rfl
      exact absurd hu not_mem_nil
    rw [dropLast_cons_of_ne_nil hne]
    exact mem_cons_of_mem v hu

theorem Statements.exchange {v w : Value} (h : Statements (xs ++ v :: ys))
    (hw : ys ≠ [] → isCall v = true → isCall w = true) : Statements (xs ++ w :: ys) := by
  obtain ⟨hxs, hv, hys⟩ := h.split
  exact statements_append hxs (statements_cons (fun hne => hw hne (hv hne)) hys)

theorem Statements.drop {v : Value} (h : Statements (xs ++ v :: ys)) :
    Statements (xs ++ ys) := statements_append h.split.1 h.split.2.2

end Value

/-- **What becomes of a list of statements.**  It stays one, and does not become empty. -/
def Value.Outlasts (vs ws : List Value) : Prop :=
  Value.Statements vs → Value.Statements ws ∧ (vs ≠ [] → ws ≠ [])

theorem Value.Outlasts.trans {us vs ws : List Value} (h : Outlasts us vs) (h' : Outlasts vs ws) :
    Outlasts us ws := fun hus =>
  ⟨(h' (h hus).1).1, fun hne => (h' (h hus).1).2 ((h hus).2 hne)⟩

/-! ## 2. What folding does to a statement -/

namespace Folding

variable {spot : Spot}

theorem takesStatements_of_isBody {o : Owner} (h : o.isBody = true) : o.takesStatements = true := by
  cases o with
  | script => rfl
  | global | call => cases h

/-- What becomes of a statement that is offered.  It is dropped, but not if it is the only one; or
it stays the call that it was, or became an empty one, and is marked if it is not the last. -/
inductive Outcome (place : Place) (v : Value) (e : Env) : Offer → Prop
  | drop (hothers : place.owner.isBody = true → (place.hasPrevious || place.hasNext) = true) :
    Outcome place v e (.drop [])
  | keep (w : Value) (hid : w.id = v.id) (hcall : isCall w = isCall v)
    (hmarked : isInnerStatement place = true → isCall v = true → e.isMarked v.id = true) :
    Outcome place v e (.keep w [])

/-- What becomes of an `if` among statements.  The mark that an inner statement needs has to be
there before (`hmarked`): folding an `if` sets none. -/
theorem foldConditional_outcome (view : View) (place : Place) (t : Tag) (h : Head)
    (args : List Value) (e : Env)
    (hmarked : isInnerStatement place = true → e.isMarked t.id = true) :
    Outcome place (.call t h args) (foldConditional view place t h args e).2
      (foldConditional view place t h args e).1 := by
  have hmarks := isMarked_condition? view h args e t.id
  unfold foldConditional
  generalize condition? view h args e = out at hmarks
  obtain ⟨answer, e'⟩ := out
  have hkeep : ∀ h' args', Outcome place (.call t h args) e' (.keep (.call t h' args') []) :=
    fun h' args' => .keep _ rfl rfl fun hinner _ => hmarks.trans (hmarked hinner)
  match answer with
  | none | some true => exact hkeep h args
  | some false =>
    dsimp only
    split
    · split
      · exact hkeep _ []
      · next honly =>
        refine .drop fun hbody => ?_
        simp only [isOnlyStatement, hbody, Bool.true_and] at honly
        cases hprevious : place.hasPrevious <;> cases hnext : place.hasNext <;> simp_all
    · exact hkeep h args

/-- **An element is offered.** -/
theorem foldElement_outcome (view : View) (place : Place) (v : Value) (e : Env) :
    Outcome place v (foldElement view place v e).2 (foldElement view place v e).1 := by
  cases v with
  | leaf => exact .keep _ rfl rfl fun _ hcall => absurd hcall Bool.false_ne_true
  | call t h args =>
    rw [foldElement_call]
    split
    · split
      · next hinner =>
        split
        · refine .drop fun _ => ?_
          rw [(Bool.and_eq_true_iff.mp hinner).2, Bool.or_true]
        · exact foldConditional_outcome view place t h args _
            fun _ => by simp [Env.mark, Env.isMarked]
      · next hlast => exact foldConditional_outcome view place t h args e fun h => absurd h hlast
    · next htakes =>
      refine .keep _ rfl rfl fun hinner _ => absurd ?_ htakes
      exact takesStatements_of_isBody (Bool.and_eq_true_iff.mp hinner).1

theorem isCall_simplifyValue (view : View) (v : Value) (e : Env) (hcall : isCall v = true)
    (hmarked : e.isMarked v.id = true) : isCall (simplifyValue view v e).1 = true := by
  fun_induction simplifyValue view v e with
  | case1 => cases hcall
  | case2 | case3 => rfl
  | case4 e t h args w e' hx hm ih =>
    have hmarks := isMarked_simplify? view h args e t.id
    rw [hx] at hmarks
    have hmarked' : e'.isMarked t.id = true := hmarks.trans hmarked
    have hw : isCall w = true := by simpa [hmarked'] using hm
    cases w with
    | leaf => cases hw
    | call => exact ih rfl hmarked'

/-- **A marked call stays a call.** -/
theorem isCall_foldValue (view : View) (v : Value) (e : Env) (hcall : isCall v = true)
    (hmarked : e.isMarked v.id = true) : isCall (foldValue view v e).1 = true := by
  cases v with
  | leaf => cases hcall
  | call t =>
    have hmark : e.isMarked t.id = true := hmarked
    rw [foldValue_call, hmark]
    split
    · rfl
    · exact isCall_simplifyValue view _ _ rfl hmark

/-! ## 3. The walk -/

/-- A statement that has been offered, and is a call and not the last, is marked. -/
def Guards (s : Standing Env) : Prop :=
  ∀ spot, s.offered = some spot → isInnerStatement spot.place = true → isCall spot.focus = true →
    s.state.isMarked spot.focus.id = true

/-- An edit of the body of a script is one of a statement, or of a call inside a statement. -/
theorem edit_cases {vs xs ys : List Value} {o : Owner} (h : spot.Edit vs o xs ys) :
    (o = spot.owner ∧ xs = spot.before ++ spot.focus :: spot.after ∧
      ys = spot.before ++ (vs ++ spot.after)) ∨
    ∃ left t head args args' right, xs = left ++ .call t head args :: right ∧
      ys = left ++ .call t head args' :: right := by
  cases h with
  | here => exact .inl ⟨rfl, rfl, rfl⟩
  | inside left right => exact .inr ⟨left, _, _, _, _, right, rfl, rfl⟩

theorem outlasts_inside (left right : List Value) (t : Tag) (head : Head)
    (args args' : List Value) :
    Value.Outlasts (left ++ .call t head args :: right) (left ++ .call t head args' :: right) :=
  fun h => ⟨h.exchange fun _ _ => rfl, fun _ => by simp⟩

variable {p : Program} {s s' : Standing Env} {view : View} {id : ScriptId}

/-- **A statement is offered.** -/
theorem outlasts_element {xs ys : List Value}
    (hedit : spot.Edit (foldElement view spot.place spot.focus s.state).1.values (.script id)
      xs ys) :
    Value.Outlasts xs ys := by
  have hout := foldElement_outcome view spot.place spot.focus s.state
  rcases edit_cases hedit with ⟨howner, rfl, rfl⟩ | ⟨left, t, head, args, args', right, rfl, rfl⟩
  · intro hxs
    generalize (foldElement view spot.place spot.focus s.state).1 = answer at hout
    cases hout with
    | drop hothers =>
      refine ⟨hxs.drop, fun _ hnil => ?_⟩
      have hbody : spot.place.owner.isBody = true := by
        show spot.owner.isBody = true
        rw [← howner]
        rfl
      have hempty : spot.before = [] ∧ spot.after = [] := by simpa [Offer.values] using hnil
      have hothers' := hothers hbody
      simp [Spot.place, hempty] at hothers'
    | keep w hid hcall =>
      refine ⟨hxs.exchange fun _ hv => hcall.trans hv, fun _ => by simp [Offer.values]⟩
  · exact outlasts_inside left right t head args args'

/-- **A statement is visited.** -/
theorem outlasts_value (hguards : Guards s)
    (hoffered : (∀ id, spot.owner ≠ .global id) → s.offered = some spot) {xs ys : List Value}
    (hedit : spot.Edit [(foldValue view spot.focus s.state).1] (.script id) xs ys) :
    Value.Outlasts xs ys := by
  rcases edit_cases hedit with ⟨howner, rfl, rfl⟩ | ⟨left, t, head, args, args', right, rfl, rfl⟩
  · refine fun hxs => ⟨hxs.exchange fun hnext hcall => ?_, fun _ => by simp⟩
    have hinner : isInnerStatement spot.place = true := by
      have hbody : spot.owner.isBody = true := howner ▸ rfl
      simp [isInnerStatement, Spot.place, hbody, hnext]
    exact isCall_foldValue view _ _ hcall
      (hguards spot (hoffered fun id' h => by rw [h] at howner; cases howner) hinner hcall)
  · exact outlasts_inside left right t head args args'

/-- What has been offered is marked where it has to be. -/
theorem Guards.move (h : Guards s) (hmove : Move hooks s s') : Guards s' := by
  cases hmove with
  | global | script | call | skip => exact h
  | value => exact fun _ hoffered => absurd hoffered (Option.some_ne_none _).symm
  | element view d spot vs rest =>
    intro spot' hoffered hinner hcall
    have hout := foldElement_outcome view spot.place spot.focus s.state
    have hoffer :
        (s.offer d spot (foldElement view spot.place spot.focus s.state) vs rest).offered =
      some spot' := hoffered
    show (foldElement view spot.place spot.focus s.state).2.isMarked spot'.focus.id = true
    rw [Standing.offer] at hoffer
    generalize (foldElement view spot.place spot.focus s.state).1 = answer at hout hoffer
    cases hout with
    | drop => cases hoffer
    | keep w hid hsame hmarked =>
      obtain rfl := Option.some.inj hoffer
      rw [show (⟨spot.owner, spot.before, w, [] ++ spot.after⟩ : Spot).focus.id =
        spot.focus.id from hid]
      exact hmarked hinner (hsame ▸ hcall)

/-- The scripts have kept their statements. -/
structure Bodies (p : Program) (s : Standing Env) : Prop where
  guards : Guards s
  removed : s.removed = []
  outlasts : ∀ id, .script id ∈ p.allIds →
    Value.Outlasts (p.content (.script id)) (s.now.content (.script id))

theorem Bodies.put (h : Bodies p s) (hs : s.Orderly p) (hp : p.Tidy) {d : DeclId}
    (hd : d ∈ s.opened) {vs : List Value} (hsuits : Declaration.Suits d vs)
    (hedit : ∀ id, d = .script id → Value.Outlasts (s.now.content d) vs) (id : ScriptId)
    (hid : .script id ∈ p.allIds) :
    Value.Outlasts (p.content (.script id)) ((s.now.put d vs).content (.script id)) := by
  by_cases heq : d = .script id
  · subst heq
    rw [hs.content_put_self hp hd hsuits]
    exact (h.outlasts id hid).trans (hedit id rfl)
  · rw [hs.content_put_of_ne hp hd hid heq]
    exact h.outlasts id hid

/-- **Every move keeps the statements.** -/
theorem Bodies.move (h : Bodies p s) (hs : s.Orderly p) (hp : p.Tidy) (hmove : Move hooks s s') :
    Bodies p s' where
  guards := h.guards.move hmove
  removed := Standing.removed_eq_nil_move (fun _ _ _ => rfl) (fun _ _ => rfl) h.removed hmove
  outlasts := by
    cases hmove with
    | script | call | skip => exact h.outlasts
    | global view g hview hg =>
      rw [now_enterGlobal hg]
      exact h.outlasts
    | element view d spot vs rest hview hd howner hdue hpending hedit hsuits =>
      exact h.put hs hp hd hsuits fun id hid => by subst hid; exact outlasts_element hedit
    | value view d spot vs rest hview hd hoffered hdue hpending hedit hsuits =>
      exact h.put hs hp hd hsuits fun id hid => by
        subst hid
        exact outlasts_value h.guards hoffered hedit

end Folding

/-- **Constant folding keeps the bodies of scripts well formed.**  Whatever it starts from, the
table stays, and a script whose values other than calls stand only at the end is such a script after
it, with a body that is not empty if it was not. -/
theorem Program.folding_keeps_statements (p : Program) (hp : p.Tidy) (e : Env) :
    (Pass.folding.run p e).1.table = p.table ∧
      ∀ a ∈ p.scripts, Value.Statements a.body →
        ∃ b, (Pass.folding.run p e).1.script? a.id = some b ∧ Value.Statements b.body ∧
          (a.body ≠ [] → b.body ≠ []) := by
  obtain ⟨s, hbodies, hf⟩ := walk_final hp hooks { e with nextNode := p.nextNode, marks := {} }
    (Q := Bodies p) ⟨fun _ h => (by cases h), rfl, fun _ _ h => ⟨h, fun h => h⟩⟩
    fun s s' hs h hmove => h.move hs hp hmove
  refine ⟨hf.table_eq hp hbodies.removed, fun a ha hstatements => ?_⟩
  have hid : .script a.id ∈ p.allIds := mem_append_right _
    (mem_map_of_mem (f := fun a : Script => DeclId.script a.id) (Array.mem_toList_iff.mpr ha))
  obtain ⟨b, -, hb, -⟩ := (hf.tidy hp).script?_of_mem_allIds (hf.allIds_eq ▸ hid)
  have hbefore : p.content (.script a.id) = a.body :=
    content_eq (a := .script a) (by simp [declaration?, hp.script?_id ha])
  have hafter : s.now.content (.script a.id) = b.body := by
    rw [← hf.content_eq]
    exact content_eq (a := .script b) (by simp [declaration?, hb])
  have hkept := hbodies.outlasts a.id hid
  rw [hbefore, hafter] at hkept
  exact ⟨b, hb, hkept hstatements⟩

/-- Statements that are dropped, one by one until the last, which has to stay; and a conditional
whose branch takes its place, with a value at the end. -/
def statementsSample : Entry :=
  .source ⟨"a", "(script static void f (or true) (if false (g)))" ++
    "(script static void h (if true (begin (g))) 5)"⟩

set_option maxRecDepth 20000 in
/-- A loaded program meets the hypotheses, and its bodies stay lists of statements. -/
theorem Program.folding_keeps_statements_sample :
    let p := (load {} {} {} statementsSample).program
    p.Tidy ∧ p.scripts.size = 2 ∧ (∀ a ∈ p.scripts, Value.Statements a.body ∧ a.body ≠ []) ∧
      ∀ a ∈ p.scripts, ∃ b, (Pass.folding.run p (.fresh 0 {} 0)).1.script? a.id = some b ∧
        Value.Statements b.body ∧ b.body ≠ [] := by
  intro p
  have hp : p.Tidy := load_tidy tidy_empty {} {} statementsSample
  have hbodies : (p.scripts.size == 2 && p.scripts.all fun a =>
      decide (Value.Statements a.body ∧ a.body ≠ [])) = true := by
    show (fun p : Program => p.scripts.size == 2 && p.scripts.all fun a =>
      decide (Value.Statements a.body ∧ a.body ≠ []))
        (load {} {} {} statementsSample).program = true
    cbv
  simp only [Bool.and_eq_true, beq_iff_eq, Array.all_eq_true_iff_forall_mem, decide_eq_true_eq]
    at hbodies
  refine ⟨hp, hbodies.1, hbodies.2, fun a ha => ?_⟩
  obtain ⟨b, hb, hstatements, hne⟩ :=
    (folding_keeps_statements p hp (.fresh 0 {} 0)).2 a ha (hbodies.2 a ha).1
  exact ⟨b, hb, hstatements, hne (hbodies.2 a ha).2⟩

end HaloScript
