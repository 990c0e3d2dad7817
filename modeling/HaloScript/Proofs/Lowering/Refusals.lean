/-
# Calls that fail

A macro call or a loop that cannot be replaced is set aside: it stays where it is, and nobody tries
it again.  The same call is shown to two hooks, as an element of a list and as a value, and the
first of them that fails on it has said all there is to say.

What a step may say about a call is collected in its `Grounds`.  `Grounds.Tells` is the rule that
the messages of a step follow: about every call that is left and that the step tries to replace
there is one message, in the order of the walk, unless the call fails silently, which takes a
budget whose end has been reported before; and there is no message about anything else.

While a step is under way the rule holds of the answers given so far (`Grounds.Accounts`).  In the
end the answers are the values of the program that is left, in walk order and with as many
arguments as they had (`Program.walk_settles`), so the rule holds of these
(`Program.load_refuses_once`).
-/
import HaloScript.Proofs.Lowering.Expansions
import HaloScript.Proofs.Lowering.Kept
import HaloScript.Proofs.Walk.Order

namespace HaloScript

open List Program Value

/-! ## 1. What is said about calls that fail -/

def Value.callId? (v : Value) : Option NodeId := v.head?.map Head.id

namespace Grounds

/-- **What a step has told about the values that it has left**, in this order. -/
inductive Tells (g : Grounds) (limit : Int64) : List Value → List Message → Prop
  | nil : Tells g limit [] []
  | other {vs : List Value} {told : List Message} {v : Value} (hvs : Tells g limit vs told)
      (hv : g.triesValue v = false) : Tells g limit (vs ++ [v]) told
  | error {vs : List Value} {told : List Message} {t : Tag} {h : Head} {args : List Value}
      {msg : Message} (hvs : Tells g limit vs told) (htries : g.tries h = true)
      (hcomplaint : g.complaint limit h args.length msg) :
      Tells g limit (vs ++ [.call t h args]) (told ++ [msg])
  | silent {vs : List Value} {told : List Message} {t : Tag} {h : Head} {args : List Value}
      (hvs : Tells g limit vs told) (htries : g.tries h = true) (hquiet : g.quiet h args.length)
      (hreported : Reported limit told) : Tells g limit (vs ++ [.call t h args]) told

variable {g : Grounds} {limit : Int64}

/-- A call that is tried keeps its function and the number of its arguments. -/
theorem SparesBlocks.settles (hg : g.SparesBlocks) {t : Tag} {h : Head} {args : List Value}
    {w : Value} (htries : g.tries h = true) (hw : (Value.call t h args).Settles w) :
    ∃ args', w = .call t h args' ∧ args'.length = args.length := by
  obtain _ | ⟨_, _, hlength⟩ := hw
  refine ⟨_, rfl, hlength ?_⟩
  rw [Bool.eq_false_iff]
  intro hbegin
  rw [hg h hbegin] at htries
  cases htries

/-- What is told about answers is told about what they settle as. -/
theorem Tells.settle (hg : g.SparesBlocks) {vs ws : List Value} {told : List Message}
    (h : g.Tells limit vs told) (hsettles : Forall₂ Settles vs ws) :
    g.Tells limit ws told := by
  induction h generalizing ws with
  | nil =>
    obtain rfl := forall₂_nil_left_iff.mp hsettles
    exact .nil
  | @other vs told v hvs hv ih =>
    obtain ⟨ws, w, rfl, hrest, hw⟩ := forall₂_concat_left hsettles
    refine .other (ih hrest) ?_
    cases hw with
    | leaf => rfl
    | call => exact hv
  | error hvs htries hcomplaint ih =>
    obtain ⟨ws, w, rfl, hrest, hw⟩ := forall₂_concat_left hsettles
    obtain ⟨args', rfl, hlength⟩ := hg.settles htries hw
    exact .error (ih hrest) htries (hlength ▸ hcomplaint)
  | silent hvs htries hquiet hreported ih =>
    obtain ⟨ws, w, rfl, hrest, hw⟩ := forall₂_concat_left hsettles
    obtain ⟨args', rfl, hlength⟩ := hg.settles htries hw
    exact .silent (ih hrest) htries (hlength ▸ hquiet) hreported

end Grounds

/-! ## 2. The accounts of a step -/

namespace Grounds

/-- What a step has said so far, and about which of the answers that it has given. -/
structure Accounts (g : Grounds) (base : List Message) (limit : Int64) (e : Env)
    (answers : List Value) (told : List Message) : Prop where
  messages : e.report.messages.toList = base ++ told
  limit_eq : e.budget.limit = limit
  tells : g.Tells limit answers told
  marks : ∀ i, e.isMarked i = true → i ∈ answers.filterMap callId?
  exhausted : e.budget.exhausted = true → Reported limit told

/-- The accounts are in order, provided that no call is answered twice. -/
def Audited (g : Grounds) (base : List Message) (limit : Int64) (s : Env × List Value) : Prop :=
  (s.2.filterMap callId?).Nodup → ∃ told, g.Accounts base limit s.1 s.2 told

variable {g : Grounds} {base : List Message} {limit : Int64} {e e' : Env} {answers : List Value}
  {told : List Message}

theorem Reported.append (h : Reported limit told) (more : List Message) :
    Reported limit (told ++ more) := by
  obtain ⟨msg, hmsg, hcontent⟩ := h
  exact ⟨msg, mem_append_left _ hmsg, hcontent⟩

theorem Accounts.still (h : g.Accounts base limit e answers told) (hadds : e.Adds [] e') :
    g.Accounts base limit e' answers told where
  messages := by rw [hadds.messages, append_nil, h.messages]
  limit_eq := hadds.limit.trans h.limit_eq
  tells := h.tells
  marks i hi := h.marks i (hadds.isMarked_eq i ▸ hi)
  exhausted hx := h.exhausted (hadds.exhausted_of_nil hx)

/-- **An answer is entered into the accounts.** -/
theorem Accounts.answer (h : g.Accounts base limit e answers told) {v : Value}
    (hv : g.Outcome e v e') (hnodup : ((answers ++ [v]).filterMap callId?).Nodup) :
    ∃ told', g.Accounts base limit e' (answers ++ [v]) told' := by
  cases hv with
  | settled hadds haside =>
    have hnot : g.triesValue v = false := by
      -- a call that had been set aside would have been answered before
      rw [Bool.eq_false_iff]
      intro htries
      obtain ⟨head, hhead, htries⟩ := (Option.any_eq_true _ _).mp htries
      have hid : v.callId? = some head.id := congrArg (Option.map Head.id) hhead
      have hmem := h.marks _ (haside head hhead htries)
      rw [filterMap_append, filterMap_cons_some hid, filterMap_nil] at hnodup
      exact (nodup_append.mp hnodup).2.2 _ hmem _ mem_cons_self rfl
    have hstill := h.still hadds
    refine ⟨told, hstill.messages, hstill.limit_eq, .other h.tells hnot, fun i hi => ?_,
      hstill.exhausted⟩
    rw [filterMap_append]
    exact mem_append_left _ (hstill.marks i hi)
  | @refused t head args ms e₁ htries hmark hadds hfails =>
    refine ⟨told ++ ms, ?_, hadds.limit.trans h.limit_eq, ?_, fun i hi => ?_, fun hx => ?_⟩
    · show e₁.report.messages.toList = _
      rw [hadds.messages, h.messages, append_assoc]
    · rcases hfails with ⟨msg, rfl, hcomplaint⟩ | ⟨rfl, hquiet, hx⟩
      · exact .error h.tells htries (h.limit_eq ▸ hcomplaint)
      · rw [append_nil]
        exact .silent h.tells htries hquiet (h.exhausted hx)
    · rw [filterMap_append]
      rcases (Macros.isMarked_mark e₁ head.id i).mp hi with rfl | hi
      · exact mem_append_right _ mem_cons_self
      · exact mem_append_left _ (h.marks i (hadds.isMarked_eq i ▸ hi))
    · rcases hadds.exhausted hx with hx | ⟨msg, hmsg, hcontent⟩
      · exact (h.exhausted hx).append ms
      · exact ⟨msg, mem_append_right _ hmsg, h.limit_eq ▸ hcontent⟩

theorem Audited.still (h : g.Audited base limit (e, answers)) (hadds : e.Adds [] e') :
    g.Audited base limit (e', answers) := fun hnodup => by
  obtain ⟨told, haccounts⟩ := h hnodup
  exact ⟨told, haccounts.still hadds⟩

theorem Audited.answer (h : g.Audited base limit (e, answers)) {v : Value}
    (hv : g.Outcome e v e') : g.Audited base limit (e', answers ++ [v]) := fun hnodup => by
  have hbefore : (answers.filterMap callId?).Nodup := by
    rw [filterMap_append] at hnodup
    exact (nodup_append.mp hnodup).1
  obtain ⟨told, haccounts⟩ := h hbefore
  exact haccounts.answer hv hnodup

/-- **A step of a walk keeps the accounts in order.** -/
theorem Audited.act {hooks : Hooks Env} {shown : (ScriptId → Option Script) → Prop}
    (hfollows : hooks.Follows g shown) {script? : ScriptId → Option Script}
    (hshown : shown script?) {s s' : Env × List Value} (h : g.Audited base limit s)
    (hact : (hooks.recorded hooks.answers).Act script? s s') : g.Audited base limit s' := by
  -- offers are not on record
  have hstate : ∀ view place v, ((hooks.recorded hooks.answers).onElement view place v s).2 =
      ((hooks.onElement view place v s.1).2, s.2) := fun view place v => by
    simp [Hooks.recorded, Hooks.answers]
  cases hact with
  | idle => exact h
  | visit view v _ hview => exact h.answer (hfollows.onValue view v s.1 (hview ▸ hshown))
  | drop view place v _ hview hdrop =>
    rw [hstate]
    obtain hadds | ⟨t, head, args, ms, e', heq, -⟩ :=
      hfollows.onElement view place v s.1 (hview ▸ hshown)
    · exact h.still hadds
    · have hkeep : (hooks.onElement view place v s.1).1 = .keep (.call t head args) [] :=
        congrArg Prod.fst heq
      cases hkeep.symm.trans hdrop
  | @keep view view' place v _ w inserted hview hview' hkeep =>
    rw [hstate]
    obtain hadds | ⟨t, head, args, ms, e', heq, htries, hmark, hadds, hfails⟩ :=
      hfollows.onElement view place v s.1 (hview ▸ hshown)
    · exact (h.still hadds).answer (hfollows.onValue view' w _ (hview' ▸ hshown))
    · -- the value hook stays silent about a call on which the element hook has failed
      have hkeep : (hooks.onElement view place v s.1).1 = .keep w inserted := hkeep
      rw [heq] at hkeep ⊢
      obtain ⟨rfl, rfl⟩ := Offer.keep.inj hkeep
      have haside := hfollows.aside view' t head args (e'.mark head.id) (hview' ▸ hshown)
        ((Macros.isMarked_mark e' head.id head.id).mpr (.inl rfl))
      show g.Audited base limit ((hooks.onValue view' (.call t head args) (e'.mark head.id)).2,
        s.2 ++ [(hooks.onValue view' (.call t head args) (e'.mark head.id)).1])
      rw [haside]
      exact h.answer (.refused htries hmark hadds hfails)

end Grounds

/-! ## 3. Every call is one call -/

namespace Value

mutual

theorem callIds_parts (v : Value) : (v.parts.filterMap callId?).Sublist (numbers [v]) := by
  match v with
  | .leaf t l => exact nil_sublist _
  | .call t h args =>
    rw [numbers_call, numbers_nil, append_nil, parts]
    exact .cons _ (.cons_cons h.id (callIds_partsAll args))

theorem callIds_partsAll (vs : List Value) :
    ((partsAll vs).filterMap callId?).Sublist (numbers vs) := by
  match vs with
  | [] => exact nil_sublist _
  | v :: rest =>
    rw [partsAll, filterMap_append, numbers_cons]
    exact (callIds_parts v).append (callIds_partsAll rest)

end

end Value

theorem Program.Tidy.callIds_nodup {q : Program} (hq : q.Tidy) (hn : q.numbers.Nodup) :
    ((q.declarations.flatMap fun a => partsAll a.values).filterMap
      callId?).Nodup := by
  rw [hq.flatMap_declarations partsAll, filterMap_flatMap, nodup_flatMap]
  refine ⟨fun d hd => (numbers_content hn (hq.known d hd)).sublist (callIds_partsAll _), ?_⟩
  refine Pairwise.imp_of_mem (fun {d d'} hd hd' hne i hi hi' => ?_)
    (Nodup.of_map _ hq.names)
  exact numbers_disjoint hn (hq.known d hd) (hq.known d' hd') hne i
    ((callIds_partsAll _).subset hi) ((callIds_partsAll _).subset hi')

theorem filterMap_callId?_eq {vs ws : List Value} (h : Forall₂ Settles vs ws) :
    vs.filterMap callId? = ws.filterMap callId? := by
  induction h with
  | nil => rfl
  | cons hv _ ih =>
    cases hv with
    | leaf => exact ih
    | call t h => exact congrArg (h.id :: ·) ih

/-! ## 4. Whole steps -/

/-- What the hook for values answers in a step, in order.  An answer that is a call of the kind
that the step tries to replace is a call that has failed, as it was at that time. -/
def Pass.answers (pass : Pass) (p : Program) (before : Report) (limit : Int64) : List Value :=
  (p.walk (pass.hooks.recorded pass.hooks.answers) true (.fresh p.nextNode before limit, [])).2.2

/-- **Each failing call is reported once and left in place** by a step on the program `p` that comes
out at `out`. -/
structure Pass.RefusesOnce (pass : Pass) (g : Grounds) (enters : DeclId → Bool) (p : Program)
    (before : Report) (limit : Int64) (out : Program × Env) : Prop where
  /-- The walk that is on record is the step. -/
  recorded :
    let walk := p.walk (pass.hooks.recorded pass.hooks.answers) true
      (.fresh p.nextNode before limit, [])
    out = ({ walk.1 with nextNode := walk.2.1.nextNode }, walk.2.1)
  /-- The walk order lists the values of the program that is left, each once. -/
  order : (out.1.walkOrder enters).Perm
    (out.1.declarations.flatMap fun a => partsAll a.values)
  /-- No call is listed under two values. -/
  distinct : ((out.1.walkOrder enters).filterMap callId?).Nodup
  /-- The calls that have failed are those that are left, each with its function and as many
  arguments as it had. -/
  kept : Forall₂ (fun v w => ∃ t h args args', v = .call t h args ∧ w = .call t h args' ∧
      args'.length = args.length)
    ((pass.answers p before limit).filter g.triesValue)
    ((out.1.walkOrder enters).filter g.triesValue)
  /-- The step says what is to be said about these, and nothing else. -/
  told : ∃ told, out.2.report.messages.toList = before.messages.toList ++ told ∧
    g.Tells (Budget.ofLimit limit).limit (out.1.walkOrder enters) told

namespace Grounds

variable {g : Grounds}

/-- The calls still to be tried survive their visits one by one, because a block that takes the
place of a call is never tried. -/
theorem SparesBlocks.kept (hg : g.SparesBlocks) {vs ws : List Value}
    (h : Forall₂ Settles vs ws) :
    Forall₂ (fun v w => ∃ t h args args', v = .call t h args ∧ w = .call t h args' ∧
      args'.length = args.length) (vs.filter g.triesValue) (ws.filter g.triesValue) := by
  induction h with
  | nil => exact .nil
  | @cons v w vs ws hv _ ih =>
    have hsame : g.triesValue w = g.triesValue v := by cases hv <;> rfl
    cases htries : g.triesValue v with
    | false =>
      rw [filter_cons_of_neg (by simp [htries]),
        filter_cons_of_neg (by simp [hsame, htries])]
      exact ih
    | true =>
      rw [filter_cons_of_pos htries, filter_cons_of_pos (hsame.trans htries)]
      refine .cons ?_ ih
      cases v with
      | leaf => cases htries
      | call t head args =>
        obtain ⟨args', rfl, hlength⟩ := hg.settles htries hv
        exact ⟨t, head, args, args', rfl, rfl, hlength⟩

/-- **The accounts of a step are in order** at every moment. -/
theorem audited_moment {hooks : Hooks Env} {shown : (ScriptId → Option Script) → Prop}
    (hfollows : hooks.Follows g shown) {p : Program} (before : Report) (limit : Int64)
    (hshown : ∀ k,
      shown (p.moment hooks (.fresh p.nextNode before limit) k).program.script?) (k : Nat) :
    g.Audited before.messages.toList (Budget.ofLimit limit).limit
      (p.moment (hooks.recorded hooks.answers) (.fresh p.nextNode before limit, []) k).state := by
  induction k with
  | zero =>
    intro _
    refine ⟨[], (append_nil _).symm, rfl, .nil, fun i hi => ?_, fun hx => ?_⟩
    · have hempty : (Env.fresh p.nextNode before limit).isMarked i = false :=
        Std.HashSet.contains_empty
      exact absurd (hempty.symm.trans hi) Bool.false_ne_true
    · cases hx
  | succ k ih =>
    rw [moment_succ]
    refine ih.act hfollows ?_ (Machine.step_act (fun view g s => ?_) (fun a s => ?_)
      (fun head s => ?_) _)
    · have hsame := congrArg Machine.program (moment_recorded p hooks hooks.answers
        (.fresh p.nextNode before limit) [] k)
      have hprogram := hshown k
      rw [← hsame] at hprogram
      exact hprogram
    · exact Prod.ext (hfollows.onGlobal view g s.1) rfl
    · exact Prod.ext (hfollows.onScript a s.1) rfl
    · exact Prod.ext (hfollows.onCall head s.1) rfl

end Grounds

/-- **A step that follows its grounds reports each failing call once.** -/
theorem Pass.refusesOnce (pass : Pass) {p : Program} (h : p.Anchors (· ∈ p.table.entries))
    {g : Grounds} {shown : (ScriptId → Option Script) → Prop} {enters : DeclId → Bool}
    (before : Report) (limit : Int64) (hfollows : pass.hooks.Follows g shown)
    (hshown : ∀ k,
      shown (p.moment pass.hooks (.fresh p.nextNode before limit) k).program.script?)
    (henters : pass.hooks.Enters p enters) (hsplices : pass.hooks.Splices)
    (hg : g.SparesBlocks)
    (hdrops : ∀ d, Stage.drops ⟨pass, p, (pass.run p (.fresh p.nextNode before limit)).2⟩ d =
      !enters d) :
    pass.RefusesOnce g enters p before limit (pass.run p (.fresh p.nextNode before limit)) := by
  obtain ⟨hsheds, hafter⟩ := pass.run_sheds h before limit
  have hrecorded : pass.run p (.fresh p.nextNode before limit) = _ :=
    congrArg (fun out : Program × Env => ({ out.1 with nextNode := out.2.nextNode }, out.2))
      (walk_recorded p pass.hooks pass.hooks.answers (.fresh p.nextNode before limit) [])
  have hwalk := walk_settles h.tidy henters hsplices (.fresh p.nextNode before limit)
  obtain ⟨k, -, hmoment⟩ := walk_eq_moment p (pass.hooks.recorded pass.hooks.answers)
    (.fresh p.nextNode before limit, [])
  have haudit : Grounds.Audited g before.messages.toList (Budget.ofLimit limit).limit
      (p.walk (pass.hooks.recorded pass.hooks.answers) true
        (.fresh p.nextNode before limit, [])).2 := by
    rw [hmoment]
    exact Grounds.audited_moment hfollows before limit hshown k
  have htable : (pass.run p (.fresh p.nextNode before limit)).1.table.entries =
      p.table.entries.filter enters := by
    rw [hsheds.table]
    exact filter_congr fun d _ => by rw [hdrops, Bool.not_not]
  have hsettles : Forall₂ Settles (pass.answers p before limit)
      ((pass.run p (.fresh p.nextNode before limit)).1.walkOrder enters) := by
    have hskip : ∀ d ∈ p.table.entries, enters d = false → d ∉ p.allIds.filter enters :=
      fun d _ hno hmem => by simpa [hno] using (mem_filter.mp hmem).2
    have hsame := orderFrom_filter
      (q := (pass.run p (.fresh p.nextNode before limit)).1) [] p.table.entries hskip
    rw [walkOrder, ← hsheds.alike.allIds_eq, htable]
    refine cast (congrArg _ (Eq.trans ?_ hsame.symm)) hwalk
    exact orderFrom_congr (fun d => by rw [hrecorded]; rfl) _ _
  have horder := walkOrder_perm hafter.tidy hafter.bounds
    (fun d hd => (mem_filter.mp (htable ▸ hd)).2)
    fun d hd hin => htable ▸ mem_filter.mpr ⟨hd, hin⟩
  have hdistinct := ((horder.filterMap callId?).nodup_iff).mpr
    (hafter.tidy.callIds_nodup (hafter.numbered.numbers hafter.tidy).1)
  -- the answers are the calls that are left, so none of them is given twice
  obtain ⟨told, haccounts⟩ := haudit (filterMap_callId?_eq hsettles ▸ hdistinct)
  refine ⟨hrecorded, horder, hdistinct, hg.kept hsettles, told, ?_,
    haccounts.tells.settle hg hsettles⟩
  rw [hrecorded]
  exact haccounts.messages

namespace Macros

variable {script? : ScriptId → Option Script}

/-- The complaint about a value, if it is a call of a macro with the wrong number of arguments. -/
def miscount? (script? : ScriptId → Option Script) (v : Value) : Option Message :=
  v.head?.bind fun h => (h.template? script?).bind fun m =>
    if v.args.length = m.params.length then none else some (miscount m h v.args.length)

/-- **The complaints that are not about the limit** are those about calls with the wrong number of
arguments, one for each. -/
theorem filter_told {limit : Int64} {vs : List Value} {told : List Message}
    (h : (grounds script?).Tells limit vs told) :
    told.filter (·.content != limitExceeded limit) = vs.filterMap (miscount? script?) := by
  induction h with
  | nil => rfl
  | @other vs told v hvs hv ih =>
    have hnone : miscount? script? v = none := by
      unfold miscount?
      cases v with
      | leaf => rfl
      | call t h =>
        have hm : h.template? script? = none :=
          Option.isNone_iff_eq_none.mp (Option.isSome_eq_false_iff.mp hv)
        simp [Value.head?, hm]
    rw [filterMap_append, ← ih, filterMap_cons_none hnone, filterMap_nil,
      append_nil]
  | @error vs told t h args msg hvs htries hcomplaint ih =>
    obtain ⟨m, hm, ⟨hargs, rfl⟩ | ⟨hargs, rfl⟩⟩ := hcomplaint
    · have hsome : miscount? script? (.call t h args) = some (miscount m h args.length) := by
        simp [miscount?, Value.head?, Value.args, hm, hargs]
      have hkept : ((miscount m h args.length).content != limitExceeded limit) = true := by
        simp [miscount, wrongArgumentCount_ne]
      have hone : [miscount m h args.length].filter (·.content != limitExceeded limit) =
          [miscount m h args.length] := filter_cons_of_pos hkept
      rw [filter_append, filterMap_append, ih, filterMap_cons_some hsome, hone]
      rfl
    · have hnone : miscount? script? (.call t h args) = none := by
        simp [miscount?, Value.head?, Value.args, hm, hargs]
      rw [filter_append, filterMap_append, ih, filterMap_cons_none hnone]
      simp [Head.exceeds]
  | @silent vs told t h args hvs htries hquiet hreported ih =>
    obtain ⟨m, hm, hargs⟩ := hquiet
    have hnone : miscount? script? (.call t h args) = none := by
      simp [miscount?, Value.head?, Value.args, hm, hargs]
    rw [filterMap_append, ih, filterMap_cons_none hnone, filterMap_nil,
      append_nil]

variable {p : Program}

theorem hooks_enters (p : Program) : hooks.Enters p fun d => !p.isMacro d where
  global _ _ _ := rfl
  script q halike a _ ha := by
    show a.isMacro = !!p.isMacro (.script a.id)
    rw [Bool.not_not, ← halike.isMacro, isMacro, ha, Option.any_some]

theorem hooks_splices : hooks.Splices := length_expandElement

/-- During macro expansion calls call the macros of the program at the start. -/
theorem moment_template? (hp : p.Tidy) (e : Env) (k : Nat) (h : Head) :
    h.template? (p.moment hooks e k).program.script? = h.template? p.script? := by
  obtain ⟨trail, hs, hview, ht⟩ := moment_keeps hp e (templates_start hp e)
    (fun s s' hs ht hmove => ht.move hs hp hmove) k
  exact ht.template?_eq hs hp hview h

theorem refusesOnce (h : p.Anchors (· ∈ p.table.entries)) (before : Report) (limit : Int64) :
    Pass.macros.RefusesOnce (grounds p.script?) (fun d => !p.isMacro d) p before limit
      (Pass.macros.run p (.fresh p.nextNode before limit)) :=
  Pass.macros.refusesOnce h before limit (hooks_follows _) (moment_template? h.tidy _)
    (hooks_enters p)
    hooks_splices grounds_sparesBlocks fun d => by
      rw [Bool.not_not]
      cases d <;> rfl

end Macros

namespace Loops

theorem hooks_splices : hooks.Splices := by
  intro view place v e
  show (unrollElement view place v e).1.values.length = 1 ∨ _
  unfold unrollElement
  split
  · exact .inl rfl
  · split
    · next hstatements => exact .inr hstatements
    · exact .inl rfl

theorem refusesOnce {p : Program} (h : p.Anchors (· ∈ p.table.entries)) (before : Report)
    (limit : Int64) : Pass.loops.RefusesOnce grounds (fun _ => true) p before limit
      (Pass.loops.run p (.fresh p.nextNode before limit)) :=
  Pass.loops.refusesOnce h before limit hooks_follows (fun _ => trivial)
    ⟨fun _ _ _ => rfl, fun _ _ _ _ _ => rfl⟩ hooks_splices grounds_sparesBlocks
    fun d => by cases d <;> rfl

end Loops

/-- **Each failing call is reported once and left in place**, whatever is loaded.

After macro expansion the errors about numbers of arguments are one for each call of a macro with
the wrong number of them that is left, in walk order.  After loop unrolling there is one error for
each loop that is left, unless the loop was refused silently because the end of the budget had been
reported.  There is no other error, and the calls have the functions and the numbers of arguments
that they had when they failed. -/
theorem Program.load_refuses_once (report before : Report) (lib : Library) (entry : Entry)
    (limit : Int64) :
    let p := (load {} report lib entry).program
    let expanded := Pass.macros.run p (.fresh p.nextNode before limit)
    let unrolled := Pass.loops.run p (.fresh p.nextNode before limit)
    Pass.macros.RefusesOnce (Macros.grounds p.script?) (fun d => !p.isMacro d) p before limit
        expanded ∧
      (∃ told, expanded.2.report.messages.toList = before.messages.toList ++ told ∧
        told.filter (·.content != Macros.limitExceeded (Budget.ofLimit limit).limit) =
          (expanded.1.walkOrder fun d => !p.isMacro d).filterMap (Macros.miscount? p.script?)) ∧
      Pass.loops.RefusesOnce Loops.grounds (fun _ => true) p before limit unrolled := by
  intro p expanded unrolled
  have hanchors := load_anchors report lib entry
  have hmacros := Macros.refusesOnce hanchors before limit
  obtain ⟨told, hmessages, htells⟩ := hmacros.told
  exact ⟨hmacros, ⟨told, hmessages, Macros.filter_told htells⟩,
    Loops.refusesOnce hanchors before limit⟩

end HaloScript
