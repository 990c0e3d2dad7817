/-
# Macro expansion settles its calls

What becomes of a call is decided by the macro that it calls, if it calls one (`Head.template?`).
After macro expansion nothing calls a macro, or an error has been reported: a macro call that
survives has been set aside, and only calls that cannot be expanded are set aside, with an error
each (`Macros.hooks_settle`).
-/
import HaloScript.Lowering.Macros
import HaloScript.Proofs.Lowering.Grounds

namespace HaloScript

def Callee.NotMacro (p : Program) (c : Callee) : Prop :=
  ∀ id s, c = .script id → p.script? id = some s → s.isMacro = false

theorem Callee.notMacro_word (p : Program) (t : Text) (span : Option Span) :
    (Callee.word t span).NotMacro p := by
  intro id s h
  simp at h

def Head.template? (script? : ScriptId → Option Script) (h : Head) : Option Script :=
  match h.callee with
  | .word _ _ => none
  | .script id => (script? id).filter Script.isMacro

theorem Head.template?_eq_some {script? : ScriptId → Option Script} {h : Head} {m : Script} :
    h.template? script? = some m ↔
      ∃ id, h.callee = .script id ∧ script? id = some m ∧ m.isMacro = true := by
  unfold Head.template?
  split
  · next hcallee => simp [hcallee]
  · next id hcallee => simp [hcallee, Option.filter_eq_some_iff]

theorem Head.eq_of_template? {script? : ScriptId → Option Script} {h : Head} {id : ScriptId}
    {m m' : Script} (hm' : h.template? script? = some m') (hcallee : h.callee = .script id)
    (hm : script? id = some m) : m' = m := by
  obtain ⟨id', hid, hscript, -⟩ := Head.template?_eq_some.mp hm'
  obtain rfl := Callee.script.inj (hid.symm.trans hcallee)
  exact Option.some.inj (hscript.symm.trans hm)

theorem Head.notMacro_of_template? {p : Program} {view : View} (hview : view.Signed p) {h : Head}
    (hm : h.template? view.script? = none) : h.callee.NotMacro p := by
  intro id a hcallee ha
  by_contra hkind
  have hsignature := hview id
  rw [ha] at hsignature
  obtain ⟨m, hscript, hsame⟩ := Option.map_eq_some_iff.mp hsignature
  have hsort : m.isMacro = true := by
    rw [Script.isMacro, Script.kind_eq_of_signature hsame]
    exact (Bool.not_eq_false _).mp hkind
  rw [Head.template?_eq_some.mpr ⟨id, hcallee, hscript, hsort⟩] at hm
  cases hm

namespace Macros

variable {view : View} {h : Head}

/-! ## 1. One expansion -/

theorem substitution_meets {leafOk : Leaf → Prop} {callOk : CallCondition} (params : List Param)
    {args : List Value} (hargs : ∀ v ∈ args, v.Meets leafOk callOk) :
    (substitution params args).Meets leafOk callOk := by
  intro l v hv
  obtain ⟨xs, ys, hxs, -⟩ := List.lookup_eq_some_iff.mp hv
  have hmem : (l, v) ∈ (substitution params args).entries := by
    rw [hxs]
    exact List.mem_append_right _ List.mem_cons_self
  obtain ⟨⟨param, w⟩, hzip, heq⟩ := List.mem_map.mp (List.mem_reverse.mp hmem)
  obtain ⟨-, rfl⟩ : Leaf.atom param.name = l ∧ w = v := by simpa using heq
  exact hargs w (List.of_mem_zip hzip).2

theorem expand?_of_none (hm : h.template? view.script? = none) (args : List Value) (e : Env) :
    expand? view h args e = (none, e) := by
  unfold expand?
  split
  · rfl
  · next id hcallee =>
    split
    · rfl
    · next m hscript =>
      have hkind : m.isMacro = false := by
        rw [Bool.eq_false_iff]
        intro hkind
        rw [Head.template?_eq_some.mpr ⟨id, hcallee, hscript, hkind⟩] at hm
        cases hm
      simp [hkind]

/-- **What becomes of a call of a macro.** -/
theorem expand?_of_some {m : Script} (hm : h.template? view.script? = some m) (args : List Value)
    (e : Env) : expand? view h args e =
      if e.isMarked h.id then (none, e)
      else if args.length ≠ m.params.length then
        (none, (e.mark h.id).tellNode .error h.span (wrongArgumentCount m args.length))
      else if (e.spend 1 h.span).1 then
        let out := Value.instantiateAll (substitution m.params args) m.body
          (e.spend 1 h.span).2.nextNode
        (some out.1, { (e.spend 1 h.span).2 with nextNode := out.2 })
      else (none, (e.spend 1 h.span).2.mark h.id) := by
  obtain ⟨id, hcallee, hscript, hkind⟩ := Head.template?_eq_some.mp hm
  unfold expand?
  rw [hcallee]
  dsimp only
  rw [hscript]
  dsimp only
  rw [hkind, Bool.not_true, Bool.false_or]
  rcases e.spend 1 h.span with ⟨_ | _, e'⟩
  · rfl
  · rfl

/-- What an expansion puts in is an instance of the body. -/
theorem expand?_some {args vs : List Value} {e e' : Env}
    (hx : expand? view h args e = (some vs, e')) : ∃ m n, h.template? view.script? = some m ∧
      args.length = m.params.length ∧
      vs = (Value.instantiateAll (substitution m.params args) m.body n).1 := by
  cases hm : h.template? view.script? with
  | none =>
    rw [expand?_of_none hm] at hx
    cases hx
  | some m =>
    rw [expand?_of_some hm] at hx
    split at hx
    · cases hx
    · split at hx
      · cases hx
      · next hlength =>
        split at hx
        · cases hx
          exact ⟨m, _, rfl, not_not.mp hlength, rfl⟩
        · cases hx

/-! ## 2. Grounds -/

def miscount (m : Script) (h : Head) (n : Nat) : Message :=
  ⟨.error, wrongArgumentCount m n, h.span, true⟩

/-- Calls of macros fail if they have the wrong number of arguments or exceed the limit. -/
def grounds (script? : ScriptId → Option Script) : Grounds where
  tries h := (h.template? script?).isSome
  complaint limit h n msg := ∃ m, h.template? script? = some m ∧
    ((n ≠ m.params.length ∧ msg = miscount m h n) ∨
      (n = m.params.length ∧ msg = h.exceeds limit))
  quiet h n := ∃ m, h.template? script? = some m ∧ n = m.params.length

variable {script? : ScriptId → Option Script}

theorem template?_of_isCallOf {h : Head} {name : Text} (hname : h.isCallOf name = true) :
    h.template? script? = none := by
  unfold Head.template?
  split
  · rfl
  · next id hcallee => simp [Head.isCallOf, hcallee] at hname

theorem grounds_sparesBlocks : (grounds script?).SparesBlocks := fun _ hbegin =>
  congrArg Option.isSome (template?_of_isCallOf hbegin)

theorem grounds_errs (script? : ScriptId → Option Script) : (grounds script?).Errs := by
  rintro limit h n msg ⟨m, -, ⟨-, rfl⟩ | ⟨-, rfl⟩⟩
  · rfl
  · rfl

/-- **Expansion follows its grounds.** -/
theorem expand?_try (hview : ∀ h : Head, h.template? view.script? = h.template? script?) (h : Head)
    (args : List Value) (e : Env) : (grounds script?).Try h args.length e
      (expand? view h args e).1 (expand? view h args e).2 := by
  cases hm : h.template? script? with
  | none =>
    rw [expand?_of_none ((hview h).trans hm)]
    exact .other (congrArg Option.isSome hm)
  | some m =>
    have htries : (grounds script?).tries h = true := congrArg Option.isSome hm
    rw [expand?_of_some ((hview h).trans hm)]
    split
    · next hmark => exact .aside htries hmark
    · next hmark =>
      rw [Bool.not_eq_true] at hmark
      split
      · next hargs =>
        exact .refused htries hmark (.tellNode e .error h.span _)
          (.inl ⟨_, rfl, m, hm, .inl ⟨hargs, rfl⟩⟩)
      · next hargs =>
        rw [ne_eq, not_not] at hargs
        obtain ⟨hpaid, hadds⟩ | ⟨hfail, hx, hadds⟩ | ⟨hfail, hadds⟩ := e.spend_adds 1 h
        · rw [if_pos hpaid]
          exact .replaced hmark { hadds with }
        · rw [if_neg (Bool.not_eq_true _ ▸ hfail)]
          exact .refused htries hmark hadds (.inr ⟨rfl, ⟨m, hm, hargs⟩, hx⟩)
        · rw [if_neg (Bool.not_eq_true _ ▸ hfail)]
          exact .refused htries hmark hadds (.inl ⟨_, rfl, m, hm, .inr ⟨hargs, rfl⟩⟩)

/-- **Macro expansion follows its grounds**, as long as macros are as they were. -/
theorem hooks_follows (script? : ScriptId → Option Script) : hooks.Follows (grounds script?)
    fun shown => ∀ h : Head, h.template? shown = h.template? script? where
  onGlobal _ _ _ := rfl
  onScript _ _ := rfl
  onCall _ _ := rfl
  onValue view v e hview := by
    show (grounds script?).Outcome e (expandValue view v e).1 (expandValue view v e).2
    fun_induction expandValue view v e with
    | case1 e t l =>
      refine .settled (.refl e) fun h hh => ?_
      cases hh
    | case2 e t h args e' hx =>
      have ht := expand?_try hview h args e
      rw [hx] at ht
      exact ht.outcome
    | case3 e t h args w e' hx ih =>
      have ht := expand?_try hview h args e
      rw [hx] at ht
      exact ih.of_adds ht.adds
    | case4 e t h args vs e' hmany hx =>
      have ht := expand?_try hview h args e
      rw [hx] at ht
      refine .settled ht.adds fun h' hh htries => ?_
      obtain rfl := Option.some.inj hh
      cases htries
  aside view t h args e hview hmark := by
    show expandValue view (.call t h args) e = _
    obtain ⟨hnone, hsame⟩ := (expand?_try hview h args e).eq_of_isMarked hmark
    rw [expandValue]
    split <;> simp_all
  onElement view place v e hview := by
    show e.Adds [] (expandElement view place v e).2 ∨ _
    unfold hooks expandElement
    cases v with
    | leaf => exact .inl (.refl e)
    | call t h args =>
      dsimp only
      split
      · have ht := expand?_try hview h args e
        rcases hx : expand? view h args e with ⟨_ | vs, e'⟩
        · rw [hx] at ht
          cases ht with
          | other | aside => exact .inl (.refl _)
          | refused htries hmark hadds hfails =>
            exact .inr ⟨t, h, args, _, _, rfl, htries, hmark, hadds, hfails⟩
        · rw [hx] at ht
          exact .inl ht.adds
      · exact .inl (.refl e)

theorem notMacro_of_triesValue {p : Program} (hview : view.Signed p) {v : Value}
    (htries : (grounds view.script?).triesValue v = false) :
    v.root.Meets (fun _ => True) fun c _ => c.NotMacro p := by
  cases v with
  | leaf => trivial
  | call =>
    have hnone := Option.isNone_iff_eq_none.mp (Option.isSome_eq_false_iff.mp htries)
    exact Head.notMacro_of_template? hview hnone

/-- **Macro expansion settles its calls.** -/
theorem hooks_settle (p : Program) : hooks.Settle p Env.Clear Env.Failed
    fun r => r.Meets (fun _ => True) fun c _ => c.NotMacro p where
  onGlobal _ _ _ := rfl
  onScript _ _ := rfl
  onCall _ _ := rfl
  onElement view place v e he hok := (hooks_follows view.script?).element_clear
    (grounds_errs view.script?) (fun _ => rfl) place v he hok
  onValue view v e hview he hok := by
    have hout := (hooks_follows view.script?).onValue view v e fun _ => rfl
    exact (hout.clear (grounds_errs _) he hok).imp_right (notMacro_of_triesValue hview)
  onElement_failed view place v _ he :=
    (hooks_follows view.script?).element_failed (fun _ => rfl) place v he
  onValue_failed view v e he :=
    ((hooks_follows view.script?).onValue view v e fun _ => rfl).failed he

end Macros

end HaloScript
