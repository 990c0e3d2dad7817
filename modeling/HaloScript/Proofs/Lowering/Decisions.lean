/-
# What becomes of constant globals

Folding asks for the literal of a constant global in two places, at its declaration and at each
reference to it, in any order and while other globals are being made ordinary.  The decision is
taken once: the first question leaves a result on record, and a record is never changed
(`Env.recorded?`).  So declarations and references agree.  What has left the table is nowhere
referred to, what has stayed is referred to as before, and it is ordinary now, with one warning
(`Program.constGlobals_agree`).
-/
import HaloScript.Proofs.Constant.Footprint
import HaloScript.Proofs.Lowering.Inlining
import HaloScript.Proofs.Walk.Enclosed

namespace HaloScript

open List Option

/-! ## 1. Leaves exchanged for others -/

namespace Value

mutual

def mapLeaves (f : Leaf → Leaf) : Value → Value
  | .leaf t l => .leaf t (f l)
  | .call t h args => .call t h (mapLeavesAll f args)

def mapLeavesAll (f : Leaf → Leaf) : List Value → List Value
  | [] => []
  | v :: rest => mapLeaves f v :: mapLeavesAll f rest

end

variable {R R' : Leaf → Leaf → Prop} {f : Leaf → Leaf}

mutual

theorem Leafwise.mono (hR : ∀ {l l'}, R l l' → R' l l') {v w : Value} (h : v.Leafwise R w) :
    v.Leafwise R' w := by
  match h with
  | .leaf t hl => exact .leaf t (hR hl)
  | .call t head hargs => exact .call t head (hargs.mono hR)

theorem LeafwiseAll.mono (hR : ∀ {l l'}, R l l' → R' l l') {vs ws : List Value}
    (h : LeafwiseAll R vs ws) : LeafwiseAll R' vs ws := by
  match h with
  | .nil => exact .nil
  | .cons hv hrest => exact .cons (hv.mono hR) (hrest.mono hR)

end

mutual

/-- Where the relation leaves no choice, the second value is determined. -/
theorem Leafwise.eq_mapLeaves {v w : Value} (h : v.Leafwise R w)
    (hf : ∀ l ∈ v.leaves, ∀ l' ∈ w.leaves, R l l' → l' = f l) : w = v.mapLeaves f := by
  match h with
  | .leaf t hl =>
    rw [mapLeaves, hf _ (mem_singleton_self _) _ (mem_singleton_self _) hl]
  | .call t head hargs => rw [mapLeaves, hargs.eq_mapLeavesAll hf]

theorem LeafwiseAll.eq_mapLeavesAll {vs ws : List Value} (h : LeafwiseAll R vs ws)
    (hf : ∀ l ∈ leavesAll vs, ∀ l' ∈ leavesAll ws, R l l' → l' = f l) :
    ws = mapLeavesAll f vs := by
  match h with
  | .nil => rfl
  | .cons hv hrest =>
    rw [mapLeavesAll,
      hv.eq_mapLeaves fun l hl l' hl' =>
        hf l (mem_append_left _ hl) l' (mem_append_left _ hl'),
      hrest.eq_mapLeavesAll fun l hl l' hl' =>
        hf l (mem_append_right _ hl) l' (mem_append_right _ hl')]

end

end Value

/-! ## 2. What is on record -/

def Program.isConst (p : Program) (id : GlobalId) : Bool := (p.global? id).any Global.isConst

theorem Program.isConst_eq (p : Program) (id : GlobalId) : p.isConst id =
    (p.declaration? (.global id)).any fun a => match a with
      | .global g => g.isConst
      | .script _ => false := by
  cases h : p.global? id <;> simp [isConst, declaration?, h]

/-- What was found when a constant global was first asked for: its literal, or that it has none. -/
def Env.recorded? (e : Env) (id : GlobalId) : Option (Option Text) :=
  e.memo[MemoKey.global id]?.map fun r => r.bind Const.literal?

namespace ConstGlobals

variable {p : Program} {view : View} {e : Env} {id : GlobalId}

@[simp] theorem report_literal? (view : View) (id : GlobalId) (e : Env) :
    (literal? view id e).2.report = e.report := rfl

theorem recorded?_literal? (view : View) (id : GlobalId) {id' : GlobalId} {r : Option Text}
    (h : e.recorded? id' = some r) : (literal? view id e).2.recorded? id' = some r := by
  obtain ⟨c, hc, hr⟩ := map_eq_some_iff.mp h
  have hkeeps := Scene.ask_keeps view.scene (.global id) hc
  exact map_eq_some_iff.mpr ⟨c, hkeeps, hr⟩

theorem literal?_recorded (hconst : (view.scene.global? id).any Global.isConst = true) :
    (literal? view id e).2.recorded? id = some (literal? view id e).1 :=
  map_eq_some_iff.mpr
    ⟨_, Scene.evalGlobal_recorded hconst e.memo, rfl⟩

/-- What becomes of a global. -/
theorem judge_cases (view : View) (g : Global) (e : Env) :
    (g.isConst = false ∧ judge view g e = (⟨false, false⟩, e)) ∨
    (g.isConst = true ∧ ∃ t, (literal? view g.id e).1 = some t ∧
      judge view g e = (⟨true, true⟩, (literal? view g.id e).2)) ∨
    (g.isConst = true ∧ (literal? view g.id e).1 = none ∧
      judge view g e = (⟨false, false⟩,
        (literal? view g.id e).2.tellNode .warning g.span (downgraded g.id.name))) := by
  unfold judge
  cases hconst : g.isConst with
  | false => exact .inl ⟨rfl, rfl⟩
  | true =>
    rw [if_pos rfl]
    generalize literal? view g.id e = out
    obtain ⟨answer, e'⟩ := out
    cases answer with
    | some t => exact .inr (.inl ⟨rfl, t, rfl, rfl⟩)
    | none => exact .inr (.inr ⟨rfl, rfl, rfl⟩)

/-- What becomes of a value: it stays, and if it refers to a constant global, then because this
has no literal; or it is such a reference, and becomes the literal. -/
theorem inline_cases (view : View) (v : Value) (e : Env) :
    (inline view v e = (v, e) ∧ ∀ t id, v = .leaf t (.global id) →
      (view.scene.global? id).any Global.isConst = false) ∨
    (∃ t id, v = .leaf t (.global id) ∧ (view.scene.global? id).any Global.isConst = true ∧
      (literal? view id e).1 = none ∧ inline view v e = (v, (literal? view id e).2)) ∨
    (∃ t id text, v = .leaf t (.global id) ∧ (view.scene.global? id).any Global.isConst = true ∧
      (literal? view id e).1 = some text ∧
      inline view v e = (.leaf t (.atom text), (literal? view id e).2)) := by
  unfold inline
  split
  · next t id =>
    cases hconst : (view.scene.global? id).any Global.isConst with
    | false =>
      refine .inl ⟨rfl, fun t' id' heq => ?_⟩
      obtain ⟨-, heq⟩ := Value.leaf.inj heq
      obtain rfl := Leaf.global.inj heq
      exact hconst
    | true =>
      rw [if_pos rfl]
      generalize hout : literal? view id e = out
      obtain ⟨answer, e'⟩ := out
      cases answer with
      | none => exact .inr (.inl ⟨t, id, rfl, hconst, by rw [hout], by rw [hout]⟩)
      | some text => exact .inr (.inr ⟨t, id, text, rfl, hconst, by rw [hout], by rw [hout]⟩)
  · next hno => exact .inl ⟨rfl, fun t id heq => absurd heq (hno t id)⟩

/-- The second leaf is the first, or the literal on record for the global that the first refers
to. -/
def Chosen (p : Program) (e : Env) (l l' : Leaf) : Prop :=
  l' = l ∨ ∃ id t, l = .global id ∧ l' = .atom t ∧ p.isConst id = true ∧
    e.recorded? id = some (some t)

theorem chosen_refl (p : Program) (e : Env) (l : Leaf) : Chosen p e l l := .inl rfl

theorem Chosen.trans {l l' l'' : Leaf} (h : Chosen p e l l') (h' : Chosen p e l' l'') :
    Chosen p e l l'' := by
  rcases h with rfl | ⟨id, t, rfl, rfl, hconst, hr⟩
  · exact h'
  · rcases h' with rfl | ⟨_, _, heq, -⟩
    · exact .inr ⟨id, t, rfl, rfl, hconst, hr⟩
    · cases heq

theorem Chosen.mono {e' : Env} (he : ∀ id r, e.recorded? id = some r → e'.recorded? id = some r)
    {l l' : Leaf} (h : Chosen p e l l') : Chosen p e' l l' := by
  rcases h with rfl | ⟨id, t, rfl, rfl, hconst, hr⟩
  · exact .inl rfl
  · exact .inr ⟨id, t, rfl, rfl, hconst, he id _ hr⟩

end ConstGlobals

/-! ## 3. The walk -/

/-- The warning about a constant global of the program that becomes an ordinary one. -/
def Program.downgradedMessage (p : Program) (id : GlobalId) : Message where
  level := .warning
  content := ConstGlobals.downgraded id.name
  span := (p.global? id).bind Global.span
  aboutNode := true

theorem Root.eq_leaf_of_refers {r : Root} {id : GlobalId} (h : r.refers? = some (.global id)) :
    ∃ t, r = .leaf t (.global id) := by
  cases r with
  | leaf t l => cases l <;> simp_all [Root.refers?, Leaf.target?]
  | call t head => cases hc : head.callee <;> simp_all [Root.refers?, Callee.target?]

namespace ConstGlobals

variable {p : Program} {base : Report} {s s' : Standing Env} {view : View} {e : Env} {g : Global}

/-- What has been decided while constant globals of the program `p` are folded. -/
structure Decides (p : Program) (base : Report) (s : Standing Env) : Prop where
  removed : ∀ d ∈ s.removed, ∃ id t, d = .global id ∧ p.isConst id = true ∧
    s.state.recorded? id = some (some t)
  opened : ∀ id, .global id ∈ s.opened → p.isConst id = true → s.state.recorded? id = some none
  /-- A global that was constant is constant until it is opened. -/
  constant : ∀ id, .global id ∈ p.allIds → p.isConst id = true → .global id ∉ s.opened →
    s.now.isConst id = true
  leaves : ∀ d ∈ p.allIds, Value.LeafwiseAll (Chosen p s.state) (p.content d) (s.now.content d)
  visited : ∀ t id, .leaf t (.global id) ∈ s.visited → p.isConst id = true →
    s.state.recorded? id = some none
  told : ∃ ids : List GlobalId, ids.Nodup ∧
    (∀ id, id ∈ ids ↔ .global id ∈ s.opened ∧ p.isConst id = true) ∧
    s.state.report.messages.toList = base.messages.toList ++ ids.map p.downgradedMessage

theorem decides_start (p : Program) (base : Report) (limit : Int64) :
    Decides p base (.start p (.fresh p.nextNode base limit)) where
  removed _ hd := absurd hd not_mem_nil
  opened _ hd := absurd hd not_mem_nil
  constant _ _ hconst _ := hconst
  leaves _ _ := .refl (chosen_refl p _) _
  visited _ _ hr := absurd hr not_mem_nil
  told := ⟨[], nodup_nil, fun id => by simp [Standing.start], by simp [Standing.start, Env.fresh]⟩

/-- What a reference leads to after a global was entered. -/
theorem isConst_enterGlobal (hs : s.Orderly p) (hp : p.Tidy) (hknown : .global g.id ∈ p.allIds)
    {id : GlobalId} (hid : .global id ∈ p.allIds) (answer : Verdict × Env) :
    (s.enterGlobal g answer).now.isConst id =
      if id = g.id then answer.1.isConst else s.now.isConst id := by
  rw [Program.isConst_eq, Program.isConst_eq]
  by_cases heq : id = g.id
  · subst heq
    rw [hs.declaration?_enterGlobal_self hp hknown, if_pos rfl]
    rfl
  · rw [hs.declaration?_enterGlobal_of_ne hp hknown hid (fun h => heq (DeclId.global.inj h).symm),
      if_neg heq]

theorem hooks_keep {leafOk : Leaf → Prop} {callOk : CallCondition} (hatom : ∀ t, leafOk (.atom t)) :
    hooks.Keep leafOk callOk where
  onElement _ _ _ _ hv := forall_mem_singleton.mpr hv
  onValue view v e hv := by
    show (inline view v e).1.Meets leafOk callOk
    obtain ⟨heq, -⟩ | ⟨t, id, -, -, -, heq⟩ | ⟨t, id, text, -, -, -, heq⟩ := inline_cases view v e
    · rw [heq]
      exact hv
    · rw [heq]
      exact hv
    · rw [heq]
      exact (Value.meets_leaf _ _).mpr (hatom text)

/-- A global that was constant at first is so when it is entered, and it is the same. -/
theorem Decides.entered (h : Decides p base s) (hin : Inlines p s) (hs : s.Orderly p)
    (hg : s.now.global? g.id = some g) (hunseen : .global g.id ∈ s.unseen) :
    p.isConst g.id = g.isConst ∧ (g.isConst = true → p.global? g.id = some g) := by
  have hknown := hs.unseen_known _ hunseen
  have hsame := hin.constant g.id hknown g hg
  refine ⟨?_, hsame⟩
  cases hconst : g.isConst with
  | true => simp [Program.isConst, hsame hconst, hconst]
  | false =>
    by_contra hp
    have hnow := h.constant g.id hknown (by simpa using hp)
      fun hmem => hs.opened_seen _ hmem hunseen
    simp [Program.isConst, hg, hconst] at hnow

/-- What hooks see of a known global is what it is now. -/
theorem shows_isConst (hs : s.Orderly p) (hview : view.Shows s) {id : GlobalId}
    (hid : .global id ∈ p.allIds) :
    (view.scene.global? id).any Global.isConst = s.now.isConst id := by
  rw [hview.known id (hs.known_now hid), Program.isConst]

theorem Decides.removed_of_grow (h : Decides p base s) {e : Env}
    (hgrow : ∀ id r, s.state.recorded? id = some r → e.recorded? id = some r) :
    ∀ d ∈ s.removed, ∃ id t, d = .global id ∧ p.isConst id = true ∧
      e.recorded? id = some (some t) := by
  intro d hd
  obtain ⟨id, t, rfl, hc, hr⟩ := h.removed d hd
  exact ⟨id, t, rfl, hc, hgrow id _ hr⟩

/-- The list of the constant globals that are opened, when one more global is. -/
theorem exists_opened_constants {ids : List GlobalId} {opened : List DeclId} (hnodup : ids.Nodup)
    (hids : ∀ id, id ∈ ids ↔ .global id ∈ opened ∧ p.isConst id = true) {new : GlobalId}
    (hnew : .global new ∉ opened) :
    ∃ ids' : List GlobalId, ids'.Nodup ∧
      (∀ id, id ∈ ids' ↔ .global id ∈ DeclId.global new :: opened ∧ p.isConst id = true) ∧
      ids' = ids ++ if p.isConst new then [new] else [] := by
  cases hconst : p.isConst new with
  | false =>
    refine ⟨ids, hnodup, fun id => ?_, (append_nil ids).symm⟩
    rw [hids id, mem_cons]
    refine and_congr_left fun hc => ⟨.inr, fun hid => hid.resolve_left fun heq => ?_⟩
    rw [DeclId.global.inj heq, hconst] at hc
    cases hc
  | true =>
    refine ⟨ids ++ [new], ?_, fun id => ?_, rfl⟩
    · refine nodup_append.mpr ⟨hnodup, nodup_singleton _, fun a ha b hb heq => ?_⟩
      rw [heq, mem_singleton.mp hb, hids] at ha
      exact hnew ha.1
    · rw [mem_append, mem_singleton, hids id, mem_cons, DeclId.global.injEq]
      constructor
      · rintro (⟨hid, hc⟩ | rfl)
        · exact ⟨.inr hid, hc⟩
        · exact ⟨.inl rfl, hconst⟩
      · rintro ⟨rfl | hid, hc⟩
        · exact .inr rfl
        · exact .inl ⟨hid, hc⟩

/-- A global is entered, with an answer that agrees with what is on record. -/
theorem Decides.enter (h : Decides p base s) (hs : s.Orderly p) (hp : p.Tidy)
    (hg : s.now.global? g.id = some g) (hunseen : .global g.id ∈ s.unseen) {answer : Verdict × Env}
    (hgrow : ∀ id r, s.state.recorded? id = some r → answer.2.recorded? id = some r)
    (hremove : answer.1.remove = true → answer.1.isConst = true ∧ p.isConst g.id = true ∧
      ∃ t, answer.2.recorded? g.id = some (some t))
    (hstay : answer.1.remove = false → p.isConst g.id = true → answer.2.recorded? g.id = some none)
    (htold : answer.2.report.messages.toList = s.state.report.messages.toList ++
      if p.isConst g.id && !answer.1.remove then [p.downgradedMessage g.id] else []) :
    Decides p base (s.enterGlobal g answer) := by
  have hknown := hs.unseen_known _ hunseen
  have hnew : .global g.id ∉ s.opened := fun hmem => hs.opened_seen _ hmem hunseen
  have hcontent : ∀ d ∈ p.allIds, (s.enterGlobal g answer).now.content d = s.now.content d :=
    fun d hd => hs.content_enterGlobal hp hg hknown hd _
  obtain ⟨ids, hnodup, hids, hmessages⟩ := h.told
  have hleaves : ∀ d ∈ p.allIds, Value.LeafwiseAll (Chosen p answer.2) (p.content d)
      ((s.enterGlobal g answer).now.content d) := fun d hd => by
    rw [hcontent d hd]
    exact (h.leaves d hd).mono fun hl => hl.mono hgrow
  have hvisited : ∀ t id, .leaf t (.global id) ∈ s.visited → p.isConst id = true →
      answer.2.recorded? id = some none := fun t id hr hc => hgrow id _ (h.visited t id hr hc)
  have hremoved := h.removed_of_grow hgrow
  have hopened : ∀ id, .global id ∈ s.opened → p.isConst id = true →
      answer.2.recorded? id = some none := fun id hid hc => hgrow id _ (h.opened id hid hc)
  cases hr : answer.1.remove with
  | true =>
    obtain ⟨hkept, hconst, t, hrecorded⟩ := hremove hr
    have hopen : (s.enterGlobal g answer).opened = s.opened := by simp [Standing.enterGlobal, hr]
    have hgone : (s.enterGlobal g answer).removed = .global g.id :: s.removed := by
      simp [Standing.enterGlobal, hr]
    refine ⟨?_, hopen ▸ hopened, ?_, hleaves, hvisited, ?_⟩
    · rw [hgone]
      exact forall_mem_cons.mpr ⟨⟨g.id, t, rfl, hconst, hrecorded⟩, hremoved⟩
    · intro id hid hc hnot
      rw [isConst_enterGlobal hs hp hknown hid]
      split
      · exact hkept
      · exact h.constant id hid hc (hopen ▸ hnot)
    · refine ⟨ids, hnodup, fun id => by rw [hopen, hids id], ?_⟩
      show answer.2.report.messages.toList = _
      rw [htold, hr, Bool.not_true, Bool.and_false, if_neg Bool.false_ne_true, append_nil,
        hmessages]
  | false =>
    have hopen : (s.enterGlobal g answer).opened = .global g.id :: s.opened := by
      simp [Standing.enterGlobal, hr]
    have hgone : (s.enterGlobal g answer).removed = s.removed := by simp [Standing.enterGlobal, hr]
    refine ⟨hgone ▸ hremoved, ?_, ?_, hleaves, hvisited, ?_⟩
    · intro id hid hc
      rw [hopen] at hid
      rcases mem_cons.mp hid with heq | hid
      · obtain rfl := DeclId.global.inj heq
        exact hstay hr hc
      · exact hopened id hid hc
    · intro id hid hc hnot
      rw [hopen, mem_cons, not_or] at hnot
      rw [isConst_enterGlobal hs hp hknown hid,
        if_neg fun heq => hnot.1 (congrArg DeclId.global heq)]
      exact h.constant id hid hc hnot.2
    · obtain ⟨ids', hnodup', hids', heq⟩ := exists_opened_constants hnodup hids hnew
      refine ⟨ids', hnodup', fun id => by rw [hopen, hids' id], ?_⟩
      show answer.2.report.messages.toList = _
      rw [htold, hr, Bool.not_false, Bool.and_true, hmessages, heq, map_append,
        append_assoc]
      split <;> rfl

/-- **A global is entered.** -/
theorem Decides.enterGlobal (h : Decides p base s) (hin : Inlines p s) (hs : s.Orderly p)
    (hp : p.Tidy) (hview : view.Shows s) (hg : s.now.global? g.id = some g)
    (hunseen : .global g.id ∈ s.unseen) :
    Decides p base (s.enterGlobal g (judge view g s.state)) := by
  have hknown := hs.unseen_known _ hunseen
  obtain ⟨hconst, hsame⟩ := h.entered hin hs hg hunseen
  have hscene : g.isConst = true → (view.scene.global? g.id).any Global.isConst = true := by
    intro hc
    rw [hview.known g.id (hs.known_now hknown), hg]
    exact hc
  have hgrow : ∀ id r, s.state.recorded? id = some r →
      (literal? view g.id s.state).2.recorded? id = some r :=
    fun id r hr => recorded?_literal? view g.id hr
  obtain ⟨hc, heq⟩ | ⟨hc, t, ht, heq⟩ | ⟨hc, ht, heq⟩ := judge_cases view g s.state
  · rw [heq]
    refine h.enter hs hp hg hunseen (fun _ _ hr => hr) (fun hr => nomatch hr)
      (fun _ hp => ?_) (by simp [hconst, hc])
    rw [hconst, hc] at hp
    cases hp
  · have hrecorded := (literal?_recorded (e := s.state) (hscene hc)).trans (congrArg some ht)
    rw [heq]
    exact h.enter hs hp hg hunseen hgrow (fun _ => ⟨rfl, hconst.trans hc, t, hrecorded⟩)
      (fun hr => nomatch hr) (by simp)
  · have hrecorded := (literal?_recorded (e := s.state) (hscene hc)).trans (congrArg some ht)
    rw [heq]
    refine h.enter hs hp hg hunseen hgrow (fun hr => nomatch hr) (fun _ _ => hrecorded) ?_
    simp [hconst, hc, Env.tellNode, Report.tellNode, Report.add, Program.downgradedMessage,
      hsame hc]

/-- An edit that puts in what is on record. -/
theorem Decides.edit (h : Decides p base s) (hs : s.Orderly p) (hp : p.Tidy) {d : DeclId}
    (hd : d ∈ s.opened) {vs : List Value} {e' : Env}
    (hgrow : ∀ id r, s.state.recorded? id = some r → e'.recorded? id = some r)
    (hvs : Value.LeafwiseAll (Chosen p e') (s.now.content d) vs)
    (hsuits : Declaration.Suits d vs) (hnow : s'.now = s.now.put d vs)
    (hopened : s'.opened = s.opened) (hremoved : s'.removed = s.removed) (hstate : s'.state = e')
    (hreport : e'.report = s.state.report)
    (hvisited : ∀ t id, .leaf t (.global id) ∈ s'.visited → p.isConst id = true →
      e'.recorded? id = some none) : Decides p base s' where
  removed := by
    rw [hremoved, hstate]
    exact h.removed_of_grow hgrow
  opened := by
    rw [hopened, hstate]
    exact fun id hid hc => hgrow id _ (h.opened id hid hc)
  constant := by
    rw [hopened]
    intro id hid hc hnot
    have hne : d ≠ .global id := fun heq => hnot (heq ▸ hd)
    have hsame := (hs.tidy hp).declaration?_put_of_ne (hs.known_now (hs.opened_known d hd))
      (hs.known_now hid) hne vs
    have hglobal : s'.now.global? id = s.now.global? id := by
      rw [hnow]
      exact map_injective (fun _ _ => Declaration.global.inj) hsame
    rw [Program.isConst, hglobal]
    exact h.constant id hid hc hnot
  leaves d' hd' := by
    rw [hstate, hnow]
    have hold := (h.leaves d' hd').mono fun hl => hl.mono hgrow
    rcases hs.content_put hp hd hsuits hd' with hsame | ⟨rfl, hnew⟩
    · rw [hsame]
      exact hold
    · rw [hnew]
      exact hold.trans (fun h h' => h.trans h') hvs
  visited := by
    rw [hstate]
    exact hvisited
  told := by
    rw [hopened, hstate, hreport]
    exact h.told

/-- **A value is visited.**  If it is left as a reference to a global that was constant, then this
has no literal on record: either it was asked for now, or it has been made ordinary before. -/
theorem Decides.inline (h : Decides p base s) (hs : s.Orderly p) (hview : view.Shows s)
    (hbelow : view.scene.Below p.scene) (v : Value)
    (hknown : ∀ t id, v = .leaf t (.global id) → .global id ∈ p.allIds) :
    (∀ id r, s.state.recorded? id = some r →
      (inline view v s.state).2.recorded? id = some r) ∧
    (inline view v s.state).2.report = s.state.report ∧
    v.Leafwise (Chosen p (inline view v s.state).2) (inline view v s.state).1 ∧
    ∀ t id, (inline view v s.state).1.root = .leaf t (.global id) → p.isConst id = true →
      (inline view v s.state).2.recorded? id = some none := by
  have hleft : ∀ {t id}, v.root = .leaf t (.global id) → v = .leaf t (.global id) := by
    intro t id hroot
    cases v with
    | leaf =>
      obtain ⟨rfl, rfl⟩ := Root.leaf.inj hroot
      rfl
    | call => cases hroot
  obtain ⟨heq, hplain⟩ | ⟨t, id, hv, hconst, ht, heq⟩ | ⟨t, id, text, hv, hconst, ht, heq⟩ :=
    inline_cases view v s.state
  · rw [heq]
    refine ⟨fun _ _ hr => hr, rfl, .refl (chosen_refl p _) v, fun t id hroot hc => ?_⟩
    have hv := hleft hroot
    have hid := hknown t id hv
    have hnow : s.now.isConst id = false := by rw [← shows_isConst hs hview hid, hplain t id hv]
    by_cases hopen : .global id ∈ s.opened
    · exact h.opened id hopen hc
    · rw [h.constant id hid hc hopen] at hnow
      cases hnow
  · rw [heq]
    refine ⟨fun _ _ hr => recorded?_literal? view id hr, rfl, .refl (chosen_refl p _) v,
      fun t' id' hroot _ => ?_⟩
    obtain ⟨-, hid⟩ := Value.leaf.inj (hv.symm.trans (hleft hroot))
    obtain rfl := Leaf.global.inj hid
    rw [literal?_recorded hconst, ht]
  · rw [heq]
    refine ⟨fun _ _ hr => recorded?_literal? view id hr, rfl, ?_, fun t' id' hroot => nomatch hroot⟩
    obtain ⟨g, hg, hgconst⟩ := (Option.any_eq_true _ _).mp hconst
    have hp : p.isConst id = true :=
      (Option.any_eq_true _ _).mpr ⟨g, hbelow id g hg hgconst, hgconst⟩
    rw [hv]
    exact .leaf t (.inr ⟨id, text, rfl, rfl, hp, by rw [literal?_recorded hconst, ht]⟩)

/-- **Every move agrees with what is on record.** -/
theorem Decides.move (h : Decides p base s) (hin : Inlines p s) (hs : s.Orderly p) (hp : p.Tidy)
    {inside : DeclId → Prop}
    (hconfined : s.Confined inside (Leaf.RefersIn inside) (Callee.RefersIn inside))
    (hmove : Move hooks s s') : Decides p base s' := by
  cases hmove with
  | global view g hview hg hunseen =>
    exact h.enterGlobal hin hs hp hview hg hunseen
  | script =>
    obtain ⟨ids, hnodup, hids, hmessages⟩ := h.told
    refine { h with
      opened := fun id hid => ?_
      constant := fun id hid hc hnot => ?_
      told := ⟨ids, hnodup, fun id => ?_, hmessages⟩ }
    · exact h.opened id ((mem_cons.mp hid).resolve_left fun heq => nomatch heq)
    · exact h.constant id hid hc fun hmem => hnot (mem_cons_of_mem _ hmem)
    · rw [hids id]
      refine and_congr_left fun _ => ⟨mem_cons_of_mem _, fun hid => ?_⟩
      exact (mem_cons.mp hid).resolve_left fun heq => nomatch heq
  | element view d spot vs rest hview hd howner hdue hpending hedit hsuits =>
    exact h.edit hs hp hd (fun _ _ hr => hr)
      (hedit.leafwiseAll (chosen_refl p _) (.refl (chosen_refl p _) _)) hsuits rfl rfl rfl rfl rfl
      h.visited
  | value view d spot vs rest hview hd hoffered hdue hpending hedit hsuits =>
    -- a reference leads to a declaration of the set, so it is known
    have hknown : ∀ t id, spot.focus = .leaf t (.global id) → .global id ∈ p.allIds := by
      intro t id heq
      have hroot := hedit.root_mem
      rw [heq] at hroot
      rw [hs.alike.allIds_eq]
      exact hconfined.encloses.known _
        (hconfined.reached (closes_refersIn inside) (.inr ⟨d, hd, _, hroot, rfl⟩))
    obtain ⟨hgrow, hreport, hleaf, hroot⟩ :=
      h.inline hs hview (hin.below hs hp hview) spot.focus hknown
    refine h.edit hs hp hd hgrow (hedit.leafwiseAll (chosen_refl p _) hleaf) hsuits rfl rfl rfl
      rfl hreport fun t id hr hc => ?_
    rcases mem_cons.mp hr with heq | hr
    · exact hroot t id heq.symm hc
    · exact hgrow id _ (h.visited t id hr hc)
  | call | skip => exact { h with }

/-! ## 4. The end of the walk -/

/-- The walk of `p` has come to its end in the standing `s`, without leaving a set of declarations,
and has made the program `q` and the state `e`. -/
structure Ends (p : Program) (inside : DeclId → Prop) (base : Report) (s : Standing Env)
    (q : Program) (e : Env) : Prop where
  final : s.Final p q e
  inlines : Inlines p s
  decides : Decides p base s
  confined : s.Confined inside (Leaf.RefersIn inside) (Callee.RefersIn inside)

/-- **Folding constant globals is a walk that keeps to its decisions**, and to whatever else its
moves keep. -/
theorem run_ends (hp : p.Tidy) (hn : p.Numbered) {inside : DeclId → Prop}
    (hin : p.Bounds inside) (base : Report)
    (limit : Int64) {Q : Standing Env → Prop}
    (hstart : Q (.start p (.fresh p.nextNode base limit)))
    (hkeep : ∀ s s', s.Orderly p → Inlines p s → Decides p base s → Q s → Move hooks s s' → Q s') :
    ∃ s, Q s ∧ Ends p inside base s (Pass.constGlobals.run p (.fresh p.nextNode base limit)).1
      (Pass.constGlobals.run p (.fresh p.nextNode base limit)).2 := by
  obtain ⟨s, ⟨hinlines, hdecides, hconfined, hq⟩, hf⟩ := Pass.constGlobals.run_final hp base limit
    (Q := fun s => Inlines p s ∧ Decides p base s ∧
      s.Confined inside (Leaf.RefersIn inside) (Callee.RefersIn inside) ∧ Q s)
    ⟨inlines_start p rfl rfl, decides_start p base limit, .start hin _, hstart⟩
    fun s s' hs ⟨hinlines, hdecides, hconfined, hq⟩ hmove =>
      ⟨hinlines.move hs hp hn.keyed hmove, hdecides.move hinlines hs hp hconfined hmove,
        hconfined.move hp hs (closes_refersIn inside) (hooks_keep Leaf.refersIn_atom) hmove,
        hkeep s s' hs hinlines hdecides hq hmove⟩
  exact ⟨s, hq, hf, hinlines, hdecides, hconfined⟩

namespace Ends

variable {q : Program} {inside : DeclId → Prop} {d : DeclId}

theorem not_removed (h : Ends p inside base s q e) (hd : d ∈ s.opened) : d ∉ s.removed := by
  intro hmem
  obtain ⟨id, t, rfl, hconst, hr⟩ := h.decides.removed d hmem
  rw [h.decides.opened id hd hconst] at hr
  cases hr

theorem isConst_of_opened (h : Ends p inside base s q e) {id : GlobalId}
    (hid : .global id ∈ s.opened) : q.isConst id = false := by
  have hsame : q.global? id = s.now.global? id := by
    rw [Program.global?, Program.global?, h.final.globals]
  rw [Program.isConst, hsame]
  cases hg : s.now.global? id with
  | none => rfl
  | some g => exact h.inlines.opened id hid g hg

/-- **Nothing refers to what has left.**  The reference would have been visited, and found to have
no literal. -/
theorem refer_not_removed (h : Ends p inside base s q e) {d c : DeclId} (hd : d ∈ s.opened)
    (hrefer : Value.Refer (s.now.content d) c) : c ∉ s.removed := by
  intro hmem
  obtain ⟨id, t, rfl, hconst, hrecorded⟩ := h.decides.removed c hmem
  obtain ⟨r, hr, hrefers⟩ := hrefer
  obtain ⟨tag, rfl⟩ := Root.eq_leaf_of_refers hrefers
  have hvisited := h.final.covered.mem_visited h.final.ended hd hr
  rw [h.decides.visited tag id hvisited hconst] at hrecorded
  cases hrecorded

/-- **The table lists what was opened**, if the walk was to stay inside the table. -/
theorem mem_entries (h : Ends p (· ∈ p.table.entries) base s q e) (hp : p.Tidy) :
    d ∈ q.table.entries ↔ d ∈ s.opened := by
  constructor
  · exact h.final.opened hp
  · intro hd
    have hlisted := h.confined.opened d hd
    refine (h.final.table d).mpr ⟨hlisted, fun hmem => ?_⟩
    obtain ⟨d', hd', hname⟩ := List.mem_map.mp hmem
    -- names are those of one entry each
    obtain rfl := inj_on_of_nodup_map hp.names (h.confined.removed d' hd') hlisted hname
    exact h.not_removed hd hd'

/-- **What has left the table was removed.** -/
theorem not_mem_entries (h : Ends p (· ∈ p.table.entries) base s q e) (hp : p.Tidy)
    (hd : d ∈ p.table.entries) : d ∉ q.table.entries ↔ d ∈ s.removed := by
  rw [h.mem_entries hp]
  constructor
  · intro hnot
    exact (h.final.covered.seen d (hp.known d hd) (h.final.ended.entered d hd)).resolve_left hnot
  · exact fun hmem hopen => h.not_removed hopen hmem

end Ends

end ConstGlobals

namespace Program

/-- The literal that a global evaluates to, with nothing remembered. -/
def literal? (p : Program) (id : GlobalId) : Option Text :=
  (p.scene.fresh (.global id)).bind Const.literal?

/-- A leaf of the program `p` in the program `q`: a reference to a global that has left the table
is the literal of this global. -/
def foldedLeaf (p q : Program) : Leaf → Leaf
  | .global id =>
    if .global id ∈ q.table.entries then .global id else .atom ((p.literal? id).getD [])
  | l => l

end Program

namespace ConstGlobals

variable {p q : Program} {inside : DeclId → Prop} {base : Report} {s : Standing Env} {e : Env}

/-- A literal on record is that of the program at the start. -/
theorem Inlines.literal?_eq (h : Inlines p s) (hn : p.Numbered) {id : GlobalId} {t : Text}
    (hr : s.state.recorded? id = some (some t)) : p.literal? id = some t := by
  obtain ⟨r, hmemo, hlit⟩ := map_eq_some_iff.mp hr
  obtain ⟨c, rfl, ht⟩ := bind_eq_some_iff.mp hlit
  have howns : p.Owns (.global id) := fun h => nomatch h
  have hderives := h.trusts (.global id) howns c hmemo
  have hfresh := (Scene.fresh_eq_some_iff hn.keyed.closed p.scene_lists howns c).mpr hderives
  rw [Program.literal?, hfresh, bind_some, ht]

namespace Ends

/-- What has left the table is a constant global with a literal. -/
theorem literal?_of_removed (h : Ends p inside base s q e) (hn : p.Numbered) {d : DeclId}
    (hd : d ∈ s.removed) :
    ∃ id t, d = .global id ∧ p.isConst id = true ∧ p.literal? id = some t := by
  obtain ⟨id, t, rfl, hconst, hr⟩ := h.decides.removed d hd
  exact ⟨id, t, rfl, hconst, h.inlines.literal?_eq hn hr⟩

/-- **Every leaf is as the declarations have it.**  A reference to a global that has left would have
been visited, and found to have no literal; and a literal stands in no other place, because its
global has not been opened. -/
theorem content_eq_mapLeaves (h : Ends p (· ∈ p.table.entries) base s q e) (hp : p.Tidy)
    (hn : p.Numbered) (hin : p.Bounds (· ∈ p.table.entries)) {d : DeclId}
    (hd : d ∈ q.table.entries) :
    q.content d = Value.mapLeavesAll (p.foldedLeaf q) (p.content d) := by
  have hopen := (h.mem_entries hp).mp hd
  rw [h.final.content_eq]
  refine (h.decides.leaves d (h.final.orderly.opened_known d hopen)).eq_mapLeavesAll
    fun l hl l' hl' hchosen => ?_
  cases l with
  | blank | atom | script =>
    obtain rfl | ⟨id, t, heq, -⟩ := hchosen
    · rfl
    · cases heq
  | global id =>
    -- the reference leads to an entry of the table, which was opened or removed
    have hlisted : .global id ∈ p.table.entries := by
      obtain ⟨v, hv, hleaf⟩ := Value.mem_leavesAll.mp hl
      exact (hin.content d (h.confined.opened d hopen) v hv).1 _ hleaf _ rfl
    rw [Program.foldedLeaf]
    by_cases hstays : .global id ∈ q.table.entries
    · rw [if_pos hstays]
      obtain rfl | ⟨id', t, heq, -, hconst, hr⟩ := hchosen
      · rfl
      · obtain rfl := Leaf.global.inj heq
        rw [h.decides.opened id ((h.mem_entries hp).mp hstays) hconst] at hr
        cases hr
    · rw [if_neg hstays]
      have hremoved := (h.not_mem_entries hp hlisted).mp hstays
      obtain rfl | ⟨id', t, heq, rfl, -, hr⟩ := hchosen
      · obtain ⟨tag, hpart⟩ := (Value.mem_leavesAll_parts _).mp hl'
        exact absurd hremoved (h.refer_not_removed hopen ⟨_, Value.root_mem_rootsAll hpart, rfl⟩)
      · obtain rfl := Leaf.global.inj heq
        rw [h.inlines.literal?_eq hn hr, getD_some]

theorem refer_listed (h : Ends p (· ∈ p.table.entries) base s q e) (hp : p.Tidy) {d c : DeclId}
    (hd : d ∈ q.table.entries) (hrefer : Value.Refer (q.content d) c) : c ∈ q.table.entries := by
  have hopen := (h.mem_entries hp).mp hd
  rw [h.final.content_eq] at hrefer
  have hlisted := h.confined.reached (closes_refersIn _) (.inr ⟨d, hopen, hrefer⟩)
  by_contra hgone
  exact h.refer_not_removed hopen hrefer ((h.not_mem_entries hp hlisted).mp hgone)

end Ends

end ConstGlobals

namespace Program

/-- **Declarations and references agree.**  Constant globals are folded in a program that was
loaded into an empty one.  What has left the table is a constant global with a literal.  What is
in the table refers to no global outside of it, and has the values it had before, with literals in
the place of all references to the globals that have left.  The constant globals that have stayed
are ordinary now, and the report has grown by one warning for each of them. -/
theorem constGlobals_agree (lib : Library) (entry : Entry) (report : Report) (limit : Int64) :
    let p := (load {} {} lib entry).program
    let q := (Pass.constGlobals.run p (.fresh p.nextNode report limit)).1
    let e := (Pass.constGlobals.run p (.fresh p.nextNode report limit)).2
    (∀ d ∈ p.table.entries, d ∉ q.table.entries →
      ∃ id t, d = .global id ∧ p.isConst id = true ∧ p.literal? id = some t) ∧
    (∀ d ∈ q.table.entries, d ∈ p.table.entries ∧
      q.content d = Value.mapLeavesAll (p.foldedLeaf q) (p.content d) ∧
      ∀ id, Value.Refer (q.content d) (.global id) → .global id ∈ q.table.entries) ∧
    ∃ ids : List GlobalId, (ids.map GlobalId.name).Nodup ∧
      (∀ id, id ∈ ids ↔ .global id ∈ q.table.entries ∧ p.isConst id = true) ∧
      (∀ id ∈ ids, q.isConst id = false) ∧
      e.report.messages.toList = report.messages.toList ++ ids.map p.downgradedMessage := by
  intro p q e
  obtain ⟨hp, hn, hin, hnames⟩ : p.Anchors (· ∈ p.table.entries) := load_anchors {} lib entry
  obtain ⟨s, -, h⟩ := ConstGlobals.run_ends hp hn hin report limit (Q := fun _ => True) trivial
    fun _ _ _ _ _ _ _ => trivial
  obtain ⟨ids, hnodup, hids, hmessages⟩ := h.decides.told
  have hmem : ∀ id, id ∈ ids ↔ .global id ∈ q.table.entries ∧ p.isConst id = true :=
    fun id => by rw [hids id, h.mem_entries hp]
  refine ⟨fun d hd hgone => h.literal?_of_removed hn ((h.not_mem_entries hp hd).mp hgone),
    fun d hd => ⟨((h.final.table d).mp hd).1, h.content_eq_mapLeaves hp hn hin hd,
      fun id => h.refer_listed hp hd⟩,
    ids, ?_, hmem, fun id hid => h.isConst_of_opened ((hids id).mp hid).1, ?_⟩
  · -- two globals of one name would be one entry of the table
    refine (nodup_map_iff_inj_on hnodup).mpr fun a ha b hb hname => ?_
    have hlisted : ∀ id ∈ ids, .global id ∈ p.table.entries := fun id hid =>
      ((h.final.table _).mp ((hmem id).mp hid).1).1
    exact DeclId.global.inj (hnames _ _ (hlisted a ha) (hlisted b hb) hname)
  · rw [show e = s.state from h.final.state]
    exact hmessages

end Program

end HaloScript
