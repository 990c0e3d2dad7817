/-
# Which constant globals are folded

A constant global that leaves the program has a literal.  The converse fails: a constant global
without a literal of its own, such as an infinite number, can still be of use to another one, and
it is lost for it as soon as it is made ordinary.  So it can matter which of two globals is
declared first.

What does not depend on the order is a set of constant globals that supports itself: each of them
has a literal that follows from the others in the set (`Program.Supports`).  None of them is ever
lost.  In particular, if all that a constant global uses has literals, then it leaves the program
exactly if it has one (`Program.constGlobals_removes`).
-/
import HaloScript.Proofs.Constant.Support
import HaloScript.Proofs.Lowering.Decisions

namespace HaloScript

namespace Program

variable {b : GlobalId}

/-! ## 1. Sets that support themselves -/

/-- The constant globals in the set have literals, also if no other globals are constant. -/
def Supports (p : Program) (keep : GlobalId → Bool) : Prop :=
  ∀ id, keep id = true → .global id ∈ p.table.entries ∧ p.isConst id = true ∧
    ((p.scene.only keep).fresh (.global id)).bind Const.literal? ≠ none

/-- The first global refers to the second, or to one that refers to it, and so on. -/
def Uses (p : Program) : GlobalId → GlobalId → Prop :=
  Relation.ReflTransGen fun a b => Leaf.global b ∈ Value.leavesAll (p.content (.global a))

variable {p : Program} {keep : GlobalId → Bool} {id : GlobalId}

/-- What supports itself has derivations in which nothing else is used. -/
theorem Supports.derives (h : p.Supports keep) (hn : p.Numbered) (hid : keep id = true) :
    ∃ c t, (p.scene.only keep).Derives (.global id) c ∧ c.literal? = some t := by
  obtain ⟨t, ht⟩ := Option.ne_none_iff_exists'.mp (h id hid).2.2
  obtain ⟨c, hc, hlit⟩ := Option.bind_eq_some_iff.mp ht
  refine ⟨c, t, ?_, hlit⟩
  exact (Scene.fresh_eq_some_iff hn.keyed.closed.only p.scene_lists.only (K := .global id)
    (fun h => nomatch h) c).mp hc

theorem Uses.listed (hin : p.Bounds (· ∈ p.table.entries)) (h : p.Uses id b)
    (hid : .global id ∈ p.table.entries) : .global b ∈ p.table.entries := by
  induction h with
  | refl => exact hid
  | tail _ hlast ih =>
    obtain ⟨v, hv, hleaf⟩ := Value.mem_leavesAll.mp hlast
    exact (hin.content _ ih v hv).1 _ hleaf _ rfl

/-- The nodes that evaluating a global can lead to. -/
def Serves (p : Program) (id : GlobalId) (K : Node) : Prop :=
  ∀ b, Leaf.global b ∈ K.leaves → p.Uses id b

theorem Uses.serves (h : p.Uses id b) : p.Serves id (.global b) := by
  intro c hc
  obtain rfl : c = b := by simpa [Node.leaves] using hc
  exact h

/-- Evaluation stays among them. -/
theorem Serves.needs {K A : Node} (h : p.Serves id K) (hA : p.scene.Needs K A) :
    p.Serves id A := by
  cases hA with
  | @content a g hg =>
    intro b hb
    refine (h a List.mem_cons_self).tail ?_
    have hcontent : p.content (.global a) = [g.value] := by
      have hg' : p.global? a = some g := hg
      simp [content, declaration?, hg', Declaration.values]
    rw [hcontent]
    exact Value.mem_leavesAll.mpr ⟨g.value, List.mem_singleton_self _, hb⟩
  | link => exact h
  | call => exact h
  | arg head hv => exact fun b hb => h b (Value.mem_leavesAll.mpr ⟨_, hv, hb⟩)

/-- The constant globals with a value that a global uses. -/
noncomputable def used (p : Program) (id : GlobalId) : GlobalId → Bool :=
  open Classical in fun b => decide (p.Uses id b ∧ p.scene.fresh (.global b) ≠ none)

theorem used_eq_true : p.used id b = true ↔ p.Uses id b ∧ p.scene.fresh (.global b) ≠ none := by
  simp [used]

/-- **The globals that are used support themselves**, if those with a value have literals. -/
theorem supports_used (hn : p.Numbered) (hin : p.Bounds (· ∈ p.table.entries))
    (hid : .global id ∈ p.table.entries)
    (hlit : ∀ b, p.Uses id b → p.scene.fresh (.global b) ≠ none → p.literal? b ≠ none) :
    p.Supports (p.used id) := by
  have hiff : ∀ b c, p.scene.fresh (.global b) = some c ↔ p.scene.Derives (.global b) c :=
    fun b => Scene.fresh_eq_some_iff hn.keyed.closed p.scene_lists fun h => nomatch h
  intro b hb
  obtain ⟨huses, hvalue⟩ := used_eq_true.mp hb
  obtain ⟨c, hc⟩ := Option.ne_none_iff_exists'.mp hvalue
  have hderives := (hiff b c).mp hc
  -- a derivation uses nothing but what the global uses
  have honly : (p.scene.only (p.used id)).Derives (.global b) c :=
    hderives.only (fun hK hA => Serves.needs hK hA) (fun a c' ha hc' => used_eq_true.mpr
      ⟨ha a List.mem_cons_self, by simp [(hiff a c').mpr hc']⟩) huses.serves
  have hfresh := (Scene.fresh_eq_some_iff hn.keyed.closed.only p.scene_lists.only
    (K := .global b) (fun h => nomatch h) c).mpr honly
  refine ⟨huses.listed hin hid, ?_, ?_⟩
  · by_contra hplain
    have hpassing : p.scene.isRemembered (.global b) = false := (Bool.not_eq_true _).mp hplain
    exact Scene.not_derives_passing hpassing c hderives
  · have hliteral := hlit b huses hvalue
    rw [literal?, hc] at hliteral
    rw [hfresh]
    exact hliteral

end Program

namespace ConstGlobals

variable {p : Program} {base : Report} {s s' : Standing Env} {view : View} {keep : GlobalId → Bool}

/-! ## 2. The walk -/

/-- What holds of a set that supports itself while constant globals are folded. -/
structure Firm (p : Program) (keep : GlobalId → Bool) (s : Standing Env) : Prop where
  holds : (p.scene.only keep).Holds p.Owns [] s.state.memo
  unopened : ∀ id, keep id = true → .global id ∉ s.opened

/-- The globals in the set are seen as they were at first. -/
theorem Firm.below (h : Firm p keep s) (hkeep : p.Supports keep) (hs : s.Orderly p) (hp : p.Tidy)
    (hin : Inlines p s) (hdec : Decides p base s) (hview : view.Shows s) :
    (p.scene.only keep).Below view.scene := by
  intro id g hg _
  obtain ⟨hid, hg⟩ := Scene.only_global?_eq_some.mp hg
  obtain ⟨hlisted, hconst, -⟩ := hkeep id hid
  have hknown := hp.known _ hlisted
  obtain ⟨g', hg', hconst'⟩ := (Option.any_eq_true _ _).mp
    (hdec.constant id hknown hconst (h.unopened id hid))
  have hsame := hin.constant id hknown g' hg' hconst'
  obtain rfl : g' = g := Option.some.inj (hsame.symm.trans hg)
  rw [hview.known id (hs.known_now hknown), hg']

/-- **A question** finds the literal of every global in the set. -/
theorem Firm.ask (h : Firm p keep s) (hkeep : p.Supports keep) (hs : s.Orderly p)
    (hp : p.Tidy) (hn : p.Numbered) (hin : Inlines p s) (hdec : Decides p base s)
    (hview : view.Shows s) (id : GlobalId) :
    (p.scene.only keep).Holds p.Owns [] (literal? view id s.state).2.memo ∧
      (keep id = true → (literal? view id s.state).1 ≠ none) := by
  have hsize : view.scene.size = p.scene.size := by
    rw [hview.size]
    show s.now.globals.size = p.globals.size
    simpa using (congrArg Array.size hs.alike.globals).symm
  have howns : p.Owns (.global id) := fun h => nomatch h
  obtain ⟨hanswer, hholds, -⟩ := Scene.ask_answers (h.below hkeep hs hp hin hdec hview)
    (hin.below hs hp hview) hsize hn.keyed.closed p.scene_lists howns h.holds
  refine ⟨hholds, fun hid => ?_⟩
  obtain ⟨c, t, hc, ht⟩ := hkeep.derives hn hid
  have hsome : (literal? view id s.state).1 = some t :=
    Option.bind_eq_some_iff.mpr ⟨c, hanswer c hc, ht⟩
  simp [hsome]

/-- A global is entered.  If it stays, it is not in the set. -/
theorem Firm.enter (h : Firm p keep s) {g : Global} {answer : Verdict × Env}
    (hholds : (p.scene.only keep).Holds p.Owns [] answer.2.memo)
    (hstay : answer.1.remove = false → ¬ keep g.id = true) :
    Firm p keep (s.enterGlobal g answer) where
  holds := hholds
  unopened id hid hmem := by
    rw [Standing.enterGlobal] at hmem
    cases hr : answer.1.remove with
    | true => exact h.unopened id hid (by simpa [hr] using hmem)
    | false =>
      have hmem' : id = g.id ∨ .global id ∈ s.opened := by simpa [hr] using hmem
      rcases hmem' with rfl | hmem'
      · exact hstay hr hid
      · exact h.unopened id hid hmem'

/-- **Every move leaves the set as it is.** -/
theorem Firm.move (h : Firm p keep s) (hkeep : p.Supports keep) (hs : s.Orderly p)
    (hp : p.Tidy) (hn : p.Numbered) (hin : Inlines p s) (hdec : Decides p base s)
    (hmove : Move hooks s s') : Firm p keep s' := by
  have hask := fun (view : View) (hview : view.Shows s) =>
    h.ask hkeep hs hp hn hin hdec hview
  cases hmove with
  | global view g hview hg hunseen =>
    show Firm p keep (s.enterGlobal g (judge view g s.state))
    obtain ⟨hholds, hsome⟩ := hask view hview g.id
    have hconst := (hdec.entered hin hs hg hunseen).1
    obtain ⟨hc, heq⟩ | ⟨hc, t, ht, heq⟩ | ⟨hc, ht, heq⟩ := judge_cases view g s.state
    · rw [heq]
      refine h.enter h.holds fun _ hid => ?_
      have hconst' := (hkeep g.id hid).2.1
      rw [hconst, hc] at hconst'
      cases hconst'
    · rw [heq]
      exact h.enter hholds fun hstay => nomatch hstay
    · rw [heq]
      exact h.enter hholds fun _ hid => hsome hid ht
  | script =>
    refine ⟨h.holds, fun id hid hmem => h.unopened id hid ?_⟩
    exact (List.mem_cons.mp hmem).resolve_left fun heq => nomatch heq
  | element =>
    exact ⟨h.holds, h.unopened⟩
  | value view d spot vs rest hview =>
    refine ⟨?_, h.unopened⟩
    show (p.scene.only keep).Holds p.Owns [] (inline view spot.focus s.state).2.memo
    obtain ⟨heq, -⟩ | ⟨t, id, -, -, -, heq⟩ | ⟨t, id, text, -, -, -, heq⟩ :=
      inline_cases view spot.focus s.state
    · rw [heq]
      exact h.holds
    · rw [heq]
      exact (hask view hview id).1
    · rw [heq]
      exact (hask view hview id).1
  | call => exact ⟨h.holds, h.unopened⟩
  | skip => exact ⟨h.holds, h.unopened⟩

/-- **A set that supports itself leaves the program.** -/
theorem not_mem_of_supports (hp : p.Tidy) (hn : p.Numbered) (hin : p.Bounds (· ∈ p.table.entries))
    (base : Report) (limit : Int64)
    (hkeep : p.Supports keep) {id : GlobalId} (hid : keep id = true) :
    .global id ∉ (Pass.constGlobals.run p (.fresh p.nextNode base limit)).1.table.entries := by
  obtain ⟨s, hfirm, hends⟩ := run_ends hp hn hin base limit (Q := Firm p keep)
    ⟨Scene.holds_empty _ _, fun _ _ hmem => absurd hmem List.not_mem_nil⟩
    fun s s' hs hinlines hdec h hmove => h.move hkeep hs hp hn hinlines hdec hmove
  rw [hends.mem_entries hp]
  exact hfirm.unopened id hid

end ConstGlobals

namespace Program

/-- **Which constant globals leave the program.**  Constant globals are folded in a program that
was loaded into an empty one.  A constant global that leaves has a literal, and one that stays is
an ordinary global.  If all globals with a value that it uses have literals, then it leaves exactly
if it has a literal; and whatever else is declared, in whatever order, a set that supports itself
leaves. -/
theorem constGlobals_removes (lib : Library) (entry : Entry) (report : Report) (limit : Int64) :
    let p := (load {} {} lib entry).program
    let q := (Pass.constGlobals.run p (.fresh p.nextNode report limit)).1
    ∀ id, .global id ∈ p.table.entries → p.isConst id = true →
      (.global id ∉ q.table.entries → p.literal? id ≠ none) ∧
      (.global id ∈ q.table.entries → q.isConst id = false) ∧
      ((∀ b, p.Uses id b → p.scene.fresh (.global b) ≠ none → p.literal? b ≠ none) →
        (.global id ∉ q.table.entries ↔ p.literal? id ≠ none)) ∧
      ∀ keep, p.Supports keep → keep id = true → .global id ∉ q.table.entries := by
  intro p q id hid hconst
  obtain ⟨hp, hn, hin, -⟩ : p.Anchors (· ∈ p.table.entries) := load_anchors {} lib entry
  obtain ⟨s, -, h⟩ := ConstGlobals.run_ends hp hn hin report limit (Q := fun _ => True) trivial
    fun _ _ _ _ _ _ _ => trivial
  have hliteral : .global id ∉ q.table.entries → p.literal? id ≠ none := by
    intro hgone
    obtain ⟨id', t, heq, -, ht⟩ := h.literal?_of_removed hn ((h.not_mem_entries hp hid).mp hgone)
    obtain rfl := DeclId.global.inj heq
    simp [ht]
  have hleaves : ∀ keep, p.Supports keep → keep id = true → .global id ∉ q.table.entries :=
    fun keep hkeep => ConstGlobals.not_mem_of_supports hp hn hin report limit hkeep
  refine ⟨hliteral, fun hmem => h.isConst_of_opened ((h.mem_entries hp).mp hmem),
    fun hall => ⟨hliteral, fun ht => ?_⟩, hleaves⟩
  refine hleaves (p.used id) (supports_used hn hin hid hall) (used_eq_true.mpr ⟨.refl, ?_⟩)
  intro hnone
  rw [literal?, hnone] at ht
  exact ht rfl

/-- An infinite number, which has no literal, and a truth value that follows from it. -/
def infinityFirst : Entry :=
  .source ⟨"a", "(constglobal real i(+ +inf))(constglobal boolean b(or i))"⟩

/-- The same globals in the other order. -/
def infinityLast : Entry :=
  .source ⟨"a", "(constglobal boolean b(or i))(constglobal real i(+ +inf))"⟩

def folded (p : Program) : Program := (Pass.constGlobals.run p (.fresh p.nextNode {} 0)).1

set_option maxRecDepth 20000 in
/-- The order of two declarations can matter.  The truth value stays in the program, although it
has a literal, if the number stands before it; the reason is that the number has none. -/
theorem constGlobals_removes_samples :
    let p := (load {} {} {} infinityFirst).program
    let p' := (load {} {} {} infinityLast).program
    ((load {} {} {} infinityFirst).ok = true ∧ .global ⟨"b", 1⟩ ∈ p.table.entries ∧
      p.isConst ⟨"b", 1⟩ = true ∧ p.literal? ⟨"b", 1⟩ = some "true" ∧
      .global ⟨"b", 1⟩ ∈ p.folded.table.entries) ∧
    ((load {} {} {} infinityLast).ok = true ∧ p'.literal? ⟨"b", 0⟩ = some "true" ∧
      .global ⟨"b", 0⟩ ∉ p'.folded.table.entries) ∧
    ∃ a, p.Uses ⟨"b", 1⟩ a ∧ p.scene.fresh (.global a) ≠ none ∧ p.literal? a = none := by
  have hok : (load {} {} {} infinityFirst).ok = true := by cbv
  have hlisted : (fun p : Program => decide (.global ⟨"b", 1⟩ ∈ p.table.entries ∧
      p.isConst ⟨"b", 1⟩ = true)) (load {} {} {} infinityFirst).program = true := by cbv
  have hliteral : (load {} {} {} infinityFirst).program.literal? ⟨"b", 1⟩ = some "true" := by cbv
  have hstays : (fun p : Program => decide (.global ⟨"b", 1⟩ ∈ p.folded.table.entries))
      (load {} {} {} infinityFirst).program = true := by cbv
  have hok' : (load {} {} {} infinityLast).ok = true := by cbv
  have hliteral' : (load {} {} {} infinityLast).program.literal? ⟨"b", 0⟩ = some "true" := by cbv
  have hleaves : (fun p : Program => decide (.global ⟨"b", 0⟩ ∈ p.folded.table.entries))
      (load {} {} {} infinityLast).program = false := by cbv
  obtain ⟨hlisted, hconst⟩ := of_decide_eq_true hlisted
  have hstays := of_decide_eq_true hstays
  refine ⟨⟨hok, hlisted, hconst, hliteral, hstays⟩,
    ⟨hok', hliteral', of_decide_eq_false hleaves⟩, ?_⟩
  obtain ⟨-, -, hiff, -⟩ := constGlobals_removes {} infinityFirst {} 0 ⟨"b", 1⟩ hlisted hconst
  by_contra hall
  refine (hiff fun a huses hvalue hnone => hall ⟨a, huses, hvalue, hnone⟩).mpr ?_ hstays
  rw [hliteral]
  exact Option.some_ne_none _

end Program

end HaloScript
