/-
# Folding once more

A program can be folded twice.  This module says which declarations the second run leaves alone,
if no constant globals are left.

As long as nothing has been done to a declaration, its parts have the values that they have by
themselves, and what was visited and what was offered has stayed (`Folding.Watched`).  The first
edit makes the declaration lighter, and no later one makes it heavier again.  Hence a declaration
stays as it is exactly if folding applies at none of its spots (`Folding.run_declaration?_iff`).
-/
import HaloScript.Proofs.Lowering.Spots

namespace HaloScript

open Value

namespace Program

variable {p : Program} {d : DeclId}

theorem Tidy.isConst_put (hp : p.Tidy) (hd : d ∈ p.allIds) {id : GlobalId}
    (hid : .global id ∈ p.allIds) (vs : List Value) : (p.put d vs).isConst id = p.isConst id := by
  rw [isConst_eq, isConst_eq]
  by_cases heq : d = .global id
  · subst heq
    obtain ⟨a, ha, -⟩ := hp.exists_declaration hd
    rw [hp.declaration?_put_self hd ha, ha]
    cases a with
    | global => cases vs <;> rfl
    | script => rfl
  · rw [hp.declaration?_put_of_ne hd hid heq]

end Program

namespace Folding

variable {p : Program} {inside : DeclId → Prop} {s s' : Standing Env} {view : View} {d d' : DeclId}
  {spot : Spot} {vs : List Value}

/-- What holds while folding walks a program whose constant globals have all been folded. -/
structure Plainly (p : Program) (inside : DeclId → Prop) (s : Standing Env) : Prop where
  confined : s.Confined inside (Leaf.RefersIn inside) (Callee.RefersIn inside)
  ordinary : ∀ id, inside (.global id) → s.now.isConst id = false
  renews : Renews p.nextNode s.state.nextNode p.numbers s.now.numbers

theorem Plainly.plain (h : Plainly p inside s) (hview : view.Shows s) (hd : d ∈ s.opened) :
    view.scene.Plain (leavesAll (s.now.content d)) := by
  intro id hid
  obtain ⟨v, hv, hleaf⟩ := mem_leavesAll.mp hid
  have hin : inside (.global id) :=
    (h.confined.encloses.content d (h.confined.opened d hd) v hv).1 _ hleaf _ rfl
  show (view.scene.global? id).any Global.isConst = false
  rw [hview.known id (h.confined.encloses.known _ hin)]
  exact h.ordinary id hin

theorem Plainly.nodup (h : Plainly p inside s) (hp : p.Tidy) (hn : p.Numbered) :
    s.now.numbers.Nodup := h.renews.nodup (hn.numbers hp).1 (hn.numbers hp).2

theorem now_enterGlobal {g : Global} (hg : s.now.global? g.id = some g) (view : View) :
    (s.enterGlobal g (hooks.onGlobal view g s.state)).now = s.now := by
  have hdecl : s.now.declaration? (.global g.id) = some (.global g) := by
    simp [Program.declaration?, hg]
  exact Program.set_self (a := .global g) hdecl

theorem Plainly.move (h : Plainly p inside s) (hp : p.Tidy) (hs : s.Orderly p)
    (hmove : Move hooks s s') : Plainly p inside s' where
  confined := h.confined.move hp hs (closes_refersIn inside)
    (hooks_keep Leaf.refersIn_atom (Callee.refersIn_word _ _ _)) hmove
  ordinary id hid := by
    have hold := h.ordinary id hid
    have hknown := h.confined.encloses.known _ hid
    cases hmove with
    | global view g hview hg => rw [now_enterGlobal hg, hold]
    | script | call | skip => exact hold
    | element view d spot vs rest hview hd =>
      exact ((hs.tidy hp).isConst_put (hs.known_now (hs.opened_known d hd)) hknown vs).trans hold
    | value view d spot vs rest hview hd =>
      exact ((hs.tidy hp).isConst_put (hs.known_now (hs.opened_known d hd)) hknown vs).trans hold
  renews := h.renews.trans (hs.renews_move hp Pass.folding.hooks_renew hmove)

/-- Nothing has been done to the declaration `d` yet, and nothing could have been done where the
walk has been. -/
structure Watched (p : Program) (d : DeclId) (s : Standing Env) : Prop where
  declaration : s.now.declaration? d = p.declaration? d
  aware : Aware d.owner (p.content d) s.state
  offered : ∀ spot, s.offered = some spot → spot ∈ Spot.all d.owner (p.content d) →
    Passed spot s.state
  visited : ∀ spot ∈ Spot.all d.owner (p.content d), spot.focus.root ∈ s.visited →
    applies spot = false

/-- The declaration `d` has become lighter, where folding applied. -/
def Changed (p : Program) (d : DeclId) (s : Standing Env) : Prop :=
  bulk (s.now.content d) < bulk (p.content d) ∧
    ∃ spot ∈ Spot.all d.owner (p.content d), applies spot = true

theorem watched_start (p : Program) (d : DeclId) (report : Report) (limit : Int64) :
    Watched p d (.start p (.fresh p.nextNode report limit)) where
  declaration := rfl
  aware :=
    { memo := Scene.consistent_empty _ _
      marks := fun _ _ h => absurd h (by simp [Standing.start, Env.fresh, Env.isMarked]) }
  offered _ h := nomatch h
  visited _ _ h := absurd h List.not_mem_nil

theorem Watched.content (h : Watched p d s) : s.now.content d = p.content d := by
  rw [Program.content, h.declaration, Program.content]

/-- What is remembered about a list stays right while a list with other numbers is folded. -/
theorem Aware.of_local {o : Owner} {vs ws : List Value} {e e' : Env} (h : Aware o vs e)
    (hlocal : Env.Local ws e e') (hapart : ∀ i ∈ numbers vs, i ∉ numbers ws) :
    Aware o vs e' where
  memo := by
    refine h.memo.congr fun K hK => hlocal.memo K.key fun A hA hkey => ?_
    cases hsort : K.global? with
    | some =>
      have hA' := global?_of_mem_nodesAll ws hA
      cases K <;> cases A <;> simp_all [Node.global?, Node.key]
    | none =>
      refine hapart _ (List.mem_map_of_mem (hK hsort)) ?_
      rw [← Node.number_eq_of_key hkey]
      exact List.mem_map_of_mem hA
  marks spot hspot hmarked := by
    refine h.marks spot hspot ((hlocal.marks _ hmarked).resolve_right ?_)
    exact hapart _ (Spot.id_mem_numbers hspot)

theorem foldElement_tag (view : View) (place : Place) (v w : Value) (inserted : List Value)
    (e : Env) (h : (foldElement view place v e).1 = .keep w inserted) : w.tag = v.tag := by
  have hoffered := foldElement_offered view place v e
  rw [h] at hoffered
  cases hoffered <;> rfl

/-- What is to be visited next has the number of what was offered. -/
theorem offered_foldElement {view : View} {d : DeclId} {spot spot' : Spot} {vs rest : List Value}
    (h : (s.offer d spot (foldElement view spot.place spot.focus s.state) vs rest).offered =
      some spot') : spot'.focus.id = spot.focus.id := by
  have htag := fun w inserted =>
    foldElement_tag view spot.place spot.focus w inserted s.state
  rw [Standing.offer] at h
  cases hanswer : (foldElement view spot.place spot.focus s.state).1 with
  | keep w inserted =>
    rw [hanswer] at h
    rw [← Option.some.inj h]
    exact congrArg Tag.id (htag w inserted hanswer)
  | drop =>
    rw [hanswer] at h
    cases h

/-- What was done to the declaration `d`, if anything. -/
def Tracked (p : Program) (d : DeclId) (s : Standing Env) : Prop := Watched p d s ∨ Changed p d s

theorem Tracked.same (h : Tracked p d s) (hnow : s'.now = s.now) (hstate : s'.state = s.state)
    (hoffered : s'.offered = s.offered) (hvisited : s'.visited = s.visited) : Tracked p d s' := by
  rcases h with h | h
  · refine .inl ⟨?_, ?_, ?_, ?_⟩
    · rw [hnow, h.declaration]
    · rw [hstate]
      exact h.aware
    · rw [hoffered, hstate]
      exact h.offered
    · rw [hvisited]
      exact h.visited
  · refine .inr ?_
    rw [Changed, hnow]
    exact h

/-- Another declaration is edited, at a spot whose number tells it apart. -/
theorem Watched.other (h : Watched p d s) (hs : s.Orderly p) (hp : p.Tidy) (hd : d ∈ p.allIds)
    (hd' : d' ∈ s.opened) (hne : d' ≠ d)
    (hapart : ∀ i ∈ numbers (p.content d), i ∉ numbers (s.now.content d')) {e : Env}
    (hlocal : Env.Local (s.now.content d') s.state e) (hnow : s'.now = s.now.put d' vs)
    (hstate : s'.state = e)
    (hoffered : ∀ spot, s'.offered = some spot → spot.focus.id ∈ numbers (s.now.content d'))
    (hvisited : ∀ r ∈ s'.visited, r ∈ s.visited ∨ ∃ v : Value,
      r = v.root ∧ v.id ∈ numbers (s.now.content d')) :
    Watched p d s' where
  declaration := by
    rw [hnow, (hs.tidy hp).declaration?_put_of_ne (hs.known_now (hs.opened_known d' hd'))
      (hs.known_now hd) hne, h.declaration]
  aware := by
    rw [hstate]
    exact h.aware.of_local hlocal hapart
  offered spot hspot hmem := absurd (hoffered spot hspot) (hapart _ (Spot.id_mem_numbers hmem))
  visited spot hmem hroot := by
    rcases hvisited _ hroot with hold | ⟨v, hv, hid⟩
    · exact h.visited spot hmem hold
    · have hsame : spot.focus.id = v.id := id_eq_of_root_eq hv
      exact absurd (hsame ▸ hid) (hapart _ (Spot.id_mem_numbers hmem))

theorem Watched.change (h : Watched p d s) (hs : s.Orderly p) (hp : p.Tidy) (hd : d ∈ s.opened)
    {ws vs : List Value} (hedit : spot.Edit ws d.owner (s.now.content d) vs)
    (hsuits : Declaration.Suits d vs) (happlies : applies spot = true)
    (hbulk : bulk ws < bulk [spot.focus]) (hnow : s'.now = s.now.put d vs) :
    Changed p d s' := by
  have hsum := hedit.bulk
  rw [Changed, hnow, hs.content_put_self hp hd hsuits]
  rw [h.content] at hsum hedit
  exact ⟨by omega, spot, hedit.mem_all, happlies⟩

/-- Any edit of a declaration that has become lighter, or of another one. -/
theorem Changed.edit (h : Changed p d s) (hs : s.Orderly p) (hp : p.Tidy) (hd : d ∈ p.allIds)
    (hd' : d' ∈ s.opened) {ws vs : List Value} (hedit : spot.Edit ws d'.owner (s.now.content d') vs)
    (hsuits : Declaration.Suits d' vs) (hbulk : bulk ws ≤ bulk [spot.focus])
    (hnow : s'.now = s.now.put d' vs) : Changed p d s' := by
  have hsum := hedit.bulk
  rw [Changed, hnow]
  refine ⟨Nat.lt_of_le_of_lt ?_ h.1, h.2⟩
  rcases hs.content_put hp hd' hsuits hd with hsame | ⟨rfl, hnew⟩
  · rw [hsame]
  · rw [hnew]
    omega

theorem passed_of_global {id : GlobalId} (h : spot.owner = .global id) (e : Env) :
    Passed spot e where
  runs _ _ _ _ htakes := by
    rw [h] at htakes
    cases htakes
  inner _ _ _ _ hinner := by
    have htakes := takesStatements_of_inner hinner
    rw [h] at htakes
    cases htakes

/-- The declaration is put back as it was. -/
theorem Watched.declaration?_put (h : Watched p d s) (hs : s.Orderly p) (hp : p.Tidy)
    (hd : d ∈ s.opened) (hvs : vs = s.now.content d) :
    (s.now.put d vs).declaration? d = p.declaration? d := by
  rw [hvs, (hs.tidy hp).put_content (hs.known_now (hs.opened_known d hd)), h.declaration]

section

variable (h : Watched p d s) (hs : s.Orderly p) (hp : p.Tidy) (hd : d ∈ s.opened)
  (hnumbers : (numbers (p.content d)).Nodup) (hplain : view.scene.Plain (leavesAll (p.content d)))
  (hsuits : Declaration.Suits d vs) (rest : List Value)

include h hs hp hd hnumbers hplain hsuits

/-- **An element of the declaration is offered.** -/
theorem Watched.element
    (hedit : spot.Edit (foldElement view spot.place spot.focus s.state).1.values d.owner
      (s.now.content d) vs) :
    Tracked p d (s.offer d spot (foldElement view spot.place spot.focus s.state) vs rest) := by
  have hspot : spot ∈ Spot.all d.owner (p.content d) := h.content ▸ hedit.mem_all
  obtain ⟨hkeep, haware, hpassed⟩ | ⟨happlies, hbulk⟩ :=
    foldElement_cases h.aware hnumbers hplain hspot
  · rw [hkeep] at hedit
    refine .inl ⟨h.declaration?_put hs hp hd hedit.eq_of_same, haware, fun spot' hspot' _ => ?_,
      h.visited⟩
    rw [Standing.offer, hkeep] at hspot'
    obtain rfl : spot = spot' := Option.some.inj hspot'
    exact hpassed
  · exact .inr (h.change hs hp hd hedit hsuits happlies hbulk rfl)

/-- **A value of the declaration is visited.** -/
theorem Watched.value (hoffered : (∀ id, spot.owner ≠ .global id) → s.offered = some spot)
    (hedit : spot.Edit [(foldValue view spot.focus s.state).1] d.owner (s.now.content d) vs) :
    Tracked p d (s.visit d (foldValue view spot.focus s.state) vs rest) := by
  have hspot : spot ∈ Spot.all d.owner (p.content d) := h.content ▸ hedit.mem_all
  have hpassed : Passed spot s.state := by
    by_cases howner : ∃ id, spot.owner = .global id
    · obtain ⟨id, hid⟩ := howner
      exact passed_of_global hid s.state
    · exact h.offered spot (hoffered fun id hid => howner ⟨id, hid⟩) hspot
  obtain ⟨hkeep, haware, happlies⟩ | ⟨happlies, hbulk⟩ :=
    foldValue_cases h.aware hnumbers hplain hspot hpassed
  · rw [hkeep] at hedit
    refine .inl ⟨h.declaration?_put hs hp hd hedit.eq_of_same, haware,
      fun _ hnone _ => (nomatch hnone), fun spot' hspot' hroot => ?_⟩
    rw [Standing.visit, hkeep] at hroot
    rcases List.mem_cons.mp hroot with heq | hold
    · rw [Spot.eq_of_id_eq hnumbers hspot' hspot (id_eq_of_root_eq heq)]
      exact happlies
    · exact h.visited spot' hspot' hold
  · exact .inr (h.change hs hp hd hedit hsuits happlies hbulk rfl)

end

/-- **Every move keeps track of the declaration.** -/
theorem Tracked.move (h : Tracked p d s) (hb : Plainly p inside s) (hs : s.Orderly p) (hp : p.Tidy)
    (hn : p.Numbered) (hd : d ∈ p.allIds) (hmove : Move hooks s s') : Tracked p d s' := by
  have hnodup := hb.nodup hp hn
  have hapart : Watched p d s → ∀ d' ∈ s.opened, d' ≠ d →
      ∀ i ∈ numbers (p.content d), i ∉ numbers (s.now.content d') := by
    intro h d' hd' hne
    rw [← h.content]
    exact Program.numbers_disjoint hnodup (hs.known_now hd)
      (hs.known_now (hs.opened_known d' hd')) (Ne.symm hne)
  have hnumbers : Watched p d s → (numbers (p.content d)).Nodup := fun h =>
    h.content ▸ Program.numbers_content hnodup (hs.known_now hd)
  cases hmove with
  | global view g hview hg => exact h.same (now_enterGlobal hg view) rfl rfl rfl
  | script => exact h.same rfl rfl rfl rfl
  | call => exact h.same rfl rfl rfl rfl
  | skip => exact h.same rfl rfl rfl rfl
  | element view d' spot vs rest hview hd' howner hdue hpending hedit hsuits =>
    have hplain := hb.plain hview hd'
    rcases h with h | h
    · by_cases heq : d' = d
      · subst heq
        exact h.element hs hp hd' (hnumbers h) (h.content ▸ hplain) hsuits rest hedit
      · have hfocus := Spot.id_mem_numbers hedit.mem_all
        refine .inl (h.other hs hp hd hd' heq (hapart h d' hd' heq)
          (foldElement_local hplain spot.place spot.focus s.state
            (Spot.nodes_allFrom _ _ [] hedit.mem_all)) rfl rfl (fun spot' hspot' => ?_)
          fun _ hr => .inl hr)
        rw [offered_foldElement hspot']
        exact hfocus
    · exact .inr (h.edit hs hp hd hd' hedit hsuits
        (foldElement_bulk view spot.place spot.focus s.state) rfl)
  | value view d' spot vs rest hview hd' hoffered hdue hpending hedit hsuits =>
    have hplain := hb.plain hview hd'
    rcases h with h | h
    · by_cases heq : d' = d
      · subst heq
        exact h.value hs hp hd' (hnumbers h) (h.content ▸ hplain) hsuits rest hoffered hedit
      · have hfocus := Spot.id_mem_numbers hedit.mem_all
        refine .inl (h.other hs hp hd hd' heq (hapart h d' hd' heq)
          (foldValue_local hplain spot.focus s.state (Spot.nodes_allFrom _ _ [] hedit.mem_all))
          rfl rfl (fun _ hnone => nomatch hnone) fun r hr => ?_)
        rcases List.mem_cons.mp hr with rfl | hold
        · refine .inr ⟨_, rfl, ?_⟩
          show (foldValue view spot.focus s.state).1.tag.id ∈ _
          rw [foldValue_tag]
          exact hfocus
        · exact .inl hold
    · exact .inr (h.edit hs hp hd hd' hedit hsuits (foldValue_bulk view spot.focus s.state) rfl)

/-- What holds throughout the walk. -/
structure Follows (p : Program) (inside : DeclId → Prop) (base : Report) (s : Standing Env) :
    Prop where
  plainly : Plainly p inside s
  tracked : ∀ d ∈ p.allIds, Tracked p d s
  removed : s.removed = []
  report : s.state.report = base

theorem Follows.move {base : Report} (h : Follows p inside base s) (hp : p.Tidy) (hn : p.Numbered)
    (hs : s.Orderly p) (hmove : Move hooks s s') : Follows p inside base s' where
  plainly := h.plainly.move hp hs hmove
  tracked d hd := (h.tracked d hd).move h.plainly hs hp hn hd hmove
  removed := by
    cases hmove with
    | global | script | element | value | call | skip => exact h.removed
  report := by
    cases hmove with
    | global | script | call | skip => exact h.report
    | element view d spot vs rest hview hd howner hdue hpending hedit =>
      exact (foldElement_local (h.plainly.plain hview hd) spot.place spot.focus s.state
        (Spot.nodes_allFrom _ _ [] hedit.mem_all)).report.trans h.report
    | value view d spot vs rest hview hd hoffered hdue hpending hedit =>
      exact (foldValue_local (h.plainly.plain hview hd) spot.focus s.state
        (Spot.nodes_allFrom _ _ [] hedit.mem_all)).report.trans h.report

/-- At the end of the walk nothing was done to a declaration, and nothing could be done, or it has
become lighter. -/
theorem Follows.ends {base : Report} {q : Program} {e : Env} (h : Follows p inside base s)
    (hf : s.Final p q e) (hp : p.Tidy) (hd : d ∈ p.table.entries) :
    (q.declaration? d = p.declaration? d ∧
      ∀ spot ∈ Spot.all d.owner (p.content d), applies spot = false) ∨
    (bulk (q.content d) < bulk (p.content d) ∧
      ∃ spot ∈ Spot.all d.owner (p.content d), applies spot = true) := by
  rw [hf.declaration?_eq, hf.content_eq]
  refine (h.tracked d (hp.known d hd)).imp (fun hw => ⟨hw.declaration, fun spot hspot => ?_⟩) id
  have hopen : d ∈ s.opened := hf.opened hp ((hf.table_eq hp h.removed).symm ▸ hd)
  refine hw.visited spot hspot (hf.covered.mem_visited hf.ended hopen ?_)
  rw [hw.content]
  exact root_mem_rootsAll (value_mem_nodesAll.mp (Spot.nodes_allFrom _ _ [] hspot))

section

variable (hp : p.Tidy) (hn : p.Numbered) (hin : p.Bounds inside)
  (hplain : ∀ id, inside (.global id) → p.isConst id = false) (base : Report) (limit : Int64)

include hp hn hin hplain

theorem run_follows :
    ∃ s, Follows p inside base s ∧
      s.Final p (Pass.folding.run p (.fresh p.nextNode base limit)).1
        (Pass.folding.run p (.fresh p.nextNode base limit)).2 :=
  Pass.folding.run_final hp base limit
    ⟨⟨.start hin _, hplain, .refl _ _⟩, fun d _ => .inl (watched_start p d base limit), rfl, rfl⟩
    fun _ _ hs hq hmove => hq.move hp hn hs hmove

theorem run_quiet :
    (Pass.folding.run p (.fresh p.nextNode base limit)).1.table = p.table ∧
      (Pass.folding.run p (.fresh p.nextNode base limit)).2.report = base := by
  obtain ⟨s, hs, hf⟩ := run_follows hp hn hin hplain base limit
  exact ⟨hf.table_eq hp hs.removed, hf.state ▸ hs.report⟩

/-- **A declaration is left as it is exactly if folding applies at none of its spots.** -/
theorem run_declaration?_iff (hd : d ∈ p.table.entries) :
    (Pass.folding.run p (.fresh p.nextNode base limit)).1.declaration? d = p.declaration? d ↔
      ∀ spot ∈ Spot.all d.owner (p.content d), applies spot = false := by
  obtain ⟨s, hs, hf⟩ := run_follows hp hn hin hplain base limit
  obtain ⟨hsame, hnone⟩ | ⟨hbulk, spot, hspot, happlies⟩ := hs.ends hf hp hd
  · exact iff_of_true hsame hnone
  · refine iff_of_false (fun heq => ?_) fun hnone => ?_
    · rw [Program.content, heq, Program.content] at hbulk
      exact Nat.lt_irrefl _ hbulk
    · rw [hnone spot hspot] at happlies
      cases happlies

end

end Folding

end HaloScript
