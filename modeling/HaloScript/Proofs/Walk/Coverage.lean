/-
# What a walk covers

When a walk is over, it has been everywhere: all entries of the table have been entered, every
value of a declaration that was not removed has been answered by the hook for values, and all
that the answers refer to has been entered as well.  So the declarations that were opened are
closed under references, but for those that were removed.

During the walk the parts of the opened declarations are those that were answered and those that
are still to come (`Standing.Covered`), up to their order.  Every move keeps that.
-/
import HaloScript.Proofs.Walk.Moves

namespace HaloScript

open List Value

variable {σ : Type}

namespace Standing

variable {p : Program} {s s' : Standing σ} {h : Hooks σ} {d e : DeclId} {vs : List Value}

def openedRoots (s : Standing σ) : List Root :=
  s.opened.flatMap fun d => rootsAll (s.now.content d)

/-- What has been answered, what is to come, and what has been entered. -/
structure Covered (p : Program) (s : Standing σ) : Prop where
  roots : s.openedRoots.Perm (rootsAll s.pending ++ s.visited)
  refers : ∀ r ∈ s.visited, ∀ e, r.refers? = some e → e ∈ s.unseen → s.due = some e
  seen : ∀ d ∈ p.allIds, d ∉ s.unseen → d ∈ s.opened ∨ d ∈ s.removed
  removed_known : ∀ d ∈ s.removed, d ∈ p.allIds

theorem covered_start (p : Program) (s : σ) : (start p s).Covered p where
  roots := .refl _
  refers _ hr := absurd hr not_mem_nil
  seen _ hd hnot := absurd hd hnot
  removed_known _ hd := absurd hd not_mem_nil

namespace Covered

/-- Nothing that was due is left over once it has been entered. -/
theorem refers_erase (hc : s.Covered p) (hs : s.Orderly p) (hdue : ∀ e ∈ s.due, e = d) :
    ∀ r ∈ s.visited, ∀ e, r.refers? = some e → e ∉ s.unseen.erase d := by
  intro r hr e he hmem
  obtain ⟨hne, hunseen⟩ := hs.unseen.mem_erase_iff.mp hmem
  exact hne (hdue e (hc.refers r hr e he hunseen))

/-- A declaration is entered: it is removed, or its values are to come. -/
theorem enter (hc : s.Covered p) (hs : s.Orderly p) {a : Declaration} {r : Bool × Program × σ}
    (hdue : ∀ e ∈ s.due, e = a.id) (hknown : a.id ∈ p.allIds)
    (ha : s.now.declaration? a.id = some a)
    (hcontent : ∀ e ∈ p.allIds, r.2.1.content e = s.now.content e) : (s.enter a r).Covered p := by
  obtain ⟨remove, program, state⟩ := r
  have hrefers := hc.refers_erase hs hdue
  have hopened : (s.opened.flatMap fun d => rootsAll (program.content d)) = s.openedRoots :=
    flatMap_congr fun e he => by rw [hcontent e (hs.opened_known e he)]
  have hseen :
      ∀ e ∈ p.allIds, e ∉ s.unseen.erase a.id → e = a.id ∨ e ∈ s.opened ∨ e ∈ s.removed := by
    intro e he hnot
    by_cases heq : e = a.id
    · exact .inl heq
    · rw [hs.unseen.mem_erase_iff] at hnot
      exact .inr (hc.seen e he fun hmem => hnot ⟨heq, hmem⟩)
  cases remove with
  | true =>
    refine ⟨?_, fun r hr e he hmem => absurd hmem (hrefers r hr e he), fun e he hnot => ?_,
      forall_mem_cons.mpr ⟨hknown, hc.removed_known⟩⟩
    · show List.Perm (s.opened.flatMap fun d => rootsAll (program.content d)) _
      rw [hopened]
      exact hc.roots
    · rcases hseen e he hnot with rfl | hmem | hmem
      · exact .inr mem_cons_self
      · exact .inl hmem
      · exact .inr (mem_cons_of_mem _ hmem)
  | false =>
    refine ⟨?_, fun r hr e he hmem => absurd hmem (hrefers r hr e he), fun e he hnot => ?_,
      hc.removed_known⟩
    · show List.Perm ((a.id :: s.opened).flatMap fun d => rootsAll (program.content d))
        (rootsAll (a.values ++ s.pending) ++ s.visited)
      rw [flatMap_cons, hopened, hcontent _ hknown, Program.content_eq ha, rootsAll_append,
        append_assoc]
      exact hc.roots.append_left _
    · rcases hseen e he hnot with rfl | hmem | hmem
      · exact .inl mem_cons_self
      · exact .inl (mem_cons_of_mem _ hmem)
      · exact .inr hmem

/-- The roots of the opened declarations after an edit of one of them. -/
theorem roots_put (hs : s.Orderly p) (hp : p.Tidy) (hd : d ∈ s.opened)
    (hsuits : Declaration.Suits d vs) {spot : Spot} {ws : List Value} {o : Owner}
    (hedit : spot.Edit ws o (s.now.content d) vs) :
    ∃ others, s.openedRoots.Perm (rootsAll [spot.focus] ++ others) ∧
      (s.opened.flatMap fun e => rootsAll ((s.now.put d vs).content e)).Perm
        (rootsAll ws ++ others) := by
  obtain ⟨others, hold, hnew⟩ := hedit.roots_perm
  obtain ⟨rest, hbefore, hafter⟩ := flatMap_perm_exchange hs.opened hd
    (f := fun e => rootsAll (s.now.content e))
    (g := fun e => rootsAll ((s.now.put d vs).content e))
    fun e he hne => by rw [hs.content_put_of_ne hp hd (hs.opened_known e he) hne.symm]
  rw [hs.content_put_self hp hd hsuits] at hafter
  refine ⟨others ++ rest, hbefore.trans ?_, hafter.trans ?_⟩
  · rw [← append_assoc]
    exact hold.append_right rest
  · rw [← append_assoc]
    exact hnew.append_right rest

theorem roots_rest (hc : s.Covered p) {v : Value} {rest : List Value}
    (hpending : s.pending = v :: rest) {others : List Root}
    (hroots : s.openedRoots.Perm (rootsAll [v] ++ others)) :
    others.Perm (rootsAll rest ++ s.visited) := by
  have hall := hroots.symm.trans hc.roots
  have hsplit : rootsAll (v :: rest) = rootsAll [v] ++ rootsAll rest :=
    rootsAll_append [v] rest
  rw [hpending, hsplit, append_assoc] at hall
  exact (perm_append_left_iff _).mp hall

/-- **Every move keeps the walk covered.** -/
theorem move (hc : s.Covered p) (hs : s.Orderly p) (hp : p.Tidy) (hmove : Move h s s') :
    s'.Covered p := by
  cases hmove with
  | global view g hview hg hunseen hreach hdue =>
    have hknown := hs.unseen_known _ hunseen
    exact hc.enter hs (a := .global g) (r := h.allow view s.now s.state (.global g)) hdue hknown
      (by simp [Program.declaration?, Declaration.id, hg])
      fun e he => hs.content_enterGlobal hp hg hknown he _
  | script a ha hunseen hreach hdue =>
    exact hc.enter hs (a := .script a) (r := ((h.onScript a s.state).1, s.now, _)) hdue
      (hs.unseen_known _ hunseen) (by simp [Program.declaration?, Declaration.id, ha])
      fun _ _ => rfl
  | element view d spot vs rest hview hd howner hdue hpending hedit hsuits =>
    obtain ⟨others, hold, hnew⟩ := roots_put hs hp hd hsuits hedit
    have hothers := hc.roots_rest hpending hold
    refine ⟨?_, hc.refers, hc.seen, hc.removed_known⟩
    show List.Perm _ (rootsAll (_ ++ rest) ++ s.visited)
    rw [rootsAll_append, append_assoc]
    exact hnew.trans (hothers.append_left _)
  | value view d spot vs rest hview hd hoffered hdue hpending hedit hsuits =>
    obtain ⟨others, hold, hnew⟩ := roots_put hs hp hd hsuits hedit
    have hothers := hc.roots_rest hpending hold
    generalize h.onValue view spot.focus s.state = answer at hnew ⊢
    refine ⟨?_, fun r hr e he hmem => ?_, hc.seen, hc.removed_known⟩
    · show List.Perm _ (rootsAll (answer.1.args ++ rest) ++ answer.1.root :: s.visited)
      rw [rootsAll_singleton] at hnew
      rw [rootsAll_append, append_assoc]
      refine hnew.trans ?_
      rw [cons_append]
      refine ((hothers.append_left _).cons _).trans ?_
      rw [← append_assoc, ← append_assoc]
      exact perm_middle.symm
    · rcases mem_cons.mp hr with rfl | hr
      · exact he
      · have hnone := hc.refers r hr e he hmem
        rw [hdue] at hnone
        cases hnone
  | call => exact { hc with }
  | skip hdue =>
    refine { hc with refers := fun r hr e he hmem => ?_ }
    exact absurd hmem (hdue e (hc.refers r hr e he hmem))

/-- **At the end of a walk** every value of an opened declaration has been answered. -/
theorem mem_visited (hc : s.Covered p) (hend : s.Ended p) (hd : d ∈ s.opened) {r : Root}
    (hr : r ∈ rootsAll (s.now.content d)) : r ∈ s.visited := by
  have hmem : r ∈ s.openedRoots := mem_flatMap.mpr ⟨d, hd, hr⟩
  have hall := hc.roots.mem_iff.mp hmem
  rw [hend.pending] at hall
  exact hall

/-- **At the end of a walk** what an opened declaration refers to is opened, or it was removed. -/
theorem opened_or_removed (hc : s.Covered p) (hend : s.Ended p) (hd : d ∈ s.opened)
    (he : Refer (s.now.content d) e) (hknown : e ∈ p.allIds) :
    e ∈ s.opened ∨ e ∈ s.removed := by
  obtain ⟨r, hr, hrefers⟩ := he
  refine hc.seen e hknown fun hmem => ?_
  have hdue := hc.refers r (hc.mem_visited hend hd hr) e hrefers hmem
  rw [hend.due] at hdue
  cases hdue

end Covered

end Standing

/-- **What every move keeps, a walk keeps up to its end.** -/
theorem Program.walk_covered {p : Program} (hp : p.Tidy) (h : Hooks σ) (s : σ)
    {Q : Standing σ → Prop} (hstart : Q (.start p s))
    (hkeep : ∀ s s', s.Orderly p → Q s → Move h s s' → Q s') :
    ∃ s', s'.Orderly p ∧ s'.Covered p ∧ s'.Ended p ∧ Q s' ∧
      p.walk h true s =
        ((s'.removed.map DeclId.name).reverse.foldl remove s'.now, s'.state) := by
  obtain ⟨s', hmoves, hend, hwalk⟩ := walk_moves hp h s
  obtain ⟨hs, hc, hQ⟩ := (Standing.orderly_start hp s).moves hp
    (Q := fun s => s.Covered p ∧ Q s) ⟨Standing.covered_start p s, hstart⟩
    (fun s s' hs hq hmove => ⟨hq.1.move hs hp hmove, hkeep s s' hs hq.2 hmove⟩) hmoves
  exact ⟨s', hs, hc, hend, hQ, hwalk⟩

end HaloScript
