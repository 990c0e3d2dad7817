/-
# What a walk leaves alone

A condition on the parts of values that the hooks keep with every edit is kept in every
declaration by the whole walk (`Hooks.Keep`, `Standing.Orderly.keep_move`).  And a walk whose hooks
find nothing to do in what it reaches is no walk at all: program and state come back as they were
(`Program.walk_rest`).

For the second, the declarations are sorted into those that stay and those that leave.  The table
lists none but the first, and what they refer to is one or the other.  Whatever leaves has no
entry in the table, so nothing is taken off it.
-/
import HaloScript.Proofs.Walk.Coverage

namespace HaloScript

open List Value

variable {σ : Type}

/-! ## 1. Conditions on roots -/

/-- The root meets the conditions on leaves and calls. -/
def Root.Meets (leafOk : Leaf → Prop) (callOk : CallCondition) : Root → Prop
  | .leaf _ l => leafOk l
  | .call _ h => callOk h.callee h.clause

namespace Value

variable {leafOk : Leaf → Prop} {callOk : CallCondition}

mutual

/-- A condition on the parts of a value is one on its roots. -/
theorem meets_iff_roots (v : Value) :
    v.Meets leafOk callOk ↔ ∀ r ∈ v.roots, r.Meets leafOk callOk := by
  match v with
  | .leaf t l => simp [roots, Root.Meets]
  | .call t h args => simp [roots, Root.Meets, meetsAll_iff_roots args]

theorem meetsAll_iff_roots (vs : List Value) :
    (∀ v ∈ vs, v.Meets leafOk callOk) ↔ ∀ r ∈ rootsAll vs, r.Meets leafOk callOk := by
  match vs with
  | [] => simp [rootsAll]
  | v :: rest =>
    rw [forall_mem_cons, rootsAll, forall_mem_append, meets_iff_roots v,
      meetsAll_iff_roots rest]

end

end Value

namespace Spot.Edit

variable {spot : Spot} {vs xs ys : List Value} {o : Owner}

theorem root_mem (h : spot.Edit vs o xs ys) : spot.focus.root ∈ rootsAll xs := by
  obtain ⟨others, hxs, -⟩ := h.roots_perm
  rw [hxs.mem_iff, rootsAll_singleton]
  exact mem_append_left _ mem_cons_self

theorem focus_meets {leafOk : Leaf → Prop} {callOk : CallCondition} (h : spot.Edit vs o xs ys)
    (hxs : ∀ v ∈ xs, v.Meets leafOk callOk) : spot.focus.Meets leafOk callOk := by
  obtain ⟨others, hold, -⟩ := h.roots_perm
  rw [meetsAll_iff_roots] at hxs
  have hfocus : ∀ w ∈ [spot.focus], w.Meets leafOk callOk :=
    (meetsAll_iff_roots _).mpr fun r hr =>
      hxs r (hold.mem_iff.mpr (mem_append_left _ hr))
  exact hfocus _ mem_cons_self

theorem meets {leafOk : Leaf → Prop} {callOk : CallCondition} (h : spot.Edit vs o xs ys)
    (hvs : spot.focus.Meets leafOk callOk → ∀ w ∈ vs, w.Meets leafOk callOk)
    (hxs : ∀ v ∈ xs, v.Meets leafOk callOk) : ∀ v ∈ ys, v.Meets leafOk callOk := by
  have hfocus := h.focus_meets hxs
  obtain ⟨others, hold, hnew⟩ := h.roots_perm
  rw [meetsAll_iff_roots] at hxs ⊢
  intro r hr
  rcases mem_append.mp (hnew.mem_iff.mp hr) with hr | hr
  · exact (meetsAll_iff_roots _).mp (hvs hfocus) r hr
  · exact hxs r (hold.mem_iff.mpr (mem_append_right _ hr))

theorem eq_of_same (h : spot.Edit [spot.focus] o xs ys) : ys = xs := by
  induction h with
  | here => rfl
  | inside left right _ ih => rw [ih]

end Spot.Edit

/-! ## 2. Conditions that hooks keep -/

/-- Whatever meets the conditions is replaced by what meets them. -/
structure Hooks.Keep (h : Hooks σ) (leafOk : Leaf → Prop) (callOk : CallCondition) : Prop where
  onElement : ∀ view place v s, v.Meets leafOk callOk →
    ∀ w ∈ (h.onElement view place v s).1.values, w.Meets leafOk callOk
  onValue : ∀ view v s, v.Meets leafOk callOk → (h.onValue view v s).1.Meets leafOk callOk

/-- The same, as long as the hooks are called in situations of a kind. -/
structure Hooks.KeepUnder (h : Hooks σ) (given : View → σ → Prop) (leafOk : Leaf → Prop)
    (callOk : CallCondition) : Prop where
  onElement : ∀ view place v s, given view s → v.Meets leafOk callOk →
    ∀ w ∈ (h.onElement view place v s).1.values, w.Meets leafOk callOk
  onValue : ∀ view v s, given view s → v.Meets leafOk callOk →
    (h.onValue view v s).1.Meets leafOk callOk

theorem Hooks.Keep.under {h : Hooks σ} {leafOk : Leaf → Prop} {callOk : CallCondition}
    (hh : h.Keep leafOk callOk) (given : View → σ → Prop) : h.KeepUnder given leafOk callOk :=
  ⟨fun view place v s _ => hh.onElement view place v s, fun view v s _ => hh.onValue view v s⟩

namespace Standing

variable {p : Program} {s s' : Standing σ} {h : Hooks σ} {d : DeclId}

/-- What a hook is given when it is called: a view of the program as it is now, and the state. -/
def Gives (s : Standing σ) (view : View) (e : σ) : Prop := view.Shows s ∧ e = s.state

/-- A content that is one of those there were, or comes from it by an edit. -/
theorem Orderly.content_put (hs : s.Orderly p) (hp : p.Tidy) {e : DeclId} (he : e ∈ s.opened)
    {vs : List Value} (hsuits : Declaration.Suits e vs) (hd : d ∈ p.allIds) :
    (s.now.put e vs).content d = s.now.content d ∨
      (e = d ∧ (s.now.put e vs).content d = vs) := by
  by_cases heq : e = d
  · subst heq
    exact .inr ⟨rfl, hs.content_put_self hp he hsuits⟩
  · exact .inl (hs.content_put_of_ne hp he hd heq vs)

/-- **What hooks keep of every value, a move keeps of every declaration.**  The hooks may rely on
what they are given at this move. -/
theorem Orderly.keep_move (hs : s.Orderly p) (hp : p.Tidy) {leafOk : Leaf → Prop}
    {callOk : CallCondition} (hh : h.KeepUnder s.Gives leafOk callOk) (hd : d ∈ p.allIds)
    (hq : ∀ v ∈ s.now.content d, v.Meets leafOk callOk) (hmove : Move h s s') :
    ∀ v ∈ s'.now.content d, v.Meets leafOk callOk := by
  -- the edited declaration is `d` or another one
  have hput : ∀ (e : DeclId) (spot : Spot) (ws vs : List Value), e ∈ s.opened →
      spot.Edit ws e.owner (s.now.content e) vs → Declaration.Suits e vs →
      (spot.focus.Meets leafOk callOk → ∀ w ∈ ws, w.Meets leafOk callOk) →
      ∀ v ∈ (s.now.put e vs).content d, v.Meets leafOk callOk := by
    intro e spot ws vs he hedit hsuits hws
    rcases hs.content_put hp he hsuits hd with hsame | ⟨rfl, hnew⟩
    · rw [hsame]
      exact hq
    · rw [hnew]
      exact hedit.meets hws hq
  cases hmove with
  | global view g hview hg hunseen =>
    rw [hs.content_enterGlobal hp hg (hs.unseen_known _ hunseen) hd]
    exact hq
  | script => exact hq
  | element view e spot vs rest hview he howner hdue hpending hedit hsuits =>
    exact hput e spot _ vs he hedit hsuits
      (hh.onElement view spot.place spot.focus s.state ⟨hview, rfl⟩)
  | value view e spot vs rest hview he hoffered hdue hpending hedit hsuits =>
    exact hput e spot _ vs he hedit hsuits fun hfocus =>
      forall_mem_singleton.mpr (hh.onValue view spot.focus s.state ⟨hview, rfl⟩ hfocus)
  | call => exact hq
  | skip => exact hq

end Standing

/-! ## 3. Walks that change nothing -/

/-- What hooks see are the globals of the program `p` and scripts of the same signatures. -/
structure View.Sees (view : View) (p : Program) : Prop where
  known : ∀ id, .global id ∈ p.allIds → view.scene.global? id = p.global? id
  signatures : ∀ id, (view.script? id).map Script.signature = (p.script? id).map Script.signature

/-- The hooks find nothing to do in the declarations that stay, and let the others go. -/
structure Hooks.Rest (h : Hooks σ) (p : Program) (stays leaves : DeclId → Prop) (s : σ) :
    Prop where
  onGlobal : ∀ view g, view.Sees p → p.global? g.id = some g → stays (.global g.id) →
    h.onGlobal view g s = (⟨false, g.isConst⟩, s)
  onGlobal_leaves : ∀ view g, view.Sees p → p.global? g.id = some g → leaves (.global g.id) →
    h.onGlobal view g s = (⟨true, g.isConst⟩, s)
  onScript : ∀ a, p.script? a.id = some a → stays (.script a.id) → h.onScript a s = (false, s)
  onScript_leaves : ∀ a, p.script? a.id = some a → leaves (.script a.id) →
    h.onScript a s = (true, s)
  onElement : ∀ view place v d, view.Sees p → stays d → v.root ∈ rootsAll (p.content d) →
    h.onElement view place v s = (.keep v [], s)
  onValue : ∀ view v d, view.Sees p → stays d → v.root ∈ rootsAll (p.content d) →
    h.onValue view v s = (v, s)
  onCall : ∀ head, h.onCall head s = s

namespace Standing

variable {p : Program} {s s' : Standing σ} {h : Hooks σ} {stays leaves : DeclId → Prop} {e : σ}

/-- The walk of `p` has changed nothing so far. -/
structure AtRest (p : Program) (stays leaves : DeclId → Prop) (e : σ) (s : Standing σ) : Prop where
  now : s.now = p
  state : s.state = e
  opened : ∀ d ∈ s.opened, stays d
  removed : ∀ d ∈ s.removed, leaves d

section

variable (hs : s.AtRest p stays leaves e)

include hs

theorem AtRest.sees {view : View} (hview : view.Shows s) : view.Sees p := by
  constructor
  · intro id hid
    rw [hview.known id (by rw [hs.now]; exact hid), hs.now]
  · intro id
    rw [hview.signatures id, hs.now]

theorem AtRest.reached (htable : ∀ d ∈ p.table.entries, stays d)
    (hrefer : ∀ d, stays d → ∀ e, Refer (p.content d) e → stays e ∨ leaves e) {d : DeclId}
    (hreach : s.Reaches d) : stays d ∨ leaves d := by
  rw [Reaches, hs.now] at hreach
  rcases hreach with hd | ⟨c, hc, hd⟩
  · exact .inl (htable d hd)
  · exact hrefer c (hs.opened c hc) d hd

/-- Putting back what was there. -/
theorem AtRest.put (hp : p.Tidy) (horderly : s.Orderly p) {d : DeclId} (hd : d ∈ s.opened)
    {vs : List Value} (hvs : vs = s.now.content d) (hnow : s'.now = s.now.put d vs)
    (hstate : s'.state = s.state) (hopened : s'.opened = s.opened)
    (hremoved : s'.removed = s.removed) : s'.AtRest p stays leaves e where
  now := by
    rw [hnow, hvs, (horderly.tidy hp).put_content (horderly.known_now (horderly.opened_known d hd)),
      hs.now]
  state := hstate.trans hs.state
  opened := hopened ▸ hs.opened
  removed := hremoved ▸ hs.removed

/-- **Hooks that find nothing to do move nothing.** -/
theorem AtRest.move (hp : p.Tidy) (horderly : s.Orderly p) (hh : h.Rest p stays leaves e)
    (htable : ∀ d ∈ p.table.entries, stays d)
    (hrefer : ∀ d, stays d → ∀ e, Refer (p.content d) e → stays e ∨ leaves e)
    (hmove : Move h s s') :
    s'.AtRest p stays leaves e := by
  cases hmove with
  | global view g hview hg hunseen hreach =>
    rw [hs.now] at hg
    have hself : p.set (.global { g with isConst := g.isConst }) = p :=
      Program.set_self (a := .global g) (by simp [Program.declaration?, Declaration.id, hg])
    rcases hs.reached htable hrefer hreach with hstays | hleaves
    · rw [hs.state, hh.onGlobal view g (hs.sees hview) hg hstays]
      refine ⟨?_, rfl, forall_mem_cons.mpr ⟨hstays, hs.opened⟩, hs.removed⟩
      rw [enterGlobal, hs.now]
      exact hself
    · rw [hs.state, hh.onGlobal_leaves view g (hs.sees hview) hg hleaves]
      refine ⟨?_, rfl, hs.opened, forall_mem_cons.mpr ⟨hleaves, hs.removed⟩⟩
      rw [enterGlobal, hs.now]
      exact hself
  | script a ha hunseen hreach =>
    rw [hs.now] at ha
    rcases hs.reached htable hrefer hreach with hstays | hleaves
    · rw [hs.state, hh.onScript a ha hstays]
      exact ⟨hs.now, rfl, forall_mem_cons.mpr ⟨hstays, hs.opened⟩, hs.removed⟩
    · rw [hs.state, hh.onScript_leaves a ha hleaves]
      exact ⟨hs.now, rfl, hs.opened, forall_mem_cons.mpr ⟨hleaves, hs.removed⟩⟩
  | element view d spot vs rest hview hd howner hdue hpending hedit =>
    have hroot : spot.focus.root ∈ rootsAll (p.content d) := hs.now ▸ hedit.root_mem
    have hkeep := hh.onElement view spot.place spot.focus d (hs.sees hview) (hs.opened d hd) hroot
    rw [hs.state, hkeep] at hedit ⊢
    exact hs.put hp horderly hd hedit.eq_of_same rfl hs.state.symm rfl rfl
  | value view d spot vs rest hview hd hoffered hdue hpending hedit =>
    have hroot : spot.focus.root ∈ rootsAll (p.content d) := hs.now ▸ hedit.root_mem
    have hkeep := hh.onValue view spot.focus d (hs.sees hview) (hs.opened d hd) hroot
    rw [hs.state, hkeep] at hedit ⊢
    exact hs.put hp horderly hd hedit.eq_of_same rfl hs.state.symm rfl rfl
  | call =>
    refine { hs with state := ?_ }
    rw [hs.state, hh.onCall]
  | skip => exact { hs with }

end

end Standing

/-- **A walk that finds nothing to do changes nothing**: neither the program nor the state of the
hooks. -/
theorem Program.walk_rest {p : Program} (hp : p.Tidy) {h : Hooks σ} {stays leaves : DeclId → Prop}
    {e : σ} (hh : h.Rest p stays leaves e) (htable : ∀ d ∈ p.table.entries, stays d)
    (hrefer : ∀ d, stays d → ∀ e, Refer (p.content d) e → stays e ∨ leaves e)
    (hnames : ∀ d, leaves d → d.name ∉ p.table.names) : p.walk h true e = (p, e) := by
  obtain ⟨s, hmoves, -, hwalk⟩ := walk_moves hp h e
  obtain ⟨-, hs⟩ := (Standing.orderly_start hp e).moves hp
    (Q := fun s => s.AtRest p stays leaves e)
    ⟨rfl, rfl, fun _ hd => absurd hd not_mem_nil, fun _ hd => absurd hd not_mem_nil⟩
    (fun s s' horderly hs hmove => hs.move hp horderly hh htable hrefer hmove) hmoves
  rw [hwalk, hs.now, hs.state, foldl_remove_eq_self]
  intro name hname
  obtain ⟨d, hd, rfl⟩ := mem_map.mp (mem_reverse.mp hname)
  exact hnames d (hs.removed d hd)

end HaloScript
