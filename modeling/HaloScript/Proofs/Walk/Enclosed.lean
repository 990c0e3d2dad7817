/-
# Walks that stay inside

A walk goes wherever references lead, also into declarations that have left the table.  What can
be said about all of them is said of a set that holds the table and is closed under references.
If the members of such a set meet conditions that the hooks keep, then they meet them after the
walk (`Program.Encloses.run`), and the walk enters nothing else (`Standing.Confined.move`).

The other way round, the declarations that a walk has opened are such a set for the program that
it leaves, but for references to what was removed (`Standing.Final.encloses_opened`).  Since every
value of theirs has been visited, they meet whatever the answers meet (`Pass.run_settled`).
-/
import Mathlib.Data.List.Perm.Subperm
import HaloScript.Lowering.Pipeline
import HaloScript.Proofs.References
import HaloScript.Proofs.Walk.Still

namespace HaloScript

open List

variable {σ : Type} {p : Program}

/-- A set of declarations that holds the table, and whose members meet the conditions. -/
structure Program.Encloses (p : Program) (inside : DeclId → Prop) (leafOk : Leaf → Prop)
    (callOk : CallCondition) : Prop where
  known : ∀ d, inside d → d ∈ p.allIds
  table : ∀ d ∈ p.table.entries, inside d
  content : ∀ d, inside d → ∀ v ∈ p.content d, v.Meets leafOk callOk

/-- A set of declarations that holds the table and all that its members refer to. -/
abbrev Program.Bounds (p : Program) (inside : DeclId → Prop) : Prop :=
  p.Encloses inside (Leaf.RefersIn inside) (Callee.RefersIn inside)

/-- The conditions allow no references to anything but members of the set. -/
structure Closes (inside : DeclId → Prop) (leafOk : Leaf → Prop) (callOk : CallCondition) :
    Prop where
  leaf : ∀ {l}, leafOk l → l.RefersIn inside
  call : ∀ {c clause}, callOk c clause → Callee.RefersIn inside c clause

theorem closes_refersIn (inside : DeclId → Prop) :
    Closes inside (Leaf.RefersIn inside) (Callee.RefersIn inside) := ⟨fun h => h, fun h => h⟩

namespace Program

variable {p : Program} {inside : DeclId → Prop} {leafOk : Leaf → Prop} {callOk : CallCondition}

theorem RefersIn.bounds (h : p.RefersIn inside) (hp : p.Tidy)
    (hknown : ∀ d, inside d → d ∈ p.allIds) (htable : ∀ d ∈ p.table.entries, inside d) :
    p.Bounds inside where
  known := hknown
  table := htable
  content d hd := by
    obtain ⟨a, ha, rfl⟩ := mem_map.mp (allIds_eq_map p ▸ hknown d hd)
    rw [content_eq (hp.declaration?_id ha)]
    exact h a ha

/-- All references lead to members of a set, which have distinct names. -/
structure Anchors (inside : DeclId → Prop) (p : Program) : Prop where
  tidy : p.Tidy
  numbered : p.Numbered
  bounds : p.Bounds inside
  names : ∀ d d', inside d → inside d' → d.name = d'.name → d = d'

theorem load_anchors (report : Report) (lib : Library) (entry : Entry) :
    let p := (load {} report lib entry).program
    p.Anchors (· ∈ p.table.entries) := by
  intro p
  have hp := load_tidy tidy_empty report lib entry
  exact ⟨hp, loaded_numbered report lib entry,
    (load_refersIn report lib entry).bounds hp hp.known fun _ hd => hd,
    fun d d' hd hd' hname => inj_on_of_nodup_map hp.names hd hd' hname⟩

/-- A set of declarations that holds the table and is closed under references. -/
theorem Bounds.of_refer (hknown : ∀ d, inside d → d ∈ p.allIds)
    (htable : ∀ d ∈ p.table.entries, inside d)
    (hrefer : ∀ d, inside d → ∀ c, Value.Refer (p.content d) c → inside c) : p.Bounds inside where
  known := hknown
  table := htable
  content d hd := by
    rw [Value.meetsAll_iff_roots]
    intro r hr
    have hin : ∀ c, r.refers? = some c → inside c := fun c hc => hrefer d hd c ⟨r, hr, hc⟩
    cases r with
    | leaf => exact hin
    | call => exact hin

theorem Encloses.root (h : p.Encloses inside leafOk callOk) {d : DeclId} (hd : inside d) {r : Root}
    (hr : r ∈ Value.rootsAll (p.content d)) : r.Meets leafOk callOk :=
  (Value.meetsAll_iff_roots _).mp (h.content d hd) r hr

theorem Encloses.refer {ok : DeclId → Prop} (h : p.Encloses inside leafOk callOk)
    (hc : Closes ok leafOk callOk) {d e : DeclId} (hd : inside d)
    (he : Value.Refer (p.content d) e) : ok e := by
  obtain ⟨r, hr, hrefers⟩ := he
  have hmeets := h.root hd hr
  cases r with
  | leaf => exact hc.leaf hmeets e hrefers
  | call => exact hc.call hmeets e hrefers

theorem Encloses.mono {leafOk' : Leaf → Prop} {callOk' : CallCondition}
    (h : p.Encloses inside leafOk callOk) (hleaf : ∀ l, leafOk l → leafOk' l)
    (hcall : ∀ c clause, callOk c clause → callOk' c clause) : p.Encloses inside leafOk' callOk' :=
  ⟨h.known, h.table, fun d hd v hv => (h.content d hd v hv).mono hleaf hcall⟩

end Program

namespace Standing

variable {p : Program} {s s' : Standing σ} {h : Hooks σ} {d : DeclId} {inside : DeclId → Prop}
  {leafOk : Leaf → Prop} {callOk : CallCondition}

/-- **A move keeps the conditions on the members of a set.** -/
theorem Orderly.encloses_move (hs : s.Orderly p) (hp : p.Tidy)
    (hencloses : s.now.Encloses inside leafOk callOk) (hh : h.KeepUnder s.Gives leafOk callOk)
    (hmove : Move h s s') : s'.now.Encloses inside leafOk callOk where
  known d hd := by
    rw [← (hs.move hp hmove).alike.allIds_eq, hs.alike.allIds_eq]
    exact hencloses.known d hd
  table d hd := by
    rw [(hs.move hp hmove).table, ← hs.table] at hd
    exact hencloses.table d hd
  content d hd := by
    have hknown : d ∈ p.allIds := hs.alike.allIds_eq ▸ hencloses.known d hd
    exact hs.keep_move hp hh hknown (hencloses.content d hd) hmove

/-- The walk has not left a set of declarations. -/
structure Confined (inside : DeclId → Prop) (leafOk : Leaf → Prop) (callOk : CallCondition)
    (s : Standing σ) : Prop where
  encloses : s.now.Encloses inside leafOk callOk
  opened : ∀ d ∈ s.opened, inside d
  removed : ∀ d ∈ s.removed, inside d

namespace Confined

theorem start (hp : p.Encloses inside leafOk callOk) (e : σ) :
    (Standing.start p e).Confined inside leafOk callOk where
  encloses := hp
  opened _ hd := absurd hd not_mem_nil
  removed _ hd := absurd hd not_mem_nil

theorem reached (hs : s.Confined inside leafOk callOk) (hc : Closes inside leafOk callOk)
    (hreach : s.Reaches d) : inside d := by
  rcases hreach with hd | ⟨e, he, hd⟩
  · exact hs.encloses.table d hd
  · exact hs.encloses.refer hc (hs.opened e he) hd

/-- **A move stays inside.**  The hooks may rely on what they are given at this move. -/
theorem moveUnder (hs : s.Confined inside leafOk callOk) (hp : p.Tidy) (horderly : s.Orderly p)
    (hc : Closes inside leafOk callOk) (hh : h.KeepUnder s.Gives leafOk callOk)
    (hmove : Move h s s') : s'.Confined inside leafOk callOk := by
  have hencloses := horderly.encloses_move hp hs.encloses hh hmove
  have hin := fun d => hs.reached (d := d) hc
  obtain ⟨ho, hr⟩ | ⟨d, hreach, ⟨ho, hr⟩ | ⟨ho, hr⟩⟩ := hmove.marks
  · exact ⟨hencloses, ho ▸ hs.opened, hr ▸ hs.removed⟩
  · exact ⟨hencloses, ho ▸ forall_mem_cons.mpr ⟨hin d hreach, hs.opened⟩, hr ▸ hs.removed⟩
  · exact ⟨hencloses, ho ▸ hs.opened, hr ▸ forall_mem_cons.mpr ⟨hin d hreach, hs.removed⟩⟩

theorem move (hs : s.Confined inside leafOk callOk) (hp : p.Tidy) (horderly : s.Orderly p)
    (hc : Closes inside leafOk callOk) (hh : h.Keep leafOk callOk) (hmove : Move h s s') :
    s'.Confined inside leafOk callOk := hs.moveUnder hp horderly hc (hh.under _) hmove

end Confined

/-! ## 2. The end of a walk -/

/-- The walk of the program `p` has come to its end, and has left the program `q` and the state
`e`. -/
structure Final (p : Program) (s : Standing σ) (q : Program) (e : σ) : Prop where
  orderly : s.Orderly p
  covered : s.Covered p
  ended : s.Ended p
  globals : q.globals = s.now.globals
  scripts : q.scripts = s.now.scripts
  state : e = s.state
  table : ∀ d, d ∈ q.table.entries ↔ d ∈ p.table.entries ∧ d.name ∉ s.removed.map DeclId.name
  order : q.table.entries.Sublist p.table.entries

namespace Final

variable {q : Program} {e : σ}

section

variable (hf : s.Final p q e)

include hf

theorem declaration?_eq (d : DeclId) : q.declaration? d = s.now.declaration? d := by
  cases d <;> simp only [Program.declaration?, Program.global?, Program.script?, hf.globals,
    hf.scripts]

theorem content_eq (d : DeclId) : q.content d = s.now.content d := by
  rw [Program.content, hf.declaration?_eq, Program.content]

theorem alike : p.Alike q where
  globals := by rw [hf.globals, hf.orderly.alike.globals]
  scripts := by rw [hf.scripts, hf.orderly.alike.scripts]

theorem tidy (hp : p.Tidy) : q.Tidy := hp.of_alike hf.alike hf.order

theorem allIds_eq : q.allIds = p.allIds := hf.alike.allIds_eq.symm

theorem table_eq (hp : p.Tidy) (hnone : s.removed = []) : q.table = p.table := by
  have hsubset : p.table.entries ⊆ q.table.entries := by
    intro d hd
    refine (hf.table d).mpr ⟨hd, ?_⟩
    rw [hnone]
    exact not_mem_nil
  have hlength := (Nodup.subperm (Nodup.of_map _ hp.names) hsubset).length_le
  exact congrArg Table.mk (hf.order.eq_of_length_le hlength)

theorem opened (hp : p.Tidy) (hd : d ∈ q.table.entries) : d ∈ s.opened := by
  obtain ⟨hlisted, hname⟩ := (hf.table d).mp hd
  refine (hf.covered.seen d (hp.known d hlisted) (hf.ended.entered d hlisted)).resolve_right ?_
  exact fun hmem => hname (mem_map_of_mem hmem)

theorem encloses (hs : s.now.Encloses inside leafOk callOk) : q.Encloses inside leafOk callOk where
  known d hd := by
    rw [hf.allIds_eq, hf.orderly.alike.allIds_eq]
    exact hs.known d hd
  table d hd := by
    refine hs.table d ?_
    rw [hf.orderly.table]
    exact ((hf.table d).mp hd).1
  content d hd := hf.content_eq d ▸ hs.content d hd

theorem content_meets (hd : d ∈ s.opened) (hvisited : ∀ r ∈ s.visited, r.Meets leafOk callOk) :
    ∀ v ∈ q.content d, v.Meets leafOk callOk := by
  rw [hf.content_eq, Value.meetsAll_iff_roots]
  exact fun r hr => hvisited r (hf.covered.mem_visited hf.ended hd hr)

/-- **What was opened refers to what was opened or removed**, and meets the conditions that all
answers met. -/
theorem encloses_opened (hp : p.Tidy)
    (hknown : ∀ d ∈ s.opened, ∀ c, Value.Refer (s.now.content d) c → c ∈ p.allIds)
    (hvisited : ∀ r ∈ s.visited, r.Meets leafOk callOk) :
    q.Encloses (· ∈ s.opened)
      (fun l => l.RefersIn (fun c => c ∈ s.opened ∨ c ∈ s.removed) ∧ leafOk l)
      (fun c clause => Callee.RefersIn (fun c => c ∈ s.opened ∨ c ∈ s.removed) c clause ∧
        callOk c clause) where
  known d hd := hf.allIds_eq ▸ hf.orderly.opened_known d hd
  table d hd := hf.opened hp hd
  content d hd := by
    rw [hf.content_eq, Value.meetsAll_iff_roots]
    intro r hr
    have hmeets := hvisited r (hf.covered.mem_visited hf.ended hd hr)
    have hseen : ∀ c, r.refers? = some c → c ∈ s.opened ∨ c ∈ s.removed := fun c hc =>
      hf.covered.opened_or_removed hf.ended hd ⟨r, hr, hc⟩ (hknown d hd c ⟨r, hr, hc⟩)
    cases r with
    | leaf => exact ⟨hseen, hmeets⟩
    | call => exact ⟨hseen, hmeets⟩

end

end Final

end Standing

/-- **What every move keeps, holds at the end of a walk.** -/
theorem Program.walk_final (hp : p.Tidy) (h : Hooks σ) (e : σ) {Q : Standing σ → Prop}
    (hstart : Q (.start p e)) (hkeep : ∀ s s', s.Orderly p → Q s → Move h s s' → Q s') :
    ∃ s, Q s ∧ s.Final p (p.walk h true e).1 (p.walk h true e).2 := by
  obtain ⟨s, hs, hcovered, hend, hq, hwalk⟩ := walk_covered hp h e hstart hkeep
  rw [hwalk]
  obtain ⟨hglobals, hscripts, hsub⟩ := foldl_remove (s.removed.map DeclId.name).reverse s.now
  have hnames : s.now.table.names.Nodup := hs.table ▸ hp.names
  refine ⟨s, hq, hs, hcovered, hend, hglobals, hscripts, rfl, fun d => ?_, hs.table ▸ hsub⟩
  rw [← hs.table]
  constructor
  · intro hd
    have hnot := name_not_mem_of_foldl_remove hnames hd
    exact ⟨hsub.subset hd, fun hmem => hnot (mem_reverse.mpr hmem)⟩
  · rintro ⟨hd, hnot⟩
    exact mem_foldl_remove hd fun hmem => hnot (mem_reverse.mp hmem)

/-- The same for a lowering step. -/
theorem Pass.run_final (pass : Pass) (hp : p.Tidy) (report : Report) (limit : Int64)
    {Q : Standing Env → Prop} (hstart : Q (.start p (.fresh p.nextNode report limit)))
    (hkeep : ∀ s s', s.Orderly p → Q s → Move pass.hooks s s' → Q s') :
    ∃ s, Q s ∧ s.Final p (pass.run p (.fresh p.nextNode report limit)).1
      (pass.run p (.fresh p.nextNode report limit)).2 := by
  obtain ⟨s, hq, hf⟩ := Program.walk_final hp pass.hooks _ hstart hkeep
  exact ⟨s, hq, { hf with }⟩

section

variable (pass : Pass) {p : Program} (hp : p.Tidy) (report : Report) (limit : Int64)

include hp

theorem Pass.exists_final : ∃ s : Standing Env,
    s.Final p (pass.run p (.fresh p.nextNode report limit)).1
      (pass.run p (.fresh p.nextNode report limit)).2 := by
  obtain ⟨s, -, hf⟩ := pass.run_final hp report limit (Q := fun _ => True) trivial
    fun _ _ _ _ _ => trivial
  exact ⟨s, hf⟩

theorem Pass.run_alike : p.Alike (pass.run p (.fresh p.nextNode report limit)).1 := by
  obtain ⟨s, hf⟩ := pass.exists_final hp report limit
  exact hf.alike

theorem Pass.run_tidy : (pass.run p (.fresh p.nextNode report limit)).1.Tidy := by
  obtain ⟨s, hf⟩ := pass.exists_final hp report limit
  exact hf.tidy hp

theorem Pass.run_order :
    (pass.run p (.fresh p.nextNode report limit)).1.table.entries.Sublist p.table.entries := by
  obtain ⟨s, hf⟩ := pass.exists_final hp report limit
  exact hf.order

end

theorem Pass.run_tidy_from (pass : Pass) (hp : p.Tidy) (e : Env) : (pass.run p e).1.Tidy := by
  obtain ⟨s, -, hf⟩ := Program.walk_final hp pass.hooks
    { e with nextNode := p.nextNode, marks := {} } (Q := fun _ => True) trivial
    fun _ _ _ _ _ => trivial
  exact hp.of_alike ⟨hf.alike.globals, hf.alike.scripts⟩ hf.order

/-- **A step keeps the conditions on the members of a set.** -/
theorem Program.Encloses.run {inside : DeclId → Prop} {leafOk : Leaf → Prop}
    {callOk : CallCondition} (h : p.Encloses inside leafOk callOk) (hp : p.Tidy) {pass : Pass}
    (hh : pass.hooks.Keep leafOk callOk) (report : Report) (limit : Int64) :
    (pass.run p (.fresh p.nextNode report limit)).1.Encloses inside leafOk callOk := by
  obtain ⟨s, hs, hf⟩ := pass.run_final hp report limit
    (Q := fun s => s.now.Encloses inside leafOk callOk) h
    fun s s' hs hq hmove => hs.encloses_move hp hq (hh.under _) hmove
  exact hf.encloses hs

/-! ## 3. Answers that are settled -/

/-- Scripts are seen with the signatures that they have in the program `p`. -/
def View.Signed (view : View) (p : Program) : Prop :=
  ∀ id, (view.script? id).map Script.signature = (p.script? id).map Script.signature

/-- Hooks with a state that changes at elements and values only.  Until they fail it is calm, and
what they answer for a value is settled.  A failure is for good. -/
structure Hooks.Settle (h : Hooks σ) (p : Program) (calm failed : σ → Prop)
    (settled : Root → Prop) : Prop where
  onGlobal : ∀ view g e, (h.onGlobal view g e).2 = e
  onScript : ∀ a e, (h.onScript a e).2 = e
  onCall : ∀ head e, h.onCall head e = e
  onElement : ∀ view place v e, calm e → ¬ failed (h.onElement view place v e).2 →
    calm (h.onElement view place v e).2
  onValue : ∀ view v e, view.Signed p → calm e → ¬ failed (h.onValue view v e).2 →
    calm (h.onValue view v e).2 ∧ settled (h.onValue view v e).1.root
  onElement_failed : ∀ view place v e, failed e → failed (h.onElement view place v e).2
  onValue_failed : ∀ view v e, failed e → failed (h.onValue view v e).2

namespace Standing

variable {p : Program} {s s' : Standing σ} {h : Hooks σ} {calm failed : σ → Prop}
  {settled : Root → Prop}

/-- Unless the walk has failed, whatever was visited is settled. -/
def Settles (calm failed : σ → Prop) (settled : Root → Prop) (s : Standing σ) : Prop :=
  ¬ failed s.state → calm s.state ∧ ∀ r ∈ s.visited, settled r

theorem Orderly.signed (hs : s.Orderly p) {view : View} (hview : view.Shows s) :
    view.Signed p := by
  intro id
  have hsame := congrArg (·[id.serial]?) hs.alike.scripts
  simp only [Array.getElem?_map] at hsame
  exact (hview.signatures id).trans hsame.symm

/-- **A move settles what it visits**, unless it fails. -/
theorem Settles.move (hq : s.Settles calm failed settled) (hh : h.Settle p calm failed settled)
    (hs : s.Orderly p) (hmove : Move h s s') : s'.Settles calm failed settled := by
  intro hok
  cases hmove with
  | global view g =>
    have hstate : (s.enterGlobal g (h.onGlobal view g s.state)).state = s.state :=
      hh.onGlobal view g s.state
    rw [hstate] at hok ⊢
    exact hq hok
  | script a =>
    have hstate : (s.enterScript a (h.onScript a s.state)).state = s.state := hh.onScript a s.state
    rw [hstate] at hok ⊢
    exact hq hok
  | element view d spot =>
    obtain ⟨hcalm, hvisited⟩ := hq fun hf =>
      hok (hh.onElement_failed view spot.place spot.focus _ hf)
    exact ⟨hh.onElement view spot.place spot.focus _ hcalm hok, hvisited⟩
  | value view d spot vs rest hview =>
    obtain ⟨hcalm, hvisited⟩ := hq fun hf => hok (hh.onValue_failed view spot.focus _ hf)
    obtain ⟨hcalm', hroot⟩ := hh.onValue view spot.focus _ (hs.signed hview) hcalm hok
    exact ⟨hcalm', forall_mem_cons.mpr ⟨hroot, hvisited⟩⟩
  | call =>
    rw [hh.onCall] at hok ⊢
    exact hq hok
  | skip => exact hq hok

end Standing

/-- **A step settles all that it visits**, unless it fails. -/
theorem Pass.run_settled (pass : Pass) (hp : p.Tidy) {calm failed : Env → Prop}
    {settled : Root → Prop} (hh : pass.hooks.Settle p calm failed settled) (report : Report)
    (limit : Int64) (hcalm : calm (.fresh p.nextNode report limit))
    (hok : ¬ failed (pass.run p (.fresh p.nextNode report limit)).2) {Q : Standing Env → Prop}
    (hstart : Q (.start p (.fresh p.nextNode report limit)))
    (hkeep : ∀ s s', s.Orderly p → Q s → Move pass.hooks s s' → Q s') :
    ∃ s, Q s ∧ (∀ r ∈ s.visited, settled r) ∧
      s.Final p (pass.run p (.fresh p.nextNode report limit)).1
        (pass.run p (.fresh p.nextNode report limit)).2 := by
  obtain ⟨s, ⟨hsettles, hq⟩, hf⟩ := pass.run_final hp report limit
    (Q := fun s => s.Settles calm failed settled ∧ Q s)
    ⟨fun _ => ⟨hcalm, fun _ hr => absurd hr not_mem_nil⟩, hstart⟩
    fun s s' hs hq hmove => ⟨hq.1.move hh hs hmove, hkeep s s' hs hq.2 hmove⟩
  exact ⟨s, hq, (hsettles (hf.state ▸ hok)).2, hf⟩

end HaloScript
