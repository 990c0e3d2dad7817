/-
# Nothing is left to do

Each step of lowering establishes what it is there for, in all declarations that it reaches: no
calls of macros, no loops, no constant globals (`Program.Expanded`, `Program.Unrolled`,
`Program.Inlined`).  The later steps keep it, since they put in nothing but atoms and empty
`begin`s (`Pass.Mild`).  A step that finds it established finds nothing to do.  So if all steps are
run a second time, only constant folding can change anything (`Program.Spent.again`).
-/
import HaloScript.Proofs.Lowering.Refolding
import HaloScript.Proofs.Lowering.Templates

namespace HaloScript

open ConstGlobals

variable {stays : DeclId → Prop} {p : Program} {q : Program}

/-! ## 1. Steps that put in little -/

/-- The step puts in nothing but atoms and empty `begin`s. -/
def Pass.Mild (pass : Pass) : Prop :=
  ∀ {leafOk : Leaf → Prop} {callOk : CallCondition}, (∀ t, leafOk (.atom t)) →
    callOk (.word "begin" none) false → pass.hooks.Keep leafOk callOk

theorem Pass.mild_loops : Pass.loops.Mild :=
  fun hatom hbegin => Loops.hooks_keep (fun _ => hatom _) hbegin

theorem Pass.mild_constGlobals : Pass.constGlobals.Mild :=
  fun hatom _ => hooks_keep hatom

theorem Pass.mild_folding : Pass.folding.Mild := fun hatom hbegin => Folding.hooks_keep hatom hbegin

theorem Callee.notMacro_iff {c : Callee} :
    c.NotMacro p ↔ ∀ id, c = .script id → p.isMacro (.script id) = false := by
  refine forall_congr' fun id => ⟨fun h hid => ?_, fun h a hid ha => ?_⟩
  · rw [Program.isMacro, Option.any_eq_false]
    exact fun a ha => h a hid ha
  · have hkind := h hid
    rwa [Program.isMacro, ha] at hkind

theorem Callee.NotMacro.of_alike {p q : Program} {c : Callee} (hc : c.NotMacro p) (h : p.Alike q) :
    c.NotMacro q :=
  notMacro_iff.mpr fun id hid => (h.isMacro _).trans (notMacro_iff.mp hc id hid)

namespace Program

variable {p q : Program} {pass : Pass} {stays leaves : DeclId → Prop} {report : Report}
  {limit : Int64}

def Anchored (p : Program) : Prop := p.Bounds (· ∈ p.allIds)

theorem Anchored.refer (h : p.Anchored) {d c : DeclId} (hd : d ∈ p.allIds)
    (hc : Value.Refer (p.content d) c) : c ∈ p.allIds := Encloses.refer h (closes_refersIn _) hd hc

theorem Anchored.run (h : p.Anchored) (hp : p.Tidy) (hpass : pass.Mild) (report : Report)
    (limit : Int64) : (pass.run p (.fresh p.nextNode report limit)).1.Anchored := by
  have hkeep : pass.hooks.Keep (Leaf.RefersIn (· ∈ p.allIds)) (Callee.RefersIn (· ∈ p.allIds)) :=
    hpass Leaf.refersIn_atom (Callee.refersIn_word _ _ _)
  have hbounds := Encloses.run h hp hkeep report limit
  rw [(pass.run_alike hp report limit).allIds_eq] at hbounds
  exact hbounds

/-! ## 2. Macros -/

/-- No macros are called in the declarations that stay, and those that leave are macros. -/
structure Expanded (q : Program) (stays leaves : DeclId → Prop) : Prop where
  encloses : q.Encloses stays (Leaf.RefersIn fun c => stays c ∨ leaves c)
    fun c clause => Callee.RefersIn (fun c => stays c ∨ leaves c) c clause ∧ c.NotMacro q
  kept : ∀ d, stays d → q.isMacro d = false
  gone : ∀ d, leaves d → q.isMacro d = true
  names : ∀ d, leaves d → d.name ∉ q.table.names

/-- A mild step brings no macros back. -/
theorem Expanded.run (h : p.Expanded stays leaves) (hp : p.Tidy) (hpass : pass.Mild)
    (report : Report) (limit : Int64) :
    (pass.run p (.fresh p.nextNode report limit)).1.Expanded stays leaves where
  encloses := by
    have hkeep : pass.hooks.Keep (Leaf.RefersIn fun c => stays c ∨ leaves c)
        fun c clause => Callee.RefersIn (fun c => stays c ∨ leaves c) c clause ∧ c.NotMacro p :=
      hpass Leaf.refersIn_atom ⟨Callee.refersIn_word _ _ _, Callee.notMacro_word p _ _⟩
    exact (h.encloses.run hp hkeep report limit).mono (fun _ hl => hl)
      fun _ _ hc => ⟨hc.1, hc.2.of_alike (pass.run_alike hp _ _)⟩
  kept d hd := by rw [(pass.run_alike hp _ _).isMacro, h.kept d hd]
  gone d hd := by rw [(pass.run_alike hp _ _).isMacro, h.gone d hd]
  names d hd hmem := h.names d hd ((pass.run_order hp _ _).map DeclId.name |>.subset hmem)

end Program

/-- What an opened declaration refers to is known, if the outcome is anchored. -/
theorem Standing.Final.refer_known {p q : Program} {s : Standing Env} {e : Env}
    (hf : s.Final p q e) (hq : q.Anchored) :
    ∀ d ∈ s.opened, ∀ c, Value.Refer (s.now.content d) c → c ∈ p.allIds := by
  intro d hd c hc
  rw [← hf.content_eq] at hc
  rw [← hf.allIds_eq]
  exact hq.refer (hf.allIds_eq ▸ hf.orderly.opened_known d hd) hc

namespace Macros

variable {p : Program} {s s' : Standing Env} {view : View} {e : Env}

theorem run_anchored (hp : p.Tidy) (hin : p.Anchored) (report : Report) (limit : Int64) :
    (Pass.macros.run p (.fresh p.nextNode report limit)).1.Anchored := by
  obtain ⟨s, -, hconfined, hf⟩ := run_confined hp hin (closes_refersIn _)
    (Callee.refersIn_word _ _ _) report limit
  have hbounds := hf.encloses hconfined.encloses
  rw [← hf.allIds_eq] at hbounds
  exact hbounds

/-- **Macro expansion leaves no calls of macros**, in whatever it reaches. -/
theorem run_expanded (hp : p.Tidy) (hin : p.Anchored) (report : Report)
    (limit : Int64) (hok : ¬ (Pass.macros.run p (.fresh p.nextNode report limit)).2.Failed) :
    ∃ stays leaves,
      (Pass.macros.run p (.fresh p.nextNode report limit)).1.Expanded stays leaves := by
  obtain ⟨s, hsorts, hvisited, hf⟩ := Pass.macros.run_settled hp (hooks_settle p) report limit
    (Env.clear_fresh _ _ _) hok (Q := Sorts p)
    ⟨fun _ hd => absurd hd List.not_mem_nil, fun _ hd => absurd hd List.not_mem_nil⟩
    fun s s' hs hq hmove => hq.move hs hmove
  have hknown := hf.refer_known (run_anchored hp hin report limit)
  refine ⟨(· ∈ s.opened), (· ∈ s.removed), ?_, fun d hd => ?_, fun d hd => ?_, fun d hd hmem => ?_⟩
  · exact (hf.encloses_opened hp hknown hvisited).mono (fun _ hl => hl.1)
      fun _ _ hc => ⟨hc.1, hc.2.of_alike hf.alike⟩
  · rw [hf.alike.isMacro]
    exact hsorts.opened d hd
  · rw [hf.alike.isMacro]
    exact hsorts.removed d hd
  · obtain ⟨d', hd', hname⟩ := List.mem_map.mp hmem
    exact ((hf.table d').mp hd').2 (hname ▸ List.mem_map_of_mem hd)

theorem expand?_of_notMacro (hview : view.Sees p) {h : Head} (hh : h.callee.NotMacro p)
    (args : List Value) (e : Env) : expand? view h args e = (none, e) := by
  unfold expand?
  split
  · rfl
  · next id hcallee =>
    split
    · rfl
    · next m hm =>
      have hsig := hview.signatures id
      rw [hm] at hsig
      obtain ⟨a, ha, hsame⟩ := Option.map_eq_some_iff.mp hsig.symm
      have hsort : m.isMacro = false := by
        rw [Script.isMacro, ← Script.kind_eq_of_signature hsame]
        exact hh id a hcallee ha
      rw [if_pos (by simp [hsort])]

end Macros

/-- **Where no macros are called, macro expansion finds nothing to do.** -/
theorem Program.Expanded.rest {stays leaves : DeclId → Prop} (h : q.Expanded stays leaves)
    (e : Env) :
    Macros.hooks.Rest q stays leaves e where
  onGlobal _ _ _ _ _ := rfl
  onGlobal_leaves view g _ _ hleaves := nomatch h.gone _ hleaves
  onScript a ha hstays := by
    have hsort := h.kept _ hstays
    rw [isMacro, ha] at hsort
    exact congrArg (·, e) hsort
  onScript_leaves a ha hleaves := by
    have hsort := h.gone _ hleaves
    rw [isMacro, ha] at hsort
    exact congrArg (·, e) hsort
  onElement view place v d hview hd hroot := by
    show Macros.expandElement view place v e = _
    cases v with
    | leaf => rfl
    | call =>
      have hhead := (h.encloses.root hd hroot).2
      rw [Macros.expandElement, Macros.expand?_of_notMacro hview hhead]
      simp only [ite_self]
  onValue view v d hview hd hroot := by
    show Macros.expandValue view v e = _
    cases v with
    | leaf => rw [Macros.expandValue]
    | call t head args =>
      have hhead := (h.encloses.root hd hroot).2
      have hnone := Macros.expand?_of_notMacro hview hhead args e
      rw [Macros.expandValue]
      split
      · next hx =>
        rw [hnone] at hx
        cases hx
        rfl
      · next hx =>
        rw [hnone] at hx
        cases hx
      · next hx =>
        rw [hnone] at hx
        cases hx
  onCall _ := rfl

/-! ## 3. Loops -/

def Program.Unrolled (q : Program) (stays : DeclId → Prop) : Prop :=
  q.Encloses stays (Leaf.RefersIn stays)
    fun c clause => Callee.RefersIn stays c clause ∧ c.NotLoop clause

theorem Program.Unrolled.run {pass : Pass} (h : p.Unrolled stays) (hp : p.Tidy) (hpass : pass.Mild)
    (report : Report) (limit : Int64) :
    (pass.run p (.fresh p.nextNode report limit)).1.Unrolled stays :=
  Encloses.run h hp (hpass Leaf.refersIn_atom ⟨Callee.refersIn_word _ _ _, Callee.notLoop_begin⟩)
    report limit

namespace Loops

variable {p : Program}

/-- **Loop unrolling leaves no loops**, in whatever it reaches. -/
theorem run_unrolled (hp : p.Tidy) (hin : p.Anchored) (report : Report)
    (limit : Int64) (hok : ¬ (Pass.loops.run p (.fresh p.nextNode report limit)).2.Failed) :
    ∃ stays, (Pass.loops.run p (.fresh p.nextNode report limit)).1.Unrolled stays := by
  obtain ⟨s, hnone, hvisited, hf⟩ := Pass.loops.run_settled hp (hooks_settle p) report limit
    (Env.clear_fresh _ _ _) hok (Q := fun s => s.removed = []) rfl
    fun s s' hs hq hmove => by
      cases hmove with
      | global | script | element | value | call | skip => exact hq
  have hknown := hf.refer_known (hin.run hp Pass.mild_loops report limit)
  have hopened : ∀ c, c ∈ s.opened ∨ c ∈ s.removed → c ∈ s.opened := by
    rintro c (hc | hc)
    · exact hc
    · exact absurd (hnone ▸ hc) List.not_mem_nil
  refine ⟨(· ∈ s.opened), (hf.encloses_opened hp hknown hvisited).mono ?_ ?_⟩
  · exact fun _ hl c hc => hopened c (hl.1 c hc)
  · exact fun _ _ hk => ⟨fun c hc => hopened c (hk.1 c hc), hk.2⟩

theorem unroll?_of_notLoop {h : Head} (hh : h.callee.NotLoop h.clause) (view : View)
    (args : List Value) (e : Env) : unroll? view h args e = (none, e) := by
  rw [unroll?, if_pos]
  simp [isLoop, h.notLoop_iff.mp hh]

end Loops

/-- **Where there are no loops, loop unrolling finds nothing to do.** -/
theorem Program.Unrolled.rest (h : q.Unrolled stays) (e : Env) :
    Loops.hooks.Rest q stays (fun _ => False) e where
  onGlobal _ _ _ _ _ := rfl
  onGlobal_leaves _ _ _ _ hleaves := hleaves.elim
  onScript _ _ _ := rfl
  onScript_leaves _ _ hleaves := hleaves.elim
  onElement view place v d hview hd hroot := by
    show Loops.unrollElement view place v e = _
    cases v with
    | leaf => rfl
    | call =>
      rw [Loops.unrollElement, Loops.unroll?_of_notLoop (Encloses.root h hd hroot).2]
      simp only [ite_self]
  onValue view v d hview hd hroot := by
    show Loops.unrollValue view v e = _
    cases v with
    | leaf => rfl
    | call =>
      rw [Loops.unrollValue, Loops.unroll?_of_notLoop (Encloses.root h hd hroot).2]
  onCall _ := rfl

/-! ## 4. Constant globals -/

/-- The globals that stay are ordinary ones, and nothing else is referred to. -/
structure Program.Inlined (q : Program) (stays : DeclId → Prop) : Prop where
  bounds : q.Bounds stays
  ordinary : ∀ id, stays (.global id) → q.isConst id = false

namespace ConstGlobals

variable {p : Program}

/-- **Folding constant globals leaves none**, in whatever it reaches. -/
theorem run_inlined (hp : p.Tidy) (hn : p.Numbered) (hin : p.Anchored)
    (report : Report) (limit : Int64) :
    ∃ stays, (Pass.constGlobals.run p (.fresh p.nextNode report limit)).1.Inlined stays := by
  obtain ⟨s, -, h⟩ := run_ends hp hn hin report limit (Q := fun _ => True) trivial
    fun _ _ _ _ _ _ _ => trivial
  have hanchored := hin.run hp Pass.mild_constGlobals report limit
  refine ⟨(· ∈ s.opened), .of_refer ?_ (fun d hd => h.final.opened hp hd) fun d hd c hc => ?_,
    fun id hid => h.isConst_of_opened hid⟩
  · intro d hd
    rw [h.final.allIds_eq]
    exact h.final.orderly.opened_known d hd
  · have hknown : c ∈ p.allIds := by
      rw [← h.final.allIds_eq]
      exact hanchored.refer (h.final.allIds_eq ▸ h.final.orderly.opened_known d hd) hc
    rw [h.final.content_eq] at hc
    exact (h.final.covered.opened_or_removed h.final.ended hd hc hknown).resolve_right
      (h.refer_not_removed hd hc)

end ConstGlobals

/-- **Where there are no constant globals, there are none to fold.** -/
theorem Program.Inlined.rest (h : q.Inlined stays) (e : Env) :
    hooks.Rest q stays (fun _ => False) e where
  onGlobal view g _ hg hstays := by
    have hconst : g.isConst = false := by
      have hordinary := h.ordinary g.id hstays
      rwa [isConst, hg] at hordinary
    show judge view g e = _
    rw [judge, hconst]
    rfl
  onGlobal_leaves _ _ _ _ hleaves := hleaves.elim
  onScript _ _ _ := rfl
  onScript_leaves _ _ hleaves := hleaves.elim
  onElement _ _ _ _ _ _ _ := rfl
  onValue view v d hview hd hroot := by
    show inline view v e = _
    obtain ⟨heq, -⟩ | ⟨t, id, rfl, hconst, -⟩ | ⟨t, id, text, rfl, hconst, -⟩ :=
      inline_cases view v e
    · exact heq
    all_goals
      have hstays : stays (.global id) := h.bounds.root hd hroot _ rfl
      rw [hview.known id (h.bounds.known _ hstays)] at hconst
      exact absurd (h.ordinary id hstays) (by rw [isConst, hconst]; exact Bool.noConfusion)
  onCall _ := rfl

theorem Program.Inlined.fold (h : p.Inlined stays) (hp : p.Tidy) (hn : p.Numbered) (report : Report)
    (limit : Int64) : (Pass.folding.run p (.fresh p.nextNode report limit)).1.Inlined stays := by
  obtain ⟨s, hs, hf⟩ := Folding.run_follows hp hn h.bounds h.ordinary report limit
  refine ⟨hf.encloses hs.plainly.confined.encloses, fun id hid => ?_⟩
  rw [isConst_eq, hf.declaration?_eq, ← isConst_eq]
  exact hs.plainly.ordinary id hid

/-! ## 5. All steps -/

/-- A step that finds nothing to do. -/
theorem Pass.run_rest (pass : Pass) (hp : p.Tidy) {stays leaves : DeclId → Prop} {report : Report}
    {limit : Int64} (hh : pass.hooks.Rest p stays leaves (.fresh p.nextNode report limit))
    (htable : ∀ d ∈ p.table.entries, stays d)
    (hrefer : ∀ d, stays d → ∀ c, Value.Refer (p.content d) c → stays c ∨ leaves c)
    (hnames : ∀ d, leaves d → d.name ∉ p.table.names) :
    pass.run p (.fresh p.nextNode report limit) = (p, .fresh p.nextNode report limit) := by
  have hwalk := Program.walk_rest hp hh htable hrefer hnames
  rw [Pass.run]
  show (fun out : Program × Env => ({ out.1 with nextNode := out.2.nextNode }, out.2))
    (p.walk pass.hooks true (.fresh p.nextNode report limit)) = _
  rw [hwalk]
  rfl

/-- A step that finds nothing to do leaves everything to the others. -/
theorem Lowered.run_cons_rest {pass : Pass} {report : Report} {limit : Int64}
    (hrun : pass.run p (.fresh p.nextNode report limit) = (p, .fresh p.nextNode report limit))
    (hreport : report.hasErrors = false) (rest : List Pass) :
    (Lowered.run limit p report (pass :: rest)).program =
      (Lowered.run limit p report rest).program ∧
      (Lowered.run limit p report (pass :: rest)).report =
        (Lowered.run limit p report rest).report := by
  rw [Lowered.run, hrun]
  dsimp only
  rw [if_neg (by simp [Env.fresh, hreport])]
  exact ⟨rfl, rfl⟩

namespace Program

variable {p q : Program} {report : Report} {limit : Int64}

/-- What is known of a program once all steps have run. -/
structure Spent (q : Program) : Prop where
  tidy : q.Tidy
  numbered : q.Numbered
  expanded : ∃ stays leaves, q.Expanded stays leaves
  unrolled : ∃ stays, q.Unrolled stays
  inlined : ∃ stays, q.Inlined stays

theorem full_toList : PassSet.full.toList = [.macros, .loops, .constGlobals, .folding] := by decide

/-- **All steps do what they are there for**, if no error is reported. -/
theorem lower_full_spent (hp : p.Tidy) (hn : p.Numbered) (hin : p.Anchored)
    (hok : (p.lower report .full limit).report.hasErrors = false) :
    (p.lower report .full limit).program.Spent := by
  unfold lower at hok ⊢
  rw [full_toList] at hok ⊢
  obtain ⟨hok₁, hok, heq₁⟩ := Lowered.run_cons_ok hok
  obtain ⟨hok₂, hok, heq₂⟩ := Lowered.run_cons_ok hok
  obtain ⟨-, hok, heq₃⟩ := Lowered.run_cons_ok hok
  obtain ⟨-, -, heq₄⟩ := Lowered.run_cons_ok hok
  rw [heq₁, heq₂, heq₃, heq₄, Lowered.run]
  -- the macros
  have ht₁ := Pass.macros.run_tidy hp report limit
  have hn₁ := Pass.macros.run_numbered hp hn report limit
  have hl₁ := Macros.run_anchored hp hin report limit
  obtain ⟨staysM, leavesM, hm₁⟩ := Macros.run_expanded hp hin report limit hok₁
  generalize Pass.macros.run p (.fresh p.nextNode report limit) = out₁ at *
  -- the loops
  have ht₂ := Pass.loops.run_tidy ht₁ out₁.2.report limit
  have hn₂ := Pass.loops.run_numbered ht₁ hn₁ out₁.2.report limit
  have hl₂ := hl₁.run ht₁ Pass.mild_loops out₁.2.report limit
  have hm₂ := hm₁.run ht₁ Pass.mild_loops out₁.2.report limit
  obtain ⟨staysL, hu₂⟩ := Loops.run_unrolled ht₁ hl₁ out₁.2.report limit hok₂
  generalize Pass.loops.run out₁.1 (.fresh out₁.1.nextNode out₁.2.report limit) = out₂ at *
  -- the constant globals
  have ht₃ := Pass.constGlobals.run_tidy ht₂ out₂.2.report limit
  have hn₃ := Pass.constGlobals.run_numbered ht₂ hn₂ out₂.2.report limit
  have hm₃ := hm₂.run ht₂ Pass.mild_constGlobals out₂.2.report limit
  have hu₃ := hu₂.run ht₂ Pass.mild_constGlobals out₂.2.report limit
  obtain ⟨staysC, hi₃⟩ := run_inlined ht₂ hn₂ hl₂ out₂.2.report limit
  generalize Pass.constGlobals.run out₂.1 (.fresh out₂.1.nextNode out₂.2.report limit) = out₃ at *
  exact ⟨Pass.folding.run_tidy ht₃ _ _, Pass.folding.run_numbered ht₃ hn₃ _ _,
    ⟨staysM, leavesM, hm₃.run ht₃ Pass.mild_folding _ _⟩,
    ⟨staysL, hu₃.run ht₃ Pass.mild_folding _ _⟩, staysC, hi₃.fold ht₃ hn₃ _ _⟩

theorem load_anchored (report : Report) (lib : Library) (entry : Entry) :
    (load {} report lib entry).program.Anchored := by
  have hp := load_tidy tidy_empty report lib entry
  exact RefersIn.bounds (fun a ha v hv => (load_refersIn report lib entry a ha v hv).mono
    (fun _ hl d hd => hp.known d (hl d hd)) fun _ _ hc d hd => hp.known d (hc d hd)) hp
    (fun _ hd => hd) hp.known

theorem load_lower_spent (lib : Library) (entry : Entry) (limit : Int64)
    (hok : ((load {} {} lib entry).program.lower (load {} {} lib entry).report .full
      limit).report.hasErrors = false) :
    ((load {} {} lib entry).program.lower (load {} {} lib entry).report .full
      limit).program.Spent :=
  lower_full_spent (load_tidy tidy_empty {} lib entry)
    (loaded_numbered {} lib entry) (load_anchored {} lib entry) hok

/-- **Only folding can find something to do**, once all steps have run. -/
theorem Spent.again (h : q.Spent) (hreport : report.hasErrors = false) (limit : Int64) :
    (q.lower report .full limit).program =
        (Pass.folding.run q (.fresh q.nextNode report limit)).1 ∧
      (q.lower report .full limit).report =
        (Pass.folding.run q (.fresh q.nextNode report limit)).2.report := by
  obtain ⟨staysM, leavesM, hm⟩ := h.expanded
  obtain ⟨staysL, hu⟩ := h.unrolled
  obtain ⟨staysC, hi⟩ := h.inlined
  have hmacros := Pass.macros.run_rest h.tidy (hm.rest (.fresh q.nextNode report limit))
    hm.encloses.table (fun d hd c hc => hm.encloses.refer ⟨fun hl => hl, fun hk => hk.1⟩ hd hc)
    hm.names
  have hloops := Pass.loops.run_rest h.tidy (hu.rest (.fresh q.nextNode report limit))
    hu.table (fun d hd c hc => .inl (Encloses.refer hu ⟨fun hl => hl, fun hk => hk.1⟩ hd hc))
    fun _ hd => hd.elim
  have hconsts := Pass.constGlobals.run_rest h.tidy (hi.rest (.fresh q.nextNode report limit))
    hi.bounds.table (fun d hd c hc => .inl (hi.bounds.refer (closes_refersIn _) hd hc))
    fun _ hd => hd.elim
  obtain ⟨hprogram₁, hreport₁⟩ :=
    Lowered.run_cons_rest hmacros hreport [.loops, .constGlobals, .folding]
  obtain ⟨hprogram₂, hreport₂⟩ := Lowered.run_cons_rest hloops hreport [.constGlobals, .folding]
  obtain ⟨hprogram₃, hreport₃⟩ := Lowered.run_cons_rest hconsts hreport [.folding]
  rw [lower, full_toList]
  rw [hprogram₁, hprogram₂, hprogram₃, hreport₁, hreport₂, hreport₃, Lowered.run]
  dsimp only
  split
  · exact ⟨rfl, rfl⟩
  · exact ⟨rfl, rfl⟩

end Program

end HaloScript
