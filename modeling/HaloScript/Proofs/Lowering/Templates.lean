/-
# Macros as templates

While macros are expanded, the walk edits the declarations it opens, and it opens everything but
macros.  So a macro is a template that never changes (`Macros.Templates`): whatever has been
expanded before, a call is expanded from the macro of the program at the start
(`Macros.Templates.template?_eq`).

Since the templates meet whatever conditions the program meets, expansion keeps the conditions,
also where it fails (`Macros.run_confined`).
-/
import HaloScript.Proofs.Lowering.Macros
import HaloScript.Proofs.Walk.Enclosed

namespace HaloScript

open List

/-! ## 1. Macros -/

namespace Program

variable {p q : Program}

def isMacro (p : Program) : DeclId → Bool
  | .global _ => false
  | .script id => (p.script? id).any Script.isMacro

theorem Alike.isMacro (h : p.Alike q) (d : DeclId) : q.isMacro d = p.isMacro d := by
  have hsignature : ∀ r : Program, ∀ id : ScriptId, r.isMacro (.script id) =
      ((r.scripts.map Script.signature)[id.serial]?).any Script.isMacro := by
    intro r id
    rw [Array.getElem?_map, Option.any_map]
    rfl
  cases d with
  | global => rfl
  | script => rw [hsignature, hsignature, h.scripts]

end Program

namespace Macros

/-! ## 2. What the walk leaves alone -/

variable {p : Program} {s s' : Standing Env} {view : View}

/-- What has been opened and what has been removed by macro expansion. -/
structure Sorts (p : Program) (s : Standing Env) : Prop where
  opened : ∀ d ∈ s.opened, p.isMacro d = false
  removed : ∀ d ∈ s.removed, p.isMacro d = true

theorem Sorts.move (h : Sorts p s) (hs : s.Orderly p) (hmove : Move hooks s s') : Sorts p s' := by
  cases hmove with
  | global =>
    exact ⟨forall_mem_cons.mpr ⟨rfl, h.opened⟩, h.removed⟩
  | script a ha =>
    have hsort : p.isMacro (.script a.id) = a.isMacro := by
      rw [← hs.alike.isMacro]
      exact congrArg (Option.any Script.isMacro) ha
    show Sorts p (s.enterScript a (a.isMacro, s.state))
    rw [Standing.enterScript]
    cases hkind : a.isMacro with
    | true => exact ⟨h.opened, forall_mem_cons.mpr ⟨hsort.trans hkind, h.removed⟩⟩
    | false => exact ⟨forall_mem_cons.mpr ⟨hsort.trans hkind, h.opened⟩, h.removed⟩
  | element | value | call | skip => exact ⟨h.opened, h.removed⟩

end Macros

namespace Standing

variable {σ : Type} {p : Program} {s s' : Standing σ} {h : Hooks σ}

theorem opened_subset_of_move (hmove : Move h s s') : s.opened ⊆ s'.opened := by
  obtain ⟨ho, -⟩ | ⟨d, -, ⟨ho, -⟩ | ⟨ho, -⟩⟩ := hmove.marks
  · exact ho ▸ Subset.refl _
  · exact ho ▸ subset_cons_self _ _
  · exact ho ▸ Subset.refl _

/-- Scripts that have not been opened are as they were in the program `p`. -/
def Spares (p : Program) (s : Standing σ) : Prop :=
  ∀ a ∈ p.scripts, .script a.id ∉ s.opened → s.now.script? a.id = some a

theorem spares_start (hp : p.Tidy) (e : σ) : (start p e).Spares p := fun _ ha _ => hp.script?_id ha

/-- **A move leaves alone what has not been opened.** -/
theorem Spares.move (hq : s.Spares p) (hs : s.Orderly p) (hp : p.Tidy) (hmove : Move h s s') :
    s'.Spares p := by
  intro a ha hclosed
  have hnot : DeclId.script a.id ∉ s.opened := fun hd => hclosed (opened_subset_of_move hmove hd)
  have hknown : DeclId.script a.id ∈ p.allIds := by
    rw [Program.allIds_eq_map]
    exact mem_map.mpr ⟨.script a, Program.mem_all_script.mpr ha, rfl⟩
  have hput : ∀ d ∈ s.opened, ∀ vs, (s.now.put d vs).script? a.id = some a := by
    intro d hd vs
    have hsame := (hs.tidy hp).declaration?_put_of_ne (hs.known_now (hs.opened_known d hd))
      (hs.known_now hknown) (fun heq => hnot (heq ▸ hd)) vs
    rw [Program.declaration?, Program.declaration?, hq a ha hnot] at hsame
    obtain ⟨b, hb, heq⟩ := Option.map_eq_some_iff.mp hsame
    obtain rfl := Declaration.script.inj heq
    exact hb
  cases hmove with
  | global => exact hq a ha hnot
  | element view d spot vs rest hview hd => exact hput d hd vs
  | value view d spot vs rest hview hd => exact hput d hd vs
  | script | call | skip => exact hq a ha hnot

end Standing

/-! ## 3. Templates -/

namespace Macros

variable {p : Program} {s s' : Standing Env} {view : View}

/-- Macros are neither opened nor edited, and nothing else is removed. -/
structure Templates (p : Program) (s : Standing Env) : Prop extends Sorts p s where
  spares : s.Spares p

theorem templates_start (hp : p.Tidy) (e : Env) : Templates p (.start p e) :=
  ⟨⟨fun _ hd => absurd hd not_mem_nil, fun _ hd => absurd hd not_mem_nil⟩,
    Standing.spares_start hp e⟩

namespace Templates

variable {id : ScriptId} {m : Script}

theorem move (h : Templates p s) (hs : s.Orderly p) (hp : p.Tidy) (hmove : Move hooks s s') :
    Templates p s' := ⟨h.toSorts.move hs hmove, h.spares.move hs hp hmove⟩

/-- **A macro is as it was.** -/
theorem script?_eq (h : Templates p s) (hp : p.Tidy) (hm : p.script? id = some m)
    (hkind : m.isMacro = true) : s.now.script? id = some m := by
  have hid : p.script? m.id = some m := hp.script?_id (Array.mem_of_getElem? hm)
  have hclosed : DeclId.script m.id ∉ s.opened := by
    intro hd
    have hnot := h.opened _ hd
    rw [Program.isMacro, hid, Option.any_some, hkind] at hnot
    cases hnot
  have hnow := h.spares m (Array.mem_of_getElem? hm) hclosed
  rw [Program.script?, hp.scriptSerial _ _ hm] at hnow
  exact hnow

/-- What hooks see of a macro is the macro of the program at the start. -/
theorem shown (h : Templates p s) (hs : s.Orderly p) (hp : p.Tidy) (hview : view.Shows s)
    (hm : view.script? id = some m) (hkind : m.isMacro = true) : p.script? id = some m := by
  obtain ⟨a, ha, hsignature, hsame⟩ := hview.script id m hm
  obtain ⟨m₀, hm₀, hsignature₀⟩ := hs.alike.symm.getElem?_scripts ha
  have hsort : m₀.isMacro = true := by
    rw [Script.isMacro, ← Script.kind_eq_of_signature (hsignature.trans hsignature₀)]
    exact hkind
  obtain rfl : m₀ = a := Option.some.inj ((h.script?_eq hp hm₀ hsort).symm.trans ha)
  rcases hsame with rfl | hopened
  · exact hm₀
  · have hnot := h.opened _ hopened
    rw [Script.id_eq_of_signature hsignature, Program.isMacro,
      hp.script?_id (Array.mem_of_getElem? hm₀), Option.any_some, hsort] at hnot
    cases hnot

theorem shows (h : Templates p s) (hs : s.Orderly p) (hp : p.Tidy) (hview : view.Shows s)
    (hm : p.script? id = some m) (hkind : m.isMacro = true) : view.script? id = some m := by
  have hsignature := hview.signatures id
  rw [h.script?_eq hp hm hkind] at hsignature
  obtain ⟨m', hm', hsame⟩ := Option.map_eq_some_iff.mp hsignature
  have hsort : m'.isMacro = true := by
    rw [Script.isMacro, Script.kind_eq_of_signature hsame]
    exact hkind
  rw [hm', ← h.shown hs hp hview hm' hsort, hm]

/-- **Calls are expanded from the macros of the program at the start.** -/
theorem template?_eq (h : Templates p s) (hs : s.Orderly p) (hp : p.Tidy) (hview : view.Shows s)
    (head : Head) : head.template? view.script? = head.template? p.script? := by
  ext m
  rw [Head.template?_eq_some, Head.template?_eq_some]
  refine exists_congr fun id => and_congr_right fun _ => and_congr_left fun hkind => ?_
  exact ⟨fun hm => h.shown hs hp hview hm hkind, fun hm => h.shows hs hp hview hm hkind⟩

variable {inside : DeclId → Prop} {leafOk : Leaf → Prop} {callOk : CallCondition}

/-- What an expansion puts in meets the conditions that the members of a set meet. -/
theorem expand?_meets (h : Templates p s) (hs : s.Orderly p) (hp : p.Tidy) (hview : view.Shows s)
    (hin : p.Encloses inside leafOk callOk) (hc : Closes inside leafOk callOk) {head : Head}
    (hhead : callOk head.callee head.clause) {args vs : List Value} {e e' : Env}
    (hargs : ∀ v ∈ args, v.Meets leafOk callOk)
    (hx : expand? view head args e = (some vs, e')) : ∀ v ∈ vs, v.Meets leafOk callOk := by
  obtain ⟨m, n, hm, -, rfl⟩ := expand?_some hx
  rw [h.template?_eq hs hp hview, Head.template?_eq_some] at hm
  obtain ⟨id, hcallee, hm, -⟩ := hm
  have hinside : inside (.script id) := hc.call hhead _ (by rw [hcallee]; rfl)
  have hbody : p.content (.script id) = m.body := by
    refine Program.content_eq (a := .script m) ?_
    rw [Program.declaration?, hm, Option.map_some]
  exact Value.instantiateAll_meets (substitution_meets m.params hargs) m.body n
    (hbody ▸ hin.content _ hinside)

/-- **Expansion keeps the conditions that the program at the start meets**, also where it fails. -/
theorem keep (h : Templates p s) (hs : s.Orderly p) (hp : p.Tidy)
    (hin : p.Encloses inside leafOk callOk) (hc : Closes inside leafOk callOk)
    (hbegin : callOk (.word "begin" none) false) :
    hooks.KeepUnder s.Gives leafOk callOk where
  onElement view place v e hgives hv := by
    obtain ⟨hview, -⟩ := hgives
    show ∀ w ∈ (expandElement view place v e).1.values, w.Meets leafOk callOk
    unfold expandElement
    split
    · exact forall_mem_singleton.mpr hv
    · next t head args =>
      have hcall := (Value.meets_call _ _ _).mp hv
      split
      · split
        · next hx => exact h.expand?_meets hs hp hview hin hc hcall.1 hcall.2 hx
        · exact forall_mem_singleton.mpr hv
      · exact forall_mem_singleton.mpr hv
  onValue view v e hgives hv := by
    obtain ⟨hview, -⟩ := hgives
    show (expandValue view v e).1.Meets leafOk callOk
    fun_induction expandValue view v e with
    | case1 e t l => exact hv
    | case2 e t head args e' hx => exact hv
    | case3 e t head args w e' hx ih =>
      have hcall := (Value.meets_call _ _ _).mp hv
      have hw := h.expand?_meets hs hp hview hin hc hcall.1 hcall.2 hx w mem_cons_self
      exact ih ((Value.meets_withTag _ _).mpr hw)
    | case4 e t head args vs e' _ hx =>
      have hcall := (Value.meets_call _ _ _).mp hv
      exact (Value.meets_call _ _ _).mpr
        ⟨hbegin, h.expand?_meets hs hp hview hin hc hcall.1 hcall.2 hx⟩

end Templates

/-- **Macro expansion keeps the conditions on the members of a set**, whether it fails or not, and
stays inside. -/
theorem run_confined {inside : DeclId → Prop} {leafOk : Leaf → Prop} {callOk : CallCondition}
    (hp : p.Tidy) (hin : p.Encloses inside leafOk callOk) (hc : Closes inside leafOk callOk)
    (hbegin : callOk (.word "begin" none) false) (report : Report) (limit : Int64) :
    ∃ s, Templates p s ∧ s.Confined inside leafOk callOk ∧
      s.Final p (Pass.macros.run p (.fresh p.nextNode report limit)).1
        (Pass.macros.run p (.fresh p.nextNode report limit)).2 := by
  obtain ⟨s, ⟨htemplates, hconfined⟩, hf⟩ := Pass.macros.run_final hp report limit
    (Q := fun s => Templates p s ∧ s.Confined inside leafOk callOk)
    ⟨templates_start hp _, .start hin _⟩
    fun s s' hs ⟨ht, hq⟩ hmove => ⟨ht.move hs hp hmove,
      hq.moveUnder hp hs hc (ht.keep hs hp hin hc hbegin) hmove⟩
  exact ⟨s, htemplates, hconfined, hf⟩

end Macros

end HaloScript
