/-
# Lowering is complete

If all steps run without an error, the program that comes out has no macros and no constant
globals, and none of its declarations, at any depth, calls a macro or holds a loop.

Each step leaves the declarations that it reaches without what it is there to remove, and no later
step brings it back (`Program.lower_full_spent`).  A macro that has left the table is still there
to be referred to, and later steps walk it as well, so what is said here is only said of the
declarations of the table.
-/
import HaloScript.Proofs.Loading
import HaloScript.Proofs.Lowering.Again

namespace HaloScript

namespace Program

variable {p : Program} {report : Report} {limit : Int64}

def NoMacros (p : Program) : Prop := ∀ s, .script s ∈ p.declarations → s.isMacro = false

def NoConstGlobals (p : Program) : Prop := ∀ g, .global g ∈ p.declarations → g.isConst = false

def callsMacro (p : Program) (h : Head) : Bool :=
  match h.callee with
  | .word _ _ => false
  | .script id => (p.script? id).any Script.isMacro

theorem callsMacro_eq_false {h : Head} (hh : h.callee.NotMacro p) : p.callsMacro h = false := by
  unfold callsMacro
  split
  · rfl
  · next id hcallee => exact Callee.notMacro_iff.mp hh id hcallee

/-- What all steps together make of a tidy program. -/
structure Complete (p : Program) : Prop where
  /-- The declarations are those that the table lists. -/
  listed : p.declarations.map Declaration.id = p.table.entries
  noMacros : p.NoMacros
  noConstGlobals : p.NoConstGlobals
  calls : ∀ d ∈ p.declarations, ∀ h ∈ d.calls, p.callsMacro h = false ∧ h.isCallOf "loop" = false

/-- **A program is complete once all steps have run.** -/
theorem Spent.complete (h : p.Spent) : p.Complete := by
  obtain ⟨staysM, leavesM, hmacros⟩ := h.expanded
  obtain ⟨staysL, hloops⟩ := h.unrolled
  obtain ⟨staysC, hconsts⟩ := h.inlined
  have hfound : ∀ d ∈ p.declarations, d.id ∈ p.table.entries ∧ p.declaration? d.id = some d :=
    fun d hd => ⟨(h.tidy.mem_declarations.mp hd).2,
      h.tidy.declaration?_id (h.tidy.mem_declarations.mp hd).1⟩
  refine ⟨h.tidy.map_id_declarations, fun s hs => ?_, fun g hg => ?_, fun d hd head hhead => ?_⟩
  · obtain ⟨hlisted, hdecl⟩ := hfound _ hs
    have hkept := hmacros.kept _ (hmacros.encloses.table _ hlisted)
    obtain ⟨s', hs', heq⟩ := Option.map_eq_some_iff.mp hdecl
    rwa [Declaration.id, isMacro, hs', Declaration.script.inj heq] at hkept
  · obtain ⟨hlisted, hdecl⟩ := hfound _ hg
    have hordinary := hconsts.ordinary g.id (hconsts.bounds.table _ hlisted)
    obtain ⟨g', hg', heq⟩ := Option.map_eq_some_iff.mp hdecl
    rwa [isConst, hg', Declaration.global.inj heq] at hordinary
  · obtain ⟨hlisted, hdecl⟩ := hfound d hd
    obtain ⟨v, hv, hcall⟩ := Value.mem_callsAll.mp hhead
    rw [← content_eq hdecl] at hv
    have hmacro := (hmacros.encloses.content _ (hmacros.encloses.table _ hlisted) v hv).2 head hcall
    have hloop := (hloops.content _ (hloops.table _ hlisted) v hv).2 head hcall
    exact ⟨callsMacro_eq_false hmacro.2, head.notLoop_iff.mp hloop.2⟩

/-- **Lowering is complete.**  Whatever sources are loaded into an empty program, and whatever
the limit: if neither loading nor any step reports an error, the program that comes out lists no
macro and no constant global, and no call of its declarations, at any depth, is a call of a macro
or a loop. -/
theorem lower_full_of_loaded (lib : Library) (entry : Entry) (limit : Int64)
    (hok : ((load {} {} lib entry).program.lower (load {} {} lib entry).report .full
      limit).report.hasErrors = false) :
    ((load {} {} lib entry).program.lower (load {} {} lib entry).report .full
      limit).program.Complete :=
  (load_lower_spent lib entry limit hok).complete

def macroSample : Entry :=
  .source ⟨"a", "(constglobal s n 1)(script macro s m()(p))(script startup f(m))"⟩

set_option maxRecDepth 20000 in
theorem lower_full_macroSample :
    ((load {} {} {} macroSample).program.lower (load {} {} {} macroSample).report .full
        0).report.hasErrors = false ∧
      ((load {} {} {} macroSample).program.lower (load {} {} {} macroSample).report .full
        0).program.Complete := by
  have hok : ((load {} {} {} macroSample).program.lower (load {} {} {} macroSample).report .full
      0).report.hasErrors = false := by cbv
  exact ⟨hok, lower_full_of_loaded {} macroSample 0 hok⟩

end Program

end HaloScript
