/-
# Lowering twice

All steps are run on a program that they have been run on before.  The second run reports nothing
and takes nothing off the table.  But it may fold what the first run has left behind: constant
folding goes from the outside in, and what it does further inside can make a call foldable that it
has passed already.  `Program.lower_full_again` says where this happens, and that it can be told
from the dump whether it does.
-/
import HaloScript.Proofs.Dump
import HaloScript.Proofs.Lowering.Again
import Mathlib.Algebra.Order.BigOperators.Group.List

namespace HaloScript

open Program

/-! ## 1. What folding does to the dump -/

namespace Folding

variable {p : Program} {inside : DeclId → Prop} {s : Standing Env} {base : Report} {q : Program}
  {e : Env} {d : DeclId}

/-- What a declaration weighs besides its values does not change. -/
theorem Follows.weight (h : Follows p inside base s) (hf : s.Final p q e) (hp : p.Tidy)
    (hplain : ∀ id, inside (.global id) → p.isConst id = false) (hd : d ∈ p.table.entries) :
    ∃ tare, p.weight d = tare + Value.bulk (p.content d) ∧
      q.weight d = tare + Value.bulk (q.content d) := by
  have hin : inside d := h.plainly.confined.encloses.table d (hf.orderly.table ▸ hd)
  obtain ⟨a, ha, -⟩ := hp.exists_declaration (hp.known d hd)
  obtain ⟨a', ha', -⟩ := (hf.tidy hp).exists_declaration (hf.allIds_eq ▸ hp.known d hd)
  refine ⟨a.tare, weight_eq ha, ?_⟩
  rw [weight_eq ha']
  congr 1
  cases d with
  | global id =>
    have hconst := hplain id hin
    have hconst' := h.plainly.ordinary id hin
    rw [isConst_eq, ha] at hconst
    rw [isConst_eq, ← hf.declaration?_eq, ha'] at hconst'
    obtain ⟨g, -, rfl⟩ := Option.map_eq_some_iff.mp ha
    obtain ⟨g', -, rfl⟩ := Option.map_eq_some_iff.mp ha'
    simp_all [Declaration.tare]
  | script =>
    obtain ⟨b, hb, rfl⟩ := Option.map_eq_some_iff.mp ha
    obtain ⟨b', hb', rfl⟩ := Option.map_eq_some_iff.mp ha'
    obtain ⟨b'', hb'', hsig⟩ := hf.alike.getElem?_scripts hb
    obtain rfl : b'' = b' := Option.some.inj (hb''.symm.trans hb')
    have htare := congrArg (fun c => (Declaration.script c).tare) hsig.symm
    exact htare

/-- **The dump stays as it is exactly if folding applies nowhere.** -/
theorem run_dump_iff (hp : p.Tidy) (hn : p.Numbered) (hin : p.Bounds inside)
    (hplain : ∀ id, inside (.global id) → p.isConst id = false) (base : Report) (limit : Int64) :
    (Pass.folding.run p (.fresh p.nextNode base limit)).1.dump = p.dump ↔
      ∀ d ∈ p.table.entries, ∀ spot ∈ Spot.all d.owner (p.content d), applies spot = false := by
  obtain ⟨s, hs, hf⟩ := run_follows hp hn hin hplain base limit
  generalize Pass.folding.run p (.fresh p.nextNode base limit) = out at hf
  have htable := hf.table_eq hp hs.removed
  have hends := fun d (hd : d ∈ p.table.entries) => hs.ends hf hp hd
  have hweight := fun d (hd : d ∈ p.table.entries) => hs.weight hf hp hplain hd
  constructor
  · -- an edit somewhere would make the dump lighter
    intro heq d hd
    refine (hends d hd).elim And.right fun hlighter => ?_
    have hle : ∀ d ∈ p.table.entries, out.1.weight d ≤ p.weight d := by
      intro d hd
      obtain ⟨tare, hold, hnew⟩ := hweight d hd
      obtain ⟨hsame, -⟩ | ⟨hbulk, -⟩ := hends d hd
      · rw [weight, hsame, weight]
      · omega
    have hlt : out.1.weight d < p.weight d := by
      obtain ⟨tare, hold, hnew⟩ := hweight d hd
      have hbulk := hlighter.1
      omega
    have hsum := List.sum_lt_sum _ _ hle ⟨d, hd, hlt⟩
    have hdump := out.1.weighs_dump
    rw [heq, htable] at hdump
    have hsame := hdump.unique p.weighs_dump
    omega
  · intro hnone
    have hsame : ∀ d ∈ p.table.entries, out.1.declaration? d = p.declaration? d := by
      intro d hd
      refine (hends d hd).elim And.left ?_
      rintro ⟨-, spot, hspot, happlies⟩
      rw [hnone d hd spot hspot] at happlies
      cases happlies
    rw [dump, declarations, htable, List.filterMap_congr hsame, dump,
      declarations]

end Folding

/-! ## 2. All steps -/

namespace Program

/-- **Lowering a second time.**  Whatever sources are loaded into an empty program and lowered
without an error: if all steps are run once more, with any limit, nothing is reported and nothing
leaves the table, and a declaration stays as it is exactly if there is no spot in it where folding
applies.  So the dump stays the same exactly if folding applies nowhere. -/
theorem lower_full_again (lib : Library) (entry : Entry) (limit limit' : Int64)
    (hok : ((load {} {} lib entry).program.lower (load {} {} lib entry).report .full
      limit).report.hasErrors = false) :
    let first := (load {} {} lib entry).program.lower (load {} {} lib entry).report .full limit
    let again := first.program.lower first.report .full limit'
    again.report = first.report ∧ again.program.table = first.program.table ∧
      (∀ d ∈ first.program.table.entries,
        again.program.declaration? d = first.program.declaration? d ↔
          ∀ spot ∈ Spot.all d.owner (first.program.content d), Folding.applies spot = false) ∧
      (again.program.dump = first.program.dump ↔ ∀ d ∈ first.program.table.entries,
        ∀ spot ∈ Spot.all d.owner (first.program.content d), Folding.applies spot = false) := by
  have hspent := load_lower_spent lib entry limit hok
  intro first again
  obtain ⟨hprogram, hreport⟩ := hspent.again hok limit'
  obtain ⟨stays, hbounds, hplain⟩ := hspent.inlined
  obtain ⟨htable, hquiet⟩ :=
    Folding.run_quiet hspent.tidy hspent.numbered hbounds hplain first.report limit'
  refine ⟨hreport.trans hquiet, hprogram ▸ htable, fun d hd => ?_, ?_⟩
  · rw [show again.program = _ from hprogram]
    exact Folding.run_declaration?_iff hspent.tidy hspent.numbered hbounds hplain _ limit' hd
  · rw [show again.program = _ from hprogram]
    exact Folding.run_dump_iff hspent.tidy hspent.numbered hbounds hplain _ limit'

/-- A `begin` that loses all statements but one after it has been visited. -/
def nestedSample : Entry := .source ⟨"a", "(script startup f(g(begin(if false(x))(y))))"⟩

def nestedFirst : Lowered :=
  (load {} {} {} nestedSample).program.lower (load {} {} {} nestedSample).report .full 0

/-- The sample after all steps once more. -/
def nestedAgain : Lowered := nestedFirst.program.lower nestedFirst.report .full 0

set_option maxRecDepth 20000 in
/-- The second run takes the `begin` away that the first has left, and reports nothing. -/
theorem lower_full_nestedSample :
    nestedFirst.report.hasErrors = false ∧ nestedAgain.report = nestedFirst.report ∧
      nestedFirst.program.dump =
        "(ast (script \"startup\" \"f\" (call \"g\" (call \"begin\" (call \"y\")))))" ∧
      nestedAgain.program.dump = "(ast (script \"startup\" \"f\" (call \"g\" (call \"y\"))))" ∧
      ∃ d ∈ nestedFirst.program.table.entries,
        ∃ spot ∈ Spot.all d.owner (nestedFirst.program.content d), Folding.applies spot = true := by
  have hok : nestedFirst.report.hasErrors = false := by cbv
  have hfirst : nestedFirst.program.dump =
      "(ast (script \"startup\" \"f\" (call \"g\" (call \"begin\" (call \"y\")))))" := by cbv
  have hagain : nestedAgain.program.dump =
      "(ast (script \"startup\" \"f\" (call \"g\" (call \"y\"))))" := by cbv
  obtain ⟨hreport, -, -, hdump⟩ := lower_full_again {} nestedSample 0 0 hok
  refine ⟨hok, hreport, hfirst, hagain, ?_⟩
  by_contra hnone
  have hsame : nestedAgain.program.dump = nestedFirst.program.dump :=
    hdump.mpr fun d hd spot hspot => eq_false_of_ne_true fun happlies =>
      hnone ⟨d, hd, spot, hspot, happlies⟩
  rw [hfirst, hagain] at hsame
  exact absurd hsame (by decide)

end Program

end HaloScript
