/-
# References of loaded programs

Building makes no references, and linking takes them from the table.  So everything that was
ever declared while a program was loaded refers to entries of the table only, also a stub that has
been replaced (`Program.load_refersIn`).
-/
import HaloScript.Proofs.Numbering

namespace HaloScript

open List

/-! ## 1. Where references lead -/

/-- The leaf refers to nothing but the declarations that are allowed. -/
def Leaf.RefersIn (ok : DeclId → Prop) (l : Leaf) : Prop := ∀ d, l.target? = some d → ok d

def Callee.RefersIn (ok : DeclId → Prop) : CallCondition :=
  fun c _ => ∀ d, c.target? = some d → ok d

abbrev Value.RefersIn (ok : DeclId → Prop) (v : Value) : Prop :=
  v.Meets (Leaf.RefersIn ok) (Callee.RefersIn ok)

variable {ok : DeclId → Prop}

theorem Leaf.refersIn_atom (t : Text) : (Leaf.atom t).RefersIn ok := fun _ h => nomatch h

theorem Callee.refersIn_word (t : Text) (span : Option Span) (clause : Bool) :
    Callee.RefersIn ok (.word t span) clause := fun _ h => nomatch h

/-- All declarations, listed or not, refer to what is allowed. -/
def Program.RefersIn (p : Program) (ok : DeclId → Prop) : Prop :=
  ∀ d ∈ p.all, ∀ v ∈ d.values, v.RefersIn ok

/-! ## 2. Building -/

namespace Build

variable {α β : Type} {good : α → Prop} {good' : β → Prop}

/-- Whatever the computation builds meets a condition. -/
def Gives (good : α → Prop) (x : Build α) : Prop := ∀ n n' a, x n = .ok (a, n') → good a

theorem gives_true (x : Build α) : x.Gives fun _ => True := fun _ _ _ _ => trivial

theorem gives_pure {a : α} (h : good a) : Gives good (pure a) := by
  intro n n' b hb
  obtain ⟨rfl, rfl⟩ := pure_eq_ok.mp hb
  exact h

theorem gives_fail (f : Fault) (span : Span) : Gives good (fail f span) :=
  fun _ _ _ h => absurd h fail_ne_ok

theorem Gives.bind {x : Build α} {f : α → Build β} (hx : x.Gives good)
    (hf : ∀ a, good a → (f a).Gives good') : Gives good' (x >>= f) := by
  intro n n' b h
  obtain ⟨a, m, hxa, hfb⟩ := bind_eq_ok.mp h
  exact hf a (hx n m a hxa) m n' b hfb

variable (ok)

mutual

/-- A value that has just been built refers to nothing, so it refers to what is allowed. -/
theorem value_refersIn (inCond : Bool) (f : Form) : (value inCond f).Gives (Value.RefersIn ok) := by
  match f with
  | .atom s q =>
    rw [value]
    refine (gives_true _).bind fun id _ => gives_pure ?_
    exact (Value.meets_leaf _ _).mpr (Leaf.refersIn_atom _)
  | .list s [] =>
    rw [value]
    exact (gives_true _).bind fun id _ => (gives_true _).bind fun callId _ => gives_fail _ _
  | .list s (first :: rest) =>
    rw [value]
    refine (gives_true _).bind fun id _ => (gives_true _).bind fun callId _ => ?_
    dsimp only
    split
    · refine (values_refersIn false (first :: rest)).bind fun args hargs => gives_pure ?_
      exact (Value.meets_call _ _ _).mpr ⟨Callee.refersIn_word _ _ _, hargs⟩
    · refine (gives_true _).bind fun name _ => ?_
      refine (values_refersIn _ rest).bind fun args hargs => gives_pure ?_
      exact (Value.meets_call _ _ _).mpr ⟨Callee.refersIn_word _ _ _, hargs⟩

theorem values_refersIn (inCond : Bool) (fs : List Form) :
    (values inCond fs).Gives fun vs => ∀ v ∈ vs, v.RefersIn ok := by
  match fs with
  | [] =>
    rw [values]
    exact gives_pure fun v hv => absurd hv not_mem_nil
  | f :: rest =>
    rw [values]
    refine (value_refersIn inCond f).bind fun v hv => ?_
    refine (values_refersIn inCond rest).bind fun vs hvs => gives_pure ?_
    exact forall_mem_cons.mpr ⟨hv, hvs⟩

end

theorem body_refersIn (fs : List Form) : (body fs).Gives fun vs => ∀ v ∈ vs, v.RefersIn ok := by
  fun_induction body fs with
  | case1 => exact gives_pure fun v hv => absurd hv not_mem_nil
  | case2 f =>
    refine (value_refersIn ok false f).bind fun v hv => gives_pure ?_
    exact forall_mem_singleton.mpr hv
  | case3 rest hrest s q => exact gives_fail _ _
  | case4 rest hrest s items ih =>
    refine (value_refersIn ok false _).bind fun v hv => ih.bind fun vs hvs => gives_pure ?_
    exact forall_mem_cons.mpr ⟨hv, hvs⟩

theorem global_refersIn (id : Text → GlobalId) (isConst : Bool) (span : Span) (items : List Form) :
    (global id isConst span items).Gives fun g => g.value.RefersIn ok := by
  unfold global
  split
  · exact (gives_true _).bind fun _ _ => (gives_true _).bind fun _ _ =>
      (value_refersIn ok false _).bind fun v hv => gives_pure hv
  · exact gives_fail _ _

theorem script_refersIn (id : Text → ScriptId) (span : Span) (items : List Form) :
    (script id span items).Gives fun s => ∀ v ∈ s.body, v.RefersIn ok := by
  rw [script_eq]
  split
  · exact gives_fail _ _
  · refine (gives_true _).bind fun a _ => ?_
    split
    · exact gives_fail _ _
    · exact (gives_true _).bind fun r _ => (gives_true _).bind fun b _ =>
        (gives_true _).bind fun q _ => (body_refersIn ok _).bind fun vs hvs => gives_pure hvs

/-- **A declaration is built without references.** -/
theorem declaration_refersIn (p : Program) (f : Form) :
    (declaration p f).Gives fun new => ∀ d ∈ new, ∀ v ∈ d.values, v.RefersIn ok := by
  have hglobal : ∀ isConst : Bool, Gives
      (fun new : Option Declaration => ∀ d ∈ new, ∀ v ∈ d.values, v.RefersIn ok)
      (global p.newGlobalId isConst f.span f.items >>= fun g => pure (some (.global g))) :=
    fun isConst => (global_refersIn ok _ _ _ _).bind fun g hg => gives_pure fun d hd => by
      obtain rfl := Option.mem_some.mp hd
      exact forall_mem_singleton.mpr hg
  unfold declaration
  split
  · exact gives_fail _ _
  · refine (gives_true _).bind fun word _ => ?_
    dsimp only
    split
    · exact hglobal false
    · split
      · exact hglobal true
      · split
        · refine (script_refersIn ok _ _ _).bind fun s hs => gives_pure fun d hd => ?_
          obtain rfl := Option.mem_some.mp hd
          exact hs
        · split
          · exact gives_pure fun d hd => absurd hd (Option.not_mem_none d)
          · exact gives_fail _ _

end Build

namespace Drafting

theorem forms_refersIn (fs : List Form) {d : Drafting} (hd : d.program.RefersIn ok) :
    (d.forms fs).1.program.RefersIn ok := by
  refine forms_keep (P := (·.RefersIn ok))
    (fun {p f new next} hp hnew => ⟨hp, fun a ha => ?_⟩) fs hd
  rcases mem_cons.mp ((Program.all_declare_perm _ new).mem_iff.mp ha) with rfl | hmem
  · exact Build.declaration_refersIn ok _ _ _ _ _ hnew _ rfl
  · exact hp a hmem

end Drafting

/-! ## 3. Linking -/

section Linking

variable {scope : Scope}

theorem Leaf.resolve_refersIn (hscope : ∀ name d, scope name = some d → ok d) {l : Leaf}
    (hl : l.RefersIn ok) : (l.resolve scope).RefersIn ok := by
  cases l with
  | blank => exact hl
  | global => exact hl
  | script => exact hl
  | atom t =>
    unfold Leaf.resolve
    dsimp only
    split
    · next d hd =>
      intro e he
      cases d <;> (obtain rfl := Option.some.inj he; exact hscope t _ hd)
    · exact hl

theorem Head.resolve_refersIn (hscope : ∀ name d, scope name = some d → ok d) {h : Head}
    (hh : Callee.RefersIn ok h.callee h.clause) (r : Report) :
    Callee.RefersIn ok (h.resolve scope r).1.callee (h.resolve scope r).1.clause := by
  rw [Head.resolve_run]
  split
  · exact hh
  · next t s _ =>
    split
    · exact hh
    · split
      · exact hh
      · next id hid =>
        intro e he
        obtain rfl := Option.some.inj he
        exact hscope t _ hid
      · exact hh

namespace Value

mutual

theorem resolve_refersIn (hscope : ∀ name d, scope name = some d → ok d) (v : Value)
    (hv : v.RefersIn ok) (r : Report) :
    (v.resolve scope r).1.RefersIn ok := by
  match v with
  | .leaf t l =>
    rw [resolve_leaf_run]
    exact (meets_leaf _ _).mpr (Leaf.resolve_refersIn hscope ((meets_leaf _ _).mp hv))
  | .call t h args =>
    obtain ⟨hh, hargs⟩ := (meets_call _ _ _).mp hv
    rw [resolve_call_run]
    exact (meets_call _ _ _).mpr ⟨Head.resolve_refersIn hscope hh r,
      resolveAll_refersIn hscope args hargs _⟩

theorem resolveAll_refersIn (hscope : ∀ name d, scope name = some d → ok d) (vs : List Value)
    (hvs : ∀ v ∈ vs, v.RefersIn ok) (r : Report) :
    ∀ v ∈ (resolveAll scope vs r).1, v.RefersIn ok := by
  match vs with
  | [] => exact fun v hv => absurd hv not_mem_nil
  | v :: rest =>
    rw [forall_mem_cons] at hvs
    rw [resolveAll_cons_run]
    exact forall_mem_cons.mpr
      ⟨resolve_refersIn hscope v hvs.1 r, resolveAll_refersIn hscope rest hvs.2 _⟩

end

end Value

end Linking

namespace Program

variable {p : Program}

theorem scope_entry {params : List Param} {name : Text} {d : DeclId}
    (h : p.table.scope params name = some d) : d ∈ p.table.entries := by
  unfold Table.scope at h
  split at h
  · cases h
  · exact mem_of_find?_eq_some h

theorem resolve_refersIn (hp : p.Tidy) (hok : ∀ d ∈ p.table.entries, ok d) (h : p.RefersIn ok)
    (d : DeclId) (r : Report) : (p.resolve d r).1.RefersIn ok := by
  have hscope : ∀ params name e, p.table.scope params name = some e → ok e :=
    fun _ _ e he => hok e (scope_entry he)
  unfold resolve
  cases d with
  | global id =>
    cases hg : p.global? id with
    | none =>
      simp only [declaration?, hg, Option.map_none]
      exact h
    | some g =>
      simp only [declaration?, hg, Option.map_some]
      have hvalue := h (.global g) (mem_all_global.mpr (Array.mem_of_getElem? hg))
      intro a ha
      rcases hp.mem_all_setGlobal ha with rfl | ha
      · refine forall_mem_singleton.mpr ?_
        exact Value.resolve_refersIn (hscope _) _ (hvalue _ mem_cons_self) _
      · exact h a ha.1
  | script id =>
    cases hs : p.script? id with
    | none =>
      simp only [declaration?, hs, Option.map_none]
      exact h
    | some s =>
      simp only [declaration?, hs, Option.map_some]
      have hbody := h (.script s) (mem_all_script.mpr (Array.mem_of_getElem? hs))
      intro a ha
      rcases hp.mem_all_setScript ha with rfl | ha
      · exact Value.resolveAll_refersIn (hscope _) _ hbody _
      · exact h a ha.1

theorem resolveAll_refersIn (ds : List DeclId) : ∀ {p : Program}, p.Tidy →
    (∀ d ∈ p.table.entries, ok d) → p.RefersIn ok → ∀ r : Report,
    (p.resolveAll ds r).1.RefersIn ok := by
  induction ds with
  | nil => exact fun _ _ h r => h
  | cons d rest ih =>
    intro p hp hok h r
    obtain ⟨halike, htable⟩ := resolve_alike hp d r
    have htable' : (p.resolve d r).1.table.entries = p.table.entries := by rw [htable]
    exact ih (hp.of_alike halike (by rw [htable'])) (htable' ▸ hok)
      (resolve_refersIn hp hok h d r) (p.resolve d r).2

/-- **A loaded program refers to its table only**, whether loading fails or not. -/
theorem load_refersIn (report : Report) (lib : Library) (entry : Entry) :
    let p := (load {} report lib entry).program
    p.RefersIn (· ∈ p.table.entries) := by
  have hempty : ∀ ok : DeclId → Prop, RefersIn {} ok := fun ok d hd => by simp [all] at hd
  unfold load declareAll
  dsimp only
  split
  · exact hempty _
  · generalize (gather _ lib entry).2 = pool
    have htidy := Drafting.forms_tidy pool (d := { program := {} }) tidy_empty
    have hforms : ∀ ok, (Drafting.forms { program := {} } pool).1.program.RefersIn ok :=
      fun ok => Drafting.forms_refersIn pool (hempty ok)
    split
    · exact hforms _
    · refine resolveAll_refersIn _ htidy (fun d hd => ?_) (hforms _) _
      have htable := fun r => (resolveAll_alike
        (Drafting.forms { program := {} } pool).1.added.reverse htidy r).2
      show d ∈ (resolveAll _ _ _).1.table.entries
      rw [htable]
      exact hd

end Program

end HaloScript
