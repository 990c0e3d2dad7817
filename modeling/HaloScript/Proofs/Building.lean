/-
# What building makes of a form

Building is a computation that may stop with a fault; this module opens it.
-/
import HaloScript.Build.Declare

namespace HaloScript

namespace Build

variable {α β : Type} {n n' : NodeId} {f : α → Build β} {x : Build α} {span : Span}

/-! ## 1. Computations that may stop -/

@[simp] theorem pure_run (a : α) (n : NodeId) : (pure a : Build α) n = .ok (a, n) := rfl

@[simp] theorem fail_run (f : Fault) (span : Span) (n : NodeId) :
    (fail f span : Build α) n = .error (f.on span) := rfl

@[simp] theorem fresh_run (n : NodeId) : fresh n = .ok (n, n + 1) := rfl

theorem bind_run_ok {a : α} (hx : x n = .ok (a, n')) : (x >>= f) n = f a n' := by
  simp only [bind, StateT.bind, hx, Except.bind]

theorem bind_run_error {n : NodeId} {e : SourceError} (hx : x n = .error e) :
    (x >>= f) n = .error e := by
  simp only [bind, StateT.bind, hx, Except.bind]

/-- A sequence gives a result exactly if both parts do. -/
theorem bind_eq_ok {b : β} :
    (x >>= f) n = .ok (b, n') ↔ ∃ a m, x n = .ok (a, m) ∧ f a m = .ok (b, n') := by
  constructor
  · intro h
    cases hx : x n with
    | error => rw [bind_run_error hx] at h; exact absurd h (by simp)
    | ok r => exact ⟨r.1, r.2, rfl, (bind_run_ok hx).symm.trans h⟩
  · rintro ⟨a, m, hx, hf⟩
    rw [bind_run_ok hx, hf]

theorem pure_eq_ok {a b : α} : (pure a : Build α) n = .ok (b, n') ↔ a = b ∧ n = n' := by
  simp

theorem fail_ne_ok {f : Fault} {a : α} : (fail f span : Build α) n ≠ .ok (a, n') := by
  simp

@[simp] theorem pure_bind_eq (a : α) (f : α → Build β) : (pure a >>= f) = f a := rfl

@[simp] theorem fail_bind_eq (f : Fault) (span : Span) (g : α → Build β) :
    (fail f span >>= g) = fail f span := rfl

/-- The return type, where the type of the script asks for one, and the rest. -/
def nextReturnType (kind : ScriptKind) (whole : Span) (items : List Form) :
    Build (Text × List Form) :=
  if kind.hasReturnType then nextAtom .returnType whole items >>= fun a => pure (a.1.1, a.2)
  else pure ([], items)

/-- The parts of a script in order, each read from what the ones before it leave. -/
theorem script_eq (id : Text → ScriptId) (span : Span) (items : List Form) :
    script id span items =
      if items.length < 3 then fail .shortScript span
      else nextAtom .scriptType span items >>= fun a =>
        if ScriptKind.ofName a.1.1 = .invalid then
          fail (.unknownScriptType a.1.1) (items.headD default).span
        else nextReturnType (.ofName a.1.1) span a.2 >>= fun r =>
          nextAtom .scriptName span r.2 >>= fun b =>
            nextParams (.ofName a.1.1) span b.2 >>= fun q =>
              body q.2 >>= fun vs =>
                pure { id := id b.1.1, span := some span, nameQuoted := b.1.2,
                       kind := .ofName a.1.1, returnType := r.1, params := q.1, body := vs } := by
  unfold script nextReturnType
  split
  · rfl
  · refine congrArg (nextAtom .scriptType span items >>= ·) (funext fun a => ?_)
    dsimp only
    split
    · rfl
    · split
      · exact (bind_assoc _ _ _).symm
      · rfl

/-! ## 2. References -/

theorem global_id {id : Text → GlobalId} {isConst : Bool} {items : List Form} {g : Global}
    (h : global id isConst span items n = .ok (g, n')) : ∃ name, g.id = id name := by
  unfold global at h
  split at h
  · simp only [bind_eq_ok, pure_eq_ok] at h
    obtain ⟨-, -, -, name, -, -, v, -, -, rfl, -⟩ := h
    exact ⟨name.1, rfl⟩
  · exact absurd h fail_ne_ok

theorem script_id {id : Text → ScriptId} {items : List Form} {s : Script}
    (h : script id span items n = .ok (s, n')) : ∃ name, s.id = id name := by
  rw [script_eq] at h
  split at h
  · exact absurd h fail_ne_ok
  · obtain ⟨word, m, -, h⟩ := bind_eq_ok.mp h
    split at h
    · exact absurd h fail_ne_ok
    · simp only [bind_eq_ok, pure_eq_ok] at h
      obtain ⟨-, -, -, name, -, -, -, -, -, -, -, -, rfl, -⟩ := h
      exact ⟨name.1.1, rfl⟩

/-- A new declaration has the next free serial number. -/
theorem declaration_id {p : Program} {f : Form} {new : Declaration}
    (h : declaration p f n = .ok (some new, n')) :
    (∃ g name, new = .global g ∧ g.id = p.newGlobalId name) ∨
      ∃ s name, new = .script s ∧ s.id = p.newScriptId name := by
  unfold declaration at h
  cases hitems : f.items with
  | nil =>
    rw [hitems] at h
    exact absurd h fail_ne_ok
  | cons =>
    rw [hitems] at h
    obtain ⟨word, m, -, h⟩ := bind_eq_ok.mp h
    dsimp only at h
    split at h
    · obtain ⟨g, k, hg, h⟩ := bind_eq_ok.mp h
      obtain ⟨name, hid⟩ := global_id hg
      exact .inl ⟨g, name, by simpa using (pure_eq_ok.mp h).1.symm, hid⟩
    · split at h
      · obtain ⟨g, k, hg, h⟩ := bind_eq_ok.mp h
        obtain ⟨name, hid⟩ := global_id hg
        exact .inl ⟨g, name, by simpa using (pure_eq_ok.mp h).1.symm, hid⟩
      · split at h
        · obtain ⟨s, k, hs, h⟩ := bind_eq_ok.mp h
          obtain ⟨name, hid⟩ := script_id hs
          exact .inr ⟨s, name, by simpa using (pure_eq_ok.mp h).1.symm, hid⟩
        · split at h
          · exact absurd (pure_eq_ok.mp h).1 (by simp)
          · exact absurd h fail_ne_ok

end Build

end HaloScript
