/-
# What becomes of a call that is tried

Macro expansion and loop unrolling try to replace calls.  A call that cannot be replaced is set
aside: it stays where it is, and nobody tries it again.  Either there is a complaint about it, or it
fails silently, which takes a budget whose end has been reported before.

What a step tries and what it may say is collected in its `Grounds`.  `Grounds.Try` is what can
become of one call, `Grounds.Outcome` what can become of a value that is visited, and
`Hooks.Follows` says that the hooks of a step do nothing else.

All complaints are errors.  So as long as no error has been reported nothing has been set aside
(`Env.Clear`), and a value that has been visited is no call of the kind that is tried
(`Grounds.Outcome.clear`).
-/
import HaloScript.Proofs.Lowering.Env
import HaloScript.Proofs.Walk.Enclosed

namespace HaloScript

open List

/-! ## 1. Grounds -/

def Value.head? : Value → Option Head
  | .leaf _ _ => none
  | .call _ h _ => some h

/-- What a step tries to replace, and what it says when it fails. -/
structure Grounds where
  /-- The calls that are tried. -/
  tries : Head → Bool
  /-- What can be said, with this limit, about a call with so many arguments. -/
  complaint : Int64 → Head → Nat → Message → Prop
  /-- Whether the call fails silently once the budget is exhausted. -/
  quiet : Head → Nat → Prop

def Head.exceeds (limit : Int64) (h : Head) : Message :=
  ⟨.error, Macros.limitExceeded limit, h.span, true⟩

namespace Grounds

def triesValue (g : Grounds) (v : Value) : Bool := v.head?.any g.tries

/-- The limit has been reported. -/
def Reported (limit : Int64) (told : List Message) : Prop :=
  ∃ msg ∈ told, msg.content = Macros.limitExceeded limit

/-- Blocks are not tried. -/
def SparesBlocks (g : Grounds) : Prop := ∀ h, h.isCallOf "begin" = true → g.tries h = false

/-- Every complaint is an error. -/
def Errs (g : Grounds) : Prop := ∀ limit h n msg, g.complaint limit h n msg → msg.level = .error

end Grounds

/-! ## 2. What can become of a call -/

/-- The messages `ms` have been added.  No call has been set aside, and if the budget has been
exhausted, that has been said. -/
structure Env.Adds (e : Env) (ms : List Message) (e' : Env) : Prop where
  messages : e'.report.messages.toList = e.report.messages.toList ++ ms
  marks : e'.marks = e.marks
  limit : e'.budget.limit = e.budget.limit
  exhausted : e'.budget.exhausted = true →
    e.budget.exhausted = true ∨ Grounds.Reported e.budget.limit ms

namespace Env.Adds

variable {e e' e'' : Env} {ms ms' : List Message}

theorem refl (e : Env) : e.Adds [] e := ⟨(append_nil _).symm, rfl, rfl, .inl⟩

theorem trans (h : e.Adds ms e') (h' : e'.Adds ms' e'') : e.Adds (ms ++ ms') e'' where
  messages := by rw [h'.messages, h.messages, append_assoc]
  marks := h'.marks.trans h.marks
  limit := h'.limit.trans h.limit
  exhausted hx := by
    rcases h'.exhausted hx with hx | ⟨msg, hmsg, hcontent⟩
    · refine (h.exhausted hx).imp_right fun ⟨msg, hmsg, hcontent⟩ => ?_
      exact ⟨msg, mem_append_left _ hmsg, hcontent⟩
    · exact .inr ⟨msg, mem_append_right _ hmsg, h.limit ▸ hcontent⟩

theorem tellNode (e : Env) (level : Level) (span : Option Span) (content : Text) :
    e.Adds [⟨level, content, span, true⟩] (e.tellNode level span content) where
  messages := Array.toList_push
  marks := rfl
  limit := rfl
  exhausted := .inl

theorem exhausted_of_nil (h : e.Adds [] e') (hx : e'.budget.exhausted = true) :
    e.budget.exhausted = true :=
  (h.exhausted hx).resolve_right fun ⟨_, hmsg, _⟩ => not_mem_nil hmsg

theorem isMarked_eq (h : e.Adds ms e') (i : NodeId) : e'.isMarked i = e.isMarked i := by
  rw [Env.isMarked, h.marks, Env.isMarked]

theorem failed_iff (h : e.Adds ms e') :
    e'.Failed ↔ e.Failed ∨ ∃ msg ∈ ms, msg.level = .error := by
  simp only [Failed, Report.hasErrors, ← Array.any_toList, h.messages, any_append,
    Bool.or_eq_true, any_eq_true, beq_iff_eq]

theorem clear (h : e.Adds [] e') (he : e.Clear) : e'.Clear where
  marks i := (h.isMarked_eq i).trans (he.marks i)
  budget := by
    rw [Bool.eq_false_iff]
    intro hx
    exact absurd (he.budget.symm.trans (h.exhausted_of_nil hx)) Bool.false_ne_true

end Env.Adds

/-- Spending succeeds, or it fails and that is said, unless it has been said before. -/
theorem Env.spend_adds (e : Env) (n : Int64) (h : Head) :
    ((e.spend n h.span).1 = true ∧ e.Adds [] (e.spend n h.span).2) ∨
    ((e.spend n h.span).1 = false ∧ e.budget.exhausted = true ∧
      e.Adds [] (e.spend n h.span).2) ∨
    ((e.spend n h.span).1 = false ∧
      e.Adds [h.exceeds e.budget.limit] (e.spend n h.span).2) := by
  obtain ⟨hx, heq⟩ | ⟨-, -, heq⟩ | ⟨-, -, heq⟩ := e.spend_cases n h.span
  · rw [heq]
    exact .inr (.inl ⟨rfl, hx, .refl e⟩)
  · rw [heq]
    exact .inl ⟨rfl, (append_nil _).symm, rfl, rfl, .inl⟩
  · rw [heq]
    refine .inr (.inr ⟨rfl, Array.toList_push, rfl, rfl, fun _ => .inr ?_⟩)
    exact ⟨_, mem_singleton.mpr rfl, rfl⟩

namespace Grounds

variable {h : Head}

/-- What is said when a call fails: one message, or nothing if the budget was exhausted before. -/
def Fails (g : Grounds) (e : Env) (h : Head) (n : Nat) (ms : List Message) : Prop :=
  (∃ msg, ms = [msg] ∧ g.complaint e.budget.limit h n msg) ∨
    (ms = [] ∧ g.quiet h n ∧ e.budget.exhausted = true)

/-- What can become of a call with `n` arguments: the values it is to be replaced by, if any, and
the state. -/
inductive Try (g : Grounds) (h : Head) (n : Nat) (e : Env) : Option (List Value) → Env → Prop
  | other (hno : g.tries h = false) : Try g h n e none e
  | aside (htries : g.tries h = true) (hmark : e.isMarked h.id = true) : Try g h n e none e
  | refused {ms : List Message} {e' : Env} (htries : g.tries h = true)
      (hmark : e.isMarked h.id = false) (hadds : e.Adds ms e') (hfails : g.Fails e h n ms) :
      Try g h n e none (e'.mark h.id)
  | replaced {vs : List Value} {e' : Env} (hmark : e.isMarked h.id = false)
      (hadds : e.Adds [] e') : Try g h n e (some vs) e'

/-- What can become of a value that is visited: the answer and the state. -/
inductive Outcome (g : Grounds) (e : Env) : Value → Env → Prop
  | settled {v : Value} {e' : Env} (hadds : e.Adds [] e')
      (haside : ∀ h, v.head? = some h → g.tries h = true → e.isMarked h.id = true) :
      Outcome g e v e'
  | refused {t : Tag} {h : Head} {args : List Value} {ms : List Message} {e' : Env}
      (htries : g.tries h = true) (hmark : e.isMarked h.id = false) (hadds : e.Adds ms e')
      (hfails : g.Fails e h args.length ms) : Outcome g e (.call t h args) (e'.mark h.id)

variable {g : Grounds} {e e' e'' : Env}

theorem Fails.of_adds {n : Nat} {ms : List Message} (hfails : g.Fails e' h n ms)
    (hadds : e.Adds [] e') : g.Fails e h n ms := by
  rcases hfails with ⟨msg, rfl, hcomplaint⟩ | ⟨rfl, hquiet, hx⟩
  · exact .inl ⟨msg, rfl, hadds.limit ▸ hcomplaint⟩
  · exact .inr ⟨rfl, hquiet, hadds.exhausted_of_nil hx⟩

theorem Outcome.of_adds {v : Value} (h : g.Outcome e' v e'') (hadds : e.Adds [] e') :
    g.Outcome e v e'' := by
  cases h with
  | settled hadds' haside =>
    refine .settled (hadds.trans hadds') fun h hh htries => ?_
    rw [← hadds.isMarked_eq]
    exact haside h hh htries
  | refused htries hmark hadds' hfails =>
    refine .refused htries ?_ (hadds.trans hadds') (hfails.of_adds hadds)
    rw [← hadds.isMarked_eq]
    exact hmark

/-- A call that stays. -/
theorem Try.outcome {t : Tag} {args : List Value} (ht : g.Try h args.length e none e') :
    g.Outcome e (.call t h args) e' := by
  cases ht with
  | other hno =>
    refine .settled (.refl e) fun h' hh htries => ?_
    obtain rfl := Option.some.inj hh
    rw [hno] at htries
    cases htries
  | aside htries hmark =>
    refine .settled (.refl e) fun h' hh _ => ?_
    obtain rfl := Option.some.inj hh
    exact hmark
  | refused htries hmark hadds hfails => exact .refused htries hmark hadds hfails

theorem Try.adds {n : Nat} {vs : List Value} (ht : g.Try h n e (some vs) e') : e.Adds [] e' := by
  cases ht with
  | replaced hmark hadds => exact hadds

theorem Try.eq_of_isMarked {n : Nat} {r : Option (List Value)} (ht : g.Try h n e r e')
    (hmark : e.isMarked h.id = true) : r = none ∧ e' = e := by
  cases ht with
  | other | aside => exact ⟨rfl, rfl⟩
  | refused _ hnot => exact absurd (hmark.symm.trans hnot) Bool.false_ne_true.symm
  | replaced hnot => exact absurd (hmark.symm.trans hnot) Bool.false_ne_true.symm

end Grounds

/-- Hooks that replace calls or set them aside on some grounds, when they see such scripts. -/
structure Hooks.Follows (hooks : Hooks Env) (g : Grounds)
    (shown : (ScriptId → Option Script) → Prop) : Prop where
  onGlobal : ∀ view a e, (hooks.onGlobal view a e).2 = e
  onScript : ∀ a e, (hooks.onScript a e).2 = e
  onCall : ∀ h e, hooks.onCall h e = e
  onValue : ∀ view v e, shown view.script? →
    g.Outcome e (hooks.onValue view v e).1 (hooks.onValue view v e).2
  /-- A call that has been set aside is answered as it is. -/
  aside : ∀ view t h args e, shown view.script? → e.isMarked h.id = true →
    hooks.onValue view (.call t h args) e = (.call t h args, e)
  /-- An element is set aside, or nothing is said. -/
  onElement : ∀ view place v e, shown view.script? →
    e.Adds [] (hooks.onElement view place v e).2 ∨ ∃ t h args ms e',
      hooks.onElement view place v e = (.keep (.call t h args) [], e'.mark h.id) ∧
        g.tries h = true ∧ e.isMarked h.id = false ∧ e.Adds ms e' ∧ g.Fails e h args.length ms

/-! ## 3. Calls that are gone -/

namespace Grounds

variable {g : Grounds} {e e' : Env}

theorem Fails.failed (hg : g.Errs) {h : Head} {n : Nat} {ms : List Message}
    (hfails : g.Fails e h n ms) (hadds : e.Adds ms e') (he : e.Clear) : e'.Failed := by
  rcases hfails with ⟨msg, rfl, hcomplaint⟩ | ⟨-, -, hx⟩
  · exact hadds.failed_iff.mpr (.inr ⟨msg, mem_singleton_self msg, hg _ _ _ _ hcomplaint⟩)
  · exact absurd (he.budget.symm.trans hx) Bool.false_ne_true

theorem Outcome.failed {v : Value} (h : g.Outcome e v e') (he : e.Failed) : e'.Failed := by
  cases h with
  | settled hadds => exact hadds.failed_iff.mpr (.inl he)
  | refused htries hmark hadds => exact hadds.failed_iff.mpr (.inl he)

/-- **Unless there is an error a value that has been visited is no call that is tried.** -/
theorem Outcome.clear (hg : g.Errs) {v : Value} (h : g.Outcome e v e') (he : e.Clear)
    (hok : ¬ e'.Failed) : e'.Clear ∧ g.triesValue v = false := by
  cases h with
  | settled hadds haside =>
    refine ⟨hadds.clear he, Bool.eq_false_iff.mpr fun htries => ?_⟩
    obtain ⟨head, hhead, htries⟩ := (Option.any_eq_true _ _).mp htries
    exact absurd ((he.marks _).symm.trans (haside head hhead htries)) Bool.false_ne_true
  | refused htries hmark hadds hfails => exact absurd (hfails.failed hg hadds he) hok

end Grounds

namespace Hooks.Follows

variable {hooks : Hooks Env} {g : Grounds} {shown : (ScriptId → Option Script) → Prop}
  {view : View} {e : Env}

theorem element_failed (hf : hooks.Follows g shown) (hview : shown view.script?) (place : Place)
    (v : Value) (he : e.Failed) : (hooks.onElement view place v e).2.Failed := by
  obtain hadds | ⟨t, h, args, ms, e', heq, -, -, hadds, -⟩ := hf.onElement view place v e hview
  · exact hadds.failed_iff.mpr (.inl he)
  · rw [heq]
    exact hadds.failed_iff.mpr (.inl he)

theorem element_clear (hf : hooks.Follows g shown) (hg : g.Errs) (hview : shown view.script?)
    (place : Place) (v : Value) (he : e.Clear)
    (hok : ¬ (hooks.onElement view place v e).2.Failed) :
    (hooks.onElement view place v e).2.Clear := by
  obtain hadds | ⟨t, h, args, ms, e', heq, -, -, hadds, hfails⟩ :=
    hf.onElement view place v e hview
  · exact hadds.clear he
  · rw [heq] at hok
    exact absurd (hfails.failed hg hadds he) hok

end Hooks.Follows

end HaloScript
