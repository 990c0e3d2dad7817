/-
# Built-in functions are strict

Not every argument of a built-in function is evaluated, but every argument that is evaluated is
needed: if it has no value, the call has none.  So a built-in function at given arguments is a
decision tree that asks for the value of one argument after another and gives up at the first
without a value (`Decision`).  The tree does not depend on how arguments are evaluated
(`Builtin.apply_strict`), which is what lets two ways of evaluation be compared.

No tree can tell a constant from its literal, with one exception (`Builtin.apply_reflects`): two
words are equal if they are spelled the same, whatever numbers they stand for.
-/
import HaloScript.Proofs.Constant.Literals
import Mathlib.Data.List.Forall2
import Mathlib.Tactic.Choose

namespace HaloScript

open HaloScript.Const Single

/-! ## 1. Decision trees -/

/-- A tree of questions for constants.  A question without an answer ends it without a result. -/
inductive Decision (ι : Type) where
  | done (r : Option Const)
  | ask (i : ι) (next : Const → Decision ι)

namespace Decision

variable {ι : Type} {m : Type → Type} [Monad m]

def run (x : ι → m (Option Const)) : Decision ι → m (Option Const)
  | .done r => return r
  | .ask i next => do
    match ← x i with
    | none => return none
    | some c => (next c).run x

def after (x : ι → m (Option Const)) (next : Const → Decision ι) : Option Const → m (Option Const)
  | none => return none
  | some c => (next c).run x

theorem run_ask (x : ι → m (Option Const)) (i : ι) (next : Const → Decision ι) :
    (ask i next).run x = x i >>= after x next := by
  rw [run]
  exact congrArg _ (funext fun r => by cases r <;> rfl)

/-- One question, whose answer is the result. -/
def single (i : ι) : Decision ι := .ask i fun c => .done (some c)

theorem run_single [LawfulMonad m] (i : ι) (x : ι → m (Option Const)) : (single i).run x = x i := by
  have hafter : after x (fun c => .done (some c)) = pure := by
    funext r
    cases r <;> rfl
  rw [single, run_ask, hafter, bind_pure]

end Decision

/-- A condition that holds of all constants that built-in functions make. -/
structure Const.Made (ok : Const → Prop) : Prop where
  real : ∀ x, ok (.real x)
  bool : ∀ b, ok (.bool b)

namespace Decision

variable {ι : Type}

/-- The result of a tree meets a condition if the answers do. -/
def Grounded (ok : Const → Prop) : Decision ι → Prop
  | .done r => ∀ c ∈ r, ok c
  | .ask _ next => ∀ c, ok c → (next c).Grounded ok

/-- Two trees whose results are the same up to literals, if the answers are. -/
inductive Blind : Decision ι → Decision ι → Prop
  | done {r r' : Option Const} (h : Reflects r r') : Blind (.done r) (.done r')
  | ask (i : ι) {next next' : Const → Decision ι}
    (h : ∀ c c', c.Written c' → Blind (next c) (next' c')) : Blind (.ask i next) (.ask i next')

theorem Blind.reflects {d d' : Decision ι} (h : d.Blind d') {x x' : ι → Option Const}
    (hx : ∀ i, Reflects (x i) (x' i)) : Reflects (d.run (m := Id) x) (d'.run (m := Id) x') := by
  induction h with
  | done h => exact h
  | @ask i next next' _ ih =>
    have hi := hx i
    rw [run_ask, run_ask]
    show Reflects (after (m := Id) x next (x i)) (after (m := Id) x' next' (x' i))
    cases hc' : x' i with
    | none => exact .none _
    | some c' =>
      obtain ⟨c, hc, hwritten⟩ := hi c' hc'
      rw [hc]
      exact ih c c' hwritten

end Decision

/-- The function, which works in any monad, is the run of a decision tree that has no results but
answers, reals and truth values.  Under the condition `P` the tree cannot tell a constant from its
literal. -/
def Strict (P : Prop) {ι : Type}
    (f : ∀ (m : Type → Type) [Monad m], (ι → m (Option Const)) → m (Option Const)) : Prop :=
  ∃ d : Decision ι, (∀ (m : Type → Type) [Monad m] [LawfulMonad m] (x : ι → m (Option Const)),
    f m x = d.run x) ∧ (∀ ok, Made ok → d.Grounded ok) ∧ (P → d.Blind d)

namespace Strict

variable {ι : Type} {P P' : Prop}
  {f g : ∀ (m : Type → Type) [Monad m], (ι → m (Option Const)) → m (Option Const)}

theorem mono (hf : Strict P f) (h : P' → P) : Strict P' f := by
  obtain ⟨d, hd, hok, hblind⟩ := hf
  exact ⟨d, hd, hok, fun hP => hblind (h hP)⟩

theorem congr (hg : Strict P g)
    (h : ∀ (m : Type → Type) [Monad m] [LawfulMonad m] (x : ι → m (Option Const)),
      f m x = g m x) : Strict P f := by
  obtain ⟨d, hd, hok⟩ := hg
  exact ⟨d, fun m _ _ x => (h m x).trans (hd m x), hok⟩

theorem nothing : Strict P fun m _ (_ : ι → m (Option Const)) => pure none :=
  ⟨.done none, fun _ _ _ _ => rfl, fun _ _ _ h => (nomatch h),
    fun _ => .done (.none _)⟩

theorem made {c : Const} (hc : ∀ ok, Made ok → ok c) (hcomputed : P → c.Computed) :
    Strict P fun m _ (_ : ι → m (Option Const)) => pure (some c) :=
  ⟨.done (some c), fun _ _ _ _ => rfl, fun ok h _ hr => Option.some.inj hr ▸ hc ok h,
    fun hP => .done (.same (hcomputed hP))⟩

theorem bool (b : Bool) : Strict P fun m _ (_ : ι → m (Option Const)) => pure (some (.bool b)) :=
  made (fun _ h => h.bool b) fun _ => trivial

theorem single (i : ι) : Strict P fun m _ (x : ι → m (Option Const)) => x i := by
  refine ⟨.single i, fun _ _ _ x => (Decision.run_single i x).symm,
    fun _ _ _ h _ hr => Option.some.inj hr ▸ h, fun _ => .ask i fun c c' h => .done fun b hb => ?_⟩
  exact ⟨c, rfl, Option.some.inj hb ▸ h⟩

/-- What follows a question whose answer was read in some way. -/
abbrev Continuation (ι β : Type) := ∀ (m : Type → Type) [Monad m],
  (ι → m (Option Const)) → Option β → m (Option Const)

/-- What cannot be read is no answer. -/
def Continuation.GivesUp {β : Type} (k : Continuation ι β) : Prop :=
  ∀ (m : Type → Type) [Monad m] (x : ι → m (Option Const)), k m x none = pure none

/-- A question whose answer is read. -/
theorem read {β : Type} (reading : Const → Option β) (valid : β → Prop) (i : ι)
    {k : Continuation ι β} (hnone : k.GivesUp)
    (hf : ∀ (m : Type → Type) [Monad m] [LawfulMonad m] (x : ι → m (Option Const)),
      f m x = x i >>= fun r => k m x (r.bind reading))
    (hread : P → ∀ c c', c.Written c' → reading c' = reading c ∧ ∀ b ∈ reading c, valid b)
    (hsome : ∀ b, Strict (P ∧ valid b) fun m _ x => k m x (some b)) : Strict P f := by
  choose d hd hok hblind using hsome
  refine ⟨.ask i fun c => (reading c).elim (.done none) d, fun m _ _ x => ?_, fun ok h c _ => ?_,
    fun hP => .ask i fun c c' h => ?_⟩
  · rw [Decision.run_ask, hf]
    refine bind_congr fun r => ?_
    cases r with
    | none => exact hnone m x
    | some c =>
      show k m x (reading c) = ((reading c).elim (.done none) d).run x
      cases reading c with
      | none => exact hnone m x
      | some b => exact hd b m x
  · dsimp only
    cases reading c with
    | none => exact fun _ hr => nomatch hr
    | some b => exact hok b ok h
  · obtain ⟨heq, hvalid⟩ := hread hP c c' h
    rw [heq]
    cases hb : reading c with
    | none => exact .done (.none _)
    | some b => exact hblind b ⟨hP, hvalid b hb⟩

/-- A question whose answer is used as it is, so that its literal may make a difference. -/
theorem ask (i : ι)
    {k : Continuation ι Const} (hnone : k.GivesUp)
    (hsome : ∀ c, Strict False fun m _ x => k m x (some c)) :
    Strict False fun m _ x => x i >>= k m x :=
  .read some (fun _ => True) i hnone (fun m _ _ x => bind_congr fun r => by cases r <;> rfl)
    (fun h => h.elim) fun c => (hsome c).mono And.left

theorem readBool (i : ι)
    {k : Continuation ι Bool} (hnone : k.GivesUp)
    (hsome : ∀ b, Strict P fun m _ x => k m x (some b)) :
    Strict P fun m _ x => Builtin.asBool (x i) >>= k m x :=
  .read toBool? (fun _ => True) i hnone (fun m _ _ x => by simp [Builtin.asBool])
    (fun _ c c' h => ⟨h.toBool?_eq, fun _ _ => trivial⟩) fun b => (hsome b).mono And.left

theorem readReal (i : ι)
    {k : Continuation ι Single} (hnone : k.GivesUp)
    (hsome : ∀ y : Single, Strict (P ∧ y.Valid) fun m _ x => k m x (some y)) :
    Strict P fun m _ x => Builtin.asReal (x i) >>= k m x :=
  .read toReal? Single.Valid i hnone (fun m _ _ x => by simp [Builtin.asReal])
    (fun _ c c' h => ⟨h.toReal?_eq, fun _ => h.computed.valid⟩) hsome

end Strict

/-! ## 2. The built-in functions -/

namespace Builtin

variable {ι : Type} {P : Prop}

/-- The two functions that compare constants as they are. -/
def Compares (f : Builtin) : Prop := f = .equal ∨ f = .unequal

instance (f : Builtin) : Decidable f.Compares := inferInstanceAs (Decidable (_ ∨ _))

theorem evalIf_strict (args : List ι) : Strict P fun m _ x => evalIf (args.map (x : ι → m _)) := by
  match args with
  | [] | [_] => exact .nothing
  | condition :: yes :: rest =>
    refine .readBool condition (fun _ _ _ => rfl) fun b => ?_
    match b, rest with
    | true, _ => exact .single yes
    | false, no :: _ => exact .single no
    | false, [] => exact .nothing

theorem evalLogicFrom_strict (decisive : Bool) (args : List ι) :
    Strict P fun m _ x => evalLogicFrom decisive (args.map (x : ι → m _)) := by
  induction args with
  | nil => exact .bool _
  | cons arg rest ih =>
    refine .readBool arg (fun _ _ _ => rfl) fun b => ?_
    by_cases hb : b == decisive
    · exact (Strict.bool _).congr fun _ _ _ _ => if_pos hb
    · exact ih.congr fun _ _ _ _ => if_neg hb

theorem evalLogic_strict (decisive : Bool) (args : List ι) :
    Strict P fun m _ x => evalLogic decisive (args.map (x : ι → m _)) := by
  cases args with
  | nil => exact .nothing
  | cons arg rest => exact evalLogicFrom_strict decisive (arg :: rest)

theorem evalBegin_strict (args : List ι) :
    Strict P fun m _ x => evalBegin (args.map (x : ι → m _)) := by
  induction args with
  | nil => exact .nothing
  | cons arg rest ih =>
    cases rest with
    | nil => exact .single arg
    | cons next rest =>
      -- only whether there is an answer counts
      refine .read (fun _ => some ()) (fun _ => True) arg
        (k := fun m _ x r => r.elim (pure none) fun _ => evalBegin ((next :: rest).map x))
        (fun _ _ _ => rfl) (fun m _ _ x => ?_) (fun _ _ _ _ => ⟨rfl, fun _ _ => trivial⟩)
        fun _ => ih.mono And.left
      exact bind_congr fun r => by cases r <;> rfl

section

variable {op : Single → Single → Single} (hop : ∀ x y, x.Valid → y.Valid → (op x y).Valid)

include hop

theorem evalFoldFrom_strict (args : List ι) (acc : Single) :
    Strict acc.Valid fun m _ x => evalFoldFrom op acc (args.map (x : ι → m _)) := by
  induction args generalizing acc with
  | nil => exact .made (fun _ h => h.real acc) id
  | cons arg rest ih =>
    exact .readReal arg (fun _ _ _ => rfl) fun y => (ih (op acc y)).mono fun h => hop acc y h.1 h.2

theorem evalFold_strict {initial : Single} (hinitial : initial.Valid) (args : List ι) :
    Strict P fun m _ x => evalFold op initial (args.map (x : ι → m _)) := by
  cases args with
  | nil => exact .nothing
  | cons arg rest => exact (evalFoldFrom_strict hop (arg :: rest) initial).mono fun _ => hinitial

theorem evalExtreme_strict (args : List ι) :
    Strict P fun m _ x => evalExtreme op (args.map (x : ι → m _)) := by
  cases args with
  | nil => exact .nothing
  | cons arg rest =>
    exact .readReal arg (fun _ _ _ => rfl) fun y => (evalFoldFrom_strict hop rest y).mono And.right

end

theorem evalPair_strict {op : Single → Single → Const} (hop : ∀ ok, Made ok → ∀ x y, ok (op x y))
    (hcomputed : ∀ x y, (op x y).Computed) (args : List ι) :
    Strict P fun m _ x => evalPair op (args.map (x : ι → m _)) := by
  match args with
  | [] | [_] | _ :: _ :: _ :: _ => exact .nothing
  | [left, right] =>
    refine .readReal left (fun _ _ _ => rfl) fun y => ?_
    exact .readReal right (fun _ _ _ => rfl) fun z =>
      .made (fun ok h => hop ok h y z) fun _ => hcomputed y z

theorem evalEqual_eq (negated : Bool) (x y : Option Const) :
    evalEqual (m := Id) negated [x, y] =
      (x.bind fun a => y.bind fun b => a.equal? b).map fun e => .bool (e != negated) := by
  cases x with
  | none => rfl
  | some => cases y <;> rfl

theorem evalEqual_strict (negated : Bool) (args : List ι) :
    Strict False fun m _ x => evalEqual negated (args.map (x : ι → m _)) := by
  match args with
  | [] | [_] | _ :: _ :: _ :: _ => exact .nothing
  | [left, right] =>
    refine .ask left (fun _ _ _ => rfl) fun a => ?_
    refine .ask right (fun _ _ _ => rfl) fun b => ?_
    cases h : a.equal? b with
    | none => exact Strict.nothing.congr fun _ _ _ _ => by simp [h]
    | some e => exact (Strict.bool (e != negated)).congr fun _ _ _ _ => by simp [h]

/-- **Every built-in function is a decision tree over its arguments.** -/
theorem apply_strict (f : Builtin) (args : List ι) :
    Strict (¬ f.Compares) fun m _ x => f.apply (args.map (x : ι → m _)) := by
  cases f with
  | ifThen => exact evalIf_strict args
  | and => exact evalLogic_strict false args
  | or => exact evalLogic_strict true args
  | begin => exact evalBegin_strict args
  | sum => exact evalFold_strict (fun x y _ _ => valid_add x y) (by simp [zero]) args
  | product => exact evalFold_strict (fun x y _ _ => valid_mul x y) valid_one args
  | least => exact evalExtreme_strict (fun _ _ hx hy => valid_min hx hy) args
  | greatest => exact evalExtreme_strict (fun _ _ hx hy => valid_max hx hy) args
  | difference => exact evalPair_strict (fun _ h _ _ => h.real _) (fun _ _ => valid_add _ _) args
  | quotient => exact evalPair_strict (fun _ h _ _ => h.real _) (fun _ _ => valid_div _ _) args
  | greater | less | atLeast | atMost =>
    exact evalPair_strict (fun _ h _ _ => h.bool _) (fun _ _ => trivial) args
  | equal => exact (evalEqual_strict false args).mono fun h => h (.inl rfl)
  | unequal => exact (evalEqual_strict true args).mono fun h => h (.inr rfl)

/-! ## 3. Literals -/

variable {args args' : List (Option Const)}

/-- If two arguments can be compared in the second list, they can be in the first, with the same
outcome. -/
def SameEquality (args args' : List (Option Const)) : Prop :=
  ∀ x y x' y', args = [x, y] → args' = [x', y'] → ∀ e,
    (x'.bind fun a => y'.bind fun b => a.equal? b) = some e →
    (x.bind fun a => y.bind fun b => a.equal? b) = some e

/-- Equality reflects what it compares if it decides in the same way. -/
theorem evalEqual_reflects (negated : Bool) (h : List.Forall₂ Reflects args args')
    (hsame : SameEquality args args') :
    Reflects (evalEqual (m := Id) negated args) (evalEqual (m := Id) negated args') := by
  match h with
  | .nil => exact .none _
  | .cons _ .nil => exact .none _
  | .cons _ (.cons _ (.cons _ _)) => exact .none _
  | .cons _ (.cons _ .nil) =>
    intro c' hc'
    rw [evalEqual_eq] at hc' ⊢
    obtain ⟨e, he, rfl⟩ := Option.map_eq_some_iff.mp hc'
    rw [hsame _ _ _ _ rfl rfl e he]
    exact ⟨_, rfl, Computed.written trivial⟩

/-- **No built-in function can tell a constant from its literal**, but for those that compare
constants as they are. -/
theorem apply_reflects (f : Builtin) (h : List.Forall₂ Reflects args args')
    (hsame : f.Compares → SameEquality args args') :
    Reflects (f.apply (m := Id) args) (f.apply (m := Id) args') := by
  by_cases hf : f.Compares
  · rcases hf with rfl | rfl
    · exact evalEqual_reflects false h (hsame (.inl rfl))
    · exact evalEqual_reflects true h (hsame (.inr rfl))
  · -- both lists of arguments, as one list of pairs
    obtain ⟨pairs, rfl, rfl⟩ :
        ∃ pairs : List { x : Option Const × Option Const // Reflects x.1 x.2 },
        pairs.map (·.1.1) = args ∧ pairs.map (·.1.2) = args' := by
      clear hsame
      induction h with
      | nil => exact ⟨[], rfl, rfl⟩
      | cons h _ ih =>
        obtain ⟨pairs, rfl, rfl⟩ := ih
        exact ⟨⟨(_, _), h⟩ :: pairs, rfl, rfl⟩
    obtain ⟨d, hd, -, hblind⟩ := f.apply_strict pairs
    have hrun : ∀ x, f.apply (m := Id) (pairs.map x) = d.run (m := Id) x := hd Id
    rw [hrun, hrun]
    exact (hblind hf).reflects fun x => x.2

end Builtin

end HaloScript
