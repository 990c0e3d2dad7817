/-
# Hooks

What is done at each station of a walk.  A hook sees the station and the state it carries
along, and answers with an edit.

A walk visits what its edits put in, so it ends only if they run dry.  Hooks are edits with a
`potential`, a number drawn from their state, and an edit either lowers it or makes the program
no larger.
-/
import HaloScript.Walk.Frame

namespace HaloScript

/-- Where an element of a list stands. -/
structure Place where
  owner : Owner
  /-- Another element stands in front of it. -/
  hasPrevious : Bool
  /-- Another element follows it. -/
  hasNext : Bool

/-- What becomes of an element of a list. -/
inductive Offer where
  /-- It stays, as it is given here, and the values follow it. -/
  | keep (value : Value) (inserted : List Value)
  /-- It goes, and the values take its place. -/
  | drop (inserted : List Value)

/-- The size of what an offer leaves, a dropped element counting as one. -/
def Offer.size : Offer → Nat
  | .keep v inserted => v.nodeCount + Value.nodeCountAll inserted
  | .drop inserted => 1 + Value.nodeCountAll inserted

/-- What becomes of a global. -/
structure Verdict where
  /-- The global leaves the table when the walk is over; its value is not walked. -/
  remove : Bool
  isConst : Bool

/-- The edits of a walk. -/
structure Edits (σ : Type) where
  /-- A global, before its value. -/
  onGlobal : View → Global → σ → Verdict × σ
  /-- A script, before its body; the answer says whether it leaves the table, unwalked. -/
  onScript : Script → σ → Bool × σ
  /-- An element of a body or of an argument list, before its value.  What is inserted is
  offered next. -/
  onElement : View → Place → Value → σ → Offer × σ
  /-- A value; its number must be kept, its content is then walked. -/
  onValue : View → Value → σ → Value × σ
  /-- A call, before its function and its arguments. -/
  onCall : Head → σ → σ

/-- Edits that run dry. -/
structure Hooks (σ : Type) extends Edits σ where
  /-- How much the hooks may still add. -/
  potential : σ → Nat
  onGlobal_le : ∀ view g s, potential (onGlobal view g s).2 ≤ potential s
  onScript_le : ∀ script s, potential (onScript script s).2 ≤ potential s
  onCall_le : ∀ head s, potential (onCall head s) ≤ potential s
  onElement_lt : ∀ view place v s,
    potential (onElement view place v s).2 < potential s ∨
      (potential (onElement view place v s).2 ≤ potential s ∧
        (onElement view place v s).1.size ≤ v.nodeCount)
  onValue_lt : ∀ view v s,
    potential (onValue view v s).2 < potential s ∨
      (potential (onValue view v s).2 ≤ potential s ∧
        (onValue view v s).1.nodeCount ≤ v.nodeCount)

instance {σ : Type} : Coe (Hooks σ) (Edits σ) := ⟨Hooks.toEdits⟩

end HaloScript
