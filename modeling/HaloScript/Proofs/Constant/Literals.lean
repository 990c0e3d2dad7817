/-
# Writing a constant down

A constant can be replaced by its literal, which is a word that is read again when it is used.
Numbers and truth values come back as they were (`Const.Written.toReal?_eq`,
`Const.Written.toBool?_eq`), because a real is written so that it reads back exactly.
-/
import HaloScript.Constant.Builtin
import HaloScript.Proofs.Single.Decimal

namespace HaloScript

open HaloScript.Const Single

/-- Reals that are read are representable. -/
theorem Single.valid_read? {t : Text} {x : Single} (h : read? t = some x) : x.Valid := by
  unfold read? at h
  dsimp only at h
  split at h
  · rw [← Option.some.inj h]
    exact valid_infinite _
  · split at h
    · rw [← Option.some.inj h]
      exact valid_nan
    · split at h
      · next s u hread =>
        obtain ⟨d, -, hd⟩ := Option.map_eq_some_iff.mp hread
        have hvalid : d.toSingle.Valid := by simp only [Decimal.toSingle, valid_ofRatio]
        rwa [hd, Option.some.inj h] at hvalid
      · cases h

namespace Const

/-- What evaluation can compute: words, truth values and representable reals. -/
def Computed : Const → Prop
  | .atom _ | .bool _ => True
  | .real x => x.Valid
  | .void | .long _ | .short _ => False

/-- The second constant is the first, or the word that is the first one's literal. -/
structure Written (c c' : Const) : Prop where
  computed : c.Computed
  same_or_literal : c' = c ∨ ∃ t, c.literal? = some t ∧ c' = .atom t

variable {c c' : Const}

theorem Computed.written (h : c.Computed) : c.Written c := ⟨h, .inl rfl⟩

theorem Computed.valid (h : c.Computed) {x : Single} (hx : c.toReal? = some x) : x.Valid := by
  cases c with
  | void => exact h.elim
  | long => exact h.elim
  | short => exact h.elim
  | bool => cases hx
  | real y =>
    obtain rfl : y = x := Option.some.inj hx
    exact h
  | atom =>
    rw [toReal?, Reading.real?] at hx
    split at hx
    · exact valid_read? hx
    · cases hx

/-- A number is zero exactly if the word that is its literal reads as false. -/
theorem toBool?_render {x : Single} (hx : x.Valid) (hfinite : x.isFinite = true) :
    (atom x.render).toBool? = some !x.isZero := by
  have hreal := real?_render hx hfinite
  cases x with
  | nan => cases hfinite
  | infinite => cases hfinite
  | finite s u =>
    simp only [toBool?, hreal]
    cases hlong : Reading.long? (finite s u).render with
    | none => rfl
    | some =>
      obtain ⟨i, hi, hrange⟩ := Option.bind_eq_some_iff.mp hlong
      split at hrange
      · next hbounds =>
        obtain rfl := Option.some.inj hrange
        have hzero := int?_render hx.1 hi
        have hint : (Int64.ofInt i).toInt = i :=
          Int64.toInt_ofInt_of_le hbounds.1 (Int.lt_of_le_of_lt hbounds.2 (by decide))
        have hofInt : Int64.ofInt i = 0 ↔ u = 0 := by
          rw [← hzero, ← Int64.toInt_inj, hint]
          exact Iff.rfl
        simp only [isZero_finite, bne, beq_eq_decide, hofInt]
      · cases hrange

namespace Written

/-- Every constant that is computed and has a literal reads like its literal, if truth values and
numbers do. -/
theorem read_eq {α : Type} {read : Const → Option α} (h : c.Written c')
    (hbool : ∀ b t, (bool b).literal? = some t → read (atom t) = read (bool b))
    (hreal : ∀ x : Single, x.Valid → x.isFinite = true → read (atom x.render) = read (real x)) :
    read c' = read c := by
  obtain rfl | ⟨t, ht, rfl⟩ := h.same_or_literal
  · rfl
  · have hc := h.computed
    cases c with
    | void => exact hc.elim
    | long => exact hc.elim
    | short => exact hc.elim
    | atom => rw [Option.some.inj ht]
    | bool b => exact hbool b t ht
    | real x =>
      rw [literal?] at ht
      split at ht
      · next hfinite =>
        obtain rfl := Option.some.inj ht
        exact hreal x hc hfinite
      · cases ht

theorem toReal?_eq (h : c.Written c') : c'.toReal? = c.toReal? := by
  refine h.read_eq (fun b t ht => ?_) fun x hx hfinite => real?_render hx hfinite
  obtain rfl := Option.some.inj ht
  cases b <;> decide

theorem toBool?_eq (h : c.Written c') : c'.toBool? = c.toBool? := by
  refine h.read_eq (fun b t ht => ?_) fun x hx hfinite => toBool?_render hx hfinite
  obtain rfl := Option.some.inj ht
  cases b <;> decide

theorem literal?_eq (h : c.Written c') : c'.literal? = c.literal? := by
  obtain rfl | ⟨t, ht, rfl⟩ := h.same_or_literal
  · rfl
  · exact ht.symm

end Written

/-- A result, if there is one, is that of the first evaluation, or its literal. -/
def Reflects (x x' : Option Const) : Prop := ∀ c', x' = some c' → ∃ c, x = some c ∧ c.Written c'

namespace Reflects

variable {x x' : Option Const}

theorem none (x : Option Const) : Reflects x none := fun _ h => nomatch h

theorem same {c : Const} (h : c.Computed) : Reflects (some c) (some c) := fun c' hc' => by
  obtain rfl := Option.some.inj hc'
  exact ⟨c, rfl, h.written⟩

end Reflects

end Const

end HaloScript
