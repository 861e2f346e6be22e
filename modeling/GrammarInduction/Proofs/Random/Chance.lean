import GrammarInduction.Proofs.Attempt
import GrammarInduction.Proofs.Scalar.Value
import GrammarInduction.Random.Draw

/-!
# Events of given probability

An event of probability zero never happens and one of probability one always does, and neither
takes a draw.  Between the two the probability has to have a value to be compared with, which every
number has.

* `LawfulScalar` — what this asks of scalars: rationals and doubles have it;
* `Draw.chance_of_le_zero`, `Draw.chance_of_one_le` — certain events;
* `Draw.chance_ensures` — every event whose probability is a number is decided.
-/

namespace GrammarInduction

/-- Scalars in which one is not below or equal to zero, and in which a number between the two has a
value. -/
class LawfulScalar (α : Type) [Scalar α] : Prop where
  not_le_zero_of_one_le : ∀ x : α, 1 ≤ x → ¬ x ≤ 0
  isSome_value? : ∀ x : α, Scalar.IsNumber x → ¬ x ≤ 0 → ¬ 1 ≤ x → (Scalar.value? x).isSome = true

/-- Rationals all have a value, and their order is the usual one. -/
instance : LawfulScalar Rat where
  not_le_zero_of_one_le x hone hzero := by
    have hle : (1 : Rat) ≤ 0 := Rat.le_trans hone hzero
    exact absurd hle (by decide)
  isSome_value? _ _ _ _ := rfl

/-! ## Doubles -/

section Double

open Float.Model Double

/-- A double without a value is infinite or no number. -/
theorem unpack_of_value?_eq_none {x : Float} (h : Scalar.value? x = none) :
    x.toModel.unpack = .notANumber ∨ ∃ sign, x.toModel.unpack = .infinity sign := by
  rw [value?_eq] at h
  cases hx : x.toModel.unpack with
  | notANumber => exact Or.inl rfl
  | infinity sign => exact Or.inr ⟨sign, rfl⟩
  | zero sign =>
      rw [hx] at h
      cases h
  | finite sign m e hm =>
      rw [hx] at h
      cases sign <;> cases h

/-- Doubles between zero and one are finite. -/
instance : LawfulScalar Float where
  not_le_zero_of_one_le x hone hzero := by
    have hone' : (1 : Float) ≤ x := hone
    have hzero' : x ≤ (0 : Float) := hzero
    rw [float_le_iff, unpack_one] at hone'
    rw [float_le_iff, unpack_zero] at hzero'
    cases hx : x.toModel.unpack with
    | notANumber =>
        rw [hx] at hone'
        exact Bool.false_ne_true hone'
    | zero =>
        rw [hx] at hone'
        exact Bool.false_ne_true hone'
    | infinity sign =>
        rw [hx] at hone' hzero'
        cases sign with
        | negative => exact Bool.false_ne_true hone'
        | positive => exact Bool.false_ne_true hzero'
    | finite sign =>
        rw [hx] at hone' hzero'
        cases sign with
        | negative => exact Bool.false_ne_true hone'
        | positive => exact Bool.false_ne_true hzero'
  isSome_value? x hnumber hzero hone := by
    cases hvalue : Scalar.value? x with
    | some _ => rfl
    | none =>
        have hnumber' : x ≤ x := hnumber
        have hzero' : ¬ x ≤ (0 : Float) := hzero
        have hone' : ¬ (1 : Float) ≤ x := hone
        rw [float_le_iff] at hnumber' hzero' hone'
        rw [unpack_zero] at hzero'
        rw [unpack_one] at hone'
        rcases unpack_of_value?_eq_none hvalue with hx | ⟨sign, hx⟩
        · rw [hx] at hnumber'
          exact absurd hnumber' Bool.false_ne_true
        · rw [hx] at hone' hzero'
          cases sign with
          | negative => exact absurd rfl hzero'
          | positive => exact absurd rfl hone'

end Double

/-! ## Chances -/

namespace Draw

open Attempt

variable {α : Type} [Scalar α] {p : α} {g : Generator}

/-- An event of no probability does not happen. -/
theorem chance_of_le_zero (h : p ≤ 0) : chance p g = (.ok false, g) := by
  rw [chance, if_pos h]
  rfl

theorem chance_of_one_le [LawfulScalar α] (h : 1 ≤ p) : chance p g = (.ok true, g) := by
  rw [chance, if_neg (LawfulScalar.not_le_zero_of_one_le p h), if_pos h]
  rfl

/-- An event whose probability is a number is decided. -/
theorem chance_ensures [LawfulScalar α] (h : Scalar.IsNumber p ∨ 1 ≤ p) :
    Ensures (chance p) g (fun _ _ => False) fun fires _ => 1 ≤ p → fires = true := by
  by_cases hone : 1 ≤ p
  · unfold Ensures
    rw [chance_of_one_le hone]
    exact fun _ => rfl
  · rw [chance, if_neg hone]
    split
    · exact ensures_pure.mpr fun hp => absurd hp hone
    · rename_i hzero
      obtain ⟨q, hq⟩ := Option.isSome_iff_exists.mp
        (LawfulScalar.isSome_value? p (h.resolve_right hone) hzero hone)
      rw [hq]
      exact ensures_bind.mpr (ensures_state.mpr fun hp => absurd hp hone)

end Draw

end GrammarInduction
