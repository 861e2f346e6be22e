import GrammarInduction.Statistics.Tally

/-!
# The order of scalars

Proofs about maxima ask little of scalars: that their order is transitive, that it compares any two
numbers, and that nothing compares with what is no number.  Rationals have all this, and so have doubles.

* `OrderedScalar` — these laws;
* `StrictScalar` — besides, what is below something is not above it as well;
* `CountingScalar` — besides, a share of a whole that a machine word can count is a number;
* `Scalar.greater_cases` — the greater of two numbers is one of them, and above both.
-/

namespace GrammarInduction

open Scalar

/-- Scalars whose numbers are linearly ordered, and compare with numbers alone. -/
class OrderedScalar (α : Type) [Scalar α] : Prop where
  isNumber_left : ∀ {x y : α}, x ≤ y → IsNumber x
  isNumber_right : ∀ {x y : α}, x ≤ y → IsNumber y
  le_trans : ∀ {x y z : α}, x ≤ y → y ≤ z → x ≤ z
  le_of_lt : ∀ {x y : α}, x < y → x ≤ y
  lt_of_not_le : ∀ {x y : α}, IsNumber x → IsNumber y → ¬ y ≤ x → x < y

/-- Ordered scalars in which nothing is below and above the same. -/
class StrictScalar (α : Type) [Scalar α] : Prop extends OrderedScalar α where
  not_le_of_lt : ∀ {x y : α}, x < y → ¬ y ≤ x

/-- Ordered scalars in which the share of some of a whole is a number. -/
class CountingScalar (α : Type) [Scalar α] : Prop extends OrderedScalar α where
  isNumber_ratio : ∀ {part whole : Nat}, part ≤ whole → whole < wordCount →
    IsNumber (Tally.ratio part whole : α)

/-- Rationals are all numbers. -/
instance : CountingScalar Rat where
  isNumber_left _ := Rat.le_refl
  isNumber_right _ := Rat.le_refl
  le_trans := Rat.le_trans
  le_of_lt := Rat.le_of_lt
  lt_of_not_le _ _ := Rat.not_le.mp
  isNumber_ratio _ _ := Rat.le_refl

namespace Scalar

variable {α : Type} [Scalar α] [OrderedScalar α] {x y z : α}

/-- Of two numbers one is below or equal to the other. -/
theorem le_of_not_lt (hx : IsNumber x) (hy : IsNumber y) (h : ¬ x < y) : y ≤ x :=
  Decidable.not_not.mp fun hle => h (OrderedScalar.lt_of_not_le hx hy hle)

/-- The greater of two numbers is one of them, and above both. -/
theorem greater_cases (hx : IsNumber x) (hy : IsNumber y) :
    (greater x y = x ∨ greater x y = y) ∧ x ≤ greater x y ∧ y ≤ greater x y := by
  rw [greater, if_pos hx]
  split
  · rename_i hlt
    exact ⟨Or.inr rfl, OrderedScalar.le_of_lt hlt, hy⟩
  · rename_i hlt
    exact ⟨Or.inl rfl, hx, le_of_not_lt hx hy hlt⟩

end Scalar

namespace Scalar

variable {α : Type} [Scalar α] [StrictScalar α] {x y z : α}

theorem lt_of_lt_of_le (hxy : x < y) (hyz : y ≤ z) : x < z := by
  have hle := OrderedScalar.le_trans (OrderedScalar.le_of_lt hxy) hyz
  refine OrderedScalar.lt_of_not_le (OrderedScalar.isNumber_left hle) (OrderedScalar.isNumber_right hyz) ?_
  intro hzx
  exact StrictScalar.not_le_of_lt hxy (OrderedScalar.le_trans hyz hzx)

theorem lt_of_le_of_lt (hxy : x ≤ y) (hyz : y < z) : x < z := by
  have hle := OrderedScalar.le_trans hxy (OrderedScalar.le_of_lt hyz)
  refine OrderedScalar.lt_of_not_le (OrderedScalar.isNumber_left hxy) (OrderedScalar.isNumber_right hle) ?_
  intro hzx
  exact StrictScalar.not_le_of_lt hyz (OrderedScalar.le_trans hzx hxy)

end Scalar

/-- Nothing as a share of nothing is zero, a number. -/
theorem Scalar.isNumber_zero {α : Type} [Scalar α] [CountingScalar α] : IsNumber (0 : α) :=
  CountingScalar.isNumber_ratio (Nat.le_refl 0) (by decide : 0 < wordCount)

/-- The accuracy of a tally, if it has one, is a number. -/
theorem Tally.isNumber_accuracy {α : Type} [Scalar α] [CountingScalar α] {tally : Tally} {x : α}
    (h : tally.accuracy = .ok x) : IsNumber x := by
  obtain ⟨right, hright, h⟩ := Fault.bind_eq_ok.mp h
  obtain ⟨total, htotal, h⟩ := Fault.bind_eq_ok.mp h
  obtain ⟨-, rfl⟩ := Word.eq_of_checked hright
  obtain ⟨hword, rfl⟩ := Word.eq_of_checked htotal
  cases h
  exact CountingScalar.isNumber_ratio (by unfold Tally.verdicts; omega) hword

end GrammarInduction
