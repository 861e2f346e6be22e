import Mathlib.Algebra.Order.Field.Basic
import Mathlib.Algebra.Order.Field.Rat
import GrammarInduction.Statistics.Fitness

/-!
# Blended fitness is a share

Over the rationals the blended fitness of a rule lies between zero and one.  It is a mean of two shares,
and each of its quotients has a value of its own to fall back on: the base where all uses are free, one
where the bounds of the points meet or cross, and the share of valid uses where nothing is weighed.  So
nothing is asked of the points and the bounds, and of the counters only that they can be added: the known
uses are counted together first, and for counters whose sum is no machine word there is no fitness at all.

* `Blend.Sound` — what parameters without a flaw are;
* `Scalar.inUnit_mean`, `Scalar.inUnit_clampUnit` — means and clamped values;
* `Blend.Sound.inUnit_value` — the blended fitness of any usage;
* `Blend.inUnit_calculate` — when it is found, and when the counters are too great.
-/

namespace GrammarInduction

namespace Scalar

variable {x y v w : Rat}

/-- A value that is clamped lies in the unit interval. -/
theorem inUnit_clampUnit (x : Rat) : InUnit (clampUnit x) := by
  unfold clampUnit
  split
  · exact ⟨le_refl _, zero_le_one⟩
  · rename_i hlow
    split
    · exact ⟨zero_le_one, le_refl _⟩
    · rename_i hhigh
      exact ⟨not_lt.mp hlow, not_lt.mp hhigh⟩

/-- A weighted mean lies in the unit interval if both values do. -/
theorem inUnit_mean (hv : 0 ≤ v) (hw : 0 ≤ w) (htotal : 0 < v + w) (hx : InUnit x)
    (hy : InUnit y) : InUnit ((v * x + w * y) / (v + w)) := by
  obtain ⟨hx0, hx1⟩ := hx
  obtain ⟨hy0, hy1⟩ := hy
  constructor
  · exact div_nonneg (add_nonneg (mul_nonneg hv hx0) (mul_nonneg hw hy0)) htotal.le
  · apply (div_le_one htotal).mpr
    exact add_le_add (mul_le_of_le_one_right hv hx1) (mul_le_of_le_one_right hw hy1)

end Scalar

namespace Blend

open Scalar

variable {b : Blend Rat}

/-- Weights and prices are not negative, and the base lies in the unit interval. -/
structure Sound (b : Blend Rat) : Prop where
  classicWeight : 0 ≤ b.classicWeight
  fertilityWeight : 0 ≤ b.fertilityWeight
  base : InUnit b.base
  validPrice : 0 ≤ b.validPrice
  invalidPrice : 0 ≤ b.invalidPrice

theorem sound_of_flaw? (h : (Fitness.blend b).flaw? = none) : b.Sound := by
  rw [Fitness.flaw?] at h
  split at h
  · cases h
  · rename_i hweights
    split at h
    · cases h
    · rename_i hbase
      split at h
      · cases h
      · rename_i hprices
        obtain ⟨hclassic, hfertility⟩ := not_or.mp hweights
        obtain ⟨hvalid, hinvalid⟩ := not_or.mp hprices
        exact ⟨not_lt.mp hclassic, not_lt.mp hfertility, not_not.mp hbase, not_lt.mp hvalid,
          not_lt.mp hinvalid⟩

/-- The share of valid uses is a mean of one and zero, weighed by what the uses cost. -/
theorem Sound.inUnit_validShare (h : b.Sound) (u : Usage Rat) : InUnit (b.validShare u) := by
  unfold validShare
  dsimp only
  split
  · rename_i htotal
    have hvalid : 0 ≤ b.validPrice * ofCount u.valid := mul_nonneg h.validPrice (Nat.cast_nonneg _)
    have hinvalid : 0 ≤ b.invalidPrice * ofCount u.invalid :=
      mul_nonneg h.invalidPrice (Nat.cast_nonneg _)
    have hmean := inUnit_mean hvalid hinvalid htotal ⟨zero_le_one, le_refl 1⟩ ⟨le_refl 0, zero_le_one⟩
    rwa [mul_one, mul_zero, add_zero] at hmean
  · exact h.base

/-- The blended fitness of any usage within any bounds is a share. -/
theorem Sound.inUnit_value (h : b.Sound) (u : Usage Rat) (bounds : Bounds Rat) :
    InUnit (b.value u bounds) := by
  unfold value mean
  dsimp only
  split
  · exact h.base
  · split
    · exact h.inUnit_validShare u
    · rename_i htotal
      exact inUnit_mean h.classicWeight h.fertilityWeight (not_le.mp htotal) (h.inUnit_validShare u)
        (inUnit_clampUnit _)

/-- **Blended fitness is a share, if there is any.**  With parameters that have no flaw, the fitness of a
usage within any bounds lies in the unit interval if the counters of known uses have a word for their sum,
and is found exactly then; and it is the base if no sentence of known membership used the rule. -/
theorem inUnit_calculate (h : (Fitness.blend b).flaw? = none) (u : Usage Rat)
    (bounds : Bounds Rat) :
    (u.valid + u.invalid < wordCount →
        ∃ x, (Fitness.blend b).calculate u bounds = .ok x ∧ InUnit x)
      ∧ (wordCount ≤ u.valid + u.invalid → (Fitness.blend b).calculate u bounds = .error .overflow)
      ∧ (u.valid + u.invalid = 0 → (Fitness.blend b).calculate u bounds = .ok b.base) := by
  refine ⟨fun hword => ?_, fun hgreat => ?_, fun hnone => ?_⟩
  · exact ⟨b.value u bounds, calculate_of_lt hword bounds, (sound_of_flaw? h).inUnit_value u bounds⟩
  · rw [Fitness.calculate, calculate, Word.checked_of_le hgreat]
    rfl
  · rw [Fitness.calculate, calculate_of_lt (by rw [hnone]; decide), value, if_pos hnone]

/-- Uses that cost nothing, bounds that cross and points beyond both of them. -/
theorem inUnit_calculate_degenerate :
    ∃ (b : Blend Rat) (u : Usage Rat) (bounds : Bounds Rat),
      (Fitness.blend b).flaw? = none ∧ b.validPrice = 0 ∧ b.invalidPrice = 0
        ∧ bounds.high < bounds.low ∧ bounds.low < u.points
        ∧ u.valid + u.invalid < wordCount
        ∧ (Fitness.blend b).calculate u bounds = .ok (7 / 8)
        ∧ ∃ x, (Fitness.blend b).calculate u bounds = .ok x ∧ InUnit x := by
  let b : Blend Rat := ⟨1, 3, 1 / 2, 0, 0, 1, 1⟩
  let u : Usage Rat := ⟨4, 3, 1, 7, none⟩
  have hsound : (Fitness.blend b).flaw? = none := by decide +kernel
  have hword : u.valid + u.invalid < wordCount := by decide
  obtain ⟨hunit, -⟩ := inUnit_calculate hsound u ⟨2, -1⟩
  exact ⟨b, u, ⟨2, -1⟩, hsound, rfl, rfl, by decide +kernel, by decide +kernel, hword,
    by rw [Fitness.calculate, calculate_of_lt hword]; decide +kernel, hunit hword⟩

/-- Sound parameters do not give every usage a fitness: one more than the greatest counter is no word. -/
theorem not_inUnit_calculate :
    ¬ ∀ (b : Blend Rat) (u : Usage Rat) (bounds : Bounds Rat), (Fitness.blend b).flaw? = none →
      u.valid < wordCount → u.invalid < wordCount →
      ∃ x, (Fitness.blend b).calculate u bounds = .ok x ∧ InUnit x := by
  intro hfound
  let u : Usage Rat := ⟨0, 0xFFFFFFFFFFFFFFFF, 1, 0, none⟩
  obtain ⟨x, hx, -⟩ := hfound .standard u ⟨0, 0⟩ (by decide +kernel) (by decide) (by decide)
  have hgreat : wordCount ≤ u.valid + u.invalid := by decide
  rw [Fitness.calculate, calculate, Word.checked_of_le hgreat] at hx
  cases hx

end Blend

end GrammarInduction
