import GrammarInduction.Scalar
import GrammarInduction.Word

/-!
# Fitness of a rule

The fitness of a rule is a function of how it was used.  Two families are provided:

* `Fitness.usage` — the plain count of uses;
* `Fitness.blend` — a weighted mean of the share of valid uses, at given prices, and of fertility,
  the place of the rule's points between the extremes of all rules.

`Fitness.calculate` takes any counters, and fails where their sum is no machine word; `Fitness.value` is the
fitness of a rule whose uses have been counted one after the other, so that there are words for them.
-/

namespace GrammarInduction

/-- What is counted of one rule. -/
structure Usage (α : Type) where
  /-- Uses in accepted sentences. -/
  uses : Nat
  /-- Uses in accepted sentences known to belong to the language. -/
  valid : Nat
  /-- Uses in accepted sentences known not to belong to it. -/
  invalid : Nat
  /-- Fertility points, earned less lost. -/
  points : α
  /-- The fitness found at the last update. -/
  fitness? : Option α
deriving Repr

/-- The usage of a rule that was never used. -/
def Usage.unused {α : Type} [Scalar α] : Usage α := ⟨0, 0, 0, 0, none⟩

/-- The least and the greatest fertility points. -/
structure Bounds (α : Type) where
  low : α
  high : α
deriving Repr

/-- The parameters of the blended fitness. -/
structure Blend (α : Type) where
  classicWeight : α
  fertilityWeight : α
  /-- The fitness of a rule that no sentence of known membership used. -/
  base : α
  validPrice : α
  invalidPrice : α
  /-- Points earned by a valid use. -/
  reward : α
  /-- Points lost by an invalid use. -/
  penalty : α
deriving Repr

/-- A family of fitness functions with its parameters. -/
inductive Fitness (α : Type) where
  | usage
  | blend (b : Blend α)
deriving Repr

variable {α : Type} [Scalar α]

namespace Blend

/-- Equal weights, prices and points of one, and a base of one half. -/
def standard : Blend α := ⟨1, 1, 1 / Scalar.ofCount 2, 1, 1, 1, 1⟩

/-- The priced share of valid uses, or the base where all prices are zero. -/
def validShare (b : Blend α) (u : Usage α) : α :=
  let valid := b.validPrice * Scalar.ofCount u.valid
  let invalid := b.invalidPrice * Scalar.ofCount u.invalid
  if 0 < valid + invalid then valid / (valid + invalid) else b.base

/-- The place of the points between the bounds; bounds that meet or cross count as one apart. -/
def fertility (u : Usage α) (bounds : Bounds α) : α :=
  let span := bounds.high - bounds.low
  Scalar.clampUnit ((u.points - bounds.low) / (if span ≤ 0 then 1 else span))

/-- The weighted mean of the share of valid uses and of fertility. -/
def mean (b : Blend α) (u : Usage α) (bounds : Bounds α) : α :=
  let share := b.validShare u
  let total := b.classicWeight + b.fertilityWeight
  if total ≤ 0 then share
  else (b.classicWeight * share + b.fertilityWeight * fertility u bounds) / total

/-- The blended fitness of a usage: the base where no use is known to be valid or invalid. -/
def value (b : Blend α) (u : Usage α) (bounds : Bounds α) : α :=
  if u.valid + u.invalid = 0 then b.base else b.mean u bounds

/-- The blended fitness of a usage, unless its counters are too great to be added. -/
def calculate (b : Blend α) (u : Usage α) (bounds : Bounds α) : Except Fault α := do
  let known ← Word.checked (u.valid + u.invalid)
  if known = 0 then pure b.base else pure (b.mean u bounds)

/-- Where the counters can be added, the fitness found is that of the usage. -/
theorem calculate_of_lt {b : Blend α} {u : Usage α} (h : u.valid + u.invalid < wordCount)
    (bounds : Bounds α) : b.calculate u bounds = .ok (b.value u bounds) := by
  rw [calculate, Word.checked_of_lt h, value]
  exact (apply_ite Except.ok _ _ _).symm

end Blend

namespace Fitness

/-- What is wrong with the parameters of a fitness. -/
inductive Flaw where
  | negativeWeight
  | baseOutsideUnit
  | negativePrice
deriving DecidableEq, Repr

/-- The wording of a flaw. -/
def Flaw.message : Flaw → String
  | negativeWeight => "fitness weights must be non-negative"
  | baseOutsideUnit => "base_fitness must lie in [0, 1]"
  | negativePrice => "usage prices must be non-negative"

/-- The fitness of a usage among rules of given extremes. -/
def value : Fitness α → Usage α → Bounds α → α
  | usage, u, _ => Scalar.ofCount u.uses
  | blend b, u, bounds => b.value u bounds

/-- The fitness of a usage among rules of given extremes, unless the counters are too great to be added. -/
def calculate : Fitness α → Usage α → Bounds α → Except Fault α
  | usage, u, _ => pure (Scalar.ofCount u.uses)
  | blend b, u, bounds => b.calculate u bounds

theorem calculate_of_lt {u : Usage α} (h : u.valid + u.invalid < wordCount) (function : Fitness α)
    (bounds : Bounds α) : function.calculate u bounds = .ok (function.value u bounds) := by
  cases function with
  | usage => rfl
  | blend b => exact Blend.calculate_of_lt h bounds

/-- The points a valid use earns. -/
def reward : Fitness α → α
  | usage => 1
  | blend b => b.reward

/-- The points an invalid use loses. -/
def penalty : Fitness α → α
  | usage => 1
  | blend b => b.penalty

/-- The first flaw of the parameters: weights, base, prices. -/
def flaw? : Fitness α → Option Flaw
  | usage => none
  | blend b =>
    if b.classicWeight < 0 ∨ b.fertilityWeight < 0 then some .negativeWeight
    else if ¬ Scalar.InUnit b.base then some .baseOutsideUnit
    else if b.validPrice < 0 ∨ b.invalidPrice < 0 then some .negativePrice
    else none

end Fitness

end GrammarInduction
