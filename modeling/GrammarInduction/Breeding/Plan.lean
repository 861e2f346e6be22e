import GrammarInduction.Breeding.Operator
import GrammarInduction.Breeding.Selector
import GrammarInduction.Insertion.Strategy

/-!
# Breeding plans

A breeding plan says which selectors pick parents, which genetic operators change their copies, and
with what hint the offspring is submitted.  Operators on one rule come before those on two.
-/

namespace GrammarInduction

/-- How a generation breeds. -/
structure BreedingPlan (α : Type) where
  selectors : List Selector
  operators : List (GeneticOperator α)
  hint : Hint
deriving Repr

namespace BreedingPlan

/-- What is wrong with a breeding plan. -/
inductive Flaw where
  | noSelector
  | emptyTournament
  | chanceOutsideUnit (kind : GeneticKind)
deriving DecidableEq, Repr

/-- The wording of a flaw. -/
def Flaw.message : Flaw → String
  | noSelector => "at least one selector is required"
  | emptyTournament => "tournament size must be at least 1"
  | chanceOutsideUnit kind => kind.name ++ " chance must lie in [0, 1]"

variable {α : Type} [Scalar α]

/-- Two tournaments and two random picks, few mutations, and crossover half of the time. -/
def standard : BreedingPlan α :=
  let tenths (n : Nat) : α := Scalar.ofCount n / Scalar.ofCount 10
  ⟨[.standard, .standard, .random, .random],
    [⟨.inversion, tenths 2⟩, ⟨.parentMutation, tenths 1⟩, ⟨.leftChildMutation, tenths 1⟩,
      ⟨.rightChildMutation, tenths 1⟩, ⟨.crossover, tenths 5⟩],
    .keepSizeSparingElite⟩

/-- The plan with another chance for every operator of a kind. -/
def withChance (plan : BreedingPlan α) (kind : GeneticKind) (chance : α) : BreedingPlan α :=
  { plan with
    operators := plan.operators.map fun op =>
      if op.kind = kind then { op with chance := Scalar.clampUnit chance } else op }

/-- The first flaw: no selector, a tournament of none, a chance outside the unit interval. -/
def flaw? (plan : BreedingPlan α) : Option Flaw :=
  if plan.selectors.isEmpty then some .noSelector
  else if plan.selectors.any fun s => decide (s = .tournament 0) then some .emptyTournament
  else (plan.operators.find? fun op => decide (¬ Scalar.InUnit op.chance)).map
    fun op => .chanceOutsideUnit op.kind

/-- The operators in the order in which they are applied. -/
def stages (plan : BreedingPlan α) : List (GeneticOperator α) :=
  plan.operators.filter (fun op => decide (op.kind.arity = 1))
    ++ plan.operators.filter (fun op => decide (op.kind.arity = 2))

end BreedingPlan

end GrammarInduction
