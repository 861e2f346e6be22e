import GrammarInduction.Breeding.Plan
import GrammarInduction.Learning.Submission

/-!
# One step of breeding

The selectors of a plan pick pair rules, the genetic operators change copies of them, and the
offspring is submitted.

* `Learner.breed` — the whole step, with a report of what it did.
-/

namespace GrammarInduction

/-- What a step of breeding did. -/
structure BreedingReport where
  /-- The rules picked, in the order of the selectors. -/
  selected : List Rule
  /-- What the genetic operators have made of them. -/
  offspring : List Rule
  inserted : Nat
  replaced : Nat
deriving DecidableEq, Repr

namespace BreedingReport

/-- The report of a step that did nothing. -/
def empty : BreedingReport := ⟨[], [], 0, 0⟩

/-- The report after one more submission. -/
def count (report : BreedingReport) : Outcome → BreedingReport
  | .existing => report
  | .inserted => { report with inserted := report.inserted + 1 }
  | .replaced _ => { report with replaced := report.replaced + 1 }

end BreedingReport

namespace Learner

variable {α : Type} [Scalar α]

/-- The picks of selectors in turn. -/
def selectAll (fitness : Rule → α) (candidates : List Rule) :
    List Selector → Attempt Generator (List Rule)
  | [] => pure []
  | s :: rest => do
    let picked ← s.select fitness candidates
    let more ← selectAll fitness candidates rest
    pure (picked.toList ++ more)

/-- The rules that leave the last of several operators. -/
def applyStages (limits : Limits) : List (GeneticOperator α) → List Rule →
    Attempt Generator (List Rule)
  | [], rules => pure rules
  | op :: rest, rules => do
    let rules ← op.apply limits rules
    applyStages limits rest rules

/-- Submits rules in turn and counts what became of them. -/
def submitAll (hint : Hint) : List Rule → BreedingReport → Attempt (Learner α) BreedingReport
  | [], report => pure report
  | r :: rest, report => do
    let outcome ← submit r hint
    submitAll hint rest (report.count outcome)

/-- One step of breeding; a grammar without pair rules is left alone. -/
def breed (plan : BreedingPlan α) : Attempt (Learner α) BreedingReport := do
  let s ← get
  let candidates := s.population.rules.pairRules
  if candidates.isEmpty then pure .empty
  else do
    let selected ← attempt (selectAll s.statistics.fitness candidates plan.selectors)
    renewElite
    let offspring ← attempt (applyStages s.population.limits plan.stages selected)
    submitAll plan.hint offspring ⟨selected, offspring, 0, 0⟩

end Learner

end GrammarInduction
