import GrammarInduction.Chart.Recognition
import GrammarInduction.Grammar.Population
import GrammarInduction.Grammar.Usefulness
import GrammarInduction.Insertion.Strategy
import GrammarInduction.Statistics.Usage

/-!
# The learner

A learner is a population with the statistics of its rules, the supervisor of insertions and the
generator that all draws are taken from.  Rules enter by `Learner.enter` and leave by
`Learner.expel`, which keep population and statistics in step.
-/

namespace GrammarInduction

/-- The state of learning. -/
structure Learner (α : Type) where
  population : Population α
  statistics : Statistics α
  supervisor : Supervisor
  generator : Generator

namespace Learner

variable {α : Type} [Scalar α]

/-- A learner that tracks the rules of a population. -/
def ofPopulation (p : Population α) (function : Fitness α) (supervisor : Supervisor)
    (generator : Generator) : Learner α :=
  ⟨p, Statistics.ofRules function p.rules.rules, supervisor, generator⟩

/-- A draw from the learner's generator. -/
def draw {β : Type} (d : Draw β) : StateM (Learner α) β := fun s =>
  let (b, g) := d s.generator
  (b, { s with generator := g })

/-- A draw that may fail from the learner's generator. -/
def attempt {β : Type} (d : Attempt Generator β) : Attempt (Learner α) β := fun s =>
  let (b, g) := d s.generator
  (b, { s with generator := g })

/-- Adds a rule to the population and tracks it. -/
def enter (s : Learner α) (r : Rule) : Learner α :=
  { s with population := s.population.insert r, statistics := s.statistics.track r }

/-- Removes a rule from the population and stops tracking it. -/
def expel (s : Learner α) (r : Rule) : Learner α :=
  { s with population := s.population.erase r, statistics := s.statistics.untrack r }

/-- The rules that a correction has removed. -/
structure Correction where
  unproductive : List Rule
  unreachable : List Rule
deriving DecidableEq, Repr

/-- The count of rules that a correction has removed. -/
def Correction.count (c : Correction) : Nat := c.unproductive.length + c.unreachable.length

/-- Removes the pair rules that derive no sentence of terminals. -/
def removeUnproductive (s : Learner α) : List Rule × Learner α :=
  let rules := s.population.rules.unproductiveRules s.population.limits.universal?
  (rules, rules.foldl expel s)

/-- Removes the rules that no derivation from the starting symbol comes by. -/
def removeUnreachable (s : Learner α) : List Rule × Learner α :=
  let rules := s.population.rules.unreachableRules s.population.limits.start
  (rules, rules.foldl expel s)

/-- Removes unproductive rules, then unreachable ones. -/
def correct (s : Learner α) : Correction × Learner α :=
  let (unproductive, s) := s.removeUnproductive
  let (unreachable, s) := s.removeUnreachable
  (⟨unproductive, unreachable⟩, s)

end Learner

end GrammarInduction
