import GrammarInduction.Chart.Traceback
import GrammarInduction.Learning.Learner

/-!
# The two variants of learning

In the plain variant every rule of every derivation of an accepted sentence is used, and rules are
scored by the blended fitness.  In the weighted variant the rules of the best derivation are used,
rules are scored by their uses, and after each generation their probabilities are estimated anew.

* `Variant.recordUsage` — the uses that a parse gives the rules it is derived with;
* `Learner.estimate` — probabilities from fitness, for the parents used since the last reset.
-/

namespace GrammarInduction

/-- How rules are weighed and their uses counted. -/
inductive Variant where
  | plain
  | weighted
deriving DecidableEq, Repr

namespace Learner

variable {α : Type} [Scalar α]

/-- The rules whose parent was used, with their fitness as weight. -/
def estimates (s : Learner α) : List (Rule × α) :=
  (s.population.rules.rules.filter fun r =>
    (s.statistics.parent? r.parent).any fun side => decide (0 < side.uses)).map
      fun r => (r, Scalar.nonNegative (s.statistics.fitness r))

/-- Takes the fitness of the rules of every used parent for their weight. -/
def estimate (s : Learner α) : Learner α :=
  { s with population := s.population.reweigh s.estimates }

/-- Records one use of each rule of a list, and counts those that are tracked. -/
def recordUses (label : Label) : List Rule → Learner α → Nat × Learner α
  | [], s => (0, s)
  | r :: rest, s =>
    match s.statistics.recordUse? r label with
    | some statistics =>
      let (count, s) := recordUses label rest { s with statistics := statistics }
      (count + 1, s)
    | none => recordUses label rest s

end Learner

namespace Variant

variable {α : Type} [Scalar α]

/-- How the rules used by a sentence are read off its table. -/
def traceback : Variant → Traceback
  | plain => .allDerivations
  | weighted => .bestDerivation

/-- The fitness of rules where the settings choose none. -/
def fitness : Variant → Fitness α
  | plain => .blend .standard
  | weighted => .usage

/-- A population as the variant keeps it. -/
def wrap : Variant → Population α → Population α
  | plain, p => p
  | weighted, p => p.withUniformWeights

/-- What is done after each generation. -/
def afterPass : Variant → Learner α → Learner α
  | plain, s => s
  | weighted, s => s.estimate

/-- Records the uses of an accepted sentence, and counts them. -/
def recordUsage (variant : Variant) (parse : Parse α) : Attempt (Learner α) Nat :=
  if parse.accepted then do
    let start := (← get).population.limits.start
    let rules ← (parse.table.trace variant.traceback start : Except Fault (List Rule))
    (modifyGet (Learner.recordUses parse.label rules) : StateM (Learner α) Nat)
  else pure 0

end Variant

end GrammarInduction
