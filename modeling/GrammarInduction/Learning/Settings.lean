import GrammarInduction.Breeding.Plan
import GrammarInduction.Coverage.Operator
import GrammarInduction.Grammar.Limits
import GrammarInduction.Learning.Stop
import GrammarInduction.Statistics.Fitness

/-!
# Settings of a run

The settings gather those of every part.  `Settings.flaw?` finds the first flaw, part by part, and
last the one that concerns two numbers together.
-/

namespace GrammarInduction

/-- Everything a run is set up with. -/
structure Settings (α : Type) where
  limits : Limits
  coverage : Coverage α
  breeding : BreedingPlan α
  crowding : Crowding
  /-- How many of the fittest rules are spared. -/
  eliteSize : Nat
  /-- The fitness of rules; without one the variant chooses. -/
  fitness? : Option (Fitness α)
  stop : StopSettings α
  /-- Whether useless rules are removed before each generation but the first. -/
  corrects : Bool
  /-- Whether each generation ends with a step of breeding. -/
  breeds : Bool
  seed? : Option UInt64
deriving Repr

namespace Settings

/-- What is wrong with settings. -/
inductive Flaw where
  | limits (f : Limits.Flaw)
  | coverage (f : Coverage.Flaw)
  | breeding (f : BreedingPlan.Flaw)
  | crowding (f : Crowding.Flaw)
  | stop (f : StopSettings.Flaw)
  | fitness (f : Fitness.Flaw)
  | tooManyInitialRules
deriving DecidableEq, Repr

/-- The wording of a flaw. -/
def Flaw.message : Flaw → String
  | limits f => f.message
  | coverage f => f.message
  | breeding f => f.message
  | crowding f => f.message
  | stop f => f.message
  | fitness f => f.message
  | tooManyInitialRules => "initial_non_terminal_rules must not exceed max_non_terminal_rules"

variable {α : Type} [Scalar α]

/-- The settings of every part as it stands by itself. -/
def standard : Settings α where
  limits := .standard
  coverage := .standard
  breeding := .standard
  crowding := .standard
  eliteSize := 10
  fitness? := none
  stop := .standard
  corrects := true
  breeds := true
  seed? := none

/-- The flaw of starting with more rules than the limit. -/
def initialFlaw? (s : Settings α) : Option Flaw :=
  if s.limits.pairRuleLimit < s.limits.initialPairRules then some .tooManyInitialRules else none

/-- The first flaw: limits, coverage, breeding, crowding, stop, fitness, initial rules. -/
def flaw? (s : Settings α) : Option Flaw :=
  (s.limits.flaw?.map .limits).or <|
  (s.coverage.flaw?.map .coverage).or <|
  (s.breeding.flaw?.map .breeding).or <|
  (s.crowding.flaw?.map .crowding).or <|
  (s.stop.flaw?.map .stop).or <|
  ((s.fitness?.bind Fitness.flaw?).map .fitness).or s.initialFlaw?

end Settings

end GrammarInduction
