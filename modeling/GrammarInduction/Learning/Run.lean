import GrammarInduction.Learning.Breeding
import GrammarInduction.Learning.CoveringParse
import GrammarInduction.Learning.Settings
import GrammarInduction.Learning.Variant

/-!
# Runs

A run repeats generations until a criterion is met.  A generation removes useless rules, parses every
sentence with coverage, counts the uses of rules, scores them, and breeds.

* `Run.generation` — one generation;
* `Run.generations` — generations until a criterion is met, at most as many as a horizon allows;
* `Run.start` — a whole run, from a given population or from random rules.
-/

namespace GrammarInduction

/-- What a run has come to. -/
structure RunResult (α : Type) where
  population : Population α
  statistics : Statistics α
  series : Series α
  reason : StopReason
  /-- The best accuracy of any generation, zero if there was none. -/
  bestFitness : α

/-- The count of generations of a run. -/
def RunResult.generations {α : Type} (r : RunResult α) : Nat := r.series.generations.size

/-- Why a run has no result. -/
inductive Refusal where
  | flaw (f : Settings.Flaw)
  | noStopCriterion
  | fault (f : Fault)
  /-- No criterion was met within the horizon. -/
  | unfinished
deriving DecidableEq, Repr

/-- The wording of a refusal. -/
def Refusal.message : Refusal → String
  | flaw f => "invalid configuration: " ++ f.message
  | noStopCriterion =>
    "no stop criterion installed: configure max steps, max time or satisfying fitness"
  | fault f => f.message
  | unfinished => "no stop criterion was met within the horizon"

namespace Run

variable {α : Type} [Scalar α]

/-- Parses one sentence, counts its uses and its verdict. -/
def passOne (variant : Variant) (coverage : Coverage α) (tally : Tally) (w : Sentence) :
    Attempt (Learner α) Tally := do
  let parse ← Learner.parse coverage w
  let _ ← variant.recordUsage parse
  (tally.record? parse.verdict? : Except Fault Tally)

/-- Parses sentences in turn. -/
def pass (variant : Variant) (coverage : Coverage α) :
    List Sentence → Tally → Attempt (Learner α) Tally
  | [], tally => pure tally
  | w :: rest, tally => do
    let tally ← passOne variant coverage tally w
    pass variant coverage rest tally

/-- The learner as a generation starts: corrected, except before the first, and with zero counters. -/
def prepare (settings : Settings α) (step : Nat) (s : Learner α) : Learner α :=
  let s := if settings.corrects ∧ 1 < step then s.correct.2 else s
  { s with statistics := s.statistics.resetUsage }

/-- The learner after all sentences have been parsed: scored, and estimated where weighted. -/
def score (variant : Variant) (s : Learner α) : Learner α :=
  variant.afterPass { s with statistics := s.statistics.updateFitness }

/-- The series with the record of a generation. -/
def recordGeneration (series : Series α) (step : Nat) (tally : Tally) (s : Learner α) :
    Except Fault (Series α) :=
  series.record step tally s.statistics.summary s.population.rules.size s.population.rules.pairCount

/-- One generation. -/
def generation (variant : Variant) (settings : Settings α) (sentences : List Sentence)
    (step : Nat) (series : Series α) : Attempt (Learner α) (Series α) := do
  modify (prepare settings step)
  let tally ← pass variant settings.coverage sentences .zero
  modify (score variant)
  let series ← (recordGeneration series step tally (← get) : Except Fault (Series α))
  if settings.breeds then
    let _ ← Learner.breed settings.breeding
    pure series
  else pure series

/-- What a run depends on besides its settings and sentences, read when each generation is about to
run: whether the run has been cancelled by then, and the time in nanoseconds. -/
structure Surroundings where
  cancelled : Nat → Bool
  clock : Nat → Nat

/-- Surroundings in which a run is cancelled from its beginning or never, and whose clock runs as briskly
as a clock can: the time before each generation is short, but it is never none, so that a budget of no time
at all is exceeded before the first. -/
def Surroundings.brisk (cancelled : Bool) : Surroundings := ⟨fun _ => cancelled, fun step => 50 * step⟩

/-- The reason to stop before a generation. -/
def reason? (settings : Settings α) (around : Surroundings) (step : Nat) (series : Series α) :
    Option StopReason :=
  if around.cancelled step then some .cancelled
  else StopCriterion.check settings.stop.criteria ⟨step, series.bestFitness?, around.clock step⟩

/-- Generations until there is a reason to stop; none if the horizon is reached before. -/
def generations (variant : Variant) (settings : Settings α) (sentences : List Sentence)
    (around : Surroundings) : Nat → Nat → Series α → Attempt (Learner α) (Option (StopReason × Series α))
  | 0, _, _ => pure none
  | horizon + 1, step, series =>
    match reason? settings around step series with
    | some reason => pure (some (reason, series))
    | none => do
      let series ← generation variant settings sentences step series
      generations variant settings sentences around horizon (step + 1) series

/-- A rule set with more random pair rules. -/
def addRandomRules (limits : Limits) : Nat → RuleSet → Draw RuleSet
  | 0, rules => pure rules
  | count + 1, rules => do
    let r ← limits.randomPairRule
    addRandomRules limits count (rules.insert r)

/-- The population a run starts from: the given one, or random rules. -/
def firstPopulation (limits : Limits) (given : Option (Population α)) : Draw (Population α) :=
  match given with
  | some p => pure p
  | none => do
    let rules ← addRandomRules limits limits.initialPairRules .empty
    pure ⟨limits, rules, none⟩

/-- The learner a run starts with. -/
def firstLearner (variant : Variant) (settings : Settings α) (seed : UInt64)
    (given : Option (Population α)) : Learner α :=
  let (p, g) := firstPopulation settings.limits given (Generator.ofSeed seed)
  Learner.ofPopulation (variant.wrap p) (settings.fitness?.getD variant.fitness)
    (Supervisor.standard settings.crowding settings.eliteSize) g

/-- A run of sound settings. -/
def runSound (variant : Variant) (settings : Settings α) (seed : UInt64)
    (given : Option (Population α)) (sentences : List Sentence) (around : Surroundings)
    (horizon : Nat) : Except Refusal (RunResult α) :=
  let learner := firstLearner variant settings seed given
  match generations variant settings sentences around horizon 1 .empty learner with
  | (.error fault, _) => .error (.fault fault)
  | (.ok none, _) => .error .unfinished
  | (.ok (some (reason, series)), s) =>
    .ok ⟨s.population, s.statistics, series, reason, series.bestFitness?.getD 0⟩

/-- A whole run.  Flawed settings and settings without a stop criterion are refused. -/
def start (variant : Variant) (settings : Settings α) (seed : UInt64)
    (given : Option (Population α)) (sentences : List Sentence) (around : Surroundings)
    (horizon : Nat) : Except Refusal (RunResult α) :=
  match settings.flaw? with
  | some flaw => .error (.flaw flaw)
  | none =>
    if settings.stop.criteria.isEmpty then .error .noStopCriterion
    else runSound variant settings seed given sentences around horizon

/-- One run from random rules for each seed. -/
def startEach (variant : Variant) (settings : Settings α) (seeds : List UInt64)
    (sentences : List Sentence) (around : Surroundings) (horizon : Nat) :
    List (Except Refusal (RunResult α)) :=
  seeds.map fun seed => start variant settings seed none sentences around horizon

end Run

end GrammarInduction
