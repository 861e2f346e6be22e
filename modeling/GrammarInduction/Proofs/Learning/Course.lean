import GrammarInduction.Proofs.Chart.Filling
import GrammarInduction.Proofs.Learning.Run

/-!
# The course of a run

A run changes its rules in many places: random rules before it starts, then, generation by generation,
corrections, the coverage of every cell of every sentence, and the offspring of the breeding.  What holds
of its result may fail on the way.  So the sets of rules that a run comes by are named loop by loop: a loop
has come by what its turns up to now have left, and by what the turn at hand comes by.

* `Learner.CoverPasses` — while a cell is covered;
* `Learner.ParsePasses` — while a sentence is parsed;
* `Learner.BreedPasses` — while offspring is submitted;
* `Run.GenerationPasses`, `Run.Passes` — in one generation, and in the whole run.
-/

namespace GrammarInduction

open Learner

variable {α : Type} [Scalar α]

/-- Covering a cell from `s` comes by a learner. -/
inductive Learner.CoverPasses (coverage : Coverage α) (start : Symbol) (w : Sentence) (t : Table α)
    (row col : Nat) (s : Learner α) : Learner α → Prop
  | turn : CoverPasses coverage start w t row col s s
  /-- The cell of a terminal may be covered a second time. -/
  | again {terminal : Symbol} {pool p : Pool α} {s' : Learner α} (leaf : row = 0)
      (here : w.symbols[col]? = some terminal)
      (given : s.population.cellPool w.symbols t row col = .ok pool) (barren : pool.isBarren = true)
      (ran : coverFirst coverage (.leaf col terminal) t pool [.terminal, .universal] s = (.ok p, s')) :
      CoverPasses coverage start w t row col s s'
  | covered {p : Pool α} {s' : Learner α}
      (ran : coveredPool coverage start w t row col s = (.ok p, s')) :
      CoverPasses coverage start w t row col s s'

/-- Parsing a sentence from `s` comes by a learner: some cells have been filled, and one is covered. -/
inductive Learner.ParsePasses (coverage : Coverage α) (w : Sentence) (s : Learner α) :
    Learner α → Prop
  | cell {done : List (Nat × Nat)} {row col : Nat} {t : Table α} {s₁ s₂ : Learner α}
      (turn : Table.Turn w.length done row col)
      (filled : Table.fillCells (coveredPool coverage s.population.limits.start w) done
        (.blank w.length) s = (.ok t, s₁))
      (within : CoverPasses coverage s.population.limits.start w t row col s₁ s₂) :
      ParsePasses coverage w s s₂
  | parsed {outcome : Parse α} {s₁ : Learner α} (ran : parse coverage w s = (.ok outcome, s₁)) :
      ParsePasses coverage w s s₁

/-- Breeding from `s` comes by a learner: some of the offspring has been submitted. -/
inductive Learner.BreedPasses (plan : BreedingPlan α) (s : Learner α) : Learner α → Prop
  | submitting {selected done rest : List Rule} {s₁ s₂ s₃ : Learner α} (report : BreedingReport)
      (picked : attempt (selectAll s.statistics.fitness s.population.rules.pairRules plan.selectors) s
        = (.ok selected, s₁))
      (renewed : renewElite s₁ = (.ok (), s₂))
      (changed : attempt (applyStages s.population.limits plan.stages selected) s₂
        = (.ok (done ++ rest), s₃)) :
      BreedPasses plan s (submitAll plan.hint done report s₃).2

namespace Run

/-- A generation from `s` comes by a learner: it parses its sentences in turn, scores, and breeds. -/
inductive GenerationPasses (variant : Variant) (settings : Settings α) (sentences : List Sentence)
    (step : Nat) (s : Learner α) : Learner α → Prop
  | prepared : GenerationPasses variant settings sentences step s (prepare settings step s)
  | parsing {done rest : List Sentence} {w : Sentence} {tally : Tally} {s₁ s₂ : Learner α}
      (split : sentences = done ++ w :: rest)
      (passed : pass variant settings.coverage done .zero (prepare settings step s) = (.ok tally, s₁))
      (within : ParsePasses settings.coverage w s₁ s₂) :
      GenerationPasses variant settings sentences step s s₂
  | scored {tally : Tally} {s₁ : Learner α}
      (passed : pass variant settings.coverage sentences .zero (prepare settings step s)
        = (.ok tally, s₁)) :
      GenerationPasses variant settings sentences step s (score variant s₁)
  | breeding {tally : Tally} {s₁ s₂ : Learner α}
      (passed : pass variant settings.coverage sentences .zero (prepare settings step s)
        = (.ok tally, s₁))
      (within : BreedPasses settings.breeding (score variant s₁) s₂) :
      GenerationPasses variant settings sentences step s s₂

/-- A run that starts from random rules comes by a set of rules. -/
inductive Passes (variant : Variant) (settings : Settings α) (seed : UInt64)
    (sentences : List Sentence) (around : Surroundings) : RuleSet → Prop
  | seeding {count : Nat} (fewer : count ≤ settings.limits.initialPairRules) :
      Passes variant settings seed sentences around
        (addRandomRules settings.limits count .empty (.ofSeed seed)).1
  | between {k : Nat} {series : Series α} {s : Learner α}
      (reached : Reaches variant settings sentences around
        (firstLearner variant settings seed none) k series s) :
      Passes variant settings seed sentences around s.population.rules
  | within {k : Nat} {series : Series α} {s s' : Learner α}
      (reached : Reaches variant settings sentences around
        (firstLearner variant settings seed none) k series s)
      (going : reason? settings around (k + 1) series = none)
      (passes : GenerationPasses variant settings sentences (k + 1) s s') :
      Passes variant settings seed sentences around s'.population.rules
  /-- A correction removes its rules one by one, and a rule that is replaced is gone before the newcomer
  is there. -/
  | without {rules : RuleSet} (passes : Passes variant settings seed sentences around rules)
      (r : Rule) : Passes variant settings seed sentences around (rules.erase r)

/-- The rules of its result are come by. -/
theorem passes_of_start {variant : Variant} {settings : Settings α} {seed : UInt64}
    {sentences : List Sentence} {around : Surroundings} {horizon : Nat} {result : RunResult α}
    (h : start variant settings seed none sentences around horizon = .ok result) :
    Passes variant settings seed sentences around result.population.rules := by
  obtain ⟨k, s, hreached, -, hpopulation⟩ := reaches_of_start h
  rw [hpopulation]
  exact .between hreached

end Run

end GrammarInduction
