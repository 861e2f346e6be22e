import GrammarInduction.Statistics.Tally

/-!
# The series of generations

Every generation leaves a record: its tally, the size of the grammar, and for each of six criteria
the value of the step with its extremes, in the step and over all steps so far.

* `Series.record` — appends one generation;
* `Series.bestFitness?` — the greatest accuracy recorded so far.
-/

namespace GrammarInduction

/-- The quantities followed over the generations. -/
inductive Criterion where
  | fitness
  | sensitivity
  | specificity
  | precision
  | f1
  | ruleFitness
deriving DecidableEq, Repr

/-- All criteria in their order. -/
def Criterion.all : List Criterion :=
  [.fitness, .sensitivity, .specificity, .precision, .f1, .ruleFitness]

/-- One value for each criterion. -/
structure PerCriterion (β : Type) where
  fitness : β
  sensitivity : β
  specificity : β
  precision : β
  f1 : β
  ruleFitness : β
deriving Repr

namespace PerCriterion

/-- The value of a criterion. -/
def get {β : Type} (p : PerCriterion β) : Criterion → β
  | .fitness => p.fitness
  | .sensitivity => p.sensitivity
  | .specificity => p.specificity
  | .precision => p.precision
  | .f1 => p.f1
  | .ruleFitness => p.ruleFitness

/-- The values that a function gives. -/
def ofFn {β : Type} (f : Criterion → β) : PerCriterion β :=
  ⟨f .fitness, f .sensitivity, f .specificity, f .precision, f .f1, f .ruleFitness⟩

@[simp]
theorem get_ofFn {β : Type} (f : Criterion → β) (c : Criterion) : (ofFn f).get c = f c := by
  cases c <;> rfl

/-- The values that a function gives, criterion after criterion, unless it fails for one. -/
def tryFn {β : Type} (f : Criterion → Except Fault β) : Except Fault (PerCriterion β) := do
  pure ⟨← f .fitness, ← f .sensitivity, ← f .specificity, ← f .precision, ← f .f1, ← f .ruleFitness⟩

/-- The values are found if each of them is. -/
theorem tryFn_eq_ok {β : Type} {f : Criterion → Except Fault β} {p : PerCriterion β} :
    tryFn f = .ok p ↔ ∀ c, f c = .ok (p.get c) := by
  simp only [tryFn, Fault.bind_eq_ok]
  constructor
  · rintro ⟨_, hfitness, _, hsensitivity, _, hspecificity, _, hprecision, _, hf1, _, hrules, h⟩
    cases h
    intro c
    cases c <;> assumption
  · intro h
    exact ⟨_, h .fitness, _, h .sensitivity, _, h .specificity, _, h .precision, _, h .f1, _,
      h .ruleFitness, rfl⟩

end PerCriterion

/-- Least, greatest and mean fitness of the rules at the last update. -/
structure Summary (α : Type) where
  min : α
  max : α
  mean : α
deriving Repr

/-- The value of a criterion in one step, with the extremes it is drawn from. -/
structure StepValue (α : Type) where
  current : α
  min : α
  max : α
deriving Repr

/-- The value of a criterion in one step, with the extremes of all steps so far. -/
structure CriterionValue (α : Type) where
  step : StepValue α
  globalMin : α
  globalMax : α
deriving Repr

/-- The record of one generation. -/
structure Generation (α : Type) where
  step : Nat
  tally : Tally
  ruleCount : Nat
  pairRuleCount : Nat
  values : PerCriterion (CriterionValue α)
deriving Repr

/-- The running extremes of a criterion. -/
structure Range (α : Type) where
  min : α
  max : α
deriving Repr

/-- The records of all generations and the running extremes. -/
structure Series (α : Type) where
  generations : Array (Generation α)
  ranges? : Option (PerCriterion (Range α))
deriving Repr

variable {α : Type} [Scalar α]

namespace StepValue

/-- A value that is its own extremes. -/
def flat (x : α) : StepValue α := ⟨x, x, x⟩

/-- What a step gives for a criterion: a measure of the tally, or the summary of rule fitness. -/
def of (tally : Tally) (rules : Summary α) : Criterion → Except Fault (StepValue α)
  | .fitness => tally.accuracy.map flat
  | .sensitivity => tally.sensitivity.map flat
  | .specificity => tally.specificity.map flat
  | .precision => tally.precision.map flat
  | .f1 => tally.f1.map flat
  | .ruleFitness => pure ⟨rules.mean, rules.min, rules.max⟩

end StepValue

/-- The range widened by the extremes of a step. -/
def Range.widen (r : Range α) (v : StepValue α) : Range α :=
  ⟨Scalar.lesser r.min v.min, Scalar.greater r.max v.max⟩

namespace Series

/-- The series of no generation. -/
def empty : Series α := ⟨#[], none⟩

/-- The range of a criterion after a step: the one so far, or first that of the step, widened by the step. -/
def rangeAfter (s : Series α) (v : StepValue α) (c : Criterion) : Range α :=
  let before : Range α := match s.ranges? with
    | none => ⟨v.min, v.max⟩
    | some ranges => ranges.get c
  before.widen v

/-- Appends the record of one generation, whose values are given. -/
def append (s : Series α) (step : Nat) (tally : Tally) (steps : PerCriterion (StepValue α))
    (ruleCount pairRuleCount : Nat) : Series α :=
  let ranges := PerCriterion.ofFn fun c => s.rangeAfter (steps.get c) c
  let values := PerCriterion.ofFn fun c =>
    (⟨steps.get c, (ranges.get c).min, (ranges.get c).max⟩ : CriterionValue α)
  ⟨s.generations.push ⟨step, tally, ruleCount, pairRuleCount, values⟩, some ranges⟩

/-- Appends the record of one generation, unless the tally has too many verdicts to be measured. -/
def record (s : Series α) (step : Nat) (tally : Tally) (rules : Summary α)
    (ruleCount pairRuleCount : Nat) : Except Fault (Series α) := do
  let steps ← PerCriterion.tryFn (StepValue.of tally rules)
  pure (s.append step tally steps ruleCount pairRuleCount)

/-- What is recorded are the values of the step. -/
theorem record_eq_ok {s s' : Series α} {step : Nat} {tally : Tally} {rules : Summary α}
    {ruleCount pairRuleCount : Nat} :
    s.record step tally rules ruleCount pairRuleCount = .ok s'
      ↔ ∃ steps : PerCriterion (StepValue α), (∀ c, StepValue.of tally rules c = .ok (steps.get c))
        ∧ s.append step tally steps ruleCount pairRuleCount = s' := by
  rw [record, Fault.bind_eq_ok]
  simp only [PerCriterion.tryFn_eq_ok]
  exact exists_congr fun steps => and_congr_right fun _ => Iff.of_eq (Except.ok.injEq ..)

/-- The least value of a criterion so far. -/
def globalMin? (s : Series α) (c : Criterion) : Option α := s.ranges?.map fun r => (r.get c).min

/-- The greatest value of a criterion so far. -/
def globalMax? (s : Series α) (c : Criterion) : Option α := s.ranges?.map fun r => (r.get c).max

/-- The greatest accuracy so far. -/
def bestFitness? (s : Series α) : Option α := s.globalMax? .fitness

end Series

end GrammarInduction
