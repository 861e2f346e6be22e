import GrammarInduction.Scalar

/-!
# When a run stops

Three thresholds can stop a run: the best accuracy reached, the count of generations, and the time
spent.  They are looked at in this order before every generation, and the first that is met gives the
reason.

* `StopSettings.criteria` — the thresholds that are set, in order;
* `StopCriterion.check` — the reason to stop, if there is one.
-/

namespace GrammarInduction

/-- The thresholds of a run. -/
structure StopSettings (α : Type) where
  fitness? : Option α
  steps? : Option Nat
  seconds? : Option α
deriving Repr

/-- Why a run ended. -/
inductive StopReason where
  | fitness
  | steps
  | time
  | cancelled
deriving DecidableEq, Repr

/-- How far a run has come before a generation. -/
structure Progress (α : Type) where
  /-- The number of the generation about to run, from one. -/
  step : Nat
  bestFitness? : Option α
  elapsedNanoseconds : Nat
deriving Repr

/-- One threshold. -/
inductive StopCriterion (α : Type) where
  | fitness (threshold : α)
  | steps (limit : Nat)
  | time (nanoseconds : Nat)
deriving Repr

/-- The whole number nearest to a rational, the even one of two. -/
def roundHalfEven (q : Rat) : Int :=
  let low := q.floor
  let rest := q - low
  if rest < 1 / 2 then low
  else if 1 / 2 < rest then low + 1
  else if low % 2 = 0 then low else low + 1

variable {α : Type} [Scalar α]

/-- Seconds as nanoseconds, to the nearest.  What is negative, no number, or has more seconds than a
64-bit word can count is no time at all. -/
def nanoseconds (seconds : α) : Nat :=
  match Scalar.value? seconds with
  | none => 0
  | some q =>
    if q < 0 ∨ 0x10000000000000000 ≤ q then 0
    else (roundHalfEven (q * 1000000000)).toNat

namespace StopSettings

/-- A hundred generations, or an accuracy of one. -/
def standard : StopSettings α := ⟨some 1, some 100, none⟩

/-- Whether no threshold is set. -/
def isEmpty (s : StopSettings α) : Bool :=
  s.fitness?.isNone && s.steps?.isNone && s.seconds?.isNone

/-- The seconds raised to zero. -/
def clamped (s : StopSettings α) : StopSettings α :=
  { s with seconds? := s.seconds?.map Scalar.nonNegative }

/-- What is wrong with thresholds. -/
inductive Flaw where
  | badSeconds
  | badFitness
deriving DecidableEq, Repr

/-- The wording of a flaw. -/
def Flaw.message : Flaw → String
  | badSeconds => "max_seconds must be a non-negative number"
  | badFitness => "satisfying_fitness must not be NaN"

/-- Whether seconds are finite and not negative. -/
def AreSeconds (x : α) : Prop := (Scalar.value? x).isSome ∧ ¬ x < 0

instance (x : α) : Decidable (AreSeconds x) :=
  inferInstanceAs (Decidable ((Scalar.value? x).isSome ∧ ¬ x < 0))

/-- The first flaw: seconds, accuracy. -/
def flaw? (s : StopSettings α) : Option Flaw :=
  if s.seconds?.any fun x => decide (¬ AreSeconds x) then some .badSeconds
  else if s.fitness?.any fun x => decide (¬ Scalar.IsNumber x) then some .badFitness
  else none

/-- The thresholds that are set: accuracy, generations, time. -/
def criteria (s : StopSettings α) : List (StopCriterion α) :=
  (s.fitness?.map StopCriterion.fitness).toList ++ (s.steps?.map StopCriterion.steps).toList
    ++ (s.seconds?.map fun x => StopCriterion.time (nanoseconds x)).toList

end StopSettings

namespace StopCriterion

/-- Whether a threshold is met: an accuracy reached, a count or a time exceeded. -/
def isSatisfied (p : Progress α) : StopCriterion α → Bool
  | fitness threshold => p.bestFitness?.any fun f => decide (threshold ≤ f)
  | steps limit => decide (limit < p.step)
  | time budget => decide (budget < p.elapsedNanoseconds)

/-- The reason that a threshold gives. -/
def reason : StopCriterion α → StopReason
  | fitness _ => .fitness
  | steps _ => .steps
  | time _ => .time

/-- The reason of the first threshold that is met. -/
def check (criteria : List (StopCriterion α)) (p : Progress α) : Option StopReason :=
  (criteria.find? (isSatisfied p)).map reason

end StopCriterion

end GrammarInduction
