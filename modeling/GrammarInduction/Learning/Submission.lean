import GrammarInduction.Insertion.Crowding
import GrammarInduction.Learning.Learner

/-!
# Submissions

Every rule enters the grammar by a submission.  A rule whose body another parent holds takes that
rule's place; any other is handled by a strategy:

* `Learner.apply` — what one strategy does with a new rule;
* `Learner.submit` — the first strategy for the hint, where growth beyond the limit is turned into
  crowding.
-/

namespace GrammarInduction.Learner

variable {α : Type}

/-- The rules of the newcomer's arity that are not spared. -/
def candidates (s : Learner α) (r : Rule) (spared : List Rule) : List Rule :=
  let rules := if r.isTerminal then s.population.rules.terminalRules
    else s.population.rules.pairRules
  rules.filter fun candidate => decide (candidate ∉ spared)

/-- The candidates are stored rules of the newcomer's arity that are not spared. -/
theorem mem_candidates {s : Learner α} {r old : Rule} {spared : List Rule} :
    old ∈ s.candidates r spared
      ↔ old ∈ s.population.rules.rules ∧ old.isTerminal = r.isTerminal ∧ old ∉ spared := by
  unfold candidates
  cases hr : r.isTerminal with
  | true => simp [RuleSet.mem_terminalRules, and_assoc]
  | false => simp [RuleSet.mem_pairRules, and_assoc]

variable [Scalar α]

/-- The fittest pair rules at present. -/
def currentElite (s : Learner α) (size : Nat) : Except Fault (List Rule) :=
  fittest s.statistics.fitness size s.population.rules.pairRules

/-- The learner with its elite found anew, if a strategy spares one. -/
def refreshElite (s : Learner α) : Except Fault (Learner α) :=
  match s.supervisor.eliteSize? with
  | some size => do
    let elite ← s.currentElite size
    pure { s with supervisor := { s.supervisor with elite := elite } }
  | none => pure s

/-- Finds the elite anew; where there is none to be found, all stays as it is. -/
def renewElite : Attempt (Learner α) Unit := do
  let s ← get
  let s ← (s.refreshElite : Except Fault (Learner α))
  set s

/-- The rule that a strategy removes for a newcomer. -/
def victim (strategy : Strategy) (spared : List Rule) (r : Rule) :
    StateM (Learner α) (Option Rule) := do
  let s ← get
  match strategy with
  | .simple => pure none
  | .crowding c => draw (c.victim s.statistics.fitness (s.candidates r []) r)
  | .elitism c _ => draw (c.victim s.statistics.fitness (s.candidates r spared) r)

/-- Lets a rule take the place of another, if one is given. -/
def settle (r : Rule) (old? : Option Rule) : StateM (Learner α) Outcome := do
  let s ← get
  match old? with
  | some old =>
    set ((s.expel old).enter r)
    pure (.replaced old)
  | none =>
    set (s.enter r)
    pure .inserted

/-- Brings a new rule into the grammar by one strategy. -/
def apply (strategy : Strategy) (spared : List Rule) (r : Rule) :
    StateM (Learner α) Outcome := do
  let s ← get
  match s.population.rules.displaced? r with
  | some old => settle r (some old)
  | none =>
    let old? ← victim strategy spared r
    settle r old?

/-- The hint that counts: at the limit of pair rules, growth becomes crowding. -/
def effectiveHint (s : Learner α) (h : Hint) : Hint :=
  if h = .expand ∧ s.population.limits.pairRuleLimit ≤ s.population.rules.pairCount then
    s.supervisor.sizeHint
  else h

/-- Submits a rule, which is brought in by the first strategy for the hint, or by simple insertion
where there is none. -/
def submit (r : Rule) (h : Hint) : Attempt (Learner α) Outcome := do
  let s ← get
  if s.population.contains r then pure .existing
  else match s.supervisor.strategyFor? (s.effectiveHint h) with
    | none => (apply .simple [] r : StateM (Learner α) Outcome)
    | some (.elitism c size) => do
      renewElite
      let s ← get
      (apply (.elitism c size) s.supervisor.elite r : StateM (Learner α) Outcome)
    | some strategy => (apply strategy [] r : StateM (Learner α) Outcome)

end GrammarInduction.Learner
