import GrammarInduction.Coverage.Operator
import GrammarInduction.Learning.Submission

/-!
# Parsing with coverage

A covering parse fills the table of a sentence like recognition does, but where a cell stays without
what it needs, coverage operators make up rules, which enter the grammar and take part in the rest of
the parse:

* `Learner.coverLeaf` — a terminal without a rule, and a sentence of one symbol without a derivation;
* `Learner.coverSplit` — a barren cell of a positive sentence, and a top cell without the starting
  symbol;
* `Learner.parse` — the completed table and what the learner has become.
-/

namespace GrammarInduction.Learner

variable {α : Type} [Scalar α]

/-- The product of the best probabilities on the sides of a split, or one for a terminal. -/
def insideProbability (t : Table α) (d : Detector) : Except Fault α := do
  match d, ← t.children d with
  | .split _ _ _ l r, some ((leftRow, leftCol), (rightRow, rightCol)) =>
    let left ← t.cell leftRow leftCol
    let right ← t.cell rightRow rightCol
    pure (left.bestProbability l * right.bestProbability r)
  | _, _ => pure 1

/-- Lets one operator cover a cell.  Where it makes up a rule, the rule is submitted and its
production added to the cell. -/
def coverWith (coverage : Coverage α) (site : CoverageSite) (t : Table α) (pool : Pool α)
    (kind : CoverageKind) : Attempt (Learner α) (Option (Pool α)) := do
  let setting := coverage.get kind
  let limits := (← get).population.limits
  match ← attempt (Coverage.cover limits kind setting site) with
  | none => pure none
  | some (rule, detector) => do
    let _ ← submit rule setting.hint
    let inside ← (insideProbability t detector : Except Fault α)
    let probability := (← get).population.probability rule * inside
    pure (some (pool.add ⟨detector, some rule, probability⟩))

/-- Lets operators cover a cell in turn, until one has. -/
def coverFirst (coverage : Coverage α) (site : CoverageSite) (t : Table α) (pool : Pool α) :
    List CoverageKind → Attempt (Learner α) (Pool α)
  | [] => pure pool
  | kind :: kinds => do
    match ← coverWith coverage site t pool kind with
    | some pool => pure pool
    | none => coverFirst coverage site t pool kinds

/-- Covers the cell of a terminal. -/
def coverLeaf (coverage : Coverage α) (start : Symbol) (w : Sentence) (t : Table α) (col : Nat)
    (terminal : Symbol) (pool : Pool α) : Attempt (Learner α) (Pool α) := do
  let site : CoverageSite := .leaf col terminal
  let pool ← if pool.isBarren then coverFirst coverage site t pool [.terminal, .universal]
    else pure pool
  if w.length = 1 ∧ w.isPositive ∧ ¬ pool.derives start then
    coverFirst coverage site t pool [.starting]
  else pure pool

/-- Covers the cell of a stretch of several symbols.  A barren cell gets one rule, preferably one for
the starting symbol where the cell is that of the whole sentence. -/
def coverSplit (coverage : Coverage α) (start : Symbol) (w : Sentence) (t : Table α) (row : Nat)
    (pool : Pool α) : Attempt (Learner α) (Pool α) :=
  let top := decide (row + 1 = w.length)
  if ¬ w.isPositive then pure pool
  else if pool.isBarren then
    coverFirst coverage (.splits pool.unsatisfied.toList) t pool
      (if top then [.full, .aggressive] else [.aggressive, .full])
  else if top ∧ ¬ pool.derives start then
    let gaps := if pool.unsatisfied.isEmpty then pool.detectors else pool.unsatisfied.toList
    coverFirst coverage (.splits gaps) t pool [.full]
  else pure pool

/-- The pool of a cell, with what coverage adds to it. -/
def coveredPool (coverage : Coverage α) (start : Symbol) (w : Sentence) (t : Table α)
    (row col : Nat) : Attempt (Learner α) (Pool α) := do
  let pool ← ((← get).population.cellPool w.symbols t row col : Except Fault (Pool α))
  match row, w.symbols[col]? with
  | 0, some terminal => coverLeaf coverage start w t col terminal pool
  | 0, none => pure pool
  | row + 1, _ => coverSplit coverage start w t (row + 1) pool

/-- Parses a sentence, covering the gaps of its table. -/
def parse (coverage : Coverage α) (w : Sentence) : Attempt (Learner α) (Parse α) := do
  let start := (← get).population.limits.start
  let t ← Table.fill (coveredPool coverage start w) w.length
  pure (Parse.ofTable start w t)

end GrammarInduction.Learner
