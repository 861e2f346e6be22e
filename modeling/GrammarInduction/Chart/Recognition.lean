import GrammarInduction.Chart.Table
import GrammarInduction.Grammar.Population
import GrammarInduction.Statistics.Tally

/-!
# Recognition

A population recognises a sentence by filling its table: a cell of the first row gets the rule of its
terminal, every other cell the productions of all its splits.  The sentence is accepted when the cell
of the whole of it derives the starting symbol.

* `Population.leafPool`, `Population.splitPool` — the pool that a population gives a cell;
* `Population.recognise` — the completed table with its verdict;
* `Population.evaluate` — the tally of verdicts over a list of sentences.
-/

namespace GrammarInduction

/-- The outcome of parsing one sentence. -/
structure Parse (α : Type) where
  /-- Whether the whole sentence derives from the starting symbol. -/
  accepted : Bool
  label : Label
  verdict? : Option Verdict
  table : Table α

/-- The outcome that a completed table stands for. -/
def Parse.ofTable {α : Type} [Scalar α] (start : Symbol) (w : Sentence) (t : Table α) : Parse α :=
  let accepted := match t.top? with
    | some top => top.derives start
    | none => false
  ⟨accepted, w.label, Verdict.of? w.label accepted, t⟩

namespace Population

variable {α : Type} [Scalar α]

/-- The pool of one terminal: the production of its rule, if there is one. -/
def leafPool (p : Population α) (col : Nat) (terminal : Symbol) : Pool α :=
  match p.rules.ruleOf? (.terminal terminal) with
  | some r => Pool.empty.add ⟨.leaf col terminal, some r, p.probability r⟩
  | none => Pool.empty

/-- The production of two symbols found on the sides of a split. -/
def splitProduction (p : Population α) (row col shift : Nat) (left right : Pool α)
    (l r : Symbol) : Production α :=
  let d : Detector := .split row col shift l r
  match p.rules.ruleOf? (.pair l r) with
  | some rule =>
    ⟨d, some rule, p.probability rule * (left.bestProbability l * right.bestProbability r)⟩
  | none => .empty d

/-- The productions of a split, for every pair of symbols found on its sides. -/
def splitProductions (p : Population α) (row col shift : Nat) (left right : Pool α) :
    List (Production α) :=
  left.effectors.flatMap fun l =>
    right.effectors.map fun r => p.splitProduction row col shift left right l r

/-- The pool of a stretch of several symbols: the productions of all its splits. -/
def splitPool (p : Population α) (t : Table α) (row col : Nat) : Except Fault (Pool α) := do
  let parts ← (List.range row).mapM fun shift => do
    let left ← t.cell shift col
    let right ← t.cell (row - shift - 1) (col + shift + 1)
    pure (p.splitProductions row col shift left right)
  pure (Pool.ofList parts.flatten)

/-- The pool of a cell of the table of `w`. -/
def cellPool (p : Population α) (w : List Symbol) (t : Table α) (row col : Nat) :
    Except Fault (Pool α) :=
  match row, w[col]? with
  | 0, some terminal => .ok (p.leafPool col terminal)
  | 0, none => .ok Pool.empty
  | row + 1, _ => p.splitPool t (row + 1) col

/-- The completed table of a sentence, with what follows from it. -/
def recognise (p : Population α) (w : Sentence) : Except Fault (Parse α) := do
  let t ← Table.fill (p.cellPool w.symbols) w.length
  pure (Parse.ofTable p.limits.start w t)

/-- The tally of verdicts on a list of sentences. -/
def evaluate (p : Population α) (ws : List Sentence) : Except Fault Tally :=
  ws.foldlM (fun tally w => do
    let parse ← p.recognise w
    tally.record? parse.verdict?) Tally.zero

end Population

end GrammarInduction
