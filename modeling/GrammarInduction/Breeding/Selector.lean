import GrammarInduction.Grammar.Rule
import GrammarInduction.Random.Draw
import GrammarInduction.Ranking
import GrammarInduction.Word

/-!
# Selectors

A selector picks a rule from a list, the fitter the likelier.  From a list of at most one rule
nothing is drawn.

* `Selector.tournament` — the fittest of some rules drawn with repetition;
* `Selector.roulette` — the likelihood is the share of the fitness;
* `Selector.rank` — the likelihood falls evenly from the fittest rule to the least fit.
-/

namespace GrammarInduction

/-- The ways to pick a rule. -/
inductive Selector where
  | random
  | tournament (size : Nat)
  | roulette
  | rank
deriving DecidableEq, Repr

namespace Selector

variable {α : Type} [Scalar α]

/-- The usual selector: the fitter of two. -/
def standard : Selector := .tournament 2

/-- The fitter of the best rule so far and of each of some further rules drawn. -/
def contest (fitness : Rule → α) (candidates : List Rule) (best : Option Rule) :
    Nat → Draw (Option Rule)
  | 0 => pure best
  | rounds + 1 => do
    let challenger ← Draw.choose candidates
    let winner := match best, challenger with
      | some b, some c => if fitness b < fitness c then some c else some b
      | _, c => c
    contest fitness candidates winner rounds

/-- The first element at which the running sum of weights passes a threshold. -/
def firstAbove {β : Type} (threshold running : α) : List (β × α) → Option β
  | [] => none
  | (x, weight) :: rest =>
    let running := running + weight
    if threshold < running then some x else firstAbove threshold running rest

/-- An element picked with a likelihood in proportion to its weight, or the fallback where rounding
lets the running sum end below the threshold. -/
def proportional {β : Type} (total : α) (weighted : List (β × α)) (fallback : Draw (Option β)) :
    Attempt Generator (Option β) := do
  let threshold ← Draw.real total
  match firstAbove threshold 0 weighted with
  | some x => pure (some x)
  | none => fallback

/-- A pick in proportion to fitness, uniform where no rule has any. -/
def byFitness (fitness : Rule → α) (candidates : List Rule) : Attempt Generator (Option Rule) :=
  let weighted := candidates.map fun r => (r, Scalar.nonNegative (fitness r))
  let total := Scalar.sum (weighted.map (·.2))
  if total ≤ 0 then (Draw.choose candidates : Draw (Option Rule))
  else proportional total weighted (pure candidates.getLast?)

/-- The candidates from the fittest on.  A place with the fitness there takes up 16 bytes. -/
def ranking (fitness : Rule → α) (candidates : List Rule) : Except Fault (List Rule) := do
  let ranked ← Ranking.descending 16 (fun (p : (Rule × Nat) × α) => p.2)
    (candidates.zipIdx.map fun p => (p, fitness p.1))
  pure (ranked.map (·.1.1))

/-- A pick in proportion to the place counted from the least fit rule.  The double of the sum of all places
is a machine word, and wraps around from `2 ^ 32` candidates on; a program that checks its products ends there,
and for fewer candidates the two agree. -/
def byRank (fitness : Rule → α) (candidates : List Rule) : Attempt Generator (Option Rule) := do
  let n := candidates.length
  let ranked ← (ranking fitness candidates : Except Fault (List Rule))
  let weighted := ranked.zipIdx.map fun (r, place) => (r, (Scalar.ofCount (n - place) : α))
  let twice := n * (n + 1) % wordCount
  proportional (Scalar.ofCount twice / Scalar.ofCount 2) weighted (Draw.choose ranked)

/-- Picks one of the candidates, if there are any. -/
def select (s : Selector) (fitness : Rule → α) (candidates : List Rule) :
    Attempt Generator (Option Rule) :=
  if candidates.length ≤ 1 then pure candidates.head?
  else match s with
    | random => (Draw.choose candidates : Draw (Option Rule))
    | tournament size => do
      let first ← (Draw.choose candidates : Draw (Option Rule))
      (contest fitness candidates first (size - 1) : Draw (Option Rule))
    | roulette => byFitness fitness candidates
    | rank => byRank fitness candidates

end Selector

end GrammarInduction
