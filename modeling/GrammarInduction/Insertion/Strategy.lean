import GrammarInduction.Grammar.Rule

/-!
# Insertion strategies

A rule is submitted with a hint that says whether the grammar may grow.  A strategy serves one hint:

* `Strategy.simple` — the grammar grows;
* `Strategy.crowding` — a weak rule much like the newcomer makes way;
* `Strategy.elitism` — crowding that spares the fittest rules.
-/

namespace GrammarInduction

/-- What a submission wants of the size of the grammar. -/
inductive Hint where
  | expand
  | keepSize
  | keepSizeSparingElite
deriving DecidableEq, Repr

/-- What a submission did. -/
inductive Outcome where
  /-- The rule was there already. -/
  | existing
  | inserted
  /-- The rule took the place of another. -/
  | replaced (old : Rule)
deriving DecidableEq, Repr

/-- How crowding looks for a weak rule: rounds, and rules drawn in each. -/
structure Crowding where
  factor : Nat
  size : Nat
deriving DecidableEq, Repr

namespace Crowding

/-- Two rounds of three rules. -/
def standard : Crowding := ⟨2, 3⟩

/-- What is wrong with the parameters of crowding. -/
inductive Flaw where
  | noRounds
  | emptyRounds
deriving DecidableEq, Repr

/-- The wording of a flaw. -/
def Flaw.message : Flaw → String
  | noRounds => "crowding factor must be at least 1"
  | emptyRounds => "crowding size must be at least 1"

/-- The first flaw: factor, size. -/
def flaw? (c : Crowding) : Option Flaw :=
  if c.factor = 0 then some .noRounds else if c.size = 0 then some .emptyRounds else none

end Crowding

/-- How rules enter a grammar. -/
inductive Strategy where
  | simple
  | crowding (c : Crowding)
  /-- Crowding that spares as many rules as given. -/
  | elitism (c : Crowding) (size : Nat)
deriving DecidableEq, Repr

/-- The hint that a strategy serves. -/
def Strategy.hint : Strategy → Hint
  | simple => .expand
  | crowding _ => .keepSize
  | elitism .. => .keepSizeSparingElite

/-- Whether a strategy serves a hint. -/
def Strategy.supports (s : Strategy) (h : Hint) : Bool := decide (s.hint = h)

/-- The installed strategies and the rules spared last. -/
structure Supervisor where
  strategies : List Strategy
  elite : List Rule
deriving Repr

namespace Supervisor

/-- A supervisor that spares no rule yet. -/
def ofStrategies (strategies : List Strategy) : Supervisor := ⟨strategies, []⟩

/-- One strategy for each hint. -/
def standard (c : Crowding) (eliteSize : Nat) : Supervisor :=
  ofStrategies [.simple, .crowding c, .elitism c eliteSize]

/-- How many rules the first elitist strategy spares, if there is one. -/
def eliteSize? (s : Supervisor) : Option Nat :=
  s.strategies.findSome? fun
    | .elitism _ size => some size
    | _ => none

/-- The hint that stands in for growth when the grammar must not grow. -/
def sizeHint (s : Supervisor) : Hint :=
  if s.eliteSize?.isSome then .keepSizeSparingElite else .keepSize

/-- The first installed strategy that serves a hint. -/
def strategyFor? (s : Supervisor) (h : Hint) : Option Strategy :=
  s.strategies.find? fun strategy => strategy.supports h

end Supervisor

end GrammarInduction
