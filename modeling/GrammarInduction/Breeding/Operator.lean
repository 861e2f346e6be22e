import GrammarInduction.Grammar.Limits

/-!
# Genetic operators

A genetic operator changes pair rules, each with a chance; terminal rules pass through.  Four
operators change one rule, and crossover exchanges the bodies of two.

* `GeneticOperator.apply` — one operator along a list of rules, whose length it keeps.
-/

namespace GrammarInduction

/-- The changes that an operator makes. -/
inductive GeneticKind where
  | inversion
  | parentMutation
  | leftChildMutation
  | rightChildMutation
  | crossover
deriving DecidableEq, Repr

namespace GeneticKind

/-- The name of a change in messages. -/
def name : GeneticKind → String
  | inversion => "Inversion"
  | parentMutation => "ParentMutation"
  | leftChildMutation => "LeftChildMutation"
  | rightChildMutation => "RightChildMutation"
  | crossover => "Crossover"

/-- How many rules take part in a change. -/
def arity : GeneticKind → Nat
  | crossover => 2
  | _ => 1

end GeneticKind

/-- A change with the chance of making it. -/
structure GeneticOperator (α : Type) where
  kind : GeneticKind
  chance : α
deriving Repr

namespace GeneticOperator

/-- Two pair rules with their bodies exchanged; any other two rules stay. -/
def crossover (r s : Rule) : Rule × Rule :=
  if r.isTerminal ∨ s.isTerminal then (r, s) else (⟨r.parent, s.body⟩, ⟨s.parent, r.body⟩)

/-- A pair rule after a change of one rule. -/
def mutate (limits : Limits) (kind : GeneticKind) (r : Rule) : Draw Rule :=
  match r.body with
  | .terminal _ => pure r
  | .pair left right =>
    match kind with
    | .inversion => pure (.pair r.parent right left)
    | .parentMutation => do
      let s ← limits.randomSymbol
      pure (r.withParent s)
    | .leftChildMutation => do
      let s ← limits.randomSymbol
      pure (r.withLeft s)
    | .rightChildMutation => do
      let s ← limits.randomSymbol
      pure (r.withRight s)
    | .crossover => pure r

variable {α : Type} [Scalar α]

/-- The chance moved into the unit interval. -/
def clamped (op : GeneticOperator α) : GeneticOperator α :=
  { op with chance := Scalar.clampUnit op.chance }

/-- Changes each rule of a list with the given chance. -/
def applyEach (limits : Limits) (kind : GeneticKind) (chance : α) :
    List Rule → Attempt Generator (List Rule)
  | [] => pure []
  | r :: rest => do
    let fires ← Draw.chance chance
    let r ← if fires then (mutate limits kind r : Draw Rule) else pure r
    let rest ← applyEach limits kind chance rest
    pure (r :: rest)

/-- Crosses each two consecutive rules of a list with the given chance; a last rule without a partner
stays. -/
def applyPairs (chance : α) : List Rule → Attempt Generator (List Rule)
  | r :: s :: rest => do
    let fires ← Draw.chance chance
    let (r, s) := if fires then crossover r s else (r, s)
    let rest ← applyPairs chance rest
    pure (r :: s :: rest)
  | rest => pure rest

/-- Applies an operator along a list of rules. -/
def apply (limits : Limits) (op : GeneticOperator α) (rules : List Rule) :
    Attempt Generator (List Rule) :=
  match op.kind with
  | .crossover => applyPairs op.chance rules
  | kind => applyEach limits kind op.chance rules

end GeneticOperator

end GrammarInduction
