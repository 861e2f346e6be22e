import GrammarInduction.Grammar.Rule
import GrammarInduction.Scalar
import Std.Data.TreeMap

/-!
# Weightings

A weighting gives each rule a weight and a probability.  The probability of a rule is its share of
the weight of all rules with its parent, its *group*; where a group weighs nothing its rules are
equally likely.  Every operation ends by renormalising the groups it has touched.

* `Weighting.set`, `Weighting.remove`, `Weighting.reweigh` — the changes;
* `Weighting.renormalise` — the probabilities of one group from its weights;
* `Weighting.typical` — the weight a newcomer gets when none is given.
-/

namespace GrammarInduction

/-- Weights of rules and the probabilities that follow from them. -/
structure Weighting (α : Type) where
  weights : Std.TreeMap Rule α
  probabilities : Std.TreeMap Rule α

namespace Weighting

variable {α : Type} [Scalar α]

/-- The rules of a parent with their weights, in rule order. -/
def group (w : Weighting α) (parent : Symbol) : List (Rule × α) :=
  w.weights.toList.filter fun (r, _) => decide (r.parent = parent)

/-- The weight of a group. -/
def total (w : Weighting α) (parent : Symbol) : α := Scalar.sum ((w.group parent).map (·.2))

/-- The share of a weight in a group of given total and size. -/
def share (total : α) (size : Nat) (weight : α) : α :=
  if 0 < total then weight / total else 1 / Scalar.ofCount (max size 1)

/-- Probabilities of one group from its weights; all others stay. -/
def renormalise (w : Weighting α) (parent : Symbol) : Weighting α :=
  let members := w.group parent
  let total := w.total parent
  { w with
    probabilities := members.foldl
      (fun ps (r, weight) => ps.insert r (share total members.length weight)) w.probabilities }

/-- Equal weights for the rules of a list. -/
def uniform (rules : List Rule) : Weighting α :=
  let w : Weighting α := ⟨rules.foldl (fun ws r => ws.insert r 1) ∅, ∅⟩
  (rules.map Rule.parent).eraseDups.foldl renormalise w

/-- The probability of a rule, zero for one without weight. -/
def probability (w : Weighting α) (r : Rule) : α := (w.probabilities[r]?).getD 0

/-- The mean weight of a group, or one for a group that is empty or weighs nothing. -/
def typical (w : Weighting α) (parent : Symbol) : α :=
  let members := w.group parent
  let total := w.total parent
  if members.isEmpty ∨ total ≤ 0 then 1 else total / Scalar.ofCount members.length

/-- Gives a rule a weight, raised to zero. -/
def set (w : Weighting α) (r : Rule) (weight : α) : Weighting α :=
  renormalise { w with weights := w.weights.insert r (Scalar.nonNegative weight) } r.parent

/-- Forgets a rule. -/
def remove (w : Weighting α) (r : Rule) : Weighting α :=
  renormalise ⟨w.weights.erase r, w.probabilities.erase r⟩ r.parent

/-- New weights, raised to zero, for those rules of a list that have one; of several for one rule the
last counts. -/
def reweigh (w : Weighting α) (changes : List (Rule × α)) : Weighting α :=
  let known := changes.filter fun (r, _) => w.weights.contains r
  let changed : Weighting α :=
    { w with
      weights := known.foldl
        (fun ws (r, weight) => ws.insert r (Scalar.nonNegative weight)) w.weights }
  (known.map fun (r, _) => r.parent).eraseDups.foldl renormalise changed

/-- The sum of the probabilities of a parent's rules. -/
def parentSum (w : Weighting α) (parent : Symbol) : α :=
  Scalar.sum ((w.probabilities.toList.filter fun (r, _) => decide (r.parent = parent)).map (·.2))

end Weighting

end GrammarInduction
