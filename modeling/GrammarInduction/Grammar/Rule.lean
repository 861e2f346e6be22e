import GrammarInduction.Grammar.Symbol

/-!
# Rules in binary normal form

A rule expands its parent to a single terminal or to a pair of symbols, its *body*.  Bodies and
rules are ordered, and both orders are used by every container that lists rules:

* bodies: pairs before terminals, pairs by their symbols;
* rules: by parent, then by first symbol, then by second symbol, where none comes before any.
-/

namespace GrammarInduction

/-- The right-hand side of a rule. -/
inductive Body where
  | pair (left right : Symbol)
  | terminal (symbol : Symbol)
deriving DecidableEq, Repr, Inhabited

namespace Body

/-- The first symbol. -/
def left : Body → Symbol
  | pair l _ => l
  | terminal t => t

/-- The second symbol of a pair. -/
def right? : Body → Option Symbol
  | pair _ r => some r
  | terminal _ => none

/-- Whether the body is a single terminal. -/
def isTerminal : Body → Bool
  | pair .. => false
  | terminal _ => true

/-- The count of symbols. -/
def arity : Body → Nat
  | pair .. => 2
  | terminal _ => 1

/-- Pairs rank before terminals. -/
def rank : Body → Nat
  | pair .. => 0
  | terminal _ => 1

instance : Ord Body where
  compare a b :=
    (compare a.rank b.rank).then ((compare a.left b.left).then (compare a.right? b.right?))

instance : Std.TransOrd Body :=
  inferInstanceAs (Std.TransCmp
    (compareLex (compareOn rank) (compareLex (compareOn left) (compareOn right?))))

/-- A body is told by its first symbol and its second, if any. -/
theorem ext_left_right {a b : Body} (h : a.left = b.left) (k : a.right? = b.right?) : a = b := by
  cases a <;> cases b <;> simp_all [left, right?]

instance : Std.LawfulEqOrd Body where
  eq_of_compare {a b} h := by
    have h' := Ordering.then_eq_eq.1 h
    have h'' := Ordering.then_eq_eq.1 h'.2
    exact ext_left_right (Std.LawfulEqOrd.eq_of_compare h''.1)
      (Std.LawfulEqOrd.eq_of_compare h''.2)

end Body

/-- A rule of the grammar: its parent may be expanded to its body. -/
structure Rule where
  parent : Symbol
  body : Body
deriving DecidableEq, Repr, Inhabited

namespace Rule

/-- The rule from a parent to a pair. -/
def pair (parent left right : Symbol) : Rule := ⟨parent, .pair left right⟩

/-- The rule from a parent to a terminal. -/
def terminal (parent symbol : Symbol) : Rule := ⟨parent, .terminal symbol⟩

/-- The first symbol of the body. -/
def left (r : Rule) : Symbol := r.body.left

/-- The second symbol of the body, if any. -/
def right? (r : Rule) : Option Symbol := r.body.right?

/-- Whether the body is a single terminal. -/
def isTerminal (r : Rule) : Bool := r.body.isTerminal

/-- The count of symbols in the body. -/
def arity (r : Rule) : Nat := r.body.arity

instance : Ord Rule where
  compare r s :=
    (compare r.parent s.parent).then
      ((compare r.left s.left).then (compare r.right? s.right?))

instance : Std.TransOrd Rule :=
  inferInstanceAs (Std.TransCmp
    (compareLex (compareOn parent) (compareLex (compareOn left) (compareOn right?))))

instance : Std.LawfulEqOrd Rule where
  eq_of_compare {r s} h := by
    have h' := Ordering.then_eq_eq.1 h
    have h'' := Ordering.then_eq_eq.1 h'.2
    have hp : r.parent = s.parent := Std.LawfulEqOrd.eq_of_compare h'.1
    have hb : r.body = s.body :=
      Body.ext_left_right (Std.LawfulEqOrd.eq_of_compare h''.1)
        (Std.LawfulEqOrd.eq_of_compare h''.2)
    cases r
    cases s
    simp_all

/-- The rule with another parent. -/
def withParent (r : Rule) (s : Symbol) : Rule := ⟨s, r.body⟩

/-- The rule with another first symbol. -/
def withLeft (r : Rule) (s : Symbol) : Rule :=
  match r.body with
  | .pair _ right => pair r.parent s right
  | .terminal _ => terminal r.parent s

/-- The rule with another second symbol; a terminal rule has none to change. -/
def withRight (r : Rule) (s : Symbol) : Rule :=
  match r.body with
  | .pair left _ => pair r.parent left s
  | .terminal _ => r

/-- How many places of two rules agree, if their bodies have the same arity. -/
def affinity? (r s : Rule) : Option Nat :=
  let agree (p : Prop) [Decidable p] : Nat := if p then 1 else 0
  match r.body, s.body with
  | .pair a b, .pair c d => some (agree (r.parent = s.parent) + agree (a = c) + agree (b = d))
  | .terminal a, .terminal b => some (agree (r.parent = s.parent) + agree (a = b))
  | _, _ => none

/-- The written form, parent and body with an arrow between. -/
def text (r : Rule) : String :=
  match r.body with
  | .pair a b => toString r.parent ++ " -> " ++ toString a ++ " " ++ toString b
  | .terminal t => toString r.parent ++ " -> " ++ toString t

/-- The rules of a list in ascending order, repetitions kept. -/
def sorted (rules : List Rule) : List Rule := rules.mergeSort fun r s => (compare r s).isLE

end Rule

end GrammarInduction
