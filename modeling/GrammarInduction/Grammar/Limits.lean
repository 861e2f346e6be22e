import GrammarInduction.Grammar.Rule
import GrammarInduction.Random.Draw

/-!
# Limits of a grammar

The limits name the starting symbol and bound the symbols and pair rules of a grammar.  Random
symbols are drawn from one up to the symbol limit.
-/

namespace GrammarInduction

/-- The symbols that play a part of their own and the sizes that a grammar may have. -/
structure Limits where
  /-- The root of every accepted sentence. -/
  start : Symbol
  /-- A catch-all symbol for terminals that no rule covers. -/
  universal? : Option Symbol
  /-- The greatest non-terminal that is drawn at random. -/
  symbolLimit : Int
  /-- The count of pair rules from which on growth is checked. -/
  pairRuleLimit : Nat
  /-- The count of random pair rules a run starts with. -/
  initialPairRules : Nat
deriving DecidableEq, Repr

namespace Limits

/-- Twenty symbols and 120 pair rules, started from symbol one. -/
def standard : Limits := ⟨1, none, 20, 120, 0⟩

/-- What is wrong with limits. -/
inductive Flaw where
  | noSymbols
  | startOutOfRange
  | universalOutOfRange
  | universalIsStart
  | noRules
deriving DecidableEq, Repr

/-- The wording of a flaw. -/
def Flaw.message : Flaw → String
  | noSymbols => "max_non_terminal_symbols must be at least 1"
  | startOutOfRange => "starting_symbol must lie in [1, max_non_terminal_symbols]"
  | universalOutOfRange => "universal_symbol must lie in [1, max_non_terminal_symbols]"
  | universalIsStart => "universal_symbol must differ from starting_symbol"
  | noRules => "max_non_terminal_rules must be at least 1"

/-- Whether a symbol can be drawn at random. -/
def InRange (l : Limits) (s : Symbol) : Prop := 1 ≤ s ∧ s ≤ l.symbolLimit

instance (l : Limits) (s : Symbol) : Decidable (l.InRange s) :=
  inferInstanceAs (Decidable (1 ≤ s ∧ s ≤ l.symbolLimit))

/-- What is wrong with the universal symbol, if it is set. -/
def universalFlaw? (l : Limits) : Option Flaw :=
  match l.universal? with
  | none => none
  | some u =>
    if ¬ l.InRange u then some .universalOutOfRange
    else if u = l.start then some .universalIsStart
    else none

/-- The first flaw: symbols, start, universal symbol, rules. -/
def flaw? (l : Limits) : Option Flaw :=
  if l.symbolLimit < 1 then some .noSymbols
  else if ¬ l.InRange l.start then some .startOutOfRange
  else match l.universalFlaw? with
    | some flaw => some flaw
    | none => if l.pairRuleLimit = 0 then some .noRules else none

/-- A symbol from one to the limit, or one where the limit is smaller. -/
def randomSymbol (l : Limits) : Draw Symbol := do
  let n ← Draw.below (max l.symbolLimit 1).toNat
  pure (n + 1)

/-- Where there are symbols, a random symbol is one that is in range. -/
theorem inRange_randomSymbol {l : Limits} (h : 1 ≤ l.symbolLimit) (g : Generator) :
    l.InRange (l.randomSymbol g).1 := by
  have hmax : max l.symbolLimit 1 = l.symbolLimit := Int.max_eq_left h
  have hn : 0 < (max l.symbolLimit 1).toNat := by omega
  have hlt := Draw.below_lt hn g
  show 1 ≤ ((Draw.below (max l.symbolLimit 1).toNat g).1 : Int) + 1
    ∧ ((Draw.below (max l.symbolLimit 1).toNat g).1 : Int) + 1 ≤ l.symbolLimit
  omega

/-- A pair rule of three random symbols: parent, left and right, drawn in this order. -/
def randomPairRule (l : Limits) : Draw Rule := do
  let parent ← l.randomSymbol
  let left ← l.randomSymbol
  let right ← l.randomSymbol
  pure (.pair parent left right)

end Limits

end GrammarInduction
