/-!
# Symbols and sentences

Symbols are integers: terminals are negative, non-terminals positive, and zero is never given out.
A sentence is a list of symbols with what is known about its membership in the language.
-/

namespace GrammarInduction

/-- The identity of a terminal or a non-terminal. -/
abbrev Symbol := Int

namespace Symbol

/-- Whether a symbol is a terminal. -/
def isTerminal (s : Symbol) : Bool := decide (s < 0)

/-- Whether a symbol is a non-terminal. -/
def isNonTerminal (s : Symbol) : Bool := decide (0 < s)

end Symbol

/-- What is known about the membership of a sentence. -/
inductive Label where
  | positive
  | negative
  | unknown
deriving DecidableEq, Repr, Inhabited

/-- A labelled list of symbols. -/
structure Sentence where
  symbols : List Symbol
  label : Label
deriving DecidableEq, Repr, Inhabited

namespace Sentence

/-- The count of symbols. -/
def length (w : Sentence) : Nat := w.symbols.length

/-- Whether the sentence is known to belong to the language. -/
def isPositive (w : Sentence) : Bool := decide (w.label = .positive)

end Sentence

end GrammarInduction
