import GrammarInduction.Grammar.Symbol
import GrammarInduction.Text.Blank
import Std.Data.TreeMap

/-!
# Vocabularies

A vocabulary gives words their symbols.  Two maps hold them, one for each direction, and two counters the
symbols that come next: those of terminals count down from minus one, those of non-terminals up from one.
Words of both kinds share the maps, so a word keeps the symbol it got first, whatever kind it is offered as
later.

* `Vocabulary.intern` — the symbol of a word, a new one of the kind if it has none;
* `Vocabulary.symbol?`, `Vocabulary.word?` — the two directions;
* `Vocabulary.sentence` — the sentence of a text, or the first of its words that is not registered.
-/

namespace GrammarInduction

/-- The words and symbols that belong together, and the next symbol of each kind. -/
structure Vocabulary where
  symbols : Std.TreeMap String Symbol compare
  words : Std.TreeMap Symbol String compare
  nextTerminal : Symbol
  nextNonTerminal : Symbol

namespace Vocabulary

/-- What a word is offered as. -/
inductive Kind where
  | terminal
  | nonTerminal
deriving DecidableEq, Repr

/-- The step from one symbol of a kind to the next. -/
def Kind.stride : Kind → Int
  | terminal => -1
  | nonTerminal => 1

/-- What a vocabulary was asked for and does not hold. -/
inductive Unknown where
  | word (w : String)
  | symbol (s : Symbol)
deriving DecidableEq, Repr

/-- The wording of a failed lookup. -/
def Unknown.message : Unknown → String
  | word w => "unknown word: \"" ++ w ++ "\""
  | symbol s => "unknown symbol: " ++ toString s

/-- Counters have 32 bits: the greatest is followed by the least.  That step is taken with the word that
gets the symbol `2 ^ 31 - 1`, or `-2 ^ 31` among the terminals; a program that checks its sums ends at that
word, and up to the word before it the two agree. -/
def wrap (n : Int) : Symbol := n.bmod 0x100000000

/-- The vocabulary of no word. -/
def empty : Vocabulary := ⟨∅, ∅, -1, 1⟩

/-- The symbol of a registered word. -/
def symbol? (v : Vocabulary) (w : String) : Option Symbol := v.symbols[w]?

/-- The word of a symbol that was given out. -/
def word? (v : Vocabulary) (s : Symbol) : Option String := v.words[s]?

/-- The symbol of a word, or the fact that there is none. -/
def symbol (v : Vocabulary) (w : String) : Except Unknown Symbol :=
  match v.symbol? w with
  | some s => .ok s
  | none => .error (.word w)

/-- The word of a symbol, or the fact that there is none. -/
def word (v : Vocabulary) (s : Symbol) : Except Unknown String :=
  match v.word? s with
  | some w => .ok w
  | none => .error (.symbol s)

/-- The symbol that the next new word of a kind gets. -/
def next (v : Vocabulary) : Kind → Symbol
  | .terminal => v.nextTerminal
  | .nonTerminal => v.nextNonTerminal

/-- Moves the counter of a kind on. -/
def advance (v : Vocabulary) : Kind → Vocabulary
  | .terminal => { v with nextTerminal := wrap (v.nextTerminal + Kind.terminal.stride) }
  | .nonTerminal => { v with nextNonTerminal := wrap (v.nextNonTerminal + Kind.nonTerminal.stride) }

/-- Enters a word and a symbol into both maps. -/
def enter (v : Vocabulary) (w : String) (s : Symbol) : Vocabulary :=
  { v with symbols := v.symbols.insert w s, words := v.words.insert s w }

/-- The symbol of a word.  A word that has none is registered with the next symbol of the kind. -/
def intern (v : Vocabulary) (kind : Kind) (w : String) : Symbol × Vocabulary :=
  match v.symbol? w with
  | some s => (s, v)
  | none => (v.next kind, (v.advance kind).enter w (v.next kind))

/-- The symbol of a word that is offered as a terminal. -/
def internTerminal (v : Vocabulary) (w : String) : Symbol × Vocabulary := v.intern .terminal w

/-- The symbol of a word that is offered as a non-terminal. -/
def internNonTerminal (v : Vocabulary) (w : String) : Symbol × Vocabulary := v.intern .nonTerminal w

/-- How far the counter of terminals has come, as a word of 64 bits. -/
def terminalCount (v : Vocabulary) : Nat :=
  (wrap (-1 - v.nextTerminal) % 0x10000000000000000).toNat

/-- The sentence that a text spells, or the first word that is not registered. -/
def sentence (v : Vocabulary) (text : String) (label : Label) : Except Unknown Sentence := do
  let symbols ← (Text.words text).mapM v.symbol
  pure ⟨symbols, label⟩

/-! ## Lookups -/

theorem symbol_eq_ok_iff {v : Vocabulary} {w : String} {s : Symbol} :
    v.symbol w = .ok s ↔ v.symbol? w = some s := by
  unfold symbol
  cases v.symbol? w <;> simp

theorem word_eq_ok_iff {v : Vocabulary} {s : Symbol} {w : String} :
    v.word s = .ok w ↔ v.word? s = some w := by
  unfold word
  cases v.word? s <;> simp

theorem symbol_of_unknown {v : Vocabulary} {w : String} (h : v.symbol? w = none) :
    v.symbol w = .error (.word w) := by
  rw [symbol, h]

@[simp]
theorem symbol?_empty (w : String) : empty.symbol? w = none := by
  simp [empty, symbol?]

@[simp]
theorem word?_empty (s : Symbol) : empty.word? s = none := by
  simp [empty, word?]

@[simp]
theorem symbol?_enter (v : Vocabulary) (w u : String) (s : Symbol) :
    (v.enter w s).symbol? u = if w = u then some s else v.symbol? u := by
  simp [enter, symbol?, Std.TreeMap.getElem?_insert]

@[simp]
theorem word?_enter (v : Vocabulary) (w : String) (s t : Symbol) :
    (v.enter w s).word? t = if s = t then some w else v.word? t := by
  simp [enter, word?, Std.TreeMap.getElem?_insert]

@[simp]
theorem next_enter (v : Vocabulary) (w : String) (s : Symbol) (kind : Kind) :
    (v.enter w s).next kind = v.next kind := by
  cases kind <;> rfl

@[simp]
theorem symbol?_advance (v : Vocabulary) (kind : Kind) (w : String) :
    (v.advance kind).symbol? w = v.symbol? w := by
  cases kind <;> rfl

@[simp]
theorem word?_advance (v : Vocabulary) (kind : Kind) (s : Symbol) :
    (v.advance kind).word? s = v.word? s := by
  cases kind <;> rfl

/-- Only the counter of the kind moves. -/
theorem next_advance (v : Vocabulary) (kind other : Kind) :
    (v.advance kind).next other
      = if other = kind then wrap (v.next kind + kind.stride) else v.next other := by
  cases kind <;> cases other <;> rfl

/-- A registered word has its symbol, and nothing changes. -/
theorem intern_of_known {v : Vocabulary} {w : String} {s : Symbol} (h : v.symbol? w = some s)
    (kind : Kind) : v.intern kind w = (s, v) := by
  rw [intern, h]

theorem intern_of_unknown {v : Vocabulary} {w : String} (h : v.symbol? w = none) (kind : Kind) :
    v.intern kind w = (v.next kind, (v.advance kind).enter w (v.next kind)) := by
  rw [intern, h]

end Vocabulary

end GrammarInduction
