import GrammarInduction.Grammar.Limits
import GrammarInduction.Grammar.RuleSet
import Std.Data.TreeSet

/-!
# Productive and reachable symbols

A symbol is productive when rules expand it to terminals alone, and reachable when it turns up in an
expansion of the starting symbol.  Both sets are closures: a round adds what one pass over the rules
gives, and rounds are repeated until nothing is added.

* `RuleSet.productive`, `RuleSet.reachable` — the closures;
* `RuleSet.unproductiveRules`, `RuleSet.unreachableRules` — the rules that no derivation of a sentence
  can use on their account.
-/

namespace GrammarInduction

/-- A set of symbols. -/
abbrev SymbolSet := Std.TreeSet Symbol

namespace SymbolSet

/-- Rounds repeated until one adds nothing, at most as many as given. -/
def close (round : SymbolSet → SymbolSet) : Nat → SymbolSet → SymbolSet
  | 0, s => s
  | rounds + 1, s =>
    let t := round s
    if t.size = s.size then s else close round rounds t

end SymbolSet

namespace RuleSet

/-- Whether all symbols of a pair are in a set; of a terminal body nothing is asked. -/
def childrenIn (set : SymbolSet) : Body → Bool
  | .pair left right => set.contains left && set.contains right
  | .terminal _ => true

/-- The set with the parent of a rule whose children are in it. -/
def addParent (set : SymbolSet) (r : Rule) : SymbolSet :=
  if childrenIn set r.body then set.insert r.parent else set

/-- The set with the children of a pair rule whose parent is in it. -/
def addChildren (set : SymbolSet) (r : Rule) : SymbolSet :=
  match r.body with
  | .pair left right =>
    if set.contains r.parent then (set.insert left).insert right else set
  | .terminal _ => set

/-- Symbols that rules, or the universal symbol, expand to terminals alone. -/
def productive (s : RuleSet) (universal? : Option Symbol) : SymbolSet :=
  let leaves : SymbolSet :=
    s.terminalRules.foldl (fun set r => set.insert r.parent) (Std.TreeSet.ofList universal?.toList)
  SymbolSet.close (fun set => s.pairRules.foldl addParent set) (2 * s.size + 2) leaves

/-- Symbols that turn up in an expansion of the starting symbol. -/
def reachable (s : RuleSet) (start : Symbol) : SymbolSet :=
  SymbolSet.close (fun set => s.rules.foldl addChildren set) (2 * s.size + 2)
    (Std.TreeSet.ofList [start])

/-- The pair rules with a child that is not productive. -/
def unproductiveRules (s : RuleSet) (universal? : Option Symbol) : List Rule :=
  let set := s.productive universal?
  s.pairRules.filter fun r => !childrenIn set r.body

/-- The rules with a parent that is not reachable. -/
def unreachableRules (s : RuleSet) (start : Symbol) : List Rule :=
  let set := s.reachable start
  s.rules.filter fun r => !set.contains r.parent

end RuleSet

end GrammarInduction
