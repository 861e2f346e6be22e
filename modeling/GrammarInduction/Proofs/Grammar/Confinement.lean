import GrammarInduction.Grammar.Limits
import GrammarInduction.Grammar.RuleSet
import GrammarInduction.Grammar.Symbol
import GrammarInduction.Proofs.Random.Arrangement

/-!
# Rules of the symbols in range

Sound limits bound the symbols that are drawn, and the symbols that play a part of their own.  A set of
rules is confined if it has no other symbols, and no terminals but those of given sentences.

* `Limits.Sound` — what the check of limits says of their symbols;
* `Limits.Admits` — a rule of symbols in range, or of one in range and a terminal of the sentences;
* `RuleSet.Confined` — a set of such rules;
* `Limits.randomPairRule_always` — random rules are admitted.
-/

namespace GrammarInduction

open Draw

namespace Limits

/-- There are symbols, and those with a part of their own are among them. -/
structure Sound (l : Limits) : Prop where
  symbols : 1 ≤ l.symbolLimit
  start : l.InRange l.start
  universal : ∀ u, l.universal? = some u → l.InRange u

/-- Limits without a flaw are sound. -/
theorem sound_of_flaw? {l : Limits} (h : l.flaw? = none) : l.Sound := by
  unfold flaw? at h
  split at h
  · cases h
  · rename_i hsymbols
    split at h
    · cases h
    · rename_i hstart
      refine ⟨Int.not_lt.mp hsymbols, Decidable.not_not.mp hstart, fun u hu => ?_⟩
      by_contra hrange
      have hflaw : l.universalFlaw? = some .universalOutOfRange := by
        rw [universalFlaw?, hu]
        exact if_pos hrange
      rw [hflaw] at h
      cases h

/-- The body is a terminal of one of the sentences, or a pair of symbols in range. -/
def AdmitsBody (l : Limits) (sentences : List Sentence) : Body → Prop
  | .terminal a => ∃ w ∈ sentences, a ∈ w.symbols
  | .pair left right => l.InRange left ∧ l.InRange right

/-- The rule has a parent in range and such a body. -/
structure Admits (l : Limits) (sentences : List Sentence) (r : Rule) : Prop where
  parent : l.InRange r.parent
  body : l.AdmitsBody sentences r.body

variable {l : Limits} {sentences : List Sentence}

theorem randomSymbol_always (h : l.Sound) : Always l.randomSymbol l.InRange :=
  inRange_randomSymbol h.symbols

/-- Random rules are admitted. -/
theorem randomPairRule_always (h : l.Sound) : Always l.randomPairRule (l.Admits sentences) :=
  (randomSymbol_always h).bind fun _ hparent =>
    (randomSymbol_always h).bind fun _ hleft =>
      (randomSymbol_always h).bind fun _ hright =>
        always_pure ⟨hparent, hleft, hright⟩

end Limits

namespace RuleSet

/-- All stored rules are admitted. -/
def Confined (l : Limits) (sentences : List Sentence) (rules : RuleSet) : Prop :=
  ∀ r, rules.contains r = true → l.Admits sentences r

variable {l : Limits} {sentences : List Sentence} {rules rules' : RuleSet} {r : Rule}

theorem confined_empty : empty.Confined l sentences := by
  intro r hr
  rw [contains_iff, owner?_empty] at hr
  cases hr

/-- Fewer rules are confined as well. -/
theorem Confined.mono (h : rules.Confined l sentences)
    (hsub : ∀ r, rules'.contains r = true → rules.contains r = true) : rules'.Confined l sentences :=
  fun r hr => h r (hsub r hr)

theorem Confined.erase (h : rules.Confined l sentences) (r : Rule) :
    (rules.erase r).Confined l sentences :=
  h.mono fun _ hr => (contains_erase.mp hr).1

theorem Confined.insert (h : rules.Confined l sentences) (hr : l.Admits sentences r) :
    (rules.insert r).Confined l sentences := by
  intro q hq
  rcases contains_insert.mp hq with rfl | hold
  · exact hr
  · exact h q hold.1

end RuleSet

end GrammarInduction
