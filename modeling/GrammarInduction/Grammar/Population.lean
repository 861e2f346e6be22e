import GrammarInduction.Grammar.Limits
import GrammarInduction.Grammar.RuleSet
import GrammarInduction.Grammar.Weighting

/-!
# Populations

A population is a rule set under limits, plain or weighted.  In a plain population every rule has
probability one.

* `Population.insert` — a rule takes the place of any other with its body; in a weighted population
  the newcomer gets the typical weight of its parent's rules;
* `Population.erase` — a stored rule leaves, together with its weight;
* `Population.add`, `Population.remove` — the same, with word of whether anything was done.
-/

namespace GrammarInduction

/-- A grammar with its limits and, where rules compete, their weights. -/
structure Population (α : Type) where
  limits : Limits
  rules : RuleSet
  weighting? : Option (Weighting α)

namespace Population

variable {α : Type} [Scalar α]

/-- A plain population of the rules of a list. -/
def ofRules (limits : Limits) (rules : List Rule) : Population α :=
  ⟨limits, RuleSet.ofList rules, none⟩

/-- The population with equal weights within each parent's rules. -/
def withUniformWeights (p : Population α) : Population α :=
  { p with weighting? := some (Weighting.uniform p.rules.rules) }

/-- Whether a rule is stored. -/
def contains (p : Population α) (r : Rule) : Bool := p.rules.contains r

/-- The probability of a rule. -/
def probability (p : Population α) (r : Rule) : α :=
  match p.weighting? with
  | none => 1
  | some w => w.probability r

/-- Removes a rule if it is stored, and its weight with it, and tells whether it was. -/
def remove (p : Population α) (r : Rule) : Bool × Population α :=
  let (stored, rules) := p.rules.remove r
  let weighting? := if stored then p.weighting?.map (·.remove r) else p.weighting?
  (stored, { p with rules := rules, weighting? := weighting? })

/-- Removes a rule if it is stored. -/
def erase (p : Population α) (r : Rule) : Population α := (p.remove r).2

/-- Removes the rule that shares its body with a newcomer of another parent, so that its weight goes with
it; a plain population has no weight to forget, and leaves the rule to be overwritten. -/
def makeRoom (p : Population α) (r : Rule) : Population α :=
  match p.weighting?, p.rules.displaced? r with
  | some _, some old => p.erase old
  | _, _ => p

/-- Adds a rule of a given weight, which a plain population does not keep, in the place of any rule with
its body, and tells whether it is new. -/
def addWithWeight (p : Population α) (r : Rule) (weight : α) : Bool × Population α :=
  let q := p.makeRoom r
  let (new, rules) := q.rules.put r
  (new, { q with rules := rules, weighting? := q.weighting?.map (·.set r weight) })

/-- Adds a rule of a given weight. -/
def insertWithWeight (p : Population α) (r : Rule) (weight : α) : Population α :=
  (p.addWithWeight r weight).2

/-- The weight of a newcomer: the typical weight of its parent's rules before it comes. -/
def newcomerWeight (p : Population α) (r : Rule) : α :=
  match p.weighting? with
  | none => 1
  | some w => w.typical r.parent

/-- Adds a rule of the typical weight, and tells whether it is new. -/
def add (p : Population α) (r : Rule) : Bool × Population α := p.addWithWeight r (p.newcomerWeight r)

/-- Adds a rule in the place of any rule with its body. -/
def insert (p : Population α) (r : Rule) : Population α := p.insertWithWeight r (p.newcomerWeight r)

/-- New weights for stored rules; a plain population has none to change. -/
def reweigh (p : Population α) (changes : List (Rule × α)) : Population α :=
  { p with weighting? := p.weighting?.map (·.reweigh changes) }

/-! ## What the operations do to the stored rules -/

/-- What leaves a population leaves its rule set. -/
theorem rules_erase (p : Population α) (r : Rule) : (p.erase r).rules = p.rules.erase r := rfl

/-- Nothing is done about a rule that is not stored. -/
theorem erase_of_not_contains {p : Population α} {r : Rule} (h : p.contains r = false) :
    p.erase r = p := by
  have hrules : p.rules.erase r = p.rules := RuleSet.erase_of_not_contains h
  have hstored : (p.rules.remove r).1 = false := (RuleSet.remove_fst p.rules r).trans h
  show (⟨p.limits, p.rules.erase r,
    if (p.rules.remove r).1 then p.weighting?.map (·.remove r) else p.weighting?⟩ : Population α) = p
  rw [hrules, hstored]
  rfl

/-- A stored rule that leaves takes its weight along. -/
theorem weighting?_erase {p : Population α} {r : Rule} (h : p.contains r = true) :
    (p.erase r).weighting? = p.weighting?.map (·.remove r) :=
  if_pos ((RuleSet.remove_fst p.rules r).trans h)

@[simp]
theorem limits_erase (p : Population α) (r : Rule) : (p.erase r).limits = p.limits := rfl

@[simp]
theorem limits_makeRoom (p : Population α) (r : Rule) : (p.makeRoom r).limits = p.limits := by
  unfold makeRoom
  split
  · exact limits_erase ..
  · rfl

@[simp]
theorem limits_insert (p : Population α) (r : Rule) : (p.insert r).limits = p.limits :=
  limits_makeRoom p r

/-- Only the rule that is erased leaves a population. -/
theorem contains_erase {p : Population α} {r q : Rule} : (p.erase r).contains q = true
    ↔ p.contains q = true ∧ q ≠ r := by
  rw [contains, rules_erase]
  exact RuleSet.contains_erase

/-- Room is made in the body of the newcomer alone. -/
theorem owner?_makeRoom (p : Population α) (r : Rule) (b : Body) (h : b ≠ r.body) :
    (p.makeRoom r).rules.owner? b = p.rules.owner? b := by
  unfold makeRoom
  split
  · rename_i w old hw hold
    have hbody : old.body = r.body := (RuleSet.displaced?_eq_some_iff.mp hold).1
    rw [rules_erase, RuleSet.owner?_erase, hbody]
    rw [if_neg (fun hand => h hand.2)]
  · rfl

/-- The newcomer owns its body once room is made only if it did before. -/
theorem owner?_makeRoom_self (p : Population α) (r : Rule) :
    (p.makeRoom r).rules.owner? r.body = some r.parent ↔ p.rules.owner? r.body = some r.parent := by
  unfold makeRoom
  split
  · rename_i w old hw hold
    obtain ⟨hbody, hparent, howner⟩ := RuleSet.displaced?_eq_some_iff.mp hold
    rw [rules_erase, RuleSet.owner?_erase, hbody, howner, if_pos ⟨rfl, rfl⟩]
    simp [hparent]
  · rfl

/-- Once room is made in a weighted population, adding the newcomer removes no rule. -/
theorem displaced?_makeRoom {p : Population α} {w : Weighting α} (h : p.weighting? = some w)
    (r : Rule) : (p.makeRoom r).rules.displaced? r = none := by
  unfold makeRoom
  rw [h]
  cases hd : p.rules.displaced? r with
  | none => exact hd
  | some old => exact RuleSet.displaced?_erase (Or.inr hd)

/-- A rule that is added owns its body, and all other bodies keep their owners, whatever its weight. -/
theorem owner?_insertWithWeight (p : Population α) (r : Rule) (weight : α) (b : Body) :
    (p.insertWithWeight r weight).rules.owner? b
      = if b = r.body then some r.parent else p.rules.owner? b := by
  show ((p.makeRoom r).rules.insert r).owner? b = _
  rw [RuleSet.owner?_insert]
  by_cases hb : b = r.body
  · rw [if_pos hb, if_pos hb]
  · rw [if_neg hb, if_neg hb, owner?_makeRoom p r b hb]

theorem owner?_insert (p : Population α) (r : Rule) (b : Body) :
    (p.insert r).rules.owner? b = if b = r.body then some r.parent else p.rules.owner? b :=
  owner?_insertWithWeight p r (p.newcomerWeight r) b

/-- A rule is new unless it owned its body. -/
theorem addWithWeight_fst (p : Population α) (r : Rule) (weight : α) :
    (p.addWithWeight r weight).1 = decide (p.rules.owner? r.body ≠ some r.parent) := by
  show ((p.makeRoom r).rules.put r).1 = _
  rw [RuleSet.put_fst]
  exact decide_eq_decide.mpr (not_congr (owner?_makeRoom_self p r))

/-- A rule that is added is stored, besides the stored rules with other bodies. -/
theorem contains_insertWithWeight {p : Population α} {r q : Rule} {weight : α} :
    (p.insertWithWeight r weight).contains q = true
      ↔ q = r ∨ p.contains q = true ∧ q.body ≠ r.body := by
  rw [contains, contains, ← RuleSet.contains_insert, RuleSet.contains_iff, RuleSet.contains_iff,
    owner?_insertWithWeight, RuleSet.owner?_insert]

end Population

end GrammarInduction
