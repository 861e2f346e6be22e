import GrammarInduction.Grammar.Index
import GrammarInduction.Grammar.Rule

/-!
# Rule sets

A rule set is a finite map from bodies to parents: a body has at most one rule, and a rule that is
added takes the place of any other rule with its body.  Pairs and terminals are indexed apart, and each
index counts its rules.  The main definitions:

* `RuleSet.owner?` — the parent of a body, the view that every operation is described by;
* `RuleSet.put`, `RuleSet.remove` — the last rule added to a body stays, and only a stored rule can be
  removed; `RuleSet.insert` and `RuleSet.erase` are the same without word of whether anything was done;
* `RuleSet.rules` — each stored rule once, in the order of bodies.
-/

namespace GrammarInduction

/-- Pairs of symbols in the order of the first, then of the second. -/
abbrev comparePairs : Symbol × Symbol → Symbol × Symbol → Ordering :=
  compareLex (compareOn Prod.fst) (compareOn Prod.snd)

instance : Std.LawfulEqCmp comparePairs where
  eq_of_compare h := by
    have h' := Ordering.then_eq_eq.1 h
    exact Prod.ext (Std.LawfulEqOrd.eq_of_compare h'.1) (Std.LawfulEqOrd.eq_of_compare h'.2)

/-- Rules with different bodies. -/
structure RuleSet where
  pairs : Index (Symbol × Symbol) comparePairs
  terminals : Index Symbol compare

/-- A body was looked up by a list of symbols that is not a pair. -/
structure ArityMismatch where
  actual : Nat
deriving DecidableEq, Repr

/-- The wording of a failed lookup. -/
def ArityMismatch.message (m : ArityMismatch) : String :=
  "invalid arity: by-right lookup expects 2 symbols, got " ++ toString m.actual

namespace RuleSet

/-- The set of no rule. -/
def empty : RuleSet := ⟨.empty, .empty⟩

/-- The parent of a body, if a rule with the body is stored. -/
def owner? (s : RuleSet) : Body → Option Symbol
  | .pair left right => s.pairs.owner? (left, right)
  | .terminal symbol => s.terminals.owner? symbol

/-- The stored rule of a body. -/
def ruleOf? (s : RuleSet) (b : Body) : Option Rule := (s.owner? b).map fun parent => ⟨parent, b⟩

/-- Whether a rule is stored. -/
def contains (s : RuleSet) (r : Rule) : Bool := decide (s.owner? r.body = some r.parent)

/-- The stored rule that adding `r` would remove: the same body under another parent. -/
def displaced? (s : RuleSet) (r : Rule) : Option Rule :=
  match s.owner? r.body with
  | some parent => if parent = r.parent then none else some ⟨parent, r.body⟩
  | none => none

/-- Adds a rule in the place of any rule with its body, and tells whether it is new. -/
def put (s : RuleSet) (r : Rule) : Bool × RuleSet :=
  match r.body with
  | .pair left right =>
    let (new, pairs) := s.pairs.put (left, right) r.parent
    (new, { s with pairs := pairs })
  | .terminal symbol =>
    let (new, terminals) := s.terminals.put symbol r.parent
    (new, { s with terminals := terminals })

/-- Removes a rule if it is stored, and tells whether it was. -/
def remove (s : RuleSet) (r : Rule) : Bool × RuleSet :=
  match r.body with
  | .pair left right =>
    let (stored, pairs) := s.pairs.remove (left, right) r.parent
    (stored, { s with pairs := pairs })
  | .terminal symbol =>
    let (stored, terminals) := s.terminals.remove symbol r.parent
    (stored, { s with terminals := terminals })

/-- Adds a rule in the place of any rule with its body. -/
def insert (s : RuleSet) (r : Rule) : RuleSet := (s.put r).2

/-- Removes a rule if it is stored. -/
def erase (s : RuleSet) (r : Rule) : RuleSet := (s.remove r).2

/-- The set of the rules of a list, each added in turn. -/
def ofList (rules : List Rule) : RuleSet := rules.foldl insert empty

/-- The stored rules whose body is a pair, by the pair. -/
def pairRules (s : RuleSet) : List Rule :=
  s.pairs.owners.toList.map fun ((left, right), parent) => .pair parent left right

/-- The stored rules whose body is a terminal, by the terminal. -/
def terminalRules (s : RuleSet) : List Rule :=
  s.terminals.owners.toList.map fun (symbol, parent) => .terminal parent symbol

/-- The stored rules in the order of bodies. -/
def rules (s : RuleSet) : List Rule := s.pairRules ++ s.terminalRules

/-- The count of pair rules. -/
def pairCount (s : RuleSet) : Nat := s.pairs.count

/-- The count of terminal rules. -/
def terminalCount (s : RuleSet) : Nat := s.terminals.count

/-- The count of all rules. -/
def size (s : RuleSet) : Nat := s.pairCount + s.terminalCount

/-- Whether no rule is counted. -/
def isEmpty (s : RuleSet) : Bool := s.size == 0

/-! ## What the operations do to the owners of bodies -/

@[simp]
theorem owner?_empty (b : Body) : empty.owner? b = none := by
  cases b with
  | pair => exact Index.owner?_empty _
  | terminal => exact Index.owner?_empty _

/-- A rule is new unless it owns its body. -/
theorem put_fst (s : RuleSet) (r : Rule) :
    (s.put r).1 = decide (s.owner? r.body ≠ some r.parent) := by
  obtain ⟨parent, body⟩ := r
  cases body with
  | pair => exact Index.put_fst ..
  | terminal => exact Index.put_fst ..

/-- A rule that is added owns its body, and all other bodies keep their owners. -/
theorem owner?_insert (s : RuleSet) (r : Rule) (b : Body) :
    (s.insert r).owner? b = if b = r.body then some r.parent else s.owner? b := by
  obtain ⟨parent, body⟩ := r
  cases body with
  | pair left right =>
      cases b with
      | pair left' right' =>
          show (s.pairs.put (left, right) parent).2.owner? (left', right') = _
          simp only [Index.owner?_put, Prod.mk.injEq, Body.pair.injEq, owner?]
      | terminal => simp [insert, put, owner?]
  | terminal symbol =>
      cases b with
      | pair => simp [insert, put, owner?]
      | terminal symbol' =>
          show (s.terminals.put symbol parent).2.owner? symbol' = _
          simp only [Index.owner?_put, Body.terminal.injEq, owner?]

/-- What is removed was stored. -/
theorem remove_fst (s : RuleSet) (r : Rule) : (s.remove r).1 = s.contains r := by
  obtain ⟨parent, body⟩ := r
  cases body with
  | pair => exact Index.remove_fst ..
  | terminal => exact Index.remove_fst ..

/-- A rule is stored exactly if it owns its body. -/
theorem contains_iff {s : RuleSet} {r : Rule} :
    s.contains r = true ↔ s.owner? r.body = some r.parent := by
  simp [contains]

/-- Only a stored rule can be erased, and then its body has no owner. -/
theorem owner?_erase (s : RuleSet) (r : Rule) (b : Body) :
    (s.erase r).owner? b
      = if s.owner? r.body = some r.parent ∧ b = r.body then none else s.owner? b := by
  obtain ⟨parent, body⟩ := r
  cases body with
  | pair left right =>
      cases b with
      | pair left' right' =>
          show (s.pairs.remove (left, right) parent).2.owner? (left', right') = _
          simp only [Index.owner?_remove, Prod.mk.injEq, Body.pair.injEq, owner?]
      | terminal => simp [erase, remove, owner?]
  | terminal symbol =>
      cases b with
      | pair => simp [erase, remove, owner?]
      | terminal symbol' =>
          show (s.terminals.remove symbol parent).2.owner? symbol' = _
          simp only [Index.owner?_remove, Body.terminal.injEq, owner?]

/-- Nothing is done about a rule that is not stored. -/
theorem erase_of_not_contains {s : RuleSet} {r : Rule} (h : s.contains r = false) :
    s.erase r = s := by
  rw [contains, decide_eq_false_iff_not] at h
  obtain ⟨parent, body⟩ := r
  cases body with
  | pair left right =>
      show (⟨(s.pairs.remove (left, right) parent).2, s.terminals⟩ : RuleSet) = s
      rw [Index.remove_of_ne h]
  | terminal symbol =>
      show (⟨s.pairs, (s.terminals.remove symbol parent).2⟩ : RuleSet) = s
      rw [Index.remove_of_ne h]

/-- A rule that is added is stored, besides the stored rules with other bodies. -/
theorem contains_insert {s : RuleSet} {r q : Rule} : (s.insert r).contains q = true
    ↔ q = r ∨ s.contains q = true ∧ q.body ≠ r.body := by
  rw [contains_iff, contains_iff, owner?_insert]
  by_cases hbody : q.body = r.body
  · rw [if_pos hbody]
    cases q
    cases r
    simp_all [eq_comm]
  · have hne : q ≠ r := fun heq => hbody (congrArg Rule.body heq)
    simp [hbody, hne]

/-- Only the rule that is erased is no longer stored. -/
theorem contains_erase {s : RuleSet} {r q : Rule} : (s.erase r).contains q = true
    ↔ s.contains q = true ∧ q ≠ r := by
  rw [contains_iff, contains_iff, owner?_erase]
  by_cases hr : s.owner? r.body = some r.parent ∧ q.body = r.body
  · obtain ⟨howner, hbody⟩ := hr
    rw [if_pos ⟨howner, hbody⟩, hbody, howner]
    constructor
    · intro hq
      cases hq
    · intro hq
      obtain ⟨hparent, hne⟩ := hq
      cases q
      cases r
      simp_all
  · rw [if_neg hr]
    constructor
    · intro hq
      refine ⟨hq, fun heq => hr ?_⟩
      rw [← heq]
      exact ⟨hq, rfl⟩
    · exact fun hq => hq.1

/-- The listed pair rules are those that own their pairs. -/
theorem mem_pairRules_iff {s : RuleSet} {r : Rule} :
    r ∈ s.pairRules ↔ s.owner? r.body = some r.parent ∧ r.isTerminal = false := by
  simp only [pairRules, List.mem_map, Prod.exists, Std.TreeMap.mem_toList_iff_getElem?_eq_some]
  constructor
  · rintro ⟨left, right, parent, h, rfl⟩
    exact ⟨h, rfl⟩
  · obtain ⟨parent, body⟩ := r
    cases body with
    | pair left right => exact fun h => ⟨left, right, parent, h.1, rfl⟩
    | terminal => exact fun h => nomatch h.2

/-- The listed terminal rules are those that own their terminals. -/
theorem mem_terminalRules_iff {s : RuleSet} {r : Rule} :
    r ∈ s.terminalRules ↔ s.owner? r.body = some r.parent ∧ r.isTerminal = true := by
  simp only [terminalRules, List.mem_map, Prod.exists, Std.TreeMap.mem_toList_iff_getElem?_eq_some]
  constructor
  · rintro ⟨symbol, parent, h, rfl⟩
    exact ⟨h, rfl⟩
  · obtain ⟨parent, body⟩ := r
    cases body with
    | pair => exact fun h => nomatch h.2
    | terminal symbol => exact fun h => ⟨symbol, parent, h.1, rfl⟩

/-- The listed rules are those that own their bodies. -/
theorem mem_rules {s : RuleSet} {r : Rule} : r ∈ s.rules ↔ s.owner? r.body = some r.parent := by
  rw [rules, List.mem_append, mem_pairRules_iff, mem_terminalRules_iff, ← and_or_left]
  exact and_iff_left (Bool.eq_false_or_eq_true _).symm

theorem mem_pairRules {s : RuleSet} {r : Rule} :
    r ∈ s.pairRules ↔ r ∈ s.rules ∧ r.isTerminal = false := by
  rw [mem_pairRules_iff, mem_rules]

theorem mem_terminalRules {s : RuleSet} {r : Rule} :
    r ∈ s.terminalRules ↔ r ∈ s.rules ∧ r.isTerminal = true := by
  rw [mem_terminalRules_iff, mem_rules]

/-- The stored rule of a body has this body and owns it. -/
theorem ruleOf?_eq_some_iff {s : RuleSet} {b : Body} {r : Rule} :
    s.ruleOf? b = some r ↔ r.body = b ∧ s.owner? b = some r.parent := by
  simp only [ruleOf?, Option.map_eq_some_iff]
  constructor
  · rintro ⟨parent, h, rfl⟩
    exact ⟨rfl, h⟩
  · rintro ⟨rfl, h⟩
    exact ⟨r.parent, h, rfl⟩

/-- What adding a rule removes is the rule that owns its body under another parent. -/
theorem displaced?_eq_some_iff {s : RuleSet} {r old : Rule} :
    s.displaced? r = some old
      ↔ old.body = r.body ∧ old.parent ≠ r.parent ∧ s.owner? r.body = some old.parent := by
  unfold displaced?
  cases h : s.owner? r.body with
  | none => simp
  | some parent =>
    by_cases hp : parent = r.parent
    · simp only [hp, if_true, Option.some.injEq]
      constructor
      · intro h
        cases h
      · rintro ⟨-, hne, heq⟩
        exact absurd heq.symm hne
    · simp only [hp, if_false, Option.some.injEq]
      constructor
      · rintro rfl
        exact ⟨rfl, hp, rfl⟩
      · rintro ⟨hb, -, rfl⟩
        cases old
        simp_all

/-- Where adding a rule removes none, only the rule itself may be stored with its body. -/
theorem eq_of_displaced?_eq_none {s : RuleSet} {r q : Rule} (free : s.displaced? r = none)
    (stored : s.contains q = true) (hbody : q.body = r.body) : q = r := by
  have howner := contains_iff.mp stored
  rw [hbody] at howner
  by_cases hparent : q.parent = r.parent
  · cases q
    cases r
    simp_all
  · have hheld := displaced?_eq_some_iff.mpr ⟨hbody, hparent, howner⟩
    rw [free] at hheld
    cases hheld

/-- Where adding a rule removes none, it leaves all that is stored. -/
theorem contains_insert_of_free {s : RuleSet} {r q : Rule} (free : s.displaced? r = none) :
    (s.insert r).contains q = true ↔ q = r ∨ s.contains q = true := by
  rw [contains_insert]
  constructor
  · exact fun hq => hq.imp_right And.left
  · intro hq
    rcases hq with hnew | hold
    · exact Or.inl hnew
    · by_cases hbody : q.body = r.body
      · exact Or.inl (eq_of_displaced?_eq_none free hold hbody)
      · exact Or.inr ⟨hold, hbody⟩

/-- Once the rule that adding would remove is gone, adding removes none; nor does it where another rule
is gone. -/
theorem displaced?_erase {s : RuleSet} {r old : Rule}
    (h : s.displaced? r = none ∨ s.displaced? r = some old) : (s.erase old).displaced? r = none := by
  apply Option.eq_none_iff_forall_ne_some.mpr
  intro x hx
  obtain ⟨hbody, hparent, howner⟩ := displaced?_eq_some_iff.mp hx
  rw [owner?_erase] at howner
  split at howner
  · cases howner
  · rename_i hkept
    have hx' := displaced?_eq_some_iff.mpr ⟨hbody, hparent, howner⟩
    rcases h with hfree | hheld
    · rw [hfree] at hx'
      cases hx'
    -- The rule that held the body is the one that is erased.
    · obtain ⟨hbody', -, howner'⟩ := displaced?_eq_some_iff.mp hheld
      exact hkept ⟨hbody' ▸ howner', hbody'.symm⟩

/-- Rules are listed in the order of their bodies. -/
theorem rules_pairwise (s : RuleSet) : s.rules.Pairwise fun a b => compare a.body b.body = .lt := by
  rw [rules, List.pairwise_append]
  refine ⟨?_, ?_, ?_⟩
  · exact List.Pairwise.map _ (fun _ _ h => h)
      (Std.TreeMap.ordered_keys_toList (t := s.pairs.owners))
  · refine List.Pairwise.map _ (fun a b h => ?_)
      (Std.TreeMap.ordered_keys_toList (t := s.terminals.owners))
    show (compare a.1 b.1).then _ = .lt
    rw [h]
    rfl
  · intro a ha b hb
    obtain ⟨_, -, rfl⟩ := List.mem_map.mp ha
    obtain ⟨_, -, rfl⟩ := List.mem_map.mp hb
    rfl

/-- No rule is listed twice. -/
theorem nodup_rules (s : RuleSet) : s.rules.Nodup := by
  refine s.rules_pairwise.imp fun {a b} hab heq => ?_
  rw [heq, Std.LawfulEqOrd.compare_eq_iff_eq.mpr rfl] at hab
  cases hab

theorem pairRules_sublist (s : RuleSet) : s.pairRules.Sublist s.rules :=
  List.sublist_append_left ..

theorem terminalRules_sublist (s : RuleSet) : s.terminalRules.Sublist s.rules :=
  List.sublist_append_right ..

theorem nodup_pairRules (s : RuleSet) : s.pairRules.Nodup :=
  s.nodup_rules.sublist s.pairRules_sublist

theorem nodup_terminalRules (s : RuleSet) : s.terminalRules.Nodup :=
  s.nodup_rules.sublist s.terminalRules_sublist

/-- The pair rules are counted right. -/
theorem length_pairRules (s : RuleSet) : s.pairRules.length = s.pairCount := by
  rw [pairRules, List.length_map, Std.TreeMap.length_toList, pairCount, Index.count_eq]

/-- The terminal rules are counted right. -/
theorem length_terminalRules (s : RuleSet) : s.terminalRules.length = s.terminalCount := by
  rw [terminalRules, List.length_map, Std.TreeMap.length_toList, terminalCount, Index.count_eq]

theorem length_rules (s : RuleSet) : s.rules.length = s.size := by
  rw [rules, List.length_append, length_pairRules, length_terminalRules, size]

/-- The pair rules are the listed rules that are not terminal. -/
theorem pairRules_eq (s : RuleSet) : s.pairRules = s.rules.filter fun r => !r.isTerminal := by
  have hpairs : s.pairRules.filter (fun r => !r.isTerminal) = s.pairRules := by
    refine List.filter_eq_self.mpr fun r hr => ?_
    rw [(mem_pairRules.mp hr).2, Bool.not_false]
  have hterminals : s.terminalRules.filter (fun r => !r.isTerminal) = [] := by
    refine List.filter_eq_nil_iff.mpr fun r hr => ?_
    rw [(mem_terminalRules.mp hr).2, Bool.not_true]
    exact Bool.false_ne_true
  rw [rules, List.filter_append, hpairs, hterminals, List.append_nil]

/-- The stored rule of a list of symbols, which has to be a pair. -/
def lookup (s : RuleSet) : List Symbol → Except ArityMismatch (Option Rule)
  | [left, right] => .ok (s.ruleOf? (.pair left right))
  | symbols => .error ⟨symbols.length⟩

end RuleSet

end GrammarInduction
