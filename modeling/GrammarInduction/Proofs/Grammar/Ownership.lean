import Mathlib.Data.Finmap
import GrammarInduction.Proofs.Grammar.Normalisation

/-!
# Populations are finite maps

A population answers every question as a finite map from bodies to parents would: a rule that is added
overwrites the entry of its body, and a rule that is removed takes the entry along only if it is the
one that is stored.  Two indexes and two counts that are kept by hand stand for the map, and a weighted
population first removes the rule that it is about to overwrite; none of this can be told from outside.

* `Ownership` — the finite maps, with what an update does to them;
* `RuleSet.Stores` — a rule set has the entries of a map;
* `RuleSet.AnswersAs` — every question that can be asked of a rule set, and its answer in the map;
* `RuleSet.Stores.answersAs` — the entries settle all answers;
* `Population.represents_of_updates` — populations of both kinds, after any sequence of updates.
-/

namespace GrammarInduction

/-! ## Bodies in order -/

/-- Pairs come before terminals, pairs by their first and then by their second symbol. -/
def Body.Precedes : Body → Body → Prop
  | .pair a b, .pair c d => a < c ∨ a = c ∧ b < d
  | .pair .., .terminal _ => True
  | .terminal _, .pair .. => False
  | .terminal a, .terminal b => a < b

/-- Bodies are compared by this order. -/
theorem Body.precedes_iff {a b : Body} : a.Precedes b ↔ compare a b = .lt := by
  cases a with
  | pair left right =>
      cases b with
      | pair left' right' =>
          show _ ↔ (compare left left').then (compare right right') = .lt
          rw [Ordering.then_eq_lt, compare_lt_iff_lt, compare_lt_iff_lt, compare_eq_iff_eq]
          rfl
      | terminal => exact iff_of_true trivial rfl
  | terminal symbol =>
      cases b with
      | pair => exact iff_of_false id fun h => nomatch h
      | terminal symbol' =>
          show _ ↔ (compare symbol symbol').then .eq = .lt
          rw [Ordering.then_eq, compare_lt_iff_lt]
          rfl

/-! ## Finite maps from bodies to parents -/

/-- Parents of bodies. -/
abbrev Ownership := Finmap fun _ : Body => Symbol

namespace Ownership

/-- The last rule that is added to a body stays. -/
def add (m : Ownership) (r : Rule) : Ownership := m.insert r.body r.parent

/-- A rule leaves if its body has its parent. -/
def remove (m : Ownership) (r : Rule) : Ownership :=
  if m.lookup r.body = some r.parent then m.erase r.body else m

/-- The map of the rules of a list, each added in turn. -/
def ofList (rules : List Rule) : Ownership := rules.foldl add ∅

/-- The map after an update of a population; weights are not its business. -/
def update {α : Type} (m : Ownership) : Population.Update α → Ownership
  | .add r => m.add r
  | .addWithWeight r _ => m.add r
  | .remove r => m.remove r
  | .reweigh _ => m

/-- The map after updates in turn. -/
def updateAll {α : Type} (m : Ownership) (updates : List (Population.Update α)) : Ownership :=
  updates.foldl update m

theorem lookup_add (m : Ownership) (r : Rule) (b : Body) :
    (m.add r).lookup b = if b = r.body then some r.parent else m.lookup b := by
  by_cases hb : b = r.body
  · rw [if_pos hb, hb, add, Finmap.lookup_insert]
  · rw [if_neg hb, add, Finmap.lookup_insert_of_ne m hb]

theorem lookup_remove (m : Ownership) (r : Rule) (b : Body) :
    (m.remove r).lookup b
      = if m.lookup r.body = some r.parent ∧ b = r.body then none else m.lookup b := by
  unfold remove
  by_cases hstored : m.lookup r.body = some r.parent
  · rw [if_pos hstored]
    by_cases hb : b = r.body
    · rw [if_pos ⟨hstored, hb⟩, hb, Finmap.lookup_erase]
    · rw [if_neg fun hand => hb hand.2, Finmap.lookup_erase_ne hb]
  · rw [if_neg hstored, if_neg fun hand => hstored hand.1]

theorem keys_eq_empty_iff {m : Ownership} : m.keys = ∅ ↔ m = ∅ := by
  constructor
  · intro hkeys
    apply Finmap.ext_lookup
    intro b
    have hb : b ∉ m := by
      rw [← Finmap.mem_keys, hkeys]
      exact Finset.notMem_empty b
    rw [Finmap.lookup_eq_none.mpr hb, Finmap.lookup_empty]
  · rintro rfl
    exact Finmap.keys_empty

end Ownership

/-! ## Rule sets against maps -/

namespace RuleSet

variable {s s' : RuleSet} {m : Ownership}

/-- A rule set has the entries of a map. -/
def Stores (s : RuleSet) (m : Ownership) : Prop := ∀ b, s.owner? b = m.lookup b

theorem stores_empty : empty.Stores ∅ := by
  intro b
  rw [owner?_empty, Finmap.lookup_empty]

theorem Stores.insert (h : s.Stores m) (r : Rule) : (s.insert r).Stores (m.add r) := by
  intro b
  rw [owner?_insert, Ownership.lookup_add, h b]

theorem Stores.erase (h : s.Stores m) (r : Rule) : (s.erase r).Stores (m.remove r) := by
  intro b
  rw [owner?_erase, Ownership.lookup_remove, h r.body, h b]

theorem stores_ofList (rules : List Rule) : (ofList rules).Stores (Ownership.ofList rules) := by
  have hfold : ∀ (rules : List Rule) (s : RuleSet) (m : Ownership), s.Stores m →
      (rules.foldl RuleSet.insert s).Stores (rules.foldl Ownership.add m) := by
    intro rules
    induction rules with
    | nil => exact fun s m h => h
    | cons r rules ih => exact fun s m h => ih _ _ (h.insert r)
  exact hfold rules empty ∅ stores_empty

/-- The owners of bodies settle which rules are listed, and where. -/
theorem rules_congr (h : ∀ b, s.owner? b = s'.owner? b) : s.rules = s'.rules := by
  -- Both lists are in the order of bodies, so it is enough that they have the same members.
  apply List.Perm.eq_of_pairwise _ s.rules_pairwise s'.rules_pairwise
  · apply (List.perm_ext_iff_of_nodup s.nodup_rules s'.nodup_rules).mpr
    intro r
    rw [mem_rules, mem_rules, h]
  · intro a b _ _ hab hba
    rw [Std.OrientedCmp.gt_iff_lt.mpr hab] at hba
    cases hba

/-- Rules that are added in turn leave the bodies that none of them has. -/
theorem owner?_foldl_insert_of_ne {rules : List Rule} {b : Body} (h : ∀ r ∈ rules, r.body ≠ b)
    (s : RuleSet) : (rules.foldl insert s).owner? b = s.owner? b := by
  induction rules generalizing s with
  | nil => rfl
  | cons r rules ih =>
      obtain ⟨hfirst, hrest⟩ := List.forall_mem_cons.mp h
      rw [List.foldl_cons, ih hrest, owner?_insert, if_neg (Ne.symm hfirst)]

/-- Of rules with different bodies that are added in turn, none is overwritten. -/
theorem owner?_foldl_insert_of_mem {rules : List Rule}
    (hdistinct : rules.Pairwise fun a b => a.body ≠ b.body) {r : Rule} (hr : r ∈ rules)
    (s : RuleSet) : (rules.foldl insert s).owner? r.body = some r.parent := by
  induction rules generalizing s with
  | nil => cases hr
  | cons q rules ih =>
      obtain ⟨hfirst, hrest⟩ := List.pairwise_cons.mp hdistinct
      rw [List.foldl_cons]
      rcases List.mem_cons.mp hr with rfl | hlater
      · have hfresh : ∀ x ∈ rules, x.body ≠ r.body := fun x hx => (hfirst x hx).symm
        rw [owner?_foldl_insert_of_ne hfresh, owner?_insert, if_pos rfl]
      · exact ih hrest hlater _

/-- Adding the listed rules to the empty set gives all of them back, and nothing else. -/
theorem owner?_ofList_rules (s : RuleSet) (b : Body) : (ofList s.rules).owner? b = s.owner? b := by
  have hdistinct : s.rules.Pairwise fun a b => a.body ≠ b.body := by
    refine s.rules_pairwise.imp fun {a b} hab heq => ?_
    rw [heq, Std.LawfulEqOrd.compare_eq_iff_eq.mpr rfl] at hab
    cases hab
  cases howner : s.owner? b with
  | some parent =>
      have hmem : (⟨parent, b⟩ : Rule) ∈ s.rules := mem_rules.mpr howner
      exact owner?_foldl_insert_of_mem hdistinct hmem empty
  | none =>
      rw [ofList, owner?_foldl_insert_of_ne, owner?_empty]
      rintro r hr rfl
      rw [mem_rules.mp hr] at howner
      cases howner

/-- Every question to a rule set is answered as by a map from bodies to parents. -/
structure AnswersAs (s : RuleSet) (m : Ownership) : Prop where
  contains : ∀ r, s.contains r = decide (m.lookup r.body = some r.parent)
  /-- Adding a rule displaces the owner of its body, unless that is the rule's own parent. -/
  displaced : ∀ r, s.displaced? r
    = ((m.lookup r.body).filter fun parent => parent ≠ r.parent).map fun parent => ⟨parent, r.body⟩
  ruleOf : ∀ b, s.ruleOf? b = (m.lookup b).map fun parent => ⟨parent, b⟩
  lookup : ∀ left right, s.lookup [left, right]
    = .ok ((m.lookup (.pair left right)).map fun parent => .pair parent left right)
  /-- Only lists of two symbols can be looked up. -/
  mismatch : ∀ symbols, symbols.length ≠ 2 → s.lookup symbols = .error ⟨symbols.length⟩
  pairCount : s.pairCount = (m.keys.filter fun b => b.isTerminal = false).card
  terminalCount : s.terminalCount = (m.keys.filter fun b => b.isTerminal = true).card
  size : s.size = m.keys.card
  isEmpty : s.isEmpty = true ↔ m = ∅
  mem : ∀ r, r ∈ s.rules ↔ m.lookup r.body = some r.parent
  nodup : s.rules.Nodup
  ordered : s.rules.Pairwise fun a b => a.body.Precedes b.body

namespace Stores

/-- Rules with different bodies are as many as their bodies in the map. -/
theorem length_eq_card (h : s.Stores m) {rules : List Rule} {P : Body → Prop} [DecidablePred P]
    (hnodup : rules.Nodup) (hmem : ∀ r, r ∈ rules ↔ s.owner? r.body = some r.parent ∧ P r.body) :
    rules.length = (m.keys.filter P).card := by
  have hbodies : (rules.map Rule.body).Nodup := by
    refine hnodup.map_on fun a ha b hb heq => ?_
    have howner := ((hmem a).mp ha).1
    rw [heq, ((hmem b).mp hb).1] at howner
    cases a
    cases b
    simp_all
  have hkeys : (rules.map Rule.body).toFinset = m.keys.filter P := by
    ext b
    rw [List.mem_toFinset, Finset.mem_filter, Finmap.mem_keys, Finmap.mem_iff, List.mem_map]
    constructor
    · rintro ⟨r, hr, rfl⟩
      obtain ⟨howner, hP⟩ := (hmem r).mp hr
      exact ⟨⟨r.parent, (h r.body).symm.trans howner⟩, hP⟩
    · rintro ⟨⟨parent, hparent⟩, hP⟩
      exact ⟨⟨parent, b⟩, (hmem _).mpr ⟨(h b).trans hparent, hP⟩, rfl⟩
  rw [← hkeys, List.toFinset_card_of_nodup hbodies, List.length_map]

theorem size_eq_card (h : s.Stores m) : s.size = m.keys.card := by
  have hmem : ∀ r, r ∈ s.rules ↔ s.owner? r.body = some r.parent ∧ True := by
    intro r
    rw [mem_rules, and_true]
  rw [← length_rules, h.length_eq_card (P := fun _ => True) s.nodup_rules hmem,
    Finset.filter_true]

/-- **The entries of a rule set settle every answer.** -/
theorem answersAs (h : s.Stores m) : s.AnswersAs m where
  contains r := by rw [RuleSet.contains, h]
  displaced r := by
    rw [displaced?, h]
    cases m.lookup r.body with
    | none => rfl
    | some parent => by_cases hparent : parent = r.parent <;> simp [hparent]
  ruleOf b := by rw [ruleOf?, h]
  lookup left right := by
    rw [RuleSet.lookup, ruleOf?, h]
    rfl
  mismatch symbols hlength := by
    unfold RuleSet.lookup
    split
    · exact absurd rfl hlength
    · rfl
  pairCount := by
    rw [← length_pairRules]
    exact h.length_eq_card s.nodup_pairRules fun r => mem_pairRules_iff
  terminalCount := by
    rw [← length_terminalRules]
    exact h.length_eq_card s.nodup_terminalRules fun r => mem_terminalRules_iff
  size := h.size_eq_card
  isEmpty := by
    rw [RuleSet.isEmpty, h.size_eq_card, beq_iff_eq, Finset.card_eq_zero, Ownership.keys_eq_empty_iff]
  mem r := by rw [mem_rules, h]
  nodup := s.nodup_rules
  ordered := s.rules_pairwise.imp Body.precedes_iff.mpr

end Stores

end RuleSet

/-! ## Populations after updates -/

namespace Population

variable {α : Type} [Scalar α] {p : Population α} {m : Ownership}

/-- All that can be asked of a population is answered as by a map, and so is whether an update has
anything to do. -/
structure Represents (p : Population α) (m : Ownership) : Prop where
  rules : p.rules.AnswersAs m
  /-- A rule that is added is new unless it is stored. -/
  add : ∀ r, (p.add r).1 = !p.contains r
  /-- A rule that is removed was stored. -/
  remove : ∀ r, (p.remove r).1 = p.contains r
  /-- A population that is made from the list of rules has the same entries and the same list. -/
  reimport : ∀ limits, (ofRules (α := α) limits p.rules.rules).rules.Stores m
    ∧ (ofRules (α := α) limits p.rules.rules).rules.rules = p.rules.rules

theorem represents_of_stores (h : p.rules.Stores m) : p.Represents m where
  rules := h.answersAs
  add r := by
    rw [Population.add, addWithWeight_fst, contains, RuleSet.contains, decide_not]
  remove r := RuleSet.remove_fst p.rules r
  reimport _ := ⟨fun b => (RuleSet.owner?_ofList_rules p.rules b).trans (h b),
    RuleSet.rules_congr (RuleSet.owner?_ofList_rules p.rules)⟩

/-- An update does to the rule set what it does to the map. -/
theorem stores_update (h : p.rules.Stores m) (u : Update α) :
    (u.run p).rules.Stores (m.update u) := by
  cases u with
  | add r =>
      intro b
      rw [Ownership.update, Ownership.lookup_add, ← h b]
      exact owner?_insertWithWeight p r _ b
  | addWithWeight r weight =>
      intro b
      rw [Ownership.update, Ownership.lookup_add, ← h b]
      exact owner?_insertWithWeight p r weight b
  | remove r => exact h.erase r
  | reweigh changes => exact h

theorem stores_runAll (h : p.rules.Stores m) (updates : List (Update α)) :
    (Update.runAll updates p).rules.Stores (m.updateAll updates) := by
  induction updates generalizing p m with
  | nil => exact h
  | cons u updates ih => exact ih (stores_update h u)

/-- **Populations are last-write-wins maps.**  A plain population that starts from any list of rules, and
a weighted one that is made from it at any time, answer every question as the finite map that has seen the
same updates. -/
theorem represents_of_updates (limits : Limits) (rules : List Rule)
    (updates later : List (Update α)) :
    (Update.runAll updates (ofRules limits rules)).Represents
        ((Ownership.ofList rules).updateAll updates)
      ∧ (Update.runAll later (Update.runAll updates (ofRules limits rules)).withUniformWeights).Represents
        ((Ownership.ofList rules).updateAll (updates ++ later)) := by
  have hplain := stores_runAll (p := ofRules limits rules) (RuleSet.stores_ofList rules) updates
  refine ⟨represents_of_stores hplain, represents_of_stores ?_⟩
  rw [Ownership.updateAll, List.foldl_append]
  exact stores_runAll (p := withUniformWeights _) hplain later

end Population

end GrammarInduction
