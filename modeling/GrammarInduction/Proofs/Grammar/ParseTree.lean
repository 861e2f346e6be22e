import GrammarInduction.Proofs.Grammar.Occurrence

/-!
# Parse trees

A parse tree has a terminal rule at each leaf and a pair rule at each inner node.  The pair rule joins
the symbols at the roots of the two parts, so a child's rule always has the symbol for its parent that
the rule above asks for: a tree in which they differ cannot be written down.

* `ParseTree.yield`, `ParseTree.rules` — the terminals from left to right, and the rules of all nodes,
  the parent before its right part and the right part before the left;
* `ParseTree.length_rules`, `ParseTree.terminals_rules` — a tree over `n` terminals has `2 n - 1` rules,
  and the terminals of its rules are its yield in reverse;
* `RuleSet.occurs_iff_exists_tree` — derivations are trees of stored rules, and a rule occurs in one
  exactly if it is at a node of such a tree.
-/

namespace GrammarInduction

/-- The terminal of a terminal rule. -/
def Rule.terminal? (r : Rule) : Option Symbol :=
  match r.body with
  | .terminal a => some a
  | .pair .. => none

/-- A binary tree of rules, given by the symbols at its nodes and the terminals at its leaves. -/
inductive ParseTree where
  | leaf (parent terminal : Symbol)
  | node (parent : Symbol) (left right : ParseTree)
deriving DecidableEq, Repr

namespace ParseTree

/-- The symbol at the root. -/
def root : ParseTree → Symbol
  | leaf x _ => x
  | node x _ _ => x

/-- The rule at the root: at an inner node it leads to the symbols at the roots of the parts. -/
def rule : ParseTree → Rule
  | leaf x a => .terminal x a
  | node x l r => .pair x l.root r.root

/-- The terminals at the leaves, from left to right. -/
def yield : ParseTree → List Symbol
  | leaf _ a => [a]
  | node _ l r => l.yield ++ r.yield

/-- The rules of all nodes: the parent first, then the right part, then the left. -/
def rules : ParseTree → List Rule
  | leaf x a => [(leaf x a).rule]
  | node x l r => (node x l r).rule :: (r.rules ++ l.rules)

variable {s : RuleSet} {tree : ParseTree} {q : Rule}

/-! ## The rules of a tree, one by one -/

/-- A tree has one rule less than twice its leaves. -/
theorem length_rules (tree : ParseTree) : tree.rules.length + 1 = 2 * tree.yield.length := by
  induction tree with
  | leaf x a => rfl
  | node x l r ihl ihr =>
      rw [rules, yield, List.length_cons, List.length_append, List.length_append]
      omega

/-- As many rules of a tree are terminal as it has leaves. -/
theorem countP_rules (tree : ParseTree) :
    tree.rules.countP Rule.isTerminal = tree.yield.length := by
  induction tree with
  | leaf x a => rfl
  | node x l r ihl ihr =>
      have hpair : (node x l r).rule.isTerminal = false := rfl
      rw [rules, yield, List.countP_cons, List.countP_append, List.length_append, hpair]
      simp only [Bool.false_eq_true, if_false]
      omega

/-- The terminals of the rules are the leaves from right to left. -/
theorem terminals_rules (tree : ParseTree) :
    tree.rules.filterMap Rule.terminal? = tree.yield.reverse := by
  induction tree with
  | leaf x a => rfl
  | node x l r ihl ihr =>
      have hpair : (node x l r).rule.terminal? = none := rfl
      rw [rules, yield, List.filterMap_cons_none hpair, List.filterMap_append, ihl, ihr,
        List.reverse_append]

example :
    let tree := node 1 (leaf 2 (-1)) (node 3 (leaf 2 (-1)) (leaf 4 (-2)))
    tree.yield = [-1, -1, -2] ∧ tree.rules = [.pair 1 2 3, .pair 3 2 4, .terminal 4 (-2),
      .terminal 2 (-1), .terminal 2 (-1)] := by
  decide

/-! ## Trees of stored rules -/

/-- The rules of all nodes are stored. -/
def StoredIn (s : RuleSet) (tree : ParseTree) : Prop := ∀ q ∈ tree.rules, s.contains q = true

theorem storedIn_leaf {x a : Symbol} :
    (leaf x a).StoredIn s ↔ s.contains (.terminal x a) = true := by
  simp [StoredIn, rules, rule]

theorem storedIn_node {x : Symbol} {l r : ParseTree} : (node x l r).StoredIn s
    ↔ s.contains (.pair x l.root r.root) = true ∧ l.StoredIn s ∧ r.StoredIn s := by
  simp only [StoredIn, rules, rule, List.forall_mem_cons, List.forall_mem_append]
  exact and_congr_right fun _ => and_comm

theorem StoredIn.derives (h : tree.StoredIn s) : s.Derives tree.root tree.yield := by
  induction tree with
  | leaf x a => exact .terminal (storedIn_leaf.mp h)
  | node x l r ihl ihr =>
      obtain ⟨stored, hl, hr⟩ := storedIn_node.mp h
      exact .pair stored (ihl hl) (ihr hr)

/-- The rule of a node occurs in the derivation that the tree stands for. -/
theorem StoredIn.occurs (h : tree.StoredIn s) (hq : q ∈ tree.rules) :
    s.Occurs tree.root tree.yield q := by
  induction tree with
  | leaf x a =>
      cases List.mem_singleton.mp hq
      exact .terminal (storedIn_leaf.mp h)
  | node x l r ihl ihr =>
      obtain ⟨stored, hl, hr⟩ := storedIn_node.mp h
      rcases List.mem_cons.mp hq with rfl | hparts
      · exact .pair stored hl.derives hr.derives
      · rcases List.mem_append.mp hparts with hright | hleft
        · exact .right stored hl.derives (ihr hr hright)
        · exact .left stored (ihl hl hleft) hr.derives

end ParseTree

namespace RuleSet

open ParseTree

variable {s : RuleSet} {x : Symbol} {u : List Symbol} {q : Rule}

theorem Derives.exists_tree (h : s.Derives x u) :
    ∃ tree : ParseTree, tree.StoredIn s ∧ tree.root = x ∧ tree.yield = u := by
  induction h with
  | @terminal x a stored => exact ⟨.leaf x a, storedIn_leaf.mpr stored, rfl, rfl⟩
  | @pair x _ _ _ _ stored _ _ ihl ihr =>
      obtain ⟨l, hl, rfl, rfl⟩ := ihl
      obtain ⟨r, hr, rfl, rfl⟩ := ihr
      exact ⟨.node x l r, storedIn_node.mpr ⟨stored, hl, hr⟩, rfl, rfl⟩

theorem Occurs.exists_tree (h : s.Occurs x u q) :
    ∃ tree : ParseTree, tree.StoredIn s ∧ tree.root = x ∧ tree.yield = u ∧ q ∈ tree.rules := by
  induction h with
  | @terminal x a stored =>
      exact ⟨.leaf x a, storedIn_leaf.mpr stored, rfl, rfl, List.mem_singleton_self _⟩
  | @pair x _ _ _ _ stored left right =>
      obtain ⟨l, hl, rfl, rfl⟩ := left.exists_tree
      obtain ⟨r, hr, rfl, rfl⟩ := right.exists_tree
      exact ⟨.node x l r, storedIn_node.mpr ⟨stored, hl, hr⟩, rfl, rfl, List.mem_cons_self⟩
  | @left x _ _ _ _ _ stored _ right ih =>
      obtain ⟨l, hl, rfl, rfl, hq⟩ := ih
      obtain ⟨r, hr, rfl, rfl⟩ := right.exists_tree
      refine ⟨.node x l r, storedIn_node.mpr ⟨stored, hl, hr⟩, rfl, rfl, ?_⟩
      exact List.mem_cons_of_mem _ (List.mem_append_right _ hq)
  | @right x _ _ _ _ _ stored left _ ih =>
      obtain ⟨l, hl, rfl, rfl⟩ := left.exists_tree
      obtain ⟨r, hr, rfl, rfl, hq⟩ := ih
      refine ⟨.node x l r, storedIn_node.mpr ⟨stored, hl, hr⟩, rfl, rfl, ?_⟩
      exact List.mem_cons_of_mem _ (List.mem_append_left _ hq)

/-- **A rule occurs in a derivation exactly if it is at a node of a tree for it.** -/
theorem occurs_iff_exists_tree : s.Occurs x u q
    ↔ ∃ tree : ParseTree, tree.StoredIn s ∧ tree.root = x ∧ tree.yield = u ∧ q ∈ tree.rules := by
  constructor
  · exact Occurs.exists_tree
  · rintro ⟨tree, hstored, rfl, rfl, hq⟩
    exact hstored.occurs hq

end RuleSet

end GrammarInduction
