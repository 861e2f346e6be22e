import GrammarInduction.Proofs.Chart.Nodes
import GrammarInduction.Proofs.Grammar.ParseTree
import Mathlib.Data.List.FinRange
import Mathlib.Tactic.Choose

/-!
# The best tree

The best derivation is read off a table from the top: the best production of a node has a rule, and the
nodes that it leads to have best productions in turn.  In a linked table none of these is missing, and
each step leads to shorter stretches, so what is read is one tree over the whole sentence.

The height is bounded by the count of productions.  That is enough: a tree over `n` terminals is no
higher than `n`, and it takes a production in the cell of each of its terminals.

* `Table.Follows` — a tree of the rules of best productions, which is what is read off;
* `Table.Linked.exists_follows` — from a node that derives its symbol a tree over its stretch is followed;
* `Table.Linked.length_le_productionCount` — a table that derives anything over the whole sentence has
  a production for each of its terminals;
* `Table.Linked.exists_bestTree` — so what is read off the table of a sentence is a tree over it;
* `Table.Linked.trace_ok` — rules can be read off a linked table in either way.
-/

namespace GrammarInduction.Table

variable {α : Type} {w : List Symbol} {t : Table α} {row col height : Nat} {x : Symbol}
  {q : Production α}

/-- Some cell of the table has a production with the rule. -/
def Uses (t : Table α) (r : Rule) : Prop :=
  ∃ row col, row + col < t.length ∧ (t.poolAt row col).Uses r

/-! ## One node -/

/-- Nothing is read off a node that does not derive its symbol. -/
theorem treeFrom_of_not_derives (inside : row + col < t.length)
    (hx : ¬ (t.poolAt row col).derives x = true) (height : Nat) :
    t.treeFrom height ⟨row, col, x⟩ = .ok [] := by
  have hnone : (t.poolAt row col).best? x = none := by
    rw [Pool.derives_iff] at hx
    simpa using hx
  cases height with
  | zero => rfl
  | succ height =>
      rw [treeFrom, cell_eq_poolAt inside]
      simp only [bind, Except.bind, hnone]
      rfl

/-- A best production that leads nowhere gives its rule. -/
theorem treeFrom_leaf (inside : row + col < t.length) (hbest : (t.poolAt row col).best? x = some q)
    (hleaf : t.childNodes q = .ok none) (height : Nat) :
    t.treeFrom (height + 1) ⟨row, col, x⟩ = .ok q.rule?.toList := by
  rw [treeFrom, cell_eq_poolAt inside]
  simp only [bind, Except.bind, hbest, hleaf]
  rfl

/-- A best production that leads to two nodes gives its rule before theirs, the right ones first. -/
theorem treeFrom_node {left right : Node} {leftRules rightRules : List Rule}
    (inside : row + col < t.length) (hbest : (t.poolAt row col).best? x = some q)
    (hnode : t.childNodes q = .ok (some (left, right))) (hleft : t.treeFrom height left = .ok leftRules)
    (hright : t.treeFrom height right = .ok rightRules) :
    t.treeFrom (height + 1) ⟨row, col, x⟩
      = .ok (q.rule?.toList ++ rightRules ++ leftRules) := by
  rw [treeFrom, cell_eq_poolAt inside]
  simp only [bind, Except.bind, hbest, hnode, hleft, hright]
  rfl

/-! ## Trees that follow the best productions -/

/-- The tree is what the best productions lead to, from the node of a cell and the symbol at its root:
each of its rules is that of the best production of a node. -/
inductive Follows (t : Table α) : Nat → Nat → ParseTree → Prop
  | leaf {col : Nat} {x a : Symbol} {q : Production α} (best : (t.poolAt 0 col).best? x = some q)
      (rule : q.rule? = some (.terminal x a)) : Follows t 0 col (.leaf x a)
  | node {row col shift : Nat} {x : Symbol} {l r : ParseTree} {q : Production α}
      (hshift : shift < row) (best : (t.poolAt row col).best? x = some q)
      (detector : q.detector = .split row col shift l.root r.root)
      (rule : q.rule? = some (.pair x l.root r.root)) (left : Follows t shift col l)
      (right : Follows t (row - shift - 1) (col + shift + 1) r) : Follows t row col (.node x l r)

/-- What is read off a node is the tree that is followed, as long as the bound on its height is above the
node's row. -/
theorem Follows.treeFrom_eq {tree : ParseTree} (h : t.Follows row col tree)
    (inside : row + col < t.length) (hheight : row < height) :
    t.treeFrom height ⟨row, col, tree.root⟩ = .ok tree.rules := by
  induction h generalizing height with
  | @leaf col x a q best rule =>
      obtain ⟨height, rfl⟩ := Nat.exists_eq_succ_of_ne_zero (by omega : height ≠ 0)
      have hleaf : t.childNodes q = .ok none := by simp [childNodes, rule, Rule.terminal, pure, Except.pure]
      have hread := treeFrom_leaf inside best hleaf height
      rwa [rule] at hread
  | @node row col shift x l r q hshift best detector rule left right ihl ihr =>
      obtain ⟨height, rfl⟩ := Nat.exists_eq_succ_of_ne_zero (by omega : height ≠ 0)
      have hread := treeFrom_node inside best (childNodes_split hshift inside detector rule)
        (ihl (by omega) (by omega : shift < height)) (ihr (by omega) (by omega))
      rwa [rule] at hread

namespace Linked

variable (h : t.Linked w)

include h

/-- The best production of a symbol that a cell derives has a rule for the symbol. -/
theorem exists_best (inside : row + col < w.length) (hx : (t.poolAt row col).derives x = true) :
    ∃ q r, (t.poolAt row col).best? x = some q ∧ q ∈ (t.poolAt row col).productions
      ∧ q.rule? = some r ∧ r.parent = x := by
  obtain ⟨q, hbest⟩ := Option.isSome_iff_exists.mp (Pool.derives_iff.mp hx)
  obtain ⟨hq, hparent⟩ := (h.cell inside).coherent.of_best x q hbest
  obtain ⟨r, hr, hparent⟩ := Option.map_eq_some_iff.mp hparent
  exact ⟨q, r, hbest, hq, hr, hparent⟩

/-- **From every node that derives its symbol the best productions are followed to a tree** with the
symbol at the root and the node's stretch for its yield. -/
theorem exists_follows (inside : row + col < w.length) (hx : (t.poolAt row col).derives x = true) :
    ∃ tree : ParseTree, t.Follows row col tree ∧ tree.root = x ∧ tree.yield = stretch w row col := by
  -- The parts of a split are shorter stretches, but not those of the row just before.
  induction row using Nat.strongRecOn generalizing col x with
  | ind row ih =>
      obtain ⟨q, r, hbest, hq, hr, rfl⟩ := h.exists_best inside hx
      rcases h.childNodes_cases inside hq hr with
        ⟨a, rfl, here, hrule, -⟩ | ⟨shift, hshift, y, z, hrule, hdetector, left, right, -⟩
      · rw [hrule] at hr
        exact ⟨.leaf r.parent a, .leaf hbest hr, rfl, (stretch_zero here).symm⟩
      · obtain ⟨l, hl, rfl, hyieldl⟩ := ih shift hshift (by omega) left
        obtain ⟨m, hm, rfl, hyieldm⟩ := ih _ (by omega) (by omega) right
        rw [hrule] at hr
        refine ⟨.node r.parent l m, .node hshift hbest hdetector hr hl hm, rfl, ?_⟩
        rw [ParseTree.yield, hyieldl, hyieldm, ← stretch_append w col hshift]

/-- The rules of a tree that is followed are those of productions of the table. -/
theorem uses_of_follows {tree : ParseTree} (hfollows : t.Follows row col tree)
    (inside : row + col < w.length) : ∀ r ∈ tree.rules, t.Uses r := by
  have huses : ∀ {row col x q r}, row + col < w.length → (t.poolAt row col).best? x = some q →
      q.rule? = some r → t.Uses r := by
    intro row col x q r inside hbest hr
    exact ⟨row, col, h.length ▸ inside, q, ((h.cell inside).coherent.of_best x q hbest).1, hr⟩
  induction hfollows with
  | leaf best rule =>
      intro r hr
      cases List.mem_singleton.mp hr
      exact huses inside best rule
  | node hshift best detector rule left right ihl ihr =>
      intro r hr
      rcases List.mem_cons.mp hr with rfl | hparts
      · exact huses inside best rule
      · exact (List.mem_append.mp hparts).elim (ihr (by omega) r) (ihl (by omega) r)

/-! ## Enough height -/

/-- Below a cell that derives something the cell of every terminal does. -/
theorem exists_derives_leaf (inside : row + col < w.length)
    (hx : (t.poolAt row col).derives x = true) {place : Nat} (hfirst : col ≤ place)
    (hlast : place ≤ row + col) : ∃ y, (t.poolAt 0 place).derives y = true := by
  induction row using Nat.strongRecOn generalizing col x with
  | ind row ih =>
      obtain ⟨q, r, -, hq, hr, -⟩ := h.exists_best inside hx
      rcases h.childNodes_cases inside hq hr with
        ⟨a, rfl, -, -, -⟩ | ⟨shift, hshift, y, z, -, -, left, right, -⟩
      · obtain rfl : col = place := by omega
        exact ⟨x, hx⟩
      · by_cases hside : place ≤ shift + col
        · exact ih shift hshift (by omega) left hfirst hside
        · exact ih _ (by omega) (by omega) right (by omega) (by omega)

/-- A node that derives its symbol derives a production. -/
theorem mem_owners (inside : row + col < w.length) (hx : (t.poolAt row col).derives x = true) :
    (⟨row, col, x⟩ : Node) ∈ t.owners := by
  obtain ⟨q, r, -, hq, hr, rfl⟩ := h.exists_best inside hx
  have hmem : q ∈ t.productionsOf ⟨row, col, r.parent⟩ := by
    refine List.mem_filter.mpr ⟨Array.mem_toList_iff.mpr hq, decide_eq_true ?_⟩
    rw [Production.parent?, hr]
    rfl
  have hpos := List.length_pos_of_mem hmem
  have hle := length_productionsOf_le (a := ⟨row, col, r.parent⟩) (h.length ▸ inside)
  exact List.count_pos_iff.mp (Nat.lt_of_lt_of_le hpos hle)

/-- If something is derived over the whole sentence there is a production for each terminal. -/
theorem length_le_productionCount (hsome : w ≠ [])
    (hx : (t.poolAt (w.length - 1) 0).derives x = true) : w.length ≤ t.productionCount := by
  have hpos := List.length_pos_iff.mpr hsome
  have hleaf : ∀ place : Fin w.length, ∃ y, (t.poolAt 0 place).derives y = true := by
    intro place
    exact h.exists_derives_leaf (by omega) hx (Nat.zero_le _) (by omega)
  choose symbol hsymbol using hleaf
  -- The nodes of the terminals lie in different columns.
  let node (place : Fin w.length) : Node := ⟨0, place, symbol place⟩
  have hnodup : ((List.finRange w.length).map node).Nodup := by
    refine (List.nodup_finRange _).map fun a b hab => ?_
    exact Fin.ext (congrArg Node.col hab)
  have hsub : (List.finRange w.length).map node ⊆ t.owners := by
    intro n hn
    obtain ⟨place, -, rfl⟩ := List.mem_map.mp hn
    exact h.mem_owners (by omega) (hsymbol place)
  calc w.length = ((List.finRange w.length).map node).length := by
        rw [List.length_map, List.length_finRange]
    _ ≤ t.owners.length := hnodup.length_le_of_subset hsub
    _ ≤ t.productionCount := length_owners_le t

/-! ## The whole sentence -/

/-- **What is read off the table of a derived sentence is one tree over it**, of rules of the table.  The
descent ends by itself: no bound on its height makes a difference that is no less than the length of the
sentence. -/
theorem exists_bestTree (hsome : w ≠ []) (hx : (t.poolAt (w.length - 1) 0).derives x = true) :
    ∃ tree : ParseTree, t.bestTree x = .ok tree.rules ∧ t.Follows (w.length - 1) 0 tree
      ∧ tree.root = x ∧ tree.yield = w ∧ (∀ r ∈ tree.rules, t.Uses r)
      ∧ ∀ height, w.length ≤ height → t.treeFrom height (t.root x) = .ok tree.rules := by
  have hpos := List.length_pos_iff.mpr hsome
  have hcount := h.length_le_productionCount hsome hx
  have hlength : t.length ≠ 0 := by
    rw [h.length]
    omega
  obtain ⟨tree, hfollows, rfl, hyield⟩ := h.exists_follows (by omega) hx
  rw [stretch_top hsome] at hyield
  have hall : ∀ height, w.length ≤ height → t.treeFrom height (t.root tree.root) = .ok tree.rules := by
    intro height hheight
    rw [h.root_eq]
    exact hfollows.treeFrom_eq (by rw [h.length]; omega) (by omega)
  refine ⟨tree, ?_, hfollows, rfl, hyield, h.uses_of_follows hfollows (by omega), hall⟩
  rw [bestTree, if_neg hlength]
  exact hall _ (by omega)

/-- Nothing is read off a table that does not derive the symbol over the whole sentence. -/
theorem bestTree_eq_nil (hx : w ≠ [] → ¬ (t.poolAt (w.length - 1) 0).derives x = true) :
    t.bestTree x = .ok [] := by
  by_cases hempty : w = []
  · have hlength : t.length = 0 := by rw [h.length, hempty, List.length_nil]
    rw [bestTree, if_pos hlength]
  · have hpos := List.length_pos_iff.mpr hempty
    have hlength : t.length ≠ 0 := by
      rw [h.length]
      omega
    rw [bestTree, if_neg hlength, h.root_eq]
    exact treeFrom_of_not_derives (by rw [h.length]; omega) (hx hempty) _

/-- **Rules can be read off a linked table in either way.** -/
theorem trace_ok (traceback : Traceback) (x : Symbol) :
    ∃ rules, t.trace traceback x = .ok rules := by
  cases traceback with
  | allDerivations =>
      by_cases hempty : w = []
      · have hlength : t.length = 0 := by rw [h.length, hempty, List.length_nil]
        exact ⟨[], if_pos hlength⟩
      · obtain ⟨rules, hrules, -⟩ := h.allRules_ok hempty x
        exact ⟨rules, hrules⟩
  | bestDerivation =>
      by_cases hx : w ≠ [] ∧ (t.poolAt (w.length - 1) 0).derives x = true
      · obtain ⟨tree, hread, -⟩ := h.exists_bestTree hx.1 hx.2
        exact ⟨tree.rules, hread⟩
      · exact ⟨[], h.bestTree_eq_nil fun hsome hderives => hx ⟨hsome, hderives⟩⟩

end Linked

end GrammarInduction.Table
