import GrammarInduction.Proofs.Chart.Linkage
import GrammarInduction.Proofs.Chart.Search

/-!
# The nodes of a linked table

In a table whose cells are all linked, a production with a rule leads where its rule says: nowhere if
the rule is terminal, and otherwise to two nodes side by side, whose cells derive the two symbols of the
rule.  No grammar is needed to say so, and the rules need not be stored any more.

* `Table.Linked.childNodes_cases` — where a production leads;
* `Table.Linked.inside_of_reaches` — nodes lead to nodes of the table only.
-/

namespace GrammarInduction.Table

open Relation

variable {α : Type} {w : List Symbol} {t : Table α} {row col : Nat} {x : Symbol}

/-- A production of a split with a pair rule leads to the parts of the split. -/
theorem childNodes_split {q : Production α} {shift : Nat} {y z : Symbol} (hshift : shift < row)
    (inside : row + col < t.length) (hdetector : q.detector = .split row col shift y z)
    (hrule : q.rule? = some (.pair x y z)) :
    t.childNodes q = .ok (some (⟨shift, col, y⟩, ⟨row - shift - 1, col + shift + 1, z⟩)) := by
  have hchildren := children_split hshift inside y z
  simp only [childNodes, hrule, Rule.pair, hdetector, hchildren]
  rfl

namespace Linked

variable (h : t.Linked w)

include h

/-- A production with a terminal rule stands for the terminal of its cell and leads nowhere.  One with a
pair rule leads to the parts of a split, which derive the symbols of the pair. -/
theorem childNodes_cases (inside : row + col < w.length) {q : Production α} {r : Rule}
    (hq : q ∈ (t.poolAt row col).productions) (hr : q.rule? = some r) :
    (∃ a, row = 0 ∧ w[col]? = some a ∧ r = .terminal r.parent a ∧ t.childNodes q = .ok none)
      ∨ ∃ shift < row, ∃ y z, r = .pair r.parent y z ∧ q.detector = .split row col shift y z
        ∧ (t.poolAt shift col).derives y = true
        ∧ (t.poolAt (row - shift - 1) (col + shift + 1)).derives z = true
        ∧ t.childNodes q = .ok (some (⟨shift, col, y⟩, ⟨row - shift - 1, col + shift + 1, z⟩)) := by
  have hsees := (h.cell inside).sees q hq
  have hbody := (h.cell inside).body q hq r hr
  obtain ⟨parent, body⟩ := r
  generalize hdetector : q.detector = d at hsees hbody
  cases hsees with
  | @leaf col a here =>
      cases hbody
      exact Or.inl ⟨a, rfl, here, rfl, by simp [childNodes, hr, pure, Except.pure]⟩
  | @split _ _ shift y z hshift left right =>
      cases hbody
      exact Or.inr ⟨shift, hshift, y, z, rfl, rfl, left, right,
        childNodes_split hshift (h.length ▸ inside) hdetector hr⟩

omit h in
/-- The productions of a node are those of its cell whose rule has its symbol for parent. -/
theorem exists_rule_of_mem {q : Production α} (hq : q ∈ t.productionsOf ⟨row, col, x⟩) :
    q ∈ (t.poolAt row col).productions ∧ ∃ r, q.rule? = some r ∧ r.parent = x := by
  obtain ⟨hmem, hparent⟩ := List.mem_filter.mp hq
  exact ⟨Array.mem_toList_iff.mp hmem, Option.map_eq_some_iff.mp (of_decide_eq_true hparent)⟩

/-- The productions of a node of the table lead somewhere or nowhere, but never astray. -/
theorem childNodes_ok {a : Node} (inside : a.row + a.col < w.length) {q : Production α}
    (hq : q ∈ t.productionsOf a) : t.childNodes q = .ok (t.childrenOf q) := by
  obtain ⟨hmem, r, hr, -⟩ := exists_rule_of_mem hq
  rcases h.childNodes_cases inside hmem hr with
    ⟨a, -, -, -, hnone⟩ | ⟨shift, -, y, z, -, -, -, -, hsome⟩
  · rw [hnone, childrenOf_of_ok hnone]
  · rw [hsome, childrenOf_of_ok hsome]

/-- A node leads to the parts of a split that one of its pair rules joins. -/
theorem exists_of_leads (inside : row + col < w.length) {b : Node}
    (hleads : t.Leads ⟨row, col, x⟩ b) :
    ∃ shift < row, ∃ y z, (t.poolAt row col).Uses (.pair x y z)
      ∧ (t.poolAt shift col).derives y = true
      ∧ (t.poolAt (row - shift - 1) (col + shift + 1)).derives z = true
      ∧ (b = ⟨shift, col, y⟩ ∨ b = ⟨row - shift - 1, col + shift + 1, z⟩) := by
  obtain ⟨q, hq, hb⟩ := hleads
  obtain ⟨hmem, r, hr, rfl⟩ := exists_rule_of_mem hq
  rcases h.childNodes_cases inside hmem hr with
    ⟨a, -, -, -, hnone⟩ | ⟨shift, hshift, y, z, hrule, -, left, right, hsome⟩
  · rw [successors, childrenOf_of_ok hnone] at hb
    exact absurd hb List.not_mem_nil
  · rw [successors, childrenOf_of_ok hsome] at hb
    exact ⟨shift, hshift, y, z, ⟨q, hmem, hr.trans (congrArg some hrule)⟩, left, right,
      by simpa using hb⟩

/-- Nodes lead to nodes of the table. -/
theorem inside_of_leads {a b : Node} (inside : a.row + a.col < w.length) (hleads : t.Leads a b) :
    b.row + b.col < w.length := by
  obtain ⟨shift, hshift, y, z, -, -, -, hnode⟩ := h.exists_of_leads inside hleads
  rcases hnode with rfl | rfl
  · dsimp only
    omega
  · dsimp only
    omega

theorem inside_of_reaches {a b : Node} (inside : a.row + a.col < w.length)
    (hreaches : ReflTransGen t.Leads a b) : b.row + b.col < w.length := by
  induction hreaches with
  | refl => exact inside
  | tail _ hleads ih => exact h.inside_of_leads ih hleads

/-- The node of the whole sentence, if there is a sentence. -/
theorem root_eq (x : Symbol) : t.root x = ⟨w.length - 1, 0, x⟩ := by rw [root, h.length]

/-- The rules of all derivations can be read off: they are those of the nodes that the root leads to. -/
theorem allRules_ok (hsome : w ≠ []) (x : Symbol) :
    ∃ rules, t.allRules x = .ok rules ∧ rules.Pairwise (fun r r' => compare r r' = .lt)
      ∧ ∀ r, r ∈ rules ↔ ∃ a, ReflTransGen t.Leads (t.root x) a ∧ t.Applies a r := by
  have hpos := List.length_pos_iff.mpr hsome
  have hlength : t.length ≠ 0 := by
    rw [h.length]
    omega
  have hinside : ∀ a, ReflTransGen t.Leads (t.root x) a → a.row + a.col < w.length := by
    intro a hreaches
    rw [h.root_eq] at hreaches
    exact h.inside_of_reaches (by dsimp only; omega) hreaches
  refine Table.allRules_ok hlength (fun a hreaches => ?_) fun a hreaches p hp => ?_
  · rw [h.length]
    exact hinside a hreaches
  · exact h.childNodes_ok (hinside a hreaches) hp

end Linked

end GrammarInduction.Table
