import GrammarInduction.Proofs.Chart.Nodes
import GrammarInduction.Proofs.Grammar.ParseTree

/-!
# What a search through a chart finds

In the completed chart of a sentence a node leads to the children of the pair rules that derive its
symbol over its stretch, with each split at which both children derive their parts.  So what the node of
the whole sentence leads to are the subtrees of its derivations, and the rules found there are the rules
that occur in them.

* `Population.Charts` — the chart that a population completes for a sentence;
* `Population.Charts.exists_of_occurs`, `Population.Charts.occurs_of_leads` — a rule is found below a
  node exactly if it occurs in a derivation of the node's stretch;
* `Population.Charts.allRules_ok` — the rules of all derivations are those that occur in one;
* `Population.trace_allDerivations` — for every sentence the search finds exactly the rules at the nodes
  of its parse trees.
-/

namespace GrammarInduction

open Relation

variable {α : Type} {w : List Symbol} {t u : Table α} {row col : Nat} {x : Symbol} {q : Rule}

/-! ## Completed charts -/

/-- What fills a cell still does when a later cell is written. -/
theorem Population.Fills.written {p : Population α} {pool written : Pool α} {row' col' : Nat}
    (h : p.Fills w t row' col' pool) (hu : Table.Written t row col written u) (hrow : row' ≤ row)
    (inside : row' + col' < t.length) : p.Fills w u row' col' pool where
  coherent := h.coherent
  sees p hp := (h.sees p hp).written hu hrow inside
  rule := h.rule
  complete d hd := h.complete d (hd.of_written hu hrow inside)

/-- The listed cells are filled by the population. -/
def Population.FillsOn (p : Population α) (w : List Symbol) (t : Table α)
    (cells : List (Nat × Nat)) : Prop :=
  ∀ {row col}, (row, col) ∈ cells → p.Fills w t row col (t.poolAt row col)

/-- Filling one more cell leaves the cells filled before. -/
theorem Population.FillsOn.written {p : Population α} {pool : Pool α} {done : List (Nat × Nat)}
    (h : p.FillsOn w t done) (hnow : Table.Turn w.length done row col) (hlength : t.length = w.length)
    (hfills : p.Fills w t row col pool) (hu : Table.Written t row col pool u) :
    p.FillsOn w u (done ++ [(row, col)]) := by
  intro row' col' hmem
  rcases List.mem_append.mp hmem with hbefore | hnew
  · obtain ⟨inside, hrow⟩ := hnow.mem_done_iff.mp hbefore
    rw [hnow.poolAt_of_mem_done hlength hu hbefore]
    exact (h hbefore).written hu (by omega) (hlength ▸ inside)
  · cases List.mem_singleton.mp hnew
    rw [hu.self]
    exact hfills.written hu (Nat.le_refl row) (hlength ▸ hnow.inside)

/-- A completed chart: every cell is exact, and every cell is filled by the population. -/
structure Population.Charts (p : Population α) (w : List Symbol) (t : Table α) : Prop where
  length : t.length = w.length
  exactOn : t.ExactOn p.rules w (Table.coordinates w.length)
  fillsOn : p.FillsOn w t (Table.coordinates w.length)

namespace Population

/-- A population completes the chart of every sentence. -/
theorem exists_charts [Scalar α] (p : Population α) (w : List Symbol) :
    ∃ t, Table.fill (p.cellPool w) w.length = .ok t ∧ p.Charts w t := by
  have hfill : ∃ t, Table.fill (p.cellPool w) w.length = .ok t ∧ t.length = w.length
      ∧ t.ExactOn p.rules w (Table.coordinates w.length)
      ∧ p.FillsOn w t (Table.coordinates w.length) := by
    apply Table.fill_ok fun done t => t.ExactOn p.rules w done ∧ p.FillsOn w t done
    · constructor
      · intro row col hcell
        cases hcell
      · intro row col hcell
        cases hcell
    · intro done row col t hnow hlength hdone
      obtain ⟨hexact, hfilled⟩ := hdone
      obtain ⟨pool, hpool, hfills⟩ := cellPool_ok (p := p) hlength (hlength ▸ hnow.inside)
      refine ⟨pool, hpool, ?_⟩
      intro u hu
      exact ⟨hexact.written hnow hlength hfills hu, hfilled.written hnow hlength hfills hu⟩
  obtain ⟨t, hrun, hlength, hexact, hfilled⟩ := hfill
  exact ⟨t, hrun, hlength, hexact, hfilled⟩

/-- Recognition completes the chart and accepts what the starting symbol derives. -/
theorem exists_recognise_charts [Scalar α] (p : Population α) (w : Sentence) :
    ∃ parse, p.recognise w = .ok parse ∧ p.Charts w.symbols parse.table
      ∧ (parse.accepted = true ↔ p.rules.Derives p.limits.start w.symbols) := by
  obtain ⟨t, hrun, -, -, haccepted⟩ := p.exists_recognise w
  obtain ⟨t', hfill, hcharts⟩ := p.exists_charts w.symbols
  have hrun' : p.recognise w = .ok (Parse.ofTable p.limits.start w t') := by
    rw [recognise, show w.length = w.symbols.length from rfl, hfill]
    rfl
  have hsame := Except.ok.inj (hrun.symm.trans hrun')
  exact ⟨_, hrun', hcharts, hsame ▸ haccepted⟩

namespace Charts

variable {p : Population α} (h : p.Charts w t)

include h

/-! ## One node -/

theorem fills (inside : row + col < w.length) : p.Fills w t row col (t.poolAt row col) :=
  h.fillsOn (Table.mem_coordinates.mpr inside)

theorem derives_iff (inside : row + col < w.length) :
    (t.poolAt row col).derives x = true ↔ p.rules.Derives x (stretch w row col) :=
  h.exactOn (Table.mem_coordinates.mpr inside) x

theorem linked : t.Linked w := ⟨h.length, fun hmem => (h.fillsOn hmem).linked⟩

/-- The productions of a node have stored rules for its symbol, with bodies that its cell sees. -/
theorem of_mem_productionsOf (inside : row + col < w.length) {q : Production α}
    (hq : q ∈ t.productionsOf ⟨row, col, x⟩) :
    t.Sees w row col q.detector ∧ q.rule? = some ⟨x, q.detector.body⟩
      ∧ p.rules.contains ⟨x, q.detector.body⟩ = true := by
  obtain ⟨hmem, hparent⟩ := List.mem_filter.mp hq
  have hfills := h.fills inside
  have hq' := Array.mem_toList_iff.mp hmem
  have howner : p.rules.owner? q.detector.body = some x :=
    (hfills.parent?_eq hq').symm.trans (of_decide_eq_true hparent)
  refine ⟨hfills.sees q hq', ?_, RuleSet.contains_iff.mpr howner⟩
  rw [hfills.rule q hq', RuleSet.ruleOf?, howner]
  rfl

/-- A stored rule whose body a cell sees has a production in it. -/
theorem exists_mem_productionsOf (inside : row + col < w.length) {d : Detector}
    (hsees : t.Sees w row col d) (hstored : p.rules.contains ⟨x, d.body⟩ = true) :
    ∃ q ∈ t.productionsOf ⟨row, col, x⟩, q.detector = d ∧ q.rule? = some ⟨x, d.body⟩ := by
  have howner : p.rules.owner? d.body = some x := RuleSet.contains_iff.mp hstored
  have hfills := h.fills inside
  obtain ⟨q, hq, rfl⟩ := hfills.complete d hsees (Or.inr (by rw [howner]; rfl))
  have hparent : q.parent? = some x := (hfills.parent?_eq hq).trans howner
  have hmem : q ∈ t.productionsOf ⟨row, col, x⟩ :=
    List.mem_filter.mpr ⟨Array.mem_toList_iff.mpr hq, decide_eq_true hparent⟩
  exact ⟨q, hmem, rfl, (h.of_mem_productionsOf inside hmem).2.1⟩

/-- A node leads to the parts of a split of its stretch that a stored pair rule joins. -/
theorem exists_of_leads (inside : row + col < w.length) {b : Node}
    (hleads : t.Leads ⟨row, col, x⟩ b) :
    ∃ shift < row, ∃ l r, p.rules.contains (.pair x l r) = true
      ∧ p.rules.Derives l (stretch w shift col)
      ∧ p.rules.Derives r (stretch w (row - shift - 1) (col + shift + 1))
      ∧ (b = ⟨shift, col, l⟩ ∨ b = ⟨row - shift - 1, col + shift + 1, r⟩) := by
  obtain ⟨shift, hshift, l, r, huses, left, right, hnode⟩ :=
    h.linked.exists_of_leads inside hleads
  have hl := (h.derives_iff (by omega)).mp left
  have hr := (h.derives_iff (by omega)).mp right
  exact ⟨shift, hshift, l, r, (h.fills inside).stored huses, hl, hr, hnode⟩

/-- Where a stored pair rule joins the parts of a split, its node has the rule and leads to both. -/
theorem leads_of_pair (inside : row + col < w.length) {shift : Nat} {l r : Symbol}
    (hshift : shift < row) (hstored : p.rules.contains (.pair x l r) = true)
    (hl : p.rules.Derives l (stretch w shift col))
    (hr : p.rules.Derives r (stretch w (row - shift - 1) (col + shift + 1))) :
    t.Applies ⟨row, col, x⟩ (.pair x l r) ∧ t.Leads ⟨row, col, x⟩ ⟨shift, col, l⟩
      ∧ t.Leads ⟨row, col, x⟩ ⟨row - shift - 1, col + shift + 1, r⟩ := by
  have left := (h.derives_iff (by omega)).mpr hl
  have right := (h.derives_iff (by omega)).mpr hr
  obtain ⟨q, hq, hdetector, hrule⟩ :=
    h.exists_mem_productionsOf inside (.split hshift left right) hstored
  have hchildren := Table.childNodes_split hshift (h.length ▸ inside) hdetector hrule
  refine ⟨⟨q, hq, hrule⟩, ⟨q, hq, ?_⟩, ⟨q, hq, ?_⟩⟩
  · rw [Table.successors, Table.childrenOf_of_ok hchildren]
    exact List.mem_cons_self
  · rw [Table.successors, Table.childrenOf_of_ok hchildren]
    exact List.mem_cons_of_mem _ List.mem_cons_self

/-! ## From node to node -/

/-- A rule of a node occurs in a derivation of the node's stretch. -/
theorem occurs_of_applies (inside : row + col < w.length) (hq : t.Applies ⟨row, col, x⟩ q) :
    p.rules.Occurs x (stretch w row col) q := by
  obtain ⟨production, hmem, hq⟩ := hq
  obtain ⟨hsees, hrule, hstored⟩ := h.of_mem_productionsOf inside hmem
  cases hrule.symm.trans hq
  generalize production.detector = d at hsees hstored
  cases hsees with
  | leaf here =>
      rw [stretch_zero here]
      exact .terminal hstored
  | @split _ _ shift l r hshift left right =>
      have hl := (h.derives_iff (by omega)).mp left
      have hr := (h.derives_iff (by omega)).mp right
      rw [stretch_append w col hshift]
      exact .pair hstored hl hr

/-- What occurs below a node that another leads to occurs below that one. -/
theorem occurs_of_leads (inside : row + col < w.length) {b : Node}
    (hleads : t.Leads ⟨row, col, x⟩ b)
    (hq : p.rules.Occurs b.symbol (stretch w b.row b.col) q) :
    p.rules.Occurs x (stretch w row col) q := by
  obtain ⟨shift, hshift, l, r, hstored, hl, hr, hnode⟩ := h.exists_of_leads inside hleads
  rw [stretch_append w col hshift]
  rcases hnode with rfl | rfl
  · exact .left hstored hq hr
  · exact .right hstored hl hq

theorem occurs_of_reaches {a b : Node} (inside : a.row + a.col < w.length)
    (hreaches : ReflTransGen t.Leads a b) (hq : t.Applies b q) :
    p.rules.Occurs a.symbol (stretch w a.row a.col) q := by
  induction hreaches using ReflTransGen.head_induction_on with
  | refl => exact h.occurs_of_applies inside hq
  | head hleads _ ih =>
      exact h.occurs_of_leads inside hleads (ih (h.linked.inside_of_leads inside hleads))

/-- What occurs in a derivation of a node's stretch is the rule of a node that it leads to. -/
theorem exists_of_occurs (inside : row + col < w.length)
    (hq : p.rules.Occurs x (stretch w row col) q) :
    ∃ b, ReflTransGen t.Leads ⟨row, col, x⟩ b ∧ t.Applies b q := by
  -- The parts of a split are shorter stretches, but not those of the row just before.
  induction row using Nat.strongRecOn generalizing col x with
  | ind row ih =>
      generalize hstretch : stretch w row col = u at hq
      cases hq with
      | @terminal _ a stored =>
          have hlength := congrArg List.length hstretch
          rw [length_stretch inside, List.length_singleton] at hlength
          obtain rfl : row = 0 := by omega
          have here : w[col]? = some a := by
            rw [stretch, List.take_one, List.head?_drop] at hstretch
            simpa using hstretch
          obtain ⟨q, hmem, -, hrule⟩ := h.exists_mem_productionsOf inside (.leaf here) stored
          exact ⟨_, .refl, q, hmem, hrule⟩
      | pair stored left right =>
          obtain ⟨shift, hshift, rfl, rfl⟩ :=
            exists_split_of_append inside left.ne_nil right.ne_nil hstretch.symm
          exact ⟨_, .refl, (h.leads_of_pair inside hshift stored left right).1⟩
      | left stored left right =>
          obtain ⟨shift, hshift, rfl, rfl⟩ :=
            exists_split_of_append inside left.derives.ne_nil right.ne_nil hstretch.symm
          obtain ⟨b, hreaches, happlies⟩ := ih shift hshift (by omega) left
          have hleads := (h.leads_of_pair inside hshift stored left.derives right).2.1
          exact ⟨b, .head hleads hreaches, happlies⟩
      | right stored left right =>
          obtain ⟨shift, hshift, rfl, rfl⟩ :=
            exists_split_of_append inside left.ne_nil right.derives.ne_nil hstretch.symm
          obtain ⟨b, hreaches, happlies⟩ := ih (row - shift - 1) (by omega) (by omega) right
          have hleads := (h.leads_of_pair inside hshift stored left right.derives).2.2
          exact ⟨b, .head hleads hreaches, happlies⟩

/-! ## The whole sentence -/

/-- **The rules of all derivations are the rules that occur in one**, each once and in ascending
order. -/
theorem allRules_ok (x : Symbol) :
    ∃ rules, t.allRules x = .ok rules ∧ rules.Pairwise (fun r r' => compare r r' = .lt)
      ∧ ∀ q, q ∈ rules ↔ p.rules.Occurs x w q := by
  by_cases hempty : w = []
  · subst hempty
    refine ⟨[], if_pos h.length, .nil, fun q => ?_⟩
    constructor
    · intro hq
      exact absurd hq List.not_mem_nil
    · intro hq
      exact absurd rfl hq.derives.ne_nil
  · have hpos := List.length_pos_iff.mpr hempty
    have hroot := h.linked.root_eq x
    obtain ⟨rules, hrules, hsorted, hmem⟩ := h.linked.allRules_ok hempty x
    refine ⟨rules, hrules, hsorted, fun q => ?_⟩
    rw [hmem, hroot]
    constructor
    · intro hfound
      obtain ⟨b, hreaches, happlies⟩ := hfound
      rw [← stretch_top hempty]
      exact h.occurs_of_reaches (by dsimp only; omega) hreaches happlies
    · intro hoccurs
      rw [← stretch_top hempty] at hoccurs
      exact h.exists_of_occurs (by omega) hoccurs

end Charts

/-- **The search finds exactly the rules of the parse trees.**  Every sentence is recognised, and the
rules of all derivations can be read off its table for every symbol.  They are the rules at the nodes of
the trees of stored rules that have the symbol at the root and yield the sentence, each once and in
ascending order; so there are none if the sentence is empty or not derived. -/
theorem trace_allDerivations [Scalar α] (p : Population α) (w : Sentence) :
    ∃ parse, p.recognise w = .ok parse ∧ ∀ x, ∃ rules,
      parse.table.trace .allDerivations x = .ok rules
        ∧ rules.Pairwise (fun r r' => compare r r' = .lt)
        ∧ (∀ q, q ∈ rules ↔ ∃ tree : ParseTree, tree.StoredIn p.rules ∧ tree.root = x
          ∧ tree.yield = w.symbols ∧ q ∈ tree.rules)
        ∧ (w.symbols = [] ∨ ¬ p.rules.Derives x w.symbols → rules = []) := by
  obtain ⟨parse, hrun, hcharts, -⟩ := p.exists_recognise_charts w
  refine ⟨parse, hrun, fun x => ?_⟩
  obtain ⟨rules, hrules, hsorted, hmem⟩ := hcharts.allRules_ok x
  refine ⟨rules, hrules, hsorted, fun q => (hmem q).trans RuleSet.occurs_iff_exists_tree, ?_⟩
  intro hnone
  refine List.eq_nil_iff_forall_not_mem.mpr fun q hq => ?_
  have hderives := ((hmem q).mp hq).derives
  rcases hnone with hempty | hnot
  · exact hderives.ne_nil hempty
  · exact hnot hderives

end Population

end GrammarInduction
