import GrammarInduction.Proofs.Chart.BestTree
import GrammarInduction.Proofs.Chart.Trace
import GrammarInduction.Proofs.Learning.Covering

/-!
# Completed tables are linked

A covering parse fills its cells from a grammar that changes under its hands: a rule that a cell was
filled with may have lost its body, or have left, before the next cell is filled.  The productions stay
linked all the same, since an operator picks what sees its cell and makes up a rule for just that.  So a
derivation can be read off whatever table a parse returns.

* `Learner.SplitTried.tried` — operators at a stretch of several symbols pick what sees it;
* `Learner.coveredPool_linked` — each cell is filled with linked productions;
* `Learner.parse_linked` — so the table of a parse is linked;
* `Parse.Completed` — the outcomes of recognitions and of parses;
* `Parse.Completed.trace_bestDerivation` — what is read off the table of an accepted sentence is one
  tree over it, and nothing is read off that of another.
-/

namespace GrammarInduction

open Attempt

variable {α : Type} [Scalar α]

namespace Learner

variable {coverage : Coverage α} {w : Sentence} {t : Table α} {row col : Nat} {pool p : Pool α}
  {s s' : Learner α} {start : Symbol} {site : CoverageSite} {kinds : List CoverageKind}

/-! ## One cell -/

/-- Operators that pick what sees a cell keep it linked. -/
theorem Covered.linked (h : Covered coverage site pool s kinds p s')
    (hlinked : pool.Linked w.symbols t row col)
    (hsees : ∀ d ∈ site.detectors, t.Sees w.symbols row col d) : p.Linked w.symbols t row col := by
  cases h with
  | fired listed invents => exact hlinked.add (hsees _ invents.mem) invents.body

theorem Tried.linked {condition : Prop} (h : Tried coverage site pool s kinds condition p s')
    (hlinked : pool.Linked w.symbols t row col)
    (hsees : ∀ d ∈ site.detectors, t.Sees w.symbols row col d) : p.Linked w.symbols t row col := by
  cases h with
  | idle => exact hlinked
  | covered _ done => exact done.linked hlinked hsees

omit [Scalar α] in
theorem sees_leaf {terminal : Symbol} (here : w.symbols[col]? = some terminal) :
    ∀ d ∈ (CoverageSite.leaf col terminal).detectors, t.Sees w.symbols 0 col d := by
  intro d hd
  rw [List.mem_singleton.mp hd]
  exact .leaf here

omit [Scalar α] in
theorem sees_unsatisfied {p : Population α} (hfills : p.Fills w.symbols t row col pool) :
    ∀ d ∈ (CoverageSite.splits pool.unsatisfied.toList).detectors, t.Sees w.symbols row col d :=
  fun _ hd => (hfills.of_mem_unsatisfied (Array.mem_toList_iff.mp hd)).1

/-- Whatever the cell of a stretch of several symbols gets a rule for, one rule at most is made up, for
something that sees the cell, and in a positive sentence. -/
theorem SplitTried.tried (h : SplitTried coverage start w row pool s p s')
    (hfills : s.population.Fills w.symbols t row col pool) :
    ∃ site kinds, (∀ d ∈ site.detectors, t.Sees w.symbols row col d)
      ∧ Tried coverage site pool s kinds (w.isPositive = true) p s' := by
  cases h with
  | idle g => exact ⟨_, [], sees_unsatisfied hfills, .idle g⟩
  | barren hpositive _ done => exact ⟨_, _, sees_unsatisfied hfills, .covered hpositive done⟩
  | gap hpositive _ _ done => exact ⟨_, _, sees_unsatisfied hfills, .covered hpositive done⟩
  | overwrite hpositive _ _ _ done =>
      have hsees : ∀ d ∈ (CoverageSite.splits pool.detectors).detectors, t.Sees w.symbols row col d :=
        fun _ hd => hfills.sees_of_mem_detectors hd
      exact ⟨_, _, hsees, .covered hpositive done⟩

theorem SplitTried.linked (h : SplitTried coverage start w row pool s p s')
    (hfills : s.population.Fills w.symbols t row col pool) : p.Linked w.symbols t row col := by
  obtain ⟨site, kinds, hsees, htried⟩ := h.tried hfills
  exact htried.linked hfills.linked hsees

/-- Every cell is filled with linked productions, whatever the grammar and the operators. -/
theorem coveredPool_linked (coverage : Coverage α) (start : Symbol) (s : Learner α)
    (hlength : t.length = w.length) (inside : row + col < w.length) :
    Ensures (coveredPool coverage start w t row col) s (fun _ _ => True) fun p _ =>
      p.Linked w.symbols t row col := by
  obtain ⟨pool, -, hfills, ⟨terminal, rfl, here, hcell⟩ | ⟨-, hcell⟩⟩ :=
    coveredPool_cases coverage start s hlength inside
  · refine (ensures_congr hcell).mpr (coverLeaf_ensures.imp fun p' _ h => ?_)
    obtain ⟨p, s', hfirst, hsecond⟩ := h
    have hlinked := hfirst.linked hfills.linked (sees_leaf here)
    exact hsecond.linked hlinked (sees_leaf here)
  · exact (ensures_congr hcell).mpr (coverSplit_ensures.imp fun _ _ h => h.linked hfills)

/-! ## The whole table -/

/-- **The table of a parse is linked**, whatever coverage has made of the grammar meanwhile. -/
theorem parse_linked (coverage : Coverage α) (w : Sentence) (s : Learner α) :
    Ensures (parse coverage w) s (fun _ _ => True) fun outcome _ =>
      ∃ t, outcome = Parse.ofTable s.population.limits.start w t ∧ t.Linked w.symbols := by
  apply parse_ensures
  have hfill : Ensures
      (Table.fill (coveredPool coverage s.population.limits.start w) w.length) s (fun _ _ => True)
      fun t _ => t.length = w.length ∧ t.LinkedOn w.symbols (Table.coordinates w.length) := by
    refine Table.fill_ensures (fun done t _ => t.LinkedOn w.symbols done) ?_ ?_
    · intro row col hmem
      cases hmem
    · intro done row col t s' hnow hlength hdone
      refine (coveredPool_linked coverage _ s' hlength hnow.inside).imp fun p _ hp u hu => ?_
      exact hdone.written hnow hlength hp hu
  exact hfill.imp fun t _ h => ⟨h.1, h.2⟩

end Learner

namespace Parse

variable {w : Sentence} {start : Symbol} {outcome : Parse α}

/-- The outcome of a sentence that has been recognised by a population or parsed by a learner, whose
starting symbol it was to derive from. -/
inductive Completed (w : Sentence) : Symbol → Parse α → Prop
  | recognised {p : Population α} {outcome : Parse α} (ran : p.recognise w = .ok outcome) :
      Completed w p.limits.start outcome
  | covered {coverage : Coverage α} {s s' : Learner α} {outcome : Parse α}
      (ran : Learner.parse coverage w s = (.ok outcome, s')) :
      Completed w s.population.limits.start outcome

namespace Completed

/-- The outcome is that of a linked table. -/
theorem exists_linked (h : Completed w start outcome) :
    ∃ t, outcome = ofTable start w t ∧ t.Linked w.symbols := by
  cases h with
  | @recognised p outcome ran =>
      obtain ⟨t, hfill, hcharts⟩ := p.exists_charts w.symbols
      refine ⟨t, ?_, hcharts.linked⟩
      rw [Population.recognise, Sentence.length, hfill] at ran
      exact (Except.ok.inj ran).symm
  | covered ran => exact (Learner.parse_linked _ w _).of_ok ran

/-- The rules of a completed table can be read off it in either way, for every symbol. -/
theorem trace_ok (h : Completed w start outcome) (traceback : Traceback) (x : Symbol) :
    ∃ rules, outcome.table.trace traceback x = .ok rules := by
  obtain ⟨t, rfl, hlinked⟩ := h.exists_linked
  exact hlinked.trace_ok traceback x

/-- **The best tree is one derivation of the sentence.**  Whatever grammar, coverage and draws a table
comes from, the best derivation of the starting symbol can be read off it.  If the sentence is accepted,
what is read are the rules of one tree, parent first and the right part before the left: the starting
symbol is at its root, every rule is that of a production of the table, and it yields the sentence.  So
of its `2 n - 1` rules `n` are terminal, and their terminals are the sentence in reverse.  The reading
ends by itself, whatever bound on the height of the tree it is given that is no less than `n`.  If the
sentence is not accepted nothing is read. -/
theorem trace_bestDerivation (h : Completed w start outcome) :
    ∃ rules, outcome.table.trace .bestDerivation start = .ok rules
      ∧ (outcome.accepted = true →
        (∃ tree : ParseTree, tree.rules = rules ∧ tree.root = start ∧ tree.yield = w.symbols)
          ∧ (∀ r ∈ rules, outcome.table.Uses r)
          ∧ (∀ height, w.length ≤ height →
            outcome.table.treeFrom height (outcome.table.root start) = .ok rules)
          ∧ rules.length = 2 * w.length - 1
          ∧ rules.countP Rule.isTerminal = w.length
          ∧ rules.filterMap Rule.terminal? = w.symbols.reverse)
      ∧ (outcome.accepted = false → rules = []) := by
  obtain ⟨t, rfl, hlinked⟩ := h.exists_linked
  have haccepted : (ofTable start w t).accepted = true
      ↔ w.symbols ≠ [] ∧ (t.poolAt (w.length - 1) 0).derives start = true :=
    accepted_ofTable hlinked.length
  by_cases hstart : w.symbols ≠ [] ∧ (t.poolAt (w.length - 1) 0).derives start = true
  · obtain ⟨tree, hread, -, hroot, hyield, huses, hall⟩ := hlinked.exists_bestTree hstart.1 hstart.2
    refine ⟨tree.rules, hread, ?_, ?_⟩
    · intro _
      have hlength := tree.length_rules
      have hcount := tree.countP_rules
      have hterminals := tree.terminals_rules
      rw [hyield] at hlength hcount hterminals
      refine ⟨⟨tree, rfl, hroot, hyield⟩, huses, hall, ?_, hcount, hterminals⟩
      rw [Sentence.length]
      omega
    · intro hrejected
      rw [haccepted.mpr hstart] at hrejected
      cases hrejected
  · refine ⟨[], hlinked.bestTree_eq_nil fun hsome hderives => hstart ⟨hsome, hderives⟩, ?_, ?_⟩
    · exact fun hyes => absurd (haccepted.mp hyes) hstart
    · exact fun _ => rfl

/-- The standard settings learn a sentence of three symbols from no rule at all, and five rules of one
tree can be read off the table of that parse. -/
theorem trace_bestDerivation_standard :
    ∃ (outcome : Parse Float) (s' : Learner Float) (rules : List Rule),
      Learner.parse .standard ⟨[-1, -2, -1], .positive⟩
          (.ofPopulation (.ofRules .standard []) .usage (.standard .standard 10) (.ofSeed 7))
        = (.ok outcome, s')
        ∧ outcome.accepted = true
        ∧ outcome.table.trace .bestDerivation Limits.standard.start = .ok rules
        ∧ (∃ tree : ParseTree, tree.rules = rules ∧ tree.root = Limits.standard.start
          ∧ tree.yield = [-1, -2, -1])
        ∧ rules.length = 5 := by
  obtain ⟨outcome, s', hrun, haccepted⟩ := exists_ok_of_check (fun outcome _ => outcome.accepted)
    (m := Learner.parse (.standard : Coverage Float) ⟨[-1, -2, -1], .positive⟩)
    (s := .ofPopulation (.ofRules .standard []) .usage (.standard .standard 10) (.ofSeed 7))
    (by decide +kernel)
  obtain ⟨rules, hread, hyes, -⟩ := trace_bestDerivation (.covered hrun)
  obtain ⟨htree, -, -, hlength, -⟩ := hyes haccepted
  exact ⟨outcome, s', rules, hrun, haccepted, hread, htree, hlength⟩

end Completed

end Parse

end GrammarInduction
