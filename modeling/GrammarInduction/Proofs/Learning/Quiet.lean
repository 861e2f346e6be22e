import GrammarInduction.Learning.Run
import GrammarInduction.Proofs.Chart.Exactness
import GrammarInduction.Proofs.Learning.Covering

/-!
# Parses that cover nothing

A covering parse of a sentence whose table has no gap, or with operators that never fire, is a
recognition: it has the same outcome and leaves the learner as it is, down to the generator.

* `Learner.NothingToCover` — when this is so;
* `Learner.parse_eq_recognise` — such a parse does what a recognition does;
* `Learner.parse_undisturbed` — it has a result, and this is so of every sentence that is not positive
  and whose terminals all have rules.
-/

namespace GrammarInduction

open Attempt

namespace Population

variable {α : Type}

/-- A sentence needs no rule that is not stored: all its terminals have one, and if it is positive all
its stretches are derived by some symbol, and all of it by the starting symbol. -/
structure Spans (p : Population α) (w : Sentence) : Prop where
  terminals : ∀ a ∈ w.symbols, ∃ x, p.rules.owner? (.terminal a) = some x
  stretches : w.isPositive = true → ∀ row col, row + col < w.length →
    ∃ x, p.rules.Derives x (stretch w.symbols row col)
  whole : w.isPositive = true → w.symbols ≠ [] → p.rules.Derives p.limits.start w.symbols

/-- A sentence that is not positive needs the rules of its terminals and no more. -/
theorem spans_of_not_positive {p : Population α} {w : Sentence} (hpositive : w.isPositive = false)
    (hterminals : ∀ a ∈ w.symbols, ∃ x, p.contains (.terminal x a) = true) : p.Spans w where
  terminals a ha := (hterminals a ha).imp fun _ hx => RuleSet.contains_terminal_iff.mp hx
  stretches h := by
    rw [hpositive] at h
    cases h
  whole h := by
    rw [hpositive] at h
    cases h

end Population

namespace Learner

variable {α : Type} [Scalar α] {coverage : Coverage α} {w : Sentence} {t : Table α}
  {row col : Nat} {pool : Pool α} {s : Learner α} {done : List (Nat × Nat)}

/-- Coverage has nothing to do with a sentence: no operator ever fires, or the sentence needs no rule
that is not stored. -/
def NothingToCover (coverage : Coverage α) (p : Population α) (w : Sentence) : Prop :=
  (∀ kind, (coverage.get kind).chance ≤ 0) ∨ p.Spans w

/-- Operators that never fire leave the cell and the learner as they are. -/
theorem coverFirst_of_le_zero (h : ∀ kind, (coverage.get kind).chance ≤ 0) (site : CoverageSite)
    (t : Table α) (pool : Pool α) (kinds : List CoverageKind) (s : Learner α) :
    coverFirst coverage site t pool kinds s = (.ok pool, s) := by
  induction kinds with
  | nil => rfl
  | cons kind kinds ih =>
      have hwith : coverWith coverage site t pool kind s = (.ok none, s) := by
        have hdraw : attempt (Coverage.cover s.population.limits kind (coverage.get kind) site) s
            = (.ok none, s) := by
          rw [attempt, Coverage.cover_of_le_zero (h kind)]
        unfold coverWith
        rw [bind_apply]
        show (attempt _ >>= _ : Attempt (Learner α) (Option (Pool α))) s = _
        rw [bind_apply, hdraw]
        rfl
      rw [coverFirst, bind_apply, hwith]
      exact ih

/-- A terminal that needs no rule is left as it is. -/
theorem coverLeaf_eq_pure {start terminal : Symbol}
    (h : (∀ kind, (coverage.get kind).chance ≤ 0) ∨ ¬ pool.isBarren = true
      ∧ (w.length = 1 → w.isPositive = true → pool.derives start = true)) :
    coverLeaf coverage start w t col terminal pool s = (.ok pool, s) := by
  rw [coverLeaf_eq, bind_apply]
  rcases h with hnever | ⟨hbarren, hstart⟩
  · have hfirst : (if pool.isBarren then
          coverFirst coverage (.leaf col terminal) t pool [.terminal, .universal]
        else pure pool) s = (.ok pool, s) := by
      split
      · exact coverFirst_of_le_zero hnever ..
      · rfl
    rw [hfirst]
    show (if _ then _ else _ : Attempt (Learner α) (Pool α)) s = _
    split
    · exact coverFirst_of_le_zero hnever ..
    · rfl
  · rw [if_neg hbarren]
    show (if _ then _ else _ : Attempt (Learner α) (Pool α)) s = _
    rw [if_neg fun hand => hand.2.2 (hstart hand.1 hand.2.1)]
    rfl

/-- A stretch that needs no rule is left as it is. -/
theorem coverSplit_eq_pure {start : Symbol}
    (h : (∀ kind, (coverage.get kind).chance ≤ 0) ∨ (w.isPositive = true →
      ¬ pool.isBarren = true ∧ (row + 1 = w.length → pool.derives start = true))) :
    coverSplit coverage start w t row pool s = (.ok pool, s) := by
  rw [coverSplit]
  by_cases hpositive : w.isPositive = true
  · rw [if_neg (by simp [hpositive])]
    rcases h with hnever | hserves
    · split
      · exact coverFirst_of_le_zero hnever ..
      · split
        · exact coverFirst_of_le_zero hnever ..
        · rfl
    · obtain ⟨hbarren, hstart⟩ := hserves hpositive
      rw [if_neg hbarren, if_neg fun hand => hand.2 (hstart (of_decide_eq_true hand.1))]
      rfl
  · rw [if_pos (by simp [hpositive])]
    rfl

omit [Scalar α] in
/-- A stretch that some symbol derives has a cell that is not barren. -/
theorem not_barren_of_derives (hexact : t.ExactOn s.population.rules w.symbols done)
    (hnow : Table.Turn w.length done row col)
    (hfills : s.population.Fills w.symbols t row col pool) {x : Symbol}
    (hx : s.population.rules.Derives x (stretch w.symbols row col)) : ¬ pool.isBarren = true := by
  intro hbarren
  have hnone := Pool.isBarren_iff.mp hbarren x
  rw [(hexact.derives_iff hnow hfills x).mpr hx] at hnone
  cases hnone

omit [Scalar α] in
/-- The last cell of a positive sentence that needs no rule derives the starting symbol. -/
theorem derives_start_of_spans (hexact : t.ExactOn s.population.rules w.symbols done)
    (hnow : Table.Turn w.length done row col)
    (hfills : s.population.Fills w.symbols t row col pool) (hspans : s.population.Spans w)
    (hpositive : w.isPositive = true) (htop : row + 1 = w.length) :
    pool.derives s.population.limits.start = true := by
  have inside := hnow.inside
  have hlength : w.length = w.symbols.length := rfl
  have hsome : w.symbols ≠ [] := by
    intro hnil
    rw [hlength, hnil] at inside
    exact absurd inside (Nat.not_lt_zero _)
  have hstart := hspans.whole hpositive hsome
  rw [← stretch_top hsome] at hstart
  obtain ⟨rfl, rfl⟩ : row = w.symbols.length - 1 ∧ col = 0 := by omega
  exact (hexact.derives_iff hnow hfills _).mpr hstart

/-- A cell that needs no rule gets the pool that the population gives it. -/
theorem coveredPool_eq_cellPool (h : NothingToCover coverage s.population w)
    (hlength : t.length = w.length) (hnow : Table.Turn w.length done row col)
    (hexact : t.ExactOn s.population.rules w.symbols done) :
    coveredPool coverage s.population.limits.start w t row col s
      = (s.population.cellPool w.symbols t row col, s) := by
  have inside := hnow.inside
  obtain ⟨pool, hpool, hfills, hcell⟩ := coveredPool_cases coverage s.population.limits.start
    s hlength inside
  rw [hpool]
  rcases hcell with ⟨terminal, rfl, here, hcell⟩ | ⟨-, hcell⟩
  · rw [hcell]
    refine coverLeaf_eq_pure (h.imp_right fun hspans => ⟨?_, fun hone hpositive => ?_⟩)
    · obtain ⟨x, hx⟩ := hspans.terminals terminal (List.mem_of_getElem? here)
      exact not_barren_of_derives hexact hnow hfills ((RuleSet.derives_stretch_zero here).mpr hx)
    · exact derives_start_of_spans hexact hnow hfills hspans hpositive hone.symm
  · rw [hcell]
    refine coverSplit_eq_pure (h.imp_right fun hspans hpositive => ⟨?_, fun htop => ?_⟩)
    · obtain ⟨x, hx⟩ := hspans.stretches hpositive row col inside
      exact not_barren_of_derives hexact hnow hfills hx
    · exact derives_start_of_spans hexact hnow hfills hspans hpositive htop

/-- **A parse that covers nothing is a recognition**, and leaves the learner as it is. -/
theorem parse_eq_recognise (h : NothingToCover coverage s.population w) :
    parse coverage w s = (s.population.recognise w, s) := by
  have hfill : Table.fill (coveredPool coverage s.population.limits.start w) w.length s
      = (Table.fill (s.population.cellPool w.symbols) w.length, s) := by
    refine Table.fill_agree (fun done t => t.ExactOn s.population.rules w.symbols done) ?_ ?_
    · intro row col hmem
      cases hmem
    · intro done row col t hnow hlength hexact
      refine ⟨coveredPool_eq_cellPool h hlength hnow hexact, fun p hp u hu => ?_⟩
      obtain ⟨pool, hpool, hfills⟩ := Population.cellPool_ok (p := s.population) hlength
        (hlength ▸ hnow.inside)
      rw [hpool] at hp
      cases hp
      exact hexact.written hnow hlength hfills hu
  show (Table.fill (coveredPool coverage s.population.limits.start w) w.length >>= _ :
    Attempt (Learner α) (Parse α)) s = _
  rw [bind_apply, hfill, Population.recognise]
  cases Table.fill (s.population.cellPool w.symbols) w.length <;> rfl

/-- **A parse that has nothing to cover has the result of a recognition, and changes nothing.**  So it
is if no operator ever fires, and so it is, whatever the operators, if the sentence is not positive and
each of its terminals has a rule. -/
theorem parse_undisturbed (h : (∀ kind, (coverage.get kind).chance ≤ 0)
      ∨ w.isPositive = false
        ∧ ∀ a ∈ w.symbols, ∃ x, s.population.contains (.terminal x a) = true) :
    ∃ outcome, s.population.recognise w = .ok outcome ∧ parse coverage w s = (.ok outcome, s) := by
  obtain ⟨t, hrun, -⟩ := s.population.exists_recognise w
  refine ⟨_, hrun, ?_⟩
  rw [← hrun]
  apply parse_eq_recognise
  exact h.imp_right fun hword => Population.spans_of_not_positive hword.1 hword.2

/-- Standard coverage leaves alone a negative sentence whose terminals have rules, and disabled coverage
a positive one whose terminals have none. -/
theorem parse_undisturbed_negative_disabled :
    let s : Learner Float := ofPopulation
      (.ofRules .standard [.terminal 2 (-1), .terminal 3 (-2), .pair 1 2 3])
      .usage (.standard .standard 10) (.ofSeed 7)
    (∃ outcome, s.population.recognise ⟨[-1, -2, -2], .negative⟩ = .ok outcome
        ∧ parse .standard ⟨[-1, -2, -2], .negative⟩ s = (.ok outcome, s))
      ∧ ∃ outcome, s.population.recognise ⟨[-3, -3], .positive⟩ = .ok outcome
        ∧ parse .disabled ⟨[-3, -3], .positive⟩ s = (.ok outcome, s) := by
  constructor
  · apply parse_undisturbed
    refine Or.inr ⟨rfl, ?_⟩
    intro a ha
    rcases List.mem_cons.mp ha with rfl | ha
    · exact ⟨2, by decide +kernel⟩
    · have hlast : a = -2 := by simpa using ha
      subst hlast
      exact ⟨3, by decide +kernel⟩
  · apply parse_undisturbed
    refine Or.inl ?_
    intro kind
    cases kind <;> decide +kernel

end Learner

end GrammarInduction
