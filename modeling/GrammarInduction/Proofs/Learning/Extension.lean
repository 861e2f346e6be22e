import GrammarInduction.Proofs.Learning.Keeping

/-!
# A parse derives what the grammar derived before

Below the limit of pair rules a covering parse only ever adds to what a recognition by the grammar
before it would have found.  Two things keep it so.  Covering a cell adds productions to its pool and
takes none away.  And the rules that were stored before are stored at the turn of every cell: the one
step that may overwrite a rule is taken in the cell of the whole sentence, after which no cell has its
turn.

* `Learner.coveredPool_extends` — a covered cell derives what its population derives there;
* `Learner.Extends` — the cells filled so far derive what the old rules derive;
* `Learner.parse_extends_recognise` — so each cell of a parse has all effectors that it has in a
  recognition before the parse, and a sentence that was accepted is accepted again.
-/

namespace GrammarInduction.Learner

open Attempt

variable {α : Type} [Scalar α] {coverage : Coverage α} {w : Sentence} {t u : Table α}
  {row col : Nat} {pool p : Pool α} {s s' s'' : Learner α} {start : Symbol}

/-! ## Covering a cell takes nothing away -/

section Covering

variable {site : CoverageSite} {kinds : List CoverageKind} {x : Symbol}

theorem Covered.derives_of_derives (h : Covered coverage site pool s kinds p s')
    (hx : pool.derives x = true) : p.derives x = true := by
  obtain ⟨_, -, _, _, -, hderives⟩ := h.derives_iff
  exact (hderives x).mpr (Or.inl hx)

theorem Tried.derives_of_derives {condition : Prop}
    (h : Tried coverage site pool s kinds condition p s') (hx : pool.derives x = true) :
    p.derives x = true := by
  cases h with
  | idle => exact hx
  | covered _ done => exact done.derives_of_derives hx

theorem SplitTried.derives_of_derives (h : SplitTried coverage start w row pool s p s')
    (hfills : s.population.Fills w.symbols t row col pool) (hx : pool.derives x = true) :
    p.derives x = true := by
  obtain ⟨_, _, -, htried⟩ := h.tried hfills
  exact htried.derives_of_derives hx

end Covering

/-- A covered cell derives what the population derives there, whatever the operators and the limit. -/
theorem coveredPool_extends (coverage : Coverage α) (start : Symbol) (s : Learner α)
    (hlength : t.length = w.length) (inside : row + col < w.length) :
    Ensures (coveredPool coverage start w t row col) s (fun _ _ => True) fun p _ =>
      ∃ pool, s.population.Fills w.symbols t row col pool
        ∧ ∀ x, pool.derives x = true → p.derives x = true := by
  obtain ⟨pool, -, hfills, ⟨terminal, rfl, here, hcell⟩ | ⟨-, hcell⟩⟩ :=
    coveredPool_cases coverage start s hlength inside
  · apply (ensures_congr hcell).mpr
    apply coverLeaf_ensures.imp
    intro p' _ h
    obtain ⟨p, s', hfirst, hsecond⟩ := h
    exact ⟨pool, hfills, fun _ hx => hsecond.derives_of_derives (hfirst.derives_of_derives hx)⟩
  · apply (ensures_congr hcell).mpr
    apply coverSplit_ensures.imp
    intro p _ h
    exact ⟨pool, hfills, fun _ hx => h.derives_of_derives hfills hx⟩

/-! ## The cells of a parse -/

/-- Where a parse from `s` has come to when the cells of `done` are filled: they derive what the rules
of `s` derive, and these rules are stored until the last cell is filled. -/
structure Extends (w : Sentence) (s : Learner α) (done : List (Nat × Nat)) (t : Table α)
    (s' : Learner α) : Prop where
  stays : (w.length - 1, 0) ∉ done →
    ∀ r, s.population.rules.contains r = true → s'.population.rules.contains r = true
  derives : ∀ {row col}, (row, col) ∈ done → ∀ x,
    s.population.rules.Derives x (stretch w.symbols row col) → (t.poolAt row col).derives x = true

namespace Extends

variable {done : List (Nat × Nat)}

omit [Scalar α]

/-- At the turn of a cell, the population derives there what the rules of `s` derive. -/
theorem derives_fills (h : Extends w s done t s') (hnow : Table.Turn w.length done row col)
    (hfills : s'.population.Fills w.symbols t row col pool) {x : Symbol}
    (hx : s.population.rules.Derives x (stretch w.symbols row col)) : pool.derives x = true := by
  have inside := hnow.inside
  have hparts : ∀ {row' col'}, row' < row → row' + col' ≤ row + col → ∀ y,
      s.population.rules.Derives y (stretch w.symbols row' col') →
      (t.poolAt row' col').derives y = true := by
    intro row' col' hrow hle
    exact h.derives (hnow.mem_done_of_lt hrow (by omega))
  obtain ⟨d, hsees, howner⟩ := Table.exists_sees_of_derives inside hparts hx
  -- The rule by which `x` derived the stretch is still stored.
  have hold : s.population.rules.contains ⟨x, d.body⟩ = true := RuleSet.contains_iff.mpr howner
  have hstored := h.stays hnow.last_not_mem_done _ hold
  exact (hfills.derives_iff x).mpr ⟨d, hsees, RuleSet.contains_iff.mp hstored⟩

/-- Filling one more cell extends what the old rules derive. -/
theorem written (h : Extends w s done t s') (hnow : Table.Turn w.length done row col)
    (hlength : t.length = w.length) (hfills : s'.population.Fills w.symbols t row col pool)
    (hpool : ∀ x, pool.derives x = true → p.derives x = true)
    (hp : Filled start w t row col s' p s'') (hu : Table.Written t row col p u) :
    Extends w s (done ++ [(row, col)]) u s'' := by
  have inside := hnow.inside
  constructor
  · intro hlast r hr
    have hbefore := h.stays hnow.last_not_mem_done r hr
    rcases hp.2 with hsafe | ⟨htop, -⟩
    · exact hsafe.stays r hbefore
    · -- Only the cell of the whole sentence is filled with a loss.
      have hplace : (row, col) = (w.length - 1, 0) := by
        rw [Prod.mk.injEq]
        omega
      rw [hplace] at hlast
      exact absurd (List.mem_append_right _ (List.mem_singleton_self _)) hlast
  · intro row' col' hmem
    apply hnow.forall_written hlength hu (P := fun row col pool => ∀ x,
      s.population.rules.Derives x (stretch w.symbols row col) → pool.derives x = true) h.derives
      _ hmem
    intro x hx
    exact hpool x (h.derives_fills hnow hfills hx)

end Extends

/-- Below the limit of pair rules all cells derive what the rules of `s` derive. -/
theorem fill_extends (hexpands : Expands coverage)
    (hroom : s.population.rules.pairCount + w.length * (w.length + 1) / 2
      ≤ s.population.limits.pairRuleLimit) :
    Ensures (Table.fill (coveredPool coverage s.population.limits.start w) w.length) s
      (fun _ _ => True) fun t s' => t.length = w.length
        ∧ Keeps s.population.limits.start w s (Table.coordinates w.length) t s'
        ∧ Extends w s (Table.coordinates w.length) t s' := by
  apply Table.fill_ensures fun done t s' =>
    Keeps s.population.limits.start w s done t s' ∧ Extends w s done t s'
  · exact ⟨.blank, fun _ _ hr => hr, fun hmem => (nomatch hmem)⟩
  · intro done row col t s' hnow hlength h
    obtain ⟨hkeeps, hextends⟩ := h
    have hstart : s'.population.limits.start = s.population.limits.start := by rw [hkeeps.limits]
    have hfilled := coveredPool_filled hexpands (hkeeps.hasRoom hnow hroom) hstart hlength
      hnow.inside
    have hpool := coveredPool_extends coverage s.population.limits.start s' hlength hnow.inside
    apply (hfilled.and hpool).mono (fun _ _ _ => trivial)
    intro p s'' hp u hu
    obtain ⟨hp, pool, hfills, hgrows⟩ := hp
    exact ⟨hkeeps.written hnow hlength hp hu, hextends.written hnow hlength hfills hgrows hp hu⟩

/-- **Coverage costs no acceptance below the limit.**  Where every operator lets the grammar grow and
there is room for a rule in every cell, each cell of the table of a parse has all the effectors that it
has when the grammar before the parse recognises the sentence.  So a sentence that was accepted before
is accepted by the parse. -/
theorem parse_extends_recognise (hexpands : Expands coverage)
    (hroom : s.population.rules.pairCount + w.length * (w.length + 1) / 2
      ≤ s.population.limits.pairRuleLimit) {outcome : Parse α}
    (hrun : parse coverage w s = (.ok outcome, s')) :
    ∃ plain, s.population.recognise w = .ok plain
      ∧ (∀ row col, row + col < w.length → ∃ pool pool', outcome.table.cell row col = .ok pool
        ∧ plain.table.cell row col = .ok pool' ∧ ∀ x ∈ pool'.effectors, x ∈ pool.effectors)
      ∧ (plain.accepted = true → outcome.accepted = true) := by
  obtain ⟨t, rfl, hlength, -, hextends⟩ := (parse_ensures (fill_extends hexpands hroom)).of_ok hrun
  obtain ⟨t', hplain, hlength', hexact, haccepted⟩ := s.population.exists_recognise w
  have hcell : ∀ {row col}, row + col < w.length → ∀ x,
      (t'.poolAt row col).derives x = true → (t.poolAt row col).derives x = true := by
    intro row col inside x hx
    have hmem : (row, col) ∈ Table.coordinates w.length := Table.mem_coordinates.mpr inside
    exact hextends.derives hmem x ((hexact hmem x).mp hx)
  have htop : (Parse.ofTable s.population.limits.start w t').accepted = true →
      (Parse.ofTable s.population.limits.start w t).accepted = true := by
    rw [Parse.accepted_ofTable hlength, Parse.accepted_ofTable hlength']
    intro hyes
    obtain ⟨hsome, hstart⟩ := hyes
    have hpos : 0 < w.length := List.length_pos_iff.mpr hsome
    exact ⟨hsome, hcell (by omega) _ hstart⟩
  refine ⟨_, hplain, ?_, htop⟩
  intro row col inside
  have hpool : t.cell row col = .ok (t.poolAt row col) := Table.cell_eq_poolAt (hlength ▸ inside)
  have hpool' : t'.cell row col = .ok (t'.poolAt row col) :=
    Table.cell_eq_poolAt (hlength' ▸ inside)
  refine ⟨_, _, hpool, hpool', ?_⟩
  intro x hx
  exact Pool.mem_effectors.mpr (hcell inside x (Pool.mem_effectors.mp hx))

/-- The grammar of one sentence of three symbols, of which the last two are joined first. -/
def joinedRight : Population Float :=
  .ofRules .standard [.terminal 2 (-1), .terminal 3 (-2), .terminal 4 (-3), .pair 5 3 4, .pair 1 2 5]

/-- The sentence is accepted still, although the standard settings have meanwhile made up a rule that
joins its first two symbols. -/
theorem parse_extends_recognise_joinedRight :
    ∃ (plain outcome : Parse Float) (s' : Learner Float),
      Expands (Coverage.standard : Coverage Float)
        ∧ joinedRight.recognise ⟨[-1, -2, -3], .positive⟩ = .ok plain
        ∧ plain.accepted = true
        ∧ parse .standard ⟨[-1, -2, -3], .positive⟩
          (ofPopulation joinedRight .usage (.standard .standard 10) (.ofSeed 7)) = (.ok outcome, s')
        ∧ s'.population.rules.pairCount = 3
        ∧ outcome.accepted = true := by
  have hexpands : Expands (Coverage.standard : Coverage Float) := by
    intro kind
    cases kind <;> rfl
  obtain ⟨outcome, s', hrun, hgrown⟩ := exists_ok_of_check
    (fun _ s' => decide (s'.population.rules.pairCount = 3))
    (m := parse (.standard : Coverage Float) ⟨[-1, -2, -3], .positive⟩)
    (s := ofPopulation joinedRight .usage (.standard .standard 10) (.ofSeed 7)) (by decide +kernel)
  obtain ⟨plain, hplain, -, haccepted⟩ :=
    parse_extends_recognise hexpands (by decide +kernel) hrun
  have hbefore : (joinedRight.recognise ⟨[-1, -2, -3], .positive⟩).toOption.map Parse.accepted
      = some true := by
    decide +kernel
  rw [show joinedRight.recognise ⟨[-1, -2, -3], .positive⟩ = .ok plain from hplain] at hbefore
  have hyes : plain.accepted = true := Option.some.inj hbefore
  exact ⟨plain, outcome, s', hexpands, hplain, hyes, hrun, of_decide_eq_true hgrown, haccepted hyes⟩

end GrammarInduction.Learner
