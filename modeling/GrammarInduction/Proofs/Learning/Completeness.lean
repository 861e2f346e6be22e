import GrammarInduction.Proofs.Chart.Exactness
import GrammarInduction.Proofs.Learning.Change
import GrammarInduction.Proofs.Scalar.Sum

/-!
# Coverage leaves no gap

Where the terminal, the starting and the full operator are sure to fire, every cell of a positive
sentence ends with a production that has a rule, and the cell of the whole sentence with one for the
starting symbol.  It does not matter what the submissions made on the way do to the grammar: the
production stays in its cell, and the next cell looks at the cells and not at the rules.

* `Pool.Serves` — what a cell has to derive;
* `Learner.coverLeaf_serves`, `Learner.coverSplit_serves` — the two kinds of cell;
* `Learner.parse_complete` — all cells of the table, and the sentence.
-/

namespace GrammarInduction

open Attempt

variable {α : Type}

/-- A pool of row `row` derives some symbol, and the starting symbol if its cell is that of a whole
sentence of `n` symbols. -/
structure Pool.Serves (start : Symbol) (n row : Nat) (pool : Pool α) : Prop where
  some : ∃ x, pool.derives x = true
  top : row + 1 = n → pool.derives start = true

theorem Pool.exists_derives {pool : Pool α} (h : ¬ pool.isBarren = true) :
    ∃ x, pool.derives x = true := by
  apply Classical.byContradiction
  intro hnone
  refine h (Pool.isBarren_iff.mpr fun x => ?_)
  exact Bool.eq_false_iff.mpr fun hx => hnone ⟨x, hx⟩

/-- The detectors of a stretch of several symbols look at its splits. -/
theorem Table.Sees.splits {w : List Symbol} {t : Table α} {row col : Nat} {d : Detector}
    (h : t.Sees w row col d) (hrow : 0 < row) {n : Nat} (inside : row + col < n) : d.Splits n := by
  cases h with
  | leaf => omega
  | split hshift => exact .split hshift inside

/-- The detectors of a stretch of several symbols can be covered, with or without a rule. -/
theorem Population.Fills.ready {p : Population α} {w : List Symbol} {t : Table α} {row col : Nat}
    {pool : Pool α} (hfills : p.Fills w t row col pool) (hrow : 0 < row)
    (inside : row + col < t.length) {ds : List Detector} (hne : ds ≠ [])
    (hds : ∀ d ∈ ds, d ∈ pool.unsatisfied ∨ d ∈ pool.detectors) :
    (CoverageSite.splits ds).Ready t.length := by
  refine ⟨hne, fun d hd => ?_⟩
  rcases hds d hd with hgap | hany
  · exact (hfills.of_mem_unsatisfied hgap).1.splits hrow inside
  · exact (hfills.sees_of_mem_detectors hany).splits hrow inside

/-- In a barren cell all splits can be covered. -/
theorem Population.Fills.ready_of_barren {p : Population α} {w : List Symbol} {t : Table α}
    {row col : Nat} {pool : Pool α} (hfills : p.Fills w t row col pool) (hrow : 0 < row)
    (inside : row + col < t.length) (hbarren : pool.isBarren = true) {q : Production α}
    (hq : q ∈ pool.productions) : (CoverageSite.splits pool.unsatisfied.toList).Ready t.length := by
  have hnone := hfills.coherent.isBarren_iff.mp hbarren q hq
  have hmem : q.detector ∈ pool.unsatisfied.toList := Array.mem_toList_iff.mpr
    ((hfills.coherent.mem_unsatisfied _).mpr ⟨q, hq, hnone, rfl⟩)
  exact hfills.ready hrow inside (List.ne_nil_of_mem hmem)
    fun d hd => Or.inl (Array.mem_toList_iff.mp hd)

/-- In any cell the splits without a rule can be covered, or all of them if each has one. -/
theorem Population.Fills.ready_of_gaps {p : Population α} {w : List Symbol} {t : Table α}
    {row col : Nat} {pool : Pool α} (hfills : p.Fills w t row col pool) (hrow : 0 < row)
    (inside : row + col < t.length) {q : Production α} (hq : q ∈ pool.productions) :
    (CoverageSite.splits (if pool.unsatisfied.isEmpty then pool.detectors
      else pool.unsatisfied.toList)).Ready t.length := by
  split
  · refine hfills.ready hrow inside ?_ fun d hd => Or.inr hd
    exact List.ne_nil_of_mem (List.mem_map_of_mem (Array.mem_toList_iff.mpr hq))
  · rename_i hempty
    refine hfills.ready hrow inside ?_ fun d hd => Or.inl (Array.mem_toList_iff.mp hd)
    simpa using hempty

/-- A sentence is accepted, and no cell of its table is without an effector. -/
structure Parse.Gapless [Scalar α] (outcome : Parse α) (w : Sentence) : Prop where
  accepted : outcome.accepted = true
  length : outcome.table.length = w.length
  effectors : ∀ row col, row + col < w.length →
    ∃ pool, outcome.table.cell row col = .ok pool ∧ pool.effectors ≠ []

/-- The operators that close every gap are sure to fire, and the one that may come before them can
decide whether it does. -/
structure Coverage.Thorough [Scalar α] (c : Coverage α) : Prop where
  terminal : 1 ≤ c.terminal.chance
  starting : 1 ≤ c.starting.chance
  full : 1 ≤ c.full.chance
  aggressive : Scalar.IsNumber c.aggressive.chance

namespace Learner

variable [Scalar α] {coverage : Coverage α} {w : Sentence} {t : Table α} {row col : Nat}
  {pool : Pool α} {s : Learner α} {start : Symbol}

/-- A pool covered by operators that derive the sentence derives the starting symbol. -/
theorem Covered.derives_start {site : CoverageSite} {kinds : List CoverageKind} {p : Pool α}
    {s' : Learner α} (h : Covered coverage site pool s kinds p s')
    (hkinds : ∀ kind ∈ kinds, kind = .starting ∨ kind = .full) :
    p.derives s.population.limits.start = true := by
  obtain ⟨kind, hlisted, r, d, hinvents, hderives⟩ := h.derives_iff
  exact (hderives _).mpr (Or.inr (hinvents.start (hkinds kind hlisted)))

theorem Covered.exists_derives {site : CoverageSite} {kinds : List CoverageKind} {p : Pool α}
    {s' : Learner α} (h : Covered coverage site pool s kinds p s') : ∃ x, p.derives x = true := by
  obtain ⟨kind, hlisted, r, d, hinvents, hderives⟩ := h.derives_iff
  exact ⟨r.parent, (hderives _).mpr (Or.inr rfl)⟩

/-- A pool covered by operators that derive the sentence serves in any cell. -/
theorem Covered.serves {site : CoverageSite} {kinds : List CoverageKind} {p : Pool α}
    {s' : Learner α} {n : Nat} (h : Covered coverage site pool s kinds p s')
    (hstart : s.population.limits.start = start)
    (hkinds : ∀ kind ∈ kinds, kind = .starting ∨ kind = .full) : p.Serves start n row :=
  ⟨h.exists_derives, fun _ => hstart ▸ h.derives_start hkinds⟩

variable [LawfulScalar α]

/-- A terminal gets a rule if it has none, and the rule of a sentence of one symbol becomes one of
the starting symbol. -/
theorem coverLeaf_serves (hfull : coverage.Thorough) (hpositive : w.isPositive = true)
    (hstart : s.population.limits.start = start) (terminal : Symbol) :
    Ensures (coverLeaf coverage start w t col terminal pool) s LacksElite fun p s' =>
      p.Serves start w.length 0 ∧ s'.population.limits = s.population.limits := by
  have hready : (CoverageSite.leaf col terminal).Ready t.length := trivial
  have hfirst : Ensures (if pool.isBarren then
        coverFirst coverage (.leaf col terminal) t pool [.terminal, .universal] else pure pool)
      s LacksElite fun p s' =>
        (∃ x, p.derives x = true) ∧ s'.population.limits = s.population.limits := by
    split
    · refine (coverFirst_fires [] (by simp) (by simp) hfull.terminal rfl hready).imp ?_
      exact fun p s' h => ⟨h.exists_derives, h.limits⟩
    · rename_i hbarren
      exact ensures_pure.mpr ⟨Pool.exists_derives hbarren, rfl⟩
  rw [coverLeaf_eq]
  refine ensures_bind.mpr (hfirst.imp fun p s' h => ?_)
  obtain ⟨hsome, hlimits⟩ := h
  split
  · refine (coverFirst_fires [] (by simp) (by simp) hfull.starting rfl hready).imp ?_
    exact fun p' s'' h => ⟨h.serves (hlimits ▸ hstart) (by simp), h.limits.trans hlimits⟩
  · rename_i hgap
    refine ensures_pure.mpr ⟨⟨hsome, fun hone => ?_⟩, hlimits⟩
    apply Classical.byContradiction
    exact fun hnot => hgap ⟨hone.symm, hpositive, hnot⟩

/-- A stretch of several symbols gets a rule for one of its splits if it derives nothing, and one of
the starting symbol if it has to derive that and does not. -/
theorem coverSplit_serves (hfull : coverage.Thorough) (hpositive : w.isPositive = true)
    (hstart : s.population.limits.start = start) (hrow : 0 < row) (inside : row + col < t.length)
    (hfills : s.population.Fills w.symbols t row col pool)
    (hsplit : ∃ d, t.Sees w.symbols row col d) :
    Ensures (coverSplit coverage start w t row pool) s LacksElite fun p s' =>
      p.Serves start w.length row ∧ s'.population.limits = s.population.limits := by
  obtain ⟨d, hsees⟩ := hsplit
  obtain ⟨q, hq, rfl⟩ := hfills.complete d hsees (Or.inl hrow)
  rw [coverSplit, if_neg (by simp [hpositive])]
  split
  -- A barren cell has a detector without a rule, namely any detector at all.
  · rename_i hbarren
    have hready := hfills.ready_of_barren hrow inside hbarren hq
    split
    · refine (coverFirst_fires [] (by simp) (by simp) hfull.full rfl hready).imp ?_
      exact fun p s' h => ⟨h.serves hstart (by simp), h.limits⟩
    · rename_i htop
      refine (coverFirst_fires [.aggressive] ?_ (by simp) hfull.full rfl hready).imp ?_
      · intro kind hkind
        rw [List.mem_singleton.mp hkind]
        exact ⟨by simp, hfull.aggressive⟩
      · intro p s' h
        exact ⟨⟨h.exists_derives, fun hrow => absurd (decide_eq_true hrow) htop⟩, h.limits⟩
  · rename_i hbarren
    have hsome := Pool.exists_derives hbarren
    split
    -- The sentence is not derived yet; some split can be covered, with a rule or without.
    · have hready := hfills.ready_of_gaps hrow inside hq
      refine (coverFirst_fires [] (by simp) (by simp) hfull.full rfl hready).imp ?_
      exact fun p s' h => ⟨h.serves hstart (by simp), h.limits⟩
    · rename_i hgap
      refine ensures_pure.mpr ⟨⟨hsome, fun hone => ?_⟩, rfl⟩
      apply Classical.byContradiction
      exact fun hnot => hgap ⟨decide_eq_true hone, hnot⟩

/-- A cell whose shorter stretches all derive something comes to serve. -/
theorem coveredPool_serves (hfull : coverage.Thorough) (hpositive : w.isPositive = true)
    (hstart : s.population.limits.start = start) (hlength : t.length = w.length)
    (inside : row + col < w.length)
    (hbelow : ∀ {row' col'}, row' < row → row' + col' < w.length →
      ∃ x, (t.poolAt row' col').derives x = true) :
    Ensures (coveredPool coverage start w t row col) s LacksElite fun p s' =>
      p.Serves start w.length row ∧ s'.population.limits = s.population.limits := by
  obtain ⟨pool, -, hfills, ⟨terminal, rfl, -, hcell⟩ | ⟨hrow, hcell⟩⟩ :=
    coveredPool_cases coverage start s hlength inside
  · exact (ensures_congr hcell).mpr (coverLeaf_serves hfull hpositive hstart terminal)
  · obtain ⟨x, hx⟩ : ∃ x, (t.poolAt 0 col).derives x = true := hbelow hrow (by omega)
    obtain ⟨y, hy⟩ : ∃ y, (t.poolAt (row - 0 - 1) (col + 0 + 1)).derives y = true :=
      hbelow (by omega) (by omega)
    exact (ensures_congr hcell).mpr (coverSplit_serves hfull hpositive hstart hrow
      (hlength ▸ inside) hfills ⟨_, .split hrow hx hy⟩)

/-- All cells of the table of a positive sentence come to serve. -/
theorem fill_serves (hfull : coverage.Thorough) (hpositive : w.isPositive = true) (s : Learner α) :
    Ensures (Table.fill (coveredPool coverage s.population.limits.start w) w.length) s
      LacksElite fun t s' => t.length = w.length
        ∧ s'.population.limits = s.population.limits
        ∧ ∀ {row col}, (row, col) ∈ Table.coordinates w.length →
          (t.poolAt row col).Serves s.population.limits.start w.length row := by
  refine Table.fill_ensures (fun done t (s' : Learner α) =>
    s'.population.limits = s.population.limits
      ∧ ∀ {row col}, (row, col) ∈ done →
        (t.poolAt row col).Serves s.population.limits.start w.length row) ?_ ?_
  · exact ⟨rfl, fun hmem => (nomatch hmem)⟩
  · intro done row col t s' hnow hlength hinv
    obtain ⟨hlimits, hdone⟩ := hinv
    refine (coveredPool_serves hfull hpositive (by rw [hlimits]) hlength hnow.inside
      fun hrow hinside => (hdone (hnow.mem_done_of_lt hrow hinside)).some).imp ?_
    intro p s'' hp u hu
    refine ⟨hp.2.trans hlimits, fun hmem => ?_⟩
    exact hnow.forall_written hlength hu
      (P := fun row _ pool => pool.Serves s.population.limits.start w.length row) hdone hp.1 hmem

/-- **Thorough coverage completes every chart.**  Whatever the grammar, its limits, the strategies, the
statistics and the draws, the parse of a positive sentence of at least one symbol leaves no gap, unless it
comes to more than twenty pair rules that cannot be ranked, one of which has a fitness that is no number.  So
there is an outcome wherever every fitness stays a number. -/
theorem parse_complete [StrictScalar α] (hfull : coverage.Thorough) (hpositive : w.isPositive = true)
    (hsome : w.symbols ≠ []) (s : Learner α) :
    Ensures (parse coverage w) s FailsToRank (fun outcome _ => outcome.Gapless w)
      ∧ (s.StaysRated → ∃ outcome s', parse coverage w s = (.ok outcome, s') ∧ outcome.Gapless w) := by
  have hends : Ensures (parse coverage w) s FailsToRank fun outcome _ => outcome.Gapless w := by
    refine (parse_ensures (fill_serves hfull hpositive s)).mono
      (fun _ _ => LacksElite.failsToRank) fun outcome s' hparse => ?_
    obtain ⟨t, rfl, hlength, -, hcells⟩ := hparse
    have hserves : ∀ {row col}, row + col < w.length →
        (t.poolAt row col).Serves s.population.limits.start w.length row :=
      fun hinside => hcells (Table.mem_coordinates.mpr hinside)
    have hpos : 0 < w.length := List.length_pos_iff.mpr hsome
    refine ⟨?_, hlength, ?_⟩
    · exact (Parse.accepted_ofTable hlength).mpr ⟨hsome, (hserves (by omega)).top (by omega)⟩
    · intro row col hinside
      refine ⟨_, Table.cell_eq_poolAt (hlength ▸ hinside), fun hnone => ?_⟩
      obtain ⟨x, hx⟩ := (hserves hinside).some
      exact List.ne_nil_of_mem (Pool.mem_effectors.mpr hx) hnone
  exact ⟨hends, exists_ok_of_staysRated (moves_parse coverage w) hends⟩

/-- The standard settings learn a sentence of three symbols from no rule at all. -/
theorem parse_complete_standard :
    (Coverage.standard : Coverage Float).Thorough
      ∧ (⟨[-1, -2, -1], .positive⟩ : Sentence).isPositive = true
      ∧ ∃ outcome s', parse .standard ⟨[-1, -2, -1], .positive⟩
          (ofPopulation (.ofRules .standard []) .usage (.standard .standard 10) (.ofSeed 7))
          = (.ok outcome, s')
        ∧ (outcome : Parse Float).Gapless ⟨[-1, -2, -1], .positive⟩ := by
  let s : Learner Float :=
    ofPopulation (.ofRules .standard []) .usage (.standard .standard 10) (.ofSeed 7)
  have hfull : (Coverage.standard : Coverage Float).Thorough :=
    ⟨by decide +kernel, by decide +kernel, by decide +kernel, by decide +kernel⟩
  have hrated : s.StaysRated := by
    have hzero : Scalar.IsNumber (Scalar.ofCount 0 : Float) := by decide +kernel
    have hunused : (Usage.unused : Usage Float).Rates .usage := fun _ => hzero
    exact staysRated_ofPopulation hunused _ _ _
  obtain ⟨outcome, s', hrun, hgapless⟩ := (parse_complete hfull
    (w := ⟨[-1, -2, -1], .positive⟩) rfl (List.cons_ne_nil _ _) s).2 hrated
  exact ⟨hfull, rfl, outcome, s', hrun, hgapless⟩

end Learner

end GrammarInduction
