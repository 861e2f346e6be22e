import GrammarInduction.Proofs.Learning.Bound
import GrammarInduction.Proofs.Learning.Eviction
import GrammarInduction.Proofs.Learning.Linking

/-!
# How much one parse changes

A cell is covered by one rule at most.  The cell of a terminal may be covered twice, but both rules have the
same body, and the second takes the place of the first.  A newcomer enters besides all others or in the
place of one of them, so a parse adds no more rules than its table has cells, and the grammar never
shrinks.  A sentence that is not positive has its terminals covered and nothing else, and what makes way
for a terminal rule is a terminal rule: pair rules and their counters stay as they were.

* `RuleSet.size_erase`, `RuleSet.size_of_newcomer` — sets with a rule less or more;
* `Learner.size_submit` — a submission adds a rule if it says so;
* `Learner.Taught` — only terminal rules have come and gone;
* `Learner.coveredPool_learned` — one cell;
* `Learner.parse_learned`, `Learner.size_parse_le` — a whole parse.
-/

namespace GrammarInduction

open Attempt

/-- A set that loses a rule has one less. -/
theorem RuleSet.size_erase {s : RuleSet} {old : Rule} (hstored : s.contains old = true) :
    (s.erase old).size + 1 = s.size := by
  have hlength := (perm_erase hstored).length_eq
  rwa [List.length_cons, length_rules, length_rules] at hlength

/-- A set that gains a rule has one more. -/
theorem RuleSet.size_of_newcomer {s s' : RuleSet} {r : Rule} (hnew : s.contains r = false)
    (h : ∀ q, s'.contains q = true ↔ q = r ∨ s.contains q = true) : s'.size = s.size + 1 := by
  have hfresh : r ∉ s.rules := by
    rw [mem_rules, ← contains_iff, hnew]
    exact Bool.false_ne_true
  have hperm : s'.rules.Perm (r :: s.rules) := by
    have hnodup : (r :: s.rules).Nodup := List.nodup_cons.mpr ⟨hfresh, s.nodup_rules⟩
    apply (List.perm_ext_iff_of_nodup s'.nodup_rules hnodup).mpr
    intro q
    rw [List.mem_cons, mem_rules, mem_rules, ← contains_iff, ← contains_iff]
    exact h q
  have hlength := hperm.length_eq
  rwa [List.length_cons, length_rules, length_rules] at hlength

/-- The rule that is made up for a terminal has its body. -/
theorem Coverage.Invents.body_of_leaf {limits : Limits} {kind : CoverageKind} {col : Nat}
    {terminal : Symbol} {r : Rule} {d : Detector}
    (h : Invents limits kind (.leaf col terminal) r d) : r.body = .terminal terminal := by
  rw [h.body, List.mem_singleton.mp h.mem]
  rfl

namespace Learner

variable {α : Type} [Scalar α] {s s' s'' : Learner α} {r q old : Rule} {h : Hint}

/-! ## One submission -/

/-- What is replaced was stored, and is of the newcomer's arity. -/
theorem stored_of_replaced (hreplaced : (submit r h s).1 = .ok (.replaced old)) :
    s.population.contains old = true ∧ old.isTerminal = r.isTerminal := by
  cases hnew : s.population.contains r with
  | true =>
      rw [submit_stored hnew] at hreplaced
      cases hreplaced
  | false =>
      rcases exists_settle_of_submit hnew h with ⟨e, -, hsubmit⟩
        | ⟨old?, elite, g, s', -, hsubmit, hstored, -⟩
      · rw [hsubmit] at hreplaced
        cases hreplaced
      · rw [hsubmit, outcome_settle] at hreplaced
        cases old? with
        | none => cases hreplaced
        | some victim =>
            cases hreplaced
            exact hstored old rfl

/-- What is reported to exist was stored. -/
theorem stored_of_existing (hexisting : (submit r h s).1 = .ok .existing) :
    s.population.contains r = true := by
  cases hnew : s.population.contains r with
  | true => rfl
  | false =>
      rcases exists_settle_of_submit hnew h with ⟨e, -, hsubmit⟩ | ⟨old?, elite, g, s', -, hsubmit, -⟩
      · rw [hsubmit] at hexisting
        cases hexisting
      · rw [hsubmit, outcome_settle] at hexisting
        cases old? <;> cases hexisting

/-- Of any other rule an outcome says that it was not stored. -/
theorem not_stored_of_ended {outcome : Outcome} (hended : (submit r h s).1 = .ok outcome)
    (hreported : outcome ≠ .existing) : s.population.contains r = false := by
  rw [← Bool.not_eq_true]
  intro hstored
  rw [submit_stored hstored] at hended
  cases hended
  exact hreported rfl

/-- **A submission adds a rule if it reports an insertion**, and otherwise there are as many as before. -/
theorem size_submit {outcome : Outcome} (hended : (submit r h s).1 = .ok outcome) :
    (submit r h s).2.population.rules.size
      = s.population.rules.size + if outcome = .inserted then 1 else 0 := by
  cases outcome with
  | existing =>
      rw [submit_stored (stored_of_existing hended)]
      rfl
  | inserted =>
      have hnew := not_stored_of_ended hended (by simp)
      rw [if_pos rfl]
      refine RuleSet.size_of_newcomer hnew fun q => (contains_submit hended).trans ?_
      simp [Population.contains]
  | replaced old =>
      have hnew := not_stored_of_ended hended (by simp)
      -- The rule that is replaced is one less before the newcomer is one more.
      have hless := RuleSet.size_erase (stored_of_replaced hended).1
      have hmore : (submit r h s).2.population.rules.size
          = (s.population.rules.erase old).size + 1 := by
        apply RuleSet.size_of_newcomer (r := r)
        · rw [← Bool.not_eq_true, RuleSet.contains_erase]
          exact fun hand => Bool.false_ne_true (hnew.symm.trans hand.1)
        · intro q
          refine (contains_submit hended).trans ?_
          simp [RuleSet.contains_erase, Population.contains, eq_comm (a := old)]
      rw [hmore, hless]
      rfl

/-- A newcomer whose body is held adds no rule. -/
theorem size_submit_of_held {parent : Symbol}
    (hheld : s.population.rules.owner? r.body = some parent) {outcome : Outcome}
    (hended : (submit r h s).1 = .ok outcome) :
    (submit r h s).2.population.rules.size = s.population.rules.size := by
  have hreported : outcome ≠ .inserted := by
    by_cases hparent : parent = r.parent
    · rw [submit_stored (RuleSet.contains_iff.mpr (hparent ▸ hheld))] at hended
      cases hended
      nofun
    · have hdisplaced : s.population.rules.displaced? r = some ⟨parent, r.body⟩ :=
        RuleSet.displaced?_eq_some_iff.mpr ⟨rfl, hparent, hheld⟩
      rw [(submit_held hdisplaced hended).1]
      nofun
  rw [size_submit hended, if_neg hreported, Nat.add_zero]

/-- The newcomer has its body. -/
theorem owner?_submit_self {outcome : Outcome} (hended : (submit r h s).1 = .ok outcome) :
    (submit r h s).2.population.rules.owner? r.body = some r.parent :=
  RuleSet.contains_iff.mp ((contains_submit hended).mpr (Or.inl rfl))

/-- Rules of the other arity are stored or not as before. -/
theorem contains_submit_of_arity (hother : q.isTerminal ≠ r.isTerminal) :
    (submit r h s).2.population.contains q = s.population.contains q := by
  have hne : q ≠ r := fun heq => hother (heq ▸ rfl)
  cases hended : (submit r h s).1 with
  | error e => rw [(submit_of_error hended).2]
  | ok outcome =>
      have hkept : outcome ≠ .replaced q := by
        rintro rfl
        exact hother (stored_of_replaced hended).2
      rw [Bool.eq_iff_iff, contains_submit hended]
      simp only [hne, hkept, false_or, ne_eq, not_false_eq_true, and_true]

/-- Whoever does not come or go keeps its counters. -/
theorem usage?_settle {old? : Option Rule} (hne : q ≠ r) (hkept : q ∉ old?) :
    (settle r old? s).2.statistics.usage? q = s.statistics.usage? q := by
  cases old? with
  | none => exact (Statistics.usage?_track ..).trans (if_neg fun hand => hne hand.1)
  | some old =>
      have hother : q ≠ old := fun heq => hkept (congrArg some heq.symm)
      refine (Statistics.usage?_track ..).trans ((if_neg fun hand => hne hand.1).trans ?_)
      exact (Statistics.usage?_untrack ..).trans (if_neg hother)

/-- Rules of the other arity keep their counters. -/
theorem usage?_submit_of_arity (hother : q.isTerminal ≠ r.isTerminal) :
    (submit r h s).2.statistics.usage? q = s.statistics.usage? q := by
  cases hnew : s.population.contains r with
  | true => rw [submit_stored hnew]
  | false =>
      rcases exists_settle_of_submit hnew h with ⟨e, -, hsubmit⟩
        | ⟨old?, elite, g, s', rfl, hsubmit, hstored, -⟩
      · rw [hsubmit]
      · rw [hsubmit]
        refine usage?_settle (fun heq => hother (heq ▸ rfl)) ?_
        exact fun hmem => hother (hstored q hmem).2

/-! ## Terminal rules alone -/

/-- Rules of the given terminals have come in, and no pair rule or counter of one is touched. -/
structure Taught (terminals : List Symbol) (s s' : Learner α) : Prop where
  pairs : ∀ r : Rule, r.isTerminal = false → s'.population.contains r = s.population.contains r
  counters : ∀ r : Rule, r.isTerminal = false → s'.statistics.usage? r = s.statistics.usage? r
  fresh : ∀ r, s'.population.contains r = true → s.population.contains r = true
    ∨ ∃ x ∈ terminals, r.body = .terminal x

variable {terminals : List Symbol}

omit [Scalar α] in
/-- Draws are of no account. -/
theorem taught_generator (terminals : List Symbol) (s : Learner α) (g : Generator) :
    Taught terminals s { s with generator := g } where
  pairs _ _ := rfl
  counters _ _ := rfl
  fresh _ hr := Or.inl hr

omit [Scalar α] in
theorem Taught.trans (h : Taught terminals s s') (h' : Taught terminals s' s'') :
    Taught terminals s s'' where
  pairs r hr := (h'.pairs r hr).trans (h.pairs r hr)
  counters r hr := (h'.counters r hr).trans (h.counters r hr)
  fresh r hr := (h'.fresh r hr).elim (h.fresh r) Or.inr

theorem taught_submit {x : Symbol} (hx : x ∈ terminals) (hbody : r.body = .terminal x) (h : Hint)
    (s : Learner α) : Taught terminals s (submit r h s).2 := by
  have hterminal : r.isTerminal = true := congrArg Body.isTerminal hbody
  have hother : ∀ q : Rule, q.isTerminal = false → q.isTerminal ≠ r.isTerminal := by
    intro q hq
    rw [hq, hterminal]
    exact Bool.false_ne_true
  refine ⟨fun q hq => contains_submit_of_arity (hother q hq),
    fun q hq => usage?_submit_of_arity (hother q hq), fun q hq => ?_⟩
  cases hended : (submit r h s).1 with
  | error e =>
      rw [(submit_of_error hended).2] at hq
      exact Or.inl hq
  | ok outcome =>
      rcases (contains_submit hended).mp hq with rfl | ⟨hstored, -⟩
      · exact Or.inr ⟨x, hx, hbody⟩
      · exact Or.inl hstored

/-! ## One cell -/

variable {coverage : Coverage α} {w : Sentence} {t : Table α} {row col : Nat} {pool p : Pool α}
  {site : CoverageSite} {kinds : List CoverageKind} {start terminal : Symbol}

/-- A cell is covered by one rule. -/
theorem Covered.size_le (hcovered : Covered coverage site pool s kinds p s') :
    s.population.rules.size ≤ s'.population.rules.size
      ∧ s'.population.rules.size ≤ s.population.rules.size + 1 := by
  cases hcovered with
  | fired listed invents submitted =>
      obtain ⟨outcome, hended⟩ := submitted
      have hsize := size_submit hended
      dsimp only at hsize
      split at hsize <;> omega

/-- A terminal that is covered has a rule. -/
theorem Covered.owner?_terminal (hcovered : Covered coverage (.leaf col terminal) pool s kinds p s') :
    ∃ parent, s'.population.rules.owner? (.terminal terminal) = some parent := by
  cases hcovered with
  | @fired kind r d probability g listed invents submitted =>
      obtain ⟨outcome, hended⟩ := submitted
      refine ⟨r.parent, ?_⟩
      rw [← invents.body_of_leaf]
      exact owner?_submit_self hended

/-- A terminal that has a rule is covered in its place. -/
theorem Covered.size_eq (hcovered : Covered coverage (.leaf col terminal) pool s kinds p s')
    {parent : Symbol} (hheld : s.population.rules.owner? (.terminal terminal) = some parent) :
    s'.population.rules.size = s.population.rules.size := by
  cases hcovered with
  | @fired kind r d probability g listed invents submitted =>
      obtain ⟨outcome, hended⟩ := submitted
      rw [← invents.body_of_leaf] at hheld
      exact size_submit_of_held (s := { s with generator := g }) hheld hended

/-- Covering a terminal brings in a rule of it. -/
theorem Covered.taught (hcovered : Covered coverage (.leaf col terminal) pool s kinds p s')
    (hmem : terminal ∈ terminals) : Taught terminals s s' := by
  cases hcovered with
  | @fired kind r d probability g listed invents =>
      exact (taught_generator terminals s g).trans (taught_submit hmem invents.body_of_leaf ..)

/-- What a parse of `w` has changed when it has filled `k` cells. -/
structure Learned (w : Sentence) (k : Nat) (s s' : Learner α) : Prop where
  kept : s.population.rules.size ≤ s'.population.rules.size
  grown : s'.population.rules.size ≤ s.population.rules.size + k
  taught : w.isPositive = false → Taught w.symbols s s'

omit [Scalar α] in
theorem learned_generator (w : Sentence) (s : Learner α) (g : Generator) {k : Nat} :
    Learned w k s { s with generator := g } :=
  ⟨Nat.le_refl _, Nat.le_add_right .., fun _ => taught_generator w.symbols s g⟩

omit [Scalar α] in
/-- Draws made before are of no account. -/
theorem Learned.of_generator {k : Nat} {g : Generator}
    (h : Learned w k { s with generator := g } s') : Learned w k s s' where
  kept := h.kept
  grown := h.grown
  taught hnegative := (taught_generator w.symbols s g).trans (h.taught hnegative)

omit [Scalar α] in
theorem Learned.trans {j k : Nat} (h : Learned w j s s') (h' : Learned w k s' s'') :
    Learned w (j + k) s s'' where
  kept := Nat.le_trans h.kept h'.kept
  grown := by
    have hgrown := h.grown
    have hgrown' := h'.grown
    omega
  taught hnegative := (h.taught hnegative).trans (h'.taught hnegative)

/-- What is covered in a positive sentence may be anything. -/
theorem Tried.learned {condition : Prop} (htried : Tried coverage site pool s kinds condition p s')
    (hpositive : condition → w.isPositive = true) : Learned w 1 s s' := by
  cases htried with
  | idle g => exact learned_generator w s g
  | covered holds done =>
      obtain ⟨hkept, hgrown⟩ := done.size_le
      refine ⟨hkept, hgrown, fun hnegative => ?_⟩
      rw [hpositive holds] at hnegative
      cases hnegative

/-- The cell of a terminal: what its own rule adds the starting operator does not add again. -/
theorem coverLeaf_learned (here : w.symbols[col]? = some terminal) :
    Ensures (coverLeaf coverage start w t col terminal pool) s (fun _ _ => True) fun _ s' =>
      Learned w 1 s s' := by
  refine coverLeaf_ensures.imp fun p' s'' htried => ?_
  obtain ⟨p, s', hfirst, hsecond⟩ := htried
  cases hfirst with
  | idle g =>
      exact (hsecond.learned fun hgap => hgap.2.1).of_generator
  | covered _ hown =>
      have hfirst : Learned w 1 s s' :=
        ⟨hown.size_le.1, hown.size_le.2, fun _ => hown.taught (List.mem_of_getElem? here)⟩
      -- The second rule has the body of the first, which by then is held.
      have hanother : Learned w 1 s' s'' := hsecond.learned fun hgap => hgap.2.1
      have hsize : s''.population.rules.size = s'.population.rules.size := by
        cases hsecond with
        | idle => rfl
        | covered _ done =>
            obtain ⟨parent, hheld⟩ := hown.owner?_terminal
            exact done.size_eq hheld
      have hsecond : Learned w 0 s' s'' :=
        ⟨Nat.le_of_eq hsize.symm, Nat.le_of_eq hsize, hanother.taught⟩
      exact hfirst.trans hsecond

/-- The cell of a stretch of several symbols is covered in a positive sentence only. -/
theorem coverSplit_learned (hfills : s.population.Fills w.symbols t row col pool) :
    Ensures (coverSplit coverage start w t row pool) s (fun _ _ => True) fun _ s' =>
      Learned w 1 s s' := by
  refine coverSplit_ensures.imp fun p s' hcell => ?_
  obtain ⟨site, kinds, -, htried⟩ := hcell.tried hfills
  exact htried.learned id

/-- Filling a cell adds one rule at most, and touches no pair rule unless the sentence is positive. -/
theorem coveredPool_learned (hlength : t.length = w.length) (inside : row + col < w.length) :
    Ensures (coveredPool coverage start w t row col) s (fun _ _ => True) fun _ s' =>
      Learned w 1 s s' := by
  obtain ⟨pool, -, hfills, ⟨terminal, rfl, here, hcell⟩ | ⟨-, hcell⟩⟩ :=
    coveredPool_cases coverage start s hlength inside
  · exact (ensures_congr hcell).mpr (coverLeaf_learned here)
  · exact (ensures_congr hcell).mpr (coverSplit_learned hfills)

/-! ## The whole parse -/

/-- A parse changes what the cells of its table allow for. -/
theorem parse_learned (coverage : Coverage α) (w : Sentence) (s : Learner α) :
    Ensures (parse coverage w) s (fun _ _ => True) fun _ s' =>
      Learned w (w.length * (w.length + 1) / 2) s s' := by
  have hfill : Ensures
      (Table.fill (coveredPool coverage s.population.limits.start w) w.length) s (fun _ _ => True)
      fun t s' => t.length = w.length ∧ Learned w (Table.coordinates w.length).length s s' := by
    refine Table.fill_ensures (fun done _ s' => Learned w done.length s s') ?_ ?_
    · exact learned_generator w s s.generator
    · intro done row col t s' hnow hlength hbefore
      refine (coveredPool_learned hlength hnow.inside).imp fun p s'' hcell u _ => ?_
      rw [List.length_append, List.length_singleton]
      exact hbefore.trans hcell
  refine (parse_ensures hfill).imp fun outcome s' hend => ?_
  obtain ⟨t, -, -, hlearned⟩ := hend
  rwa [Table.length_coordinates] at hlearned

/-- **One parse changes little.**  Whatever the grammar, coverage and draws, a parse leaves as many rules as
there were, or more by one for each cell of its table at most.  If the sentence is not positive, the pair
rules are the same as before with the same counters, and any rule that is stored now and was not is that
of a terminal of the sentence. -/
theorem size_parse_le {outcome : Parse α} (hrun : parse coverage w s = (.ok outcome, s')) :
    s.population.rules.size ≤ s'.population.rules.size
      ∧ s'.population.rules.size ≤ s.population.rules.size + w.length * (w.length + 1) / 2
      ∧ (w.isPositive = false →
        (∀ r : Rule, r.isTerminal = false → s'.population.contains r = s.population.contains r
            ∧ s'.statistics.usage? r = s.statistics.usage? r)
          ∧ ∀ r, s'.population.contains r = true → s.population.contains r = false →
            ∃ x ∈ w.symbols, r.body = .terminal x) := by
  obtain ⟨hkept, hgrown, htaught⟩ := (parse_learned coverage w s).of_ok hrun
  refine ⟨hkept, hgrown, fun hnegative => ?_⟩
  obtain ⟨hpairs, hcounters, hfresh⟩ := htaught hnegative
  refine ⟨fun r hr => ⟨hpairs r hr, hcounters r hr⟩, fun r hafter hbefore => ?_⟩
  refine (hfresh r hafter).resolve_left fun hstored => ?_
  rw [hbefore] at hstored
  cases hstored

/-- A positive sentence of two symbols may add a rule for each of its three cells.  A negative one may cost
a terminal its rule where the grammar is full, but no pair rule. -/
theorem size_parse_le_three_negative :
    (∃ (outcome : Parse Float) (s' : Learner Float),
      parse .standard ⟨[-1, -2], .positive⟩
          (ofPopulation (.ofRules .standard [.terminal 1 (-3)]) .usage (.standard .standard 10)
            (.ofSeed 7)) = (.ok outcome, s')
        ∧ s'.population.rules.size = 1 + 3 ∧ s'.population.rules.size ≤ 1 + 2 * (2 + 1) / 2)
      ∧ ∃ (outcome : Parse Rat) (s' : Learner Rat),
        parse .standard ⟨[-2], .negative⟩ crowded = (.ok outcome, s')
          ∧ crowded.population.contains (.terminal 2 (-1)) = true
          ∧ s'.population.contains (.terminal 2 (-1)) = false
          ∧ s'.population.contains (.pair 5 6 7) = crowded.population.contains (.pair 5 6 7)
          ∧ s'.statistics.usage? (.pair 5 6 7) = crowded.statistics.usage? (.pair 5 6 7) := by
  constructor
  · obtain ⟨outcome, s', hrun, hsize⟩ := exists_ok_of_check
      (fun _ s' => decide (s'.population.rules.size = 1 + 3))
      (m := parse (.standard : Coverage Float) ⟨[-1, -2], .positive⟩)
      (s := ofPopulation (.ofRules .standard [.terminal 1 (-3)]) .usage (.standard .standard 10)
        (.ofSeed 7)) (by decide +kernel)
    obtain ⟨-, hgrown, -⟩ := size_parse_le hrun
    exact ⟨outcome, s', hrun, of_decide_eq_true hsize, hgrown⟩
  · obtain ⟨outcome, s', hrun, hgone⟩ := exists_ok_of_check
      (fun _ s' => !s'.population.contains (.terminal 2 (-1)))
      (m := parse (.standard : Coverage Rat) ⟨[-2], .negative⟩) (s := crowded) (by decide +kernel)
    obtain ⟨-, -, hnegative⟩ := size_parse_le hrun
    obtain ⟨hstored, hcounters⟩ := (hnegative rfl).1 (.pair 5 6 7) rfl
    refine ⟨outcome, s', hrun, by decide +kernel, ?_, hstored, hcounters⟩
    rwa [Bool.not_eq_true'] at hgone

end Learner

end GrammarInduction
