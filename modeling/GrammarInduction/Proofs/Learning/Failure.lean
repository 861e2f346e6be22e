import GrammarInduction.Proofs.Learning.Change
import GrammarInduction.Proofs.Learning.Linking
import GrammarInduction.Proofs.Scalar.Sum

/-!
# How a parse can fail

A covering parse reads and writes cells by coordinates that it computes, looks rules up by the symbols
of a split, draws, asks for the universal symbol, and submits rules.  Coordinates are in range because an
operator picks what sees its cell; a split has two symbols; and chances that are numbers can be drawn.  The
universal symbol may not be set: this matters at the cell of a terminal without a rule, where the universal
operator fires.  And a submission that has to spare the elite ranks the pair rules, which cannot always be
done where the fitness of one is no number.

* `Learner.coverLeaf_faults`, `Learner.coverSplit_faults` — what may fail at a cell;
* `Learner.MeetsUnknown` — a parse comes to a terminal without a rule;
* `Learner.parse_faults_accounted` — the faults of parses, of recognitions and of tracebacks;
* `Learner.parse_unrankable` — a price that is too great makes a parse fail.
-/

namespace GrammarInduction

open Attempt

variable {α : Type}

/-- The symbols of a body in their order. -/
def Body.symbols : Body → List Symbol
  | .pair l r => [l, r]
  | .terminal t => [t]

/-- The rule of what a detector of several symbols sees is found by the symbols on its two sides. -/
theorem Table.Sees.lookup {w : List Symbol} {t : Table α} {row col : Nat} {d : Detector}
    (h : t.Sees w row col d) (hrow : 0 < row) (rules : RuleSet) :
    rules.lookup d.body.symbols = .ok (rules.ruleOf? d.body) := by
  cases h with
  | leaf => exact absurd hrow (Nat.lt_irrefl 0)
  | split => rfl

namespace Learner

variable [Scalar α] [LawfulScalar α] {coverage : Coverage α} {site : CoverageSite} {t : Table α}
  {pool : Pool α} {s : Learner α} {w : Sentence} {start : Symbol} {row col : Nat}

/-! ## One cell -/

/-- An operator has failed: it is the universal one, it can fire, and the limits set no universal
symbol. -/
structure Fails (coverage : Coverage α) (s : Learner α) (kinds : List CoverageKind) (e : Fault) :
    Prop where
  fault : e = .noUniversalSymbol
  listed : .universal ∈ kinds
  unset : s.population.limits.universal? = none
  fires : ¬ coverage.universal.chance ≤ 0

theorem coverWith_faults {kind : CoverageKind}
    (hnumber : Scalar.IsNumber (coverage.get kind).chance)
    (hinside : ∀ d ∈ site.detectors, ∃ x, insideProbability t d = .ok x) :
    Ensures (coverWith coverage site t pool kind) s
      (fun e s' => Fails coverage s [kind] e ∨ LacksElite e s') fun _ _ => True := by
  apply ensures_bind.mpr
  apply ensures_get.mpr
  apply ensures_bind.mpr
  apply ensures_attempt.mpr
  apply ((Coverage.cover_faults hnumber).and Coverage.cover_invents).mono
  · intro e g h
    obtain ⟨⟨hunset, hfires⟩, -⟩ := h
    have hkind := hunset.kind
    subst hkind
    exact Or.inl ⟨hunset.fault, List.mem_singleton_self _, hunset.unset, hfires⟩
  · intro made g h
    cases made with
    | none => exact ensures_pure.mpr trivial
    | some invention =>
        obtain ⟨r, d⟩ := invention
        obtain ⟨x, hx⟩ := hinside d (h.2 r d rfl).mem
        apply ensures_bind.mpr
        apply (submit_ensures ..).mono
        · exact fun _ _ hfault => Or.inr hfault
        · intro outcome s' _
          apply ensures_bind.mpr
          apply ensures_except.mpr
          rw [hx]
          exact ensures_bind.mpr (ensures_get.mpr (ensures_pure.mpr trivial))

/-- Operators let at a cell in turn fail only as one of them does. -/
theorem coverFirst_faults (hnumber : ∀ kind, Scalar.IsNumber (coverage.get kind).chance)
    (hinside : ∀ d ∈ site.detectors, ∃ x, insideProbability t d = .ok x)
    (kinds : List CoverageKind) :
    Ensures (coverFirst coverage site t pool kinds) s
      (fun e s' => Fails coverage s kinds e ∨ LacksElite e s') fun _ _ => True := by
  induction kinds generalizing s with
  | nil => exact ensures_pure.mpr trivial
  | cons kind kinds ih =>
      apply ensures_bind.mpr
      apply ((coverWith_faults (hnumber kind) hinside).and coverWith_ensures).mono
      · intro e s' h
        refine h.1.imp_left fun hfails => ?_
        obtain ⟨hfault, hlisted, hunset, hfires⟩ := hfails
        rw [List.mem_singleton] at hlisted
        exact ⟨hfault, hlisted ▸ List.mem_cons_self, hunset, hfires⟩
      · intro made s' h
        cases made with
        | some p => exact ensures_pure.mpr trivial
        | none =>
            obtain ⟨g, rfl⟩ := h.2
            apply ih.mono
            · intro e s'' h
              refine h.imp_left fun hfails => ?_
              exact ⟨hfails.fault, List.mem_cons_of_mem _ hfails.listed, hfails.unset, hfails.fires⟩
            · exact fun _ _ _ => trivial

/-- At the cell of a terminal only a terminal without a rule makes a parse fail, and the want of an elite. -/
theorem coverLeaf_faults (hnumber : ∀ kind, Scalar.IsNumber (coverage.get kind).chance)
    {terminal : Symbol} :
    Ensures (coverLeaf coverage start w t col terminal pool) s
      (fun e s' => pool.isBarren = true ∧ Fails coverage s [.terminal, .universal] e
        ∨ LacksElite e s')
      fun _ _ => True := by
  have hinside : ∀ d ∈ (CoverageSite.leaf col terminal).detectors,
      ∃ x, insideProbability t d = .ok x := by
    intro d hd
    rw [List.mem_singleton.mp hd]
    exact ⟨1, rfl⟩
  rw [coverLeaf_eq]
  apply ensures_bind.mpr
  have hfirst : Ensures (if pool.isBarren then
        coverFirst coverage (.leaf col terminal) t pool [.terminal, .universal] else pure pool) s
      (fun e s' => pool.isBarren = true ∧ Fails coverage s [.terminal, .universal] e
        ∨ LacksElite e s')
      fun _ _ => True := by
    split
    · rename_i hbarren
      apply (coverFirst_faults hnumber hinside _).mono
      · exact fun _ _ h => h.imp_left fun hfails => ⟨hbarren, hfails⟩
      · exact fun _ _ _ => trivial
    · exact ensures_pure.mpr trivial
  apply hfirst.imp
  intro p s' _
  split
  · apply (coverFirst_faults hnumber hinside [.starting]).mono
    · intro e s'' h
      refine Or.inr (h.resolve_left fun hfails => ?_)
      have hlisted := hfails.listed
      simp at hlisted
    · exact fun _ _ _ => trivial
  · exact ensures_pure.mpr trivial

/-- At a split only the want of an elite makes an operator fail: none of those that are let at it
gives the universal symbol, and all detectors refer to cells of the triangle. -/
theorem coverSplit_faults (hnumber : ∀ kind, Scalar.IsNumber (coverage.get kind).chance)
    (hfills : s.population.Fills w.symbols t row col pool) (inside : row + col < t.length) :
    Ensures (coverSplit coverage start w t row pool) s LacksElite fun _ _ => True := by
  have hcover : ∀ (ds : List Detector) (kinds : List CoverageKind),
      (∀ d ∈ ds, t.Sees w.symbols row col d) → .universal ∉ kinds →
      Ensures (coverFirst coverage (.splits ds) t pool kinds) s LacksElite
        fun _ _ => True := by
    intro ds kinds hsees hkinds
    have hinside : ∀ d ∈ (CoverageSite.splits ds).detectors, ∃ x, insideProbability t d = .ok x :=
      fun d hd => insideProbability_of_sees (hsees d hd) inside
    apply (coverFirst_faults hnumber hinside kinds).mono
    · exact fun _ _ h => h.resolve_left fun hfails => hkinds hfails.listed
    · exact fun _ _ _ => trivial
  have hgaps : ∀ d ∈ pool.unsatisfied.toList, t.Sees w.symbols row col d := sees_unsatisfied hfills
  rw [coverSplit]
  split
  · exact ensures_pure.mpr trivial
  · split
    · apply hcover _ _ hgaps
      split <;> simp
    · split
      · apply hcover
        · split
          · exact fun d hd => hfills.sees_of_mem_detectors hd
          · exact hgaps
        · simp
      · exact ensures_pure.mpr trivial

/-- A cell can fail only in the first row, at a terminal that no rule has, or for want of an
elite. -/
theorem coveredPool_faults (hnumber : ∀ kind, Scalar.IsNumber (coverage.get kind).chance)
    (hlength : t.length = w.length) (inside : row + col < w.length) :
    Ensures (coveredPool coverage start w t row col) s
      (fun e s' => (Fails coverage s [.terminal, .universal] e ∧ row = 0
        ∧ ∃ terminal, w.symbols[col]? = some terminal
          ∧ s.population.rules.ruleOf? (.terminal terminal) = none) ∨ LacksElite e s')
      fun _ _ => True := by
  obtain ⟨pool, -, hfills, ⟨terminal, rfl, here, hcell⟩ | ⟨-, hcell⟩⟩ :=
    coveredPool_cases coverage start s hlength inside
  · apply (ensures_congr hcell).mpr
    apply (coverLeaf_faults hnumber).mono
    · intro e _ h
      refine h.imp_left fun hterminal => ?_
      obtain ⟨hbarren, hfails⟩ := hterminal
      have hfree := hfills.owner?_eq_none hbarren (.leaf here)
      exact ⟨hfails, rfl, terminal, here, Option.map_eq_none_iff.mpr hfree⟩
    · exact fun _ _ _ => trivial
  · apply (ensures_congr hcell).mpr
    apply (coverSplit_faults hnumber hfills (hlength ▸ inside)).mono
    · exact fun _ _ h => Or.inr h
    · exact fun _ _ _ => trivial

/-! ## The whole parse -/

/-- Parsing a sentence from `s` comes to a terminal without a rule: the cells before its own have been
filled. -/
inductive MeetsUnknown (coverage : Coverage α) (w : Sentence) (s : Learner α) : Prop
  | column {done : List (Nat × Nat)} {col : Nat} {t : Table α} {s₁ : Learner α} {terminal : Symbol}
      (turn : Table.Turn w.length done 0 col)
      (filled : Table.fillCells (coveredPool coverage s.population.limits.start w) done
        (.blank w.length) s = (.ok t, s₁))
      (here : w.symbols[col]? = some terminal)
      (unknown : s₁.population.rules.ruleOf? (.terminal terminal) = none)

omit [LawfulScalar α] in
/-- Filling cells leaves the limits as they are. -/
theorem limits_fillCells {cells : List (Nat × Nat)} {u : Table α} {s' : Learner α}
    (h : Table.fillCells (coveredPool coverage start w) cells t s = (.ok u, s')) :
    s'.population.limits = s.population.limits := by
  have hmoves := (Table.moves_fillCells (moves_coveredPool coverage start w) cells t).reaches s
  rw [h] at hmoves
  exact limits_trades hmoves

variable [CountingScalar α]

theorem fill_fails (hnumber : ∀ kind, Scalar.IsNumber (coverage.get kind).chance) :
    Ensures (Table.fill (coveredPool coverage s.population.limits.start w) w.length) s
      (fun e s' => (e = .noUniversalSymbol ∧ 0 < coverage.universal.chance
        ∧ s.population.limits.universal? = none ∧ MeetsUnknown coverage w s) ∨ LacksElite e s')
      fun _ _ => True := by
  apply Table.fill_faults.mono
  · intro e s' h
    obtain ⟨done, row, col, t, s₁, hnow, hlength, hfilled, hfault⟩ := h
    refine ((coveredPool_faults hnumber hlength hnow.inside).of_error hfault).imp_left fun hcell => ?_
    obtain ⟨hfails, rfl, terminal, here, hunknown⟩ := hcell
    have hfires : 0 < coverage.universal.chance :=
      OrderedScalar.lt_of_not_le Scalar.isNumber_zero (hnumber .universal) hfails.fires
    have hunset := hfails.unset
    rw [limits_fillCells hfilled] at hunset
    exact ⟨hfails.fault, hfires, hunset, .column hnow hfilled here hunknown⟩
  · exact fun _ _ _ => trivial

/-- **The faults of parsing are accounted for.**  Where all chances are numbers, a parse has a result,
or it asks for a universal symbol that is not set: then the universal operator has a chance, and a
terminal of the sentence had no rule when it came to its column.  Or it has come to more than twenty pair
rules that cannot be ranked, one of which has a fitness that is no number.  A recognition always has a result.
What a parse or a recognition returns can be traced in either way, from any symbol.  And whatever
population fills whatever cell of the triangle, no cell is missing, and rules are looked up by two
symbols. -/
theorem parse_faults_accounted [StrictScalar α] (coverage : Coverage α) (w : Sentence) (s : Learner α)
    (hnumber : ∀ kind, Scalar.IsNumber (coverage.get kind).chance) :
    Ensures (parse coverage w) s
        (fun e s' => (e = .noUniversalSymbol ∧ 0 < coverage.universal.chance
          ∧ s.population.limits.universal? = none ∧ MeetsUnknown coverage w s) ∨ FailsToRank e s')
        (fun outcome _ => ∀ traceback x, ∃ rules, outcome.table.trace traceback x = .ok rules)
      ∧ (∀ p : Population α, ∃ outcome, p.recognise w = .ok outcome
        ∧ ∀ traceback x, ∃ rules, outcome.table.trace traceback x = .ok rules)
      ∧ ∀ (p : Population α) (t : Table α) (row col : Nat), t.length = w.length →
        row + col < w.length → ∃ pool, p.cellPool w.symbols t row col = .ok pool
          ∧ (0 < row → ∀ q ∈ pool.productions,
            p.rules.lookup q.detector.body.symbols = .ok q.rule?) := by
  refine ⟨?_, ?_, ?_⟩
  · apply ((parse_ensures (fill_fails hnumber)).and (ensures_self _ _)).mono
    · exact fun _ _ h => h.1.imp_right LacksElite.failsToRank
    · intro outcome s' h traceback x
      exact (Parse.Completed.covered h.2).trace_ok traceback x
  · intro p
    obtain ⟨t, hrun, -⟩ := p.exists_recognise w
    exact ⟨_, hrun, (Parse.Completed.recognised hrun).trace_ok⟩
  · intro p t row col hlength inside
    obtain ⟨pool, hpool, hfills⟩ := Population.cellPool_ok (p := p) hlength (hlength ▸ inside)
    refine ⟨pool, hpool, ?_⟩
    intro hrow q hq
    rw [(hfills.sees q hq).lookup hrow, hfills.rule q hq]

/-- Only the universal operator fires, and it does so whenever it can. -/
def universalOnly : Coverage Float := { Coverage.disabled with universal := .always }

/-- A learner that knows one of two terminals and has no universal symbol. -/
def halfTaught : Learner Float :=
  ofPopulation (.ofRules .standard [.terminal 2 (-1)]) .usage (.standard .standard 10) (.ofSeed 7)

/-- A parse gets past the terminal that is known, and fails at the other one. -/
theorem parse_faults_accounted_halfTaught :
    ∃ s', (∀ kind, Scalar.IsNumber (universalOnly.get kind).chance)
      ∧ parse universalOnly ⟨[-1, -2], .positive⟩ halfTaught = (.error .noUniversalSymbol, s')
      ∧ MeetsUnknown universalOnly ⟨[-1, -2], .positive⟩ halfTaught := by
  have hnumber : ∀ kind, Scalar.IsNumber (universalOnly.get kind).chance := by
    intro kind
    cases kind <;> decide +kernel
  obtain ⟨haccounted, -⟩ :=
    parse_faults_accounted universalOnly ⟨[-1, -2], .positive⟩ halfTaught hnumber
  obtain ⟨e, s', hrun, huniversal⟩ := exists_error_of_check (fun e _ => decide (e = .noUniversalSymbol))
    (m := parse universalOnly ⟨[-1, -2], .positive⟩) (s := halfTaught) (by decide +kernel)
  obtain rfl : e = .noUniversalSymbol := of_decide_eq_true huniversal
  rcases haccounted.of_error hrun with ⟨-, -, -, hmeets⟩ | ⟨hdisorder, -⟩
  · exact ⟨s', hnumber, hrun, hmeets⟩
  · cases hdisorder

/-- A valid use is so dear that the price of two is infinite, which makes their share no number. -/
def overpriced : Fitness Float := .blend { Blend.standard with fertilityWeight := 0, validPrice := 1e308 }

/-- A learner of twenty-one pair rules, the first four of which have no valid use, one, none and two. -/
def unrankable : Learner Float :=
  let rules := ((List.range 5).flatMap fun l => (List.range 5).map fun r =>
    Rule.pair 1 (l + 1) (r + 1)).take 21
  let s : Learner Float := ofPopulation (.ofRules .standard rules) overpriced (.standard .standard 10) (.ofSeed 0)
  { s with
    statistics := (((s.statistics.recordUse (.pair 1 1 4) .positive).recordUse (.pair 1 1 4) .positive).recordUse
      (.pair 1 1 2) .positive).recordUse (.pair 1 1 1) .negative }

/-- Only the terminal operator fires, and its rules spare the elite. -/
def sparingTerminals : Coverage Float :=
  { Coverage.disabled with terminal := ⟨1, .keepSizeSparingElite⟩ }

/-- **A parse that asks for no universal symbol fails**, as a fitness of the learner is no number. -/
theorem parse_unrankable :
    (∀ kind, Scalar.IsNumber (sparingTerminals.get kind).chance)
      ∧ ∃ e s', parse sparingTerminals ⟨[-1], .positive⟩ unrankable = (.error e, s')
        ∧ e ≠ .noUniversalSymbol := by
  have hnumber : ∀ kind, Scalar.IsNumber (sparingTerminals.get kind).chance := by
    intro kind
    cases kind <;> decide +kernel
  obtain ⟨e, s', hrun, hother⟩ := exists_error_of_check (fun e _ => decide (e ≠ .noUniversalSymbol))
    (m := parse sparingTerminals ⟨[-1], .positive⟩) (s := unrankable) (by decide +kernel)
  exact ⟨hnumber, e, s', hrun, of_decide_eq_true hother⟩

end Learner

end GrammarInduction
