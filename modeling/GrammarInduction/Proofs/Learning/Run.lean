import GrammarInduction.Proofs.Learning.Change
import GrammarInduction.Proofs.Learning.Linking
import GrammarInduction.Proofs.Learning.Quiet

/-!
# The generations of a run

A run goes from generation to generation as long as it has no reason to stop.  A generation judges
every sentence by the grammar as it stands when the sentence is parsed, records the tally, and breeds.

* `Series.Extends`, `Series.exists_extends` — what recording a generation adds to a series;
* `Run.pass_ensures` — where coverage has nothing to do, a pass has the tally of an evaluation;
* `Run.generation_trades`, `Run.generation_ensures` — what a generation records and what it leaves;
* `Run.Reaches` — the learners and series that a run comes by;
* `Run.reaches_of_generations` — where a run stops it has come to by generations;
* `Run.exists_start` — a run with a limit of generations ends, unless one of them fails.
-/

namespace GrammarInduction

open Attempt

variable {α : Type} [Scalar α]

/-! ## Parts that change no rule -/

theorem Learner.population_recordUses (label : Label) (rules : List Rule) (s : Learner α) :
    (Learner.recordUses label rules s).2.population = s.population := by
  induction rules generalizing s with
  | nil => rfl
  | cons r rules ih =>
      rw [recordUses_cons]
      exact ih _

/-- The uses of the rules of a completed table can be recorded. -/
theorem Variant.recordUsage_ensures (variant : Variant) {w : Sentence} {start : Symbol}
    {parse : Parse α} (h : parse.Completed w start) (s : Learner α) :
    Ensures (variant.recordUsage parse) s (fun _ _ => False) fun _ s' =>
      s'.population = s.population := by
  unfold recordUsage
  split
  · obtain ⟨rules, hrules⟩ := h.trace_ok variant.traceback s.population.limits.start
    refine ensures_bind.mpr (ensures_get.mpr (ensures_bind.mpr (ensures_except.mpr ?_)))
    rw [hrules]
    exact ensures_state.mpr (Learner.population_recordUses ..)
  · exact ensures_pure.mpr rfl

/-! ## One more record -/

/-- A value compared with itself stays. -/
theorem Scalar.greater_self (x : α) : greater x x = x := by
  unfold greater
  rw [ite_self, ite_self]

/-- The accuracy that was recorded for a generation. -/
def Generation.accuracy (gen : Generation α) : α := gen.values.fitness.step.current

/-- One record has been added to a series: that of a tally, with the accuracy that is measured of it, by which
the best accuracy is raised. -/
structure Series.Extends (series series' : Series α) (step : Nat) (tally : Tally)
    (last : Generation α) : Prop where
  pushed : series'.generations = series.generations.push last
  step_eq : last.step = step
  tally_eq : last.tally = tally
  measured : tally.accuracy = .ok last.accuracy
  raised : series'.bestFitness? = some (match series.bestFitness? with
    | none => last.accuracy
    | some best => Scalar.greater best last.accuracy)

/-- Recording a generation adds one record. -/
theorem Series.exists_extends {series series' : Series α} {step : Nat} {tally : Tally}
    {rules : Summary α} {ruleCount pairRuleCount : Nat}
    (h : series.record step tally rules ruleCount pairRuleCount = .ok series') :
    ∃ last, series.Extends series' step tally last := by
  obtain ⟨steps, hsteps, rfl⟩ := record_eq_ok.mp h
  obtain ⟨accuracy, haccuracy, hflat⟩ :
      ∃ accuracy, tally.accuracy = .ok accuracy ∧ steps.fitness = .flat accuracy := by
    have hfitness := hsteps .fitness
    rw [StepValue.of] at hfitness
    cases hmeasured : (tally.accuracy : Except Fault α) with
    | ok accuracy =>
        rw [hmeasured] at hfitness
        exact ⟨accuracy, rfl, (Except.ok.inj hfitness).symm⟩
    | error e =>
        rw [hmeasured] at hfitness
        cases hfitness
  refine ⟨_, rfl, rfl, rfl, ?_, ?_⟩
  · rw [haccuracy, Generation.accuracy]
    exact congrArg (Except.ok ∘ StepValue.current) hflat.symm
  · simp only [bestFitness?, globalMax?, append, rangeAfter, Generation.accuracy, PerCriterion.ofFn,
      PerCriterion.get, hflat, StepValue.flat, Range.widen, Option.map_some]
    cases series.ranges? with
    | none => exact congrArg some (Scalar.greater_self accuracy)
    | some ranges => rfl

namespace Run

variable {variant : Variant} {settings : Settings α} {sentences : List Sentence} {step : Nat}
  {series series' : Series α} {s s' : Learner α} {around : Surroundings} {reason : StopReason}

theorem limits_score (variant : Variant) (s : Learner α) :
    (score variant s).population.limits = s.population.limits := by
  cases variant <;> rfl

theorem rules_score (variant : Variant) (s : Learner α) :
    (score variant s).population.rules = s.population.rules := by
  cases variant <;> rfl

/-! ## One generation -/

/-- Where coverage has nothing to do, a pass has a tally, which is that of an evaluation, and leaves the
population alone; but there must be words for the counts of the tally. -/
theorem pass_ensures {coverage : Coverage α} (ws : List Sentence)
    (h : ∀ w ∈ ws, Learner.NothingToCover coverage s.population w) (tally : Tally) :
    Ensures (pass variant coverage ws tally) s
      (fun _ _ => wordCount ≤ tally.verdicts + ws.length) fun tally' s' =>
      s'.population = s.population
        ∧ ws.foldlM (fun tally w => do
          let parse ← s.population.recognise w
          tally.record? parse.verdict?) tally = .ok tally' := by
  induction ws generalizing s tally with
  | nil => exact ensures_pure.mpr ⟨rfl, rfl⟩
  | cons w ws ih =>
      obtain ⟨t, hrecognise, -⟩ := s.population.exists_recognise w
      have hparse := Learner.parse_eq_recognise (h w List.mem_cons_self)
      rw [hrecognise] at hparse
      refine ensures_bind.mpr (ensures_bind.mpr (ensures_of_eq hparse ?_))
      have hcompleted := Parse.Completed.recognised hrecognise
      refine ensures_bind.mpr ((variant.recordUsage_ensures hcompleted s).mono
        (fun _ _ hnever => hnever.elim) fun _ s' hpopulation => ?_)
      have hrest : ∀ w ∈ ws, Learner.NothingToCover coverage s'.population w := by
        intro w hw
        rw [hpopulation]
        exact h w (List.mem_cons_of_mem _ hw)
      rw [List.length_cons]
      refine ensures_of_except (fun e hrecord => ?_) fun tally₁ hrecord => ?_
      · by_contra hroom
        rw [Tally.record?_of_lt (by omega)] at hrecord
        cases hrecord
      · have hle := tally.verdicts_after_le (Parse.ofTable s.population.limits.start w t).verdict?
        rw [← Tally.eq_of_record? hrecord] at hle
        refine (ih hrest tally₁).mono (fun _ _ hgreat => ?_) fun tally' s'' hpass => ?_
        · exact Nat.le_trans hgreat (by omega)
        · rw [hpopulation] at hpass
          refine ⟨hpass.1, ?_⟩
          rw [List.foldlM_cons, hrecognise]
          exact Fault.bind_eq_ok.mpr ⟨tally₁, hrecord, hpass.2⟩

/-- A generation records the tally of its pass, and only trades rules after the learner is scored. -/
theorem generation_trades (variant : Variant) (settings : Settings α) (sentences : List Sentence)
    (step : Nat) (series : Series α) (s : Learner α) :
    Ensures (generation variant settings sentences step series) s (fun _ _ => True)
      fun series' s' => ∃ tally s₁ last,
        pass variant settings.coverage sentences .zero (prepare settings step s) = (.ok tally, s₁)
          ∧ series.Extends series' step tally last
          ∧ Learner.Trades (score variant s₁) s'
          ∧ (settings.breeds = false → s' = score variant s₁) := by
  apply ensures_bind.mpr
  apply ensures_modify.mpr
  apply ensures_bind.mpr
  apply (ensures_self _ _).imp
  intro tally s₁ hpass
  apply ensures_bind.mpr
  apply ensures_modify.mpr
  apply ensures_bind.mpr
  apply ensures_get.mpr
  apply ensures_bind.mpr
  apply ensures_of_except (fun _ _ => trivial)
  intro series' hrecord
  obtain ⟨last, hlast⟩ := Series.exists_extends hrecord
  split
  · rename_i hbreeds
    apply ensures_bind.mpr
    apply (Learner.moves_breed settings.breeding (score variant s₁)).mono (fun _ _ _ => trivial)
    intro report s' htrades
    refine ensures_pure.mpr ⟨tally, s₁, last, hpass, hlast, htrades, ?_⟩
    intro hnot
    rw [hbreeds] at hnot
    cases hnot
  · exact ensures_pure.mpr ⟨tally, s₁, last, hpass, hlast, .refl, fun _ => rfl⟩

/-- A generation records the tally of its pass.  What comes after keeps the limits, and without breeding
it keeps the rules as well. -/
theorem generation_ensures (variant : Variant) (settings : Settings α) (sentences : List Sentence)
    (step : Nat) (series : Series α) (s : Learner α) :
    Ensures (generation variant settings sentences step series) s (fun _ _ => True)
      fun series' s' => ∃ tally s₁ last,
        pass variant settings.coverage sentences .zero (prepare settings step s) = (.ok tally, s₁)
          ∧ series.Extends series' step tally last
          ∧ s'.population.limits = s₁.population.limits
          ∧ (settings.breeds = false → s'.population.rules = s₁.population.rules) := by
  apply (generation_trades variant settings sentences step series s).imp
  intro series' s' h
  obtain ⟨tally, s₁, last, hpass, hlast, htrades, hkept⟩ := h
  refine ⟨tally, s₁, last, hpass, hlast, (Learner.limits_trades htrades).trans (limits_score ..), ?_⟩
  intro hnot
  rw [hkept hnot, rules_score]

/-! ## Generations in turn -/

/-- A run that starts with `first` comes, after some generations, to a series and a learner. -/
inductive Reaches (variant : Variant) (settings : Settings α) (sentences : List Sentence)
    (around : Surroundings) (first : Learner α) : Nat → Series α → Learner α → Prop
  | start : Reaches variant settings sentences around first 0 .empty first
  | step {k : Nat} {series series' : Series α} {s s' : Learner α}
      (before : Reaches variant settings sentences around first k series s)
      (going : reason? settings around (k + 1) series = none)
      (ran : generation variant settings sentences (k + 1) series s = (.ok series', s')) :
      Reaches variant settings sentences around first (k + 1) series' s'

/-- Where a run stops, it has come to by generations, and it has a reason. -/
theorem reaches_of_generations {first : Learner α} {horizon k : Nat}
    (h : generations variant settings sentences around horizon (k + 1) series s
      = (.ok (some (reason, series')), s'))
    (hreached : Reaches variant settings sentences around first k series s) :
    ∃ k', Reaches variant settings sentences around first k' series' s'
      ∧ reason? settings around (k' + 1) series' = some reason := by
  induction horizon generalizing k series s with
  | zero => cases h
  | succ horizon ih =>
      rw [generations] at h
      cases hreason : reason? settings around (k + 1) series with
      | some found =>
          rw [hreason] at h
          cases h
          exact ⟨k, hreached, hreason⟩
      | none =>
          rw [hreason] at h
          obtain ⟨series₁, s₁, hran, hrest⟩ : ∃ series₁ s₁,
              generation variant settings sentences (k + 1) series s = (.ok series₁, s₁)
                ∧ generations variant settings sentences around horizon (k + 1 + 1) series₁ s₁
                  = (.ok (some (reason, series')), s') := by
            simp only [bind_apply] at h
            split at h
            · rename_i series₁ s₁ hran
              exact ⟨series₁, s₁, hran, h⟩
            · cases h
          exact ih hrest (hreached.step hreason hran)

/-- The result of a run is the series and the learner that its generations have come to. -/
theorem exists_end_of_start {seed : UInt64} {given : Option (Population α)} {horizon : Nat}
    {result : RunResult α}
    (h : start variant settings seed given sentences around horizon = .ok result) :
    ∃ k s, Reaches variant settings sentences around (firstLearner variant settings seed given) k
        result.series s
      ∧ reason? settings around (k + 1) result.series = some result.reason
      ∧ result.population = s.population
      ∧ result.statistics = s.statistics := by
  unfold start at h
  split at h
  · cases h
  · split at h
    · cases h
    · unfold runSound at h
      dsimp only at h
      split at h
      · cases h
      · cases h
      · rename_i reason series s hrun
        cases h
        obtain ⟨k, hreached, hreason⟩ := reaches_of_generations hrun .start
        exact ⟨k, s, hreached, hreason, rfl, rfl⟩

/-- A whole run ends with what its generations have come to. -/
theorem reaches_of_start {seed : UInt64} {given : Option (Population α)} {horizon : Nat}
    {result : RunResult α}
    (h : start variant settings seed given sentences around horizon = .ok result) :
    ∃ k s, Reaches variant settings sentences around (firstLearner variant settings seed given) k
        result.series s
      ∧ reason? settings around (k + 1) result.series = some result.reason
      ∧ result.population = s.population := by
  obtain ⟨k, s, hreached, hreason, hpopulation, -⟩ := exists_end_of_start h
  exact ⟨k, s, hreached, hreason, hpopulation⟩

/-! ## The end of a run -/

/-- As long as a run goes on none of its thresholds is met. -/
theorem unmet_of_going (h : reason? settings around step series = none) {criterion : StopCriterion α}
    (hmem : criterion ∈ settings.stop.criteria) :
    criterion.isSatisfied ⟨step, series.bestFitness?, around.clock step⟩ = false := by
  unfold reason? at h
  split at h
  · cases h
  · rw [StopCriterion.check, Option.map_eq_none_iff, List.find?_eq_none] at h
    exact Bool.eq_false_iff.mpr (h criterion hmem)

/-- A run goes on for no more generations than its limit. -/
theorem le_limit_of_going (h : reason? settings around step series = none) {limit : Nat}
    (hlimit : settings.stop.steps? = some limit) : step ≤ limit := by
  have hmem : StopCriterion.steps limit ∈ settings.stop.criteria := by
    simp [StopSettings.criteria, hlimit]
  have hunmet := unmet_of_going h hmem
  simp only [StopCriterion.isSatisfied, decide_eq_false_iff_not] at hunmet
  omega

theorem generations_of_reason (h : reason? settings around step series = some reason)
    (horizon : Nat) (s : Learner α) :
    generations variant settings sentences around (horizon + 1) step series s
      = (.ok (some (reason, series)), s) := by
  rw [generations, h]
  rfl

theorem generations_of_going (h : reason? settings around step series = none)
    (hran : generation variant settings sentences step series s = (.ok series', s'))
    (horizon : Nat) :
    generations variant settings sentences around (horizon + 1) step series s
      = generations variant settings sentences around horizon (step + 1) series' s' := by
  rw [generations, h]
  simp only [bind_apply, hran]

/-- A longer horizon makes no difference to a run that has stopped. -/
theorem generations_longer {stopped : StopReason × Series α} {horizon horizon' : Nat}
    (hle : horizon ≤ horizon')
    (h : generations variant settings sentences around horizon step series s
      = (.ok (some stopped), s')) :
    generations variant settings sentences around horizon' step series s
      = (.ok (some stopped), s') := by
  induction horizon generalizing horizon' step series s with
  | zero => cases h
  | succ horizon ih =>
      obtain ⟨horizon', rfl⟩ := Nat.exists_eq_succ_of_ne_zero (by omega : horizon' ≠ 0)
      cases hreason : reason? settings around step series with
      | some reason =>
          rw [generations_of_reason hreason] at h ⊢
          exact h
      | none =>
          obtain ⟨series₁, s₁, hran⟩ : ∃ series₁ s₁,
              generation variant settings sentences step series s = (.ok series₁, s₁) := by
            rw [generations, hreason] at h
            simp only [bind_apply] at h
            split at h
            · exact ⟨_, _, by assumption⟩
            · cases h
          rw [generations_of_going hreason hran] at h ⊢
          exact ih (by omega) h

/-- A run with a limit of generations stops within a horizon beyond it, unless one of them fails. -/
theorem exists_generations {first : Learner α} {limit horizon k : Nat}
    (hlimit : settings.stop.steps? = some limit)
    (hruns : ∀ {k series s}, Reaches variant settings sentences around first k series s →
      ∃ series' s', generation variant settings sentences (k + 1) series s = (.ok series', s'))
    (hreached : Reaches variant settings sentences around first k series s) (hle : k ≤ limit)
    (henough : limit < k + horizon) :
    ∃ stopped s', generations variant settings sentences around horizon (k + 1) series s
      = (.ok (some stopped), s') := by
  induction horizon generalizing k series s with
  | zero => omega
  | succ horizon ih =>
      cases hreason : reason? settings around (k + 1) series with
      | some reason => exact ⟨_, _, generations_of_reason hreason horizon s⟩
      | none =>
          obtain ⟨series', s', hran⟩ := hruns hreached
          rw [generations_of_going hreason hran]
          have hbelow := le_limit_of_going hreason hlimit
          exact ih (hreached.step hreason hran) hbelow (by omega)

/-- **A run with a limit of generations ends**, unless one that it comes to fails.  How far beyond the
limit its horizon lies makes no difference. -/
theorem exists_start {seed : UInt64} {given : Option (Population α)} {limit : Nat}
    (hsound : settings.flaw? = none) (hlimit : settings.stop.steps? = some limit)
    (hruns : ∀ {k series s},
      Reaches variant settings sentences around (firstLearner variant settings seed given) k series s →
      ∃ series' s', generation variant settings sentences (k + 1) series s = (.ok series', s')) :
    ∃ result, ∀ horizon, limit < horizon →
      start variant settings seed given sentences around horizon = .ok result := by
  have henough : limit < 0 + (limit + 1) := by omega
  obtain ⟨⟨reason, series⟩, s, hstopped⟩ :=
    exists_generations hlimit hruns .start (Nat.zero_le limit) henough
  refine ⟨⟨s.population, s.statistics, series, reason, series.bestFitness?.getD 0⟩, ?_⟩
  intro horizon hhorizon
  have hsome : settings.stop.criteria.isEmpty = false := by
    simp [StopSettings.criteria, hlimit]
  have hrun := generations_longer (Nat.succ_le_of_lt hhorizon) hstopped
  unfold start
  simp only [hsound, hsome, runSound, hrun]
  rfl

end Run

end GrammarInduction
