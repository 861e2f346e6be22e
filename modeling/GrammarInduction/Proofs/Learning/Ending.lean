import GrammarInduction.Proofs.Learning.Threshold
import GrammarInduction.Proofs.Learning.Verdicts
import GrammarInduction.Proofs.Scalar.Double

/-!
# How a run ends

The series of a run has one record for each generation, numbered from one, and its best accuracy is the
greatest that is recorded.  The criteria are looked at before every generation, so a run that goes on has
met none of them: every accuracy so far is below the threshold, and the limit is not exceeded yet.  What
stops it can only have been brought about by the last generation.

* `Series.Chronicles` — the records of a run up to a generation;
* `Series.Chronicles.extend`, `Run.Reaches.chronicles` — every generation adds its record;
* `Run.lt_of_going` — as long as a run goes on, its accuracies are below the threshold;
* `Run.exists_criterion`, `Run.limit_of_steps` — what a reason to stop says;
* `Run.ends_accounted` — what the result of a run says of its generations.
-/

namespace GrammarInduction

open Attempt Scalar

variable {α : Type} [Scalar α]

/-! ## The records of a series -/

namespace Series

/-- The value is the greatest accuracy of the recorded generations. -/
structure IsBest (series : Series α) (best : α) : Prop where
  attained : ∃ gen ∈ series.generations, gen.accuracy = best
  bound : ∀ gen ∈ series.generations, gen.accuracy ≤ best

/-- The series has the records of the first `k` generations, with the accuracies that are measured of their
tallies, and knows the greatest of them. -/
structure Chronicles (series : Series α) (k : Nat) : Prop where
  steps : series.generations.toList.map (·.step) = List.range' 1 k
  measured : ∀ gen ∈ series.generations, gen.tally.accuracy = .ok gen.accuracy
  isSome_best : series.bestFitness?.isSome = decide (0 < k)
  best : ∀ best, series.bestFitness? = some best → series.IsBest best

theorem chronicles_empty : (empty : Series α).Chronicles 0 where
  steps := rfl
  measured gen hgen := by simp [empty] at hgen
  isSome_best := rfl
  best best hbest := by cases hbest

theorem Chronicles.size_eq {series : Series α} {k : Nat} (h : series.Chronicles k) :
    series.generations.size = k := by
  have hlength := congrArg List.length h.steps
  simpa using hlength

/-- The best accuracy, zero if there was no generation, is the greatest one that is recorded. -/
theorem Chronicles.best_getD {series : Series α} {k : Nat} (h : series.Chronicles k) :
    (k = 0 → series.bestFitness?.getD 0 = 0) ∧ (k ≠ 0 → series.IsBest (series.bestFitness?.getD 0)) := by
  have hsome := h.isSome_best
  cases hbest : series.bestFitness? with
  | none =>
      rw [hbest] at hsome
      have hk : ¬ 0 < k := of_decide_eq_false hsome.symm
      exact ⟨fun _ => rfl, fun hne => absurd (Nat.pos_of_ne_zero hne) hk⟩
  | some best =>
      rw [hbest] at hsome
      have hk : 0 < k := of_decide_eq_true hsome.symm
      exact ⟨fun hzero => absurd hzero (Nat.ne_of_gt hk), fun _ => h.best best hbest⟩

/-- The accuracy of the first generation is the greatest. -/
theorem isBest_first {series : Series α} {last : Generation α} (hpush : series.generations = #[last])
    (hlast : IsNumber last.accuracy) : series.IsBest last.accuracy := by
  refine ⟨⟨last, by simp [hpush], rfl⟩, fun gen hgen => ?_⟩
  obtain rfl : gen = last := by simpa [hpush] using hgen
  exact hlast

variable [OrderedScalar α]

/-- With one more generation the greatest accuracy is the greater of the one before and the new one. -/
theorem IsBest.push {series series' : Series α} {best : α} {last : Generation α}
    (h : series.IsBest best) (hpush : series'.generations = series.generations.push last)
    (hbest : IsNumber best) (hlast : IsNumber last.accuracy) :
    series'.IsBest (greater best last.accuracy) := by
  obtain ⟨hone, hleft, hright⟩ := greater_cases hbest hlast
  constructor
  · rcases hone with hold | hnew
    · obtain ⟨first, hfirst, hattained⟩ := h.attained
      exact ⟨first, by simp [hpush, hfirst], hattained.trans hold.symm⟩
    · exact ⟨last, by simp [hpush], hnew.symm⟩
  · intro gen hgen
    rw [hpush, Array.mem_push] at hgen
    rcases hgen with hold | rfl
    · exact OrderedScalar.le_trans (h.bound gen hold) hleft
    · exact hright

omit [OrderedScalar α] in
/-- The accuracies are numbers. -/
theorem Chronicles.isNumber [CountingScalar α] {series : Series α} {k : Nat} (h : series.Chronicles k) :
    ∀ gen ∈ series.generations, IsNumber gen.accuracy :=
  fun gen hgen => Tally.isNumber_accuracy (h.measured gen hgen)

omit [OrderedScalar α] in
/-- The record of the next generation is added, and the best accuracy is raised by it. -/
theorem Chronicles.extend [CountingScalar α] {series series' : Series α} {k : Nat} {tally : Tally}
    {last : Generation α} (h : series.Chronicles k) (hlast : series.Extends series' (k + 1) tally last) :
    series'.Chronicles (k + 1) := by
  obtain ⟨hpush, hstep, rfl, hmeasured, hraised⟩ := hlast
  have hnumber : IsNumber last.accuracy := Tally.isNumber_accuracy hmeasured
  refine ⟨?_, ?_, ?_, ?_⟩
  · rw [hpush, Array.toList_push, List.map_append, h.steps, List.map_singleton, hstep,
      List.range'_1_concat, Nat.add_comm k 1]
  · intro gen hgen
    rw [hpush, Array.mem_push] at hgen
    rcases hgen with hold | rfl
    · exact h.measured gen hold
    · exact hmeasured
  · rw [hraised]
    exact (decide_eq_true (Nat.succ_pos k)).symm
  · intro best hbest
    rw [hraised, Option.some.injEq] at hbest
    cases hearlier : series.bestFitness? with
    | none =>
        -- There was no generation before.
        have hsome := h.isSome_best
        rw [hearlier] at hsome
        have hempty : series.generations = #[] := by
          apply Array.eq_empty_of_size_eq_zero
          rw [h.size_eq]
          exact Nat.eq_zero_of_not_pos (of_decide_eq_false hsome.symm)
        rw [hearlier] at hbest
        rw [hempty] at hpush
        exact hbest ▸ isBest_first hpush hnumber
    | some earlier =>
        have hbefore := h.best earlier hearlier
        obtain ⟨first, hfirst, hattained⟩ := hbefore.attained
        rw [hearlier] at hbest
        exact hbest ▸ hbefore.push hpush (hattained ▸ h.isNumber first hfirst) hnumber

end Series

/-! ## What a result says of its generations -/

namespace RunResult

/-- The last generation was the first whose accuracy reached the threshold. -/
structure StoppedByAccuracy (settings : Settings α) (result : RunResult α) : Prop where
  reason_eq : result.reason = .fitness
  reached : ∃ t earlier last, settings.stop.fitness? = some t
    ∧ result.series.generations = Array.push earlier last
    ∧ t ≤ last.accuracy ∧ ∀ gen ∈ earlier, gen.accuracy < t

/-- There were as many generations as the limit allows, and none whose accuracy reached the threshold. -/
structure StoppedBySteps (settings : Settings α) (result : RunResult α) : Prop where
  reason_eq : result.reason = .steps
  steps_eq : settings.stop.steps? = some result.generations
  below : ∀ t, settings.stop.fitness? = some t →
    ∀ gen ∈ result.series.generations, gen.accuracy < t

/-- The result of a run without a limit of time is accounted for by the records of its generations. -/
structure Accounted (settings : Settings α) (result : RunResult α) : Prop where
  steps : result.series.generations.toList.map (·.step) = List.range' 1 result.generations
  measured : ∀ gen ∈ result.series.generations, gen.tally.accuracy = .ok gen.accuracy
  best_of_none : result.generations = 0 → result.bestFitness = 0
  best_of_some : result.generations ≠ 0 → result.series.IsBest result.bestFitness
  within : ∀ limit, settings.stop.steps? = some limit → result.generations ≤ limit
  ending : result.StoppedByAccuracy settings ∨ result.StoppedBySteps settings

end RunResult

/-! ## The criteria of a run -/

namespace StopSettings

variable {stop : StopSettings α}

theorem steps_mem_criteria {limit : Nat} :
    StopCriterion.steps limit ∈ stop.criteria ↔ stop.steps? = some limit := by
  unfold criteria
  cases stop.fitness? <;> cases stop.seconds? <;> simp

theorem time_not_mem_criteria (htime : stop.seconds? = none) (budget : Nat) :
    StopCriterion.time budget ∉ stop.criteria := by
  unfold criteria
  cases stop.fitness? <;> cases stop.steps? <;> simp [htime]

/-- The threshold of the accuracy is the first criterion. -/
theorem exists_criteria_eq_cons {t : α} (ht : stop.fitness? = some t) :
    ∃ rest, stop.criteria = .fitness t :: rest := by
  rw [criteria, ht]
  exact ⟨_, rfl⟩

end StopSettings

namespace Run

variable {variant : Variant} {settings : Settings α} {sentences : List Sentence} {k step : Nat}
  {series : Series α} {around : Surroundings} {s first : Learner α} {t : α}
  {reason : StopReason}

/-- A run that has a result has sound settings, and tells the best accuracy of its series. -/
theorem sound_of_start {seed : UInt64} {given : Option (Population α)} {horizon : Nat}
    {result : RunResult α}
    (h : start variant settings seed given sentences around horizon = .ok result) :
    settings.flaw? = none ∧ result.bestFitness = result.series.bestFitness?.getD 0 := by
  unfold start at h
  split at h
  · cases h
  · rename_i hsound
    refine ⟨hsound, ?_⟩
    split at h
    · cases h
    · unfold runSound at h
      dsimp only at h
      split at h
      · cases h
      · cases h
      · cases h
        rfl

/-- The threshold of sound settings is a number. -/
theorem isNumber_of_sound (h : settings.flaw? = none) (ht : settings.stop.fitness? = some t) :
    IsNumber t := by
  simp only [Settings.flaw?, Option.or_eq_none_iff, Option.map_eq_none_iff] at h
  obtain ⟨-, -, -, -, hstop, -⟩ := h
  unfold StopSettings.flaw? at hstop
  split at hstop
  · cases hstop
  · split at hstop
    · cases hstop
    · rename_i hnumber
      rw [ht] at hnumber
      simpa using hnumber

/-- A run that nobody cancels stops for a criterion that is met, and for another than its accuracy only
where that is below the threshold. -/
theorem exists_criterion (hcancel : ∀ step, around.cancelled step = false)
    (h : reason? settings around step series = some reason) :
    ∃ criterion ∈ settings.stop.criteria, criterion.reason = reason
      ∧ criterion.isSatisfied ⟨step, series.bestFitness?, around.clock step⟩ = true
      ∧ (reason ≠ .fitness → ∀ t, settings.stop.fitness? = some t →
        ∀ best, series.bestFitness? = some best → ¬ t ≤ best) := by
  rw [reason?, hcancel, if_neg Bool.false_ne_true, StopCriterion.check, Option.map_eq_some_iff] at h
  obtain ⟨criterion, hfind, rfl⟩ := h
  refine ⟨criterion, List.mem_of_find?_eq_some hfind, rfl, List.find?_some hfind, ?_⟩
  intro hother t ht best hbest hle
  -- The threshold comes first, so it is what would have been found.
  have hmet : (StopCriterion.fitness t).isSatisfied
      ⟨step, series.bestFitness?, around.clock step⟩ = true := by
    simpa [StopCriterion.isSatisfied, hbest] using hle
  obtain ⟨rest, hrest⟩ := StopSettings.exists_criteria_eq_cons ht
  rw [hrest, List.find?_cons_of_pos hmet, Option.some.injEq] at hfind
  subst hfind
  exact hother rfl

/-- A run that stops for its steps has a limit, and its next generation would exceed that. -/
theorem limit_of_steps (hcancel : ∀ step, around.cancelled step = false)
    (h : reason? settings around step series = some .steps) :
    ∃ limit, settings.stop.steps? = some limit ∧ limit < step := by
  obtain ⟨criterion, hmem, hreason, hmet, -⟩ := exists_criterion hcancel h
  cases criterion with
  | fitness threshold => cases hreason
  | steps limit => exact ⟨limit, StopSettings.steps_mem_criteria.mp hmem, of_decide_eq_true hmet⟩
  | time budget => cases hreason

/-- Where time is not limited and nobody cancels, a run stops for its accuracy or for its steps. -/
theorem reason_cases (hcancel : ∀ step, around.cancelled step = false) (htime : settings.stop.seconds? = none)
    (h : reason? settings around step series = some reason) :
    reason = .fitness ∨ reason = .steps := by
  obtain ⟨criterion, hmem, rfl, -⟩ := exists_criterion hcancel h
  cases criterion with
  | fitness threshold => exact Or.inl rfl
  | steps limit => exact Or.inr rfl
  | time budget => exact absurd hmem (StopSettings.time_not_mem_criteria htime budget)

/-- A run that stops for its accuracy has a threshold. -/
theorem threshold_of_fitness (hcancel : ∀ step, around.cancelled step = false)
    (h : reason? settings around step series = some .fitness) :
    ∃ t, settings.stop.fitness? = some t := by
  obtain ⟨criterion, hmem, hreason, -⟩ := exists_criterion hcancel h
  cases criterion with
  | fitness threshold => exact ⟨threshold, StopSettings.fitness_mem_criteria.mp hmem⟩
  | steps limit => cases hreason
  | time budget => cases hreason

/-- A run has no more generations than its limit. -/
theorem Reaches.le_limit (h : Reaches variant settings sentences around first k series s)
    {limit : Nat} (hlimit : settings.stop.steps? = some limit) : k ≤ limit := by
  cases h with
  | start => exact Nat.zero_le limit
  | step before going ran => exact le_limit_of_going going hlimit

variable [CountingScalar α]

/-- Every generation adds its record. -/
theorem Reaches.chronicles (h : Reaches variant settings sentences around first k series s) :
    series.Chronicles k := by
  induction h with
  | start => exact Series.chronicles_empty
  | @step k series series' s s' before going ran ih =>
      obtain ⟨tally, s₁, last, -, hlast, -⟩ :=
        (generation_ensures variant settings sentences (k + 1) series s).of_ok ran
      exact ih.extend hlast

/-- As long as a run goes on, its accuracies are below the threshold. -/
theorem lt_of_going (hsound : settings.flaw? = none) (ht : settings.stop.fitness? = some t)
    (h : series.Chronicles k) (hbelow : ∀ best, series.bestFitness? = some best → ¬ t ≤ best) :
    ∀ gen ∈ series.generations, gen.accuracy < t := by
  intro gen hgen
  have hpos : 0 < k := by
    rw [← h.size_eq]
    exact Array.size_pos_of_mem hgen
  obtain ⟨best, hbest⟩ := Option.isSome_iff_exists.mp (h.isSome_best.trans (decide_eq_true hpos))
  refine OrderedScalar.lt_of_not_le (h.isNumber gen hgen) (isNumber_of_sound hsound ht) fun hle => ?_
  exact hbelow best hbest (OrderedScalar.le_trans hle ((h.best best hbest).bound gen hgen))

/-- Where the best accuracy reaches the threshold only after the last generation, it is that of its
record, which is added to those before. -/
theorem Reaches.exists_last (h : Reaches variant settings sentences around first (k + 1) series s)
    (ht : settings.stop.fitness? = some t) {best : α} (hbest : series.bestFitness? = some best)
    (hle : t ≤ best) :
    ∃ earlier : Series α, ∃ last, earlier.Chronicles k
      ∧ (∀ before, earlier.bestFitness? = some before → ¬ t ≤ before)
      ∧ series.generations = earlier.generations.push last ∧ t ≤ last.accuracy := by
  cases h with
  | @step _ earlier _ before _ hbefore hgoing hran =>
      obtain ⟨tally, s₁, last, -, hlast, -⟩ :=
        (generation_ensures variant settings sentences (k + 1) earlier before).of_ok hran
      have hunmet : ∀ before, earlier.bestFitness? = some before → ¬ t ≤ before :=
        fun _ hfound => not_le_of_going hgoing ht hfound
      refine ⟨earlier, last, hbefore.chronicles, hunmet, hlast.pushed, ?_⟩
      rw [hlast.raised, Option.some.injEq] at hbest
      rw [← hbest] at hle
      cases hfound : earlier.bestFitness? with
      | none => simpa [hfound] using hle
      | some found =>
          rw [hfound] at hle
          exact le_of_le_greater hle (hunmet found hfound)

/-- If a run stops for its accuracy, its last generation has reached the threshold, and none before. -/
theorem Reaches.exists_threshold (h : Reaches variant settings sentences around first k series s)
    (hsound : settings.flaw? = none)
    (hcancel : ∀ step, around.cancelled step = false)
    (hstop : reason? settings around (k + 1) series = some .fitness) :
    ∃ t earlier last, settings.stop.fitness? = some t ∧ series.generations = Array.push earlier last
      ∧ t ≤ last.accuracy ∧ ∀ gen ∈ earlier, gen.accuracy < t := by
  obtain ⟨t, ht⟩ := threshold_of_fitness hcancel hstop
  obtain ⟨best, hbest, hle⟩ := le_of_fitness hstop ht
  cases k with
  | zero =>
      have hsome := h.chronicles.isSome_best
      rw [hbest] at hsome
      cases hsome
  | succ k =>
      obtain ⟨earlier, last, hearlier, hunmet, hpush, hreached⟩ := h.exists_last ht hbest hle
      exact ⟨t, earlier.generations, last, ht, hpush, hreached,
        lt_of_going hsound ht hearlier hunmet⟩

/-- **The end of a run is accounted for.**  Whatever operators it has, a run without a limit of time
that nobody cancels has numbered its generations from one, has recorded for each the accuracy of its tally,
and tells the greatest of these.  It has no more generations than its limit allows.  If it stops for its
accuracy, then its last generation has reached the threshold, and none before; if it stops for its steps, then
they are as many as the limit, and none has reached the threshold.  There is no other reason. -/
theorem ends_accounted {seed : UInt64} {given : Option (Population α)} {horizon : Nat}
    {result : RunResult α}
    (hrun : start variant settings seed given sentences around horizon = .ok result)
    (htime : settings.stop.seconds? = none) (hcancel : ∀ step, around.cancelled step = false) :
    result.Accounted settings := by
  obtain ⟨hsound, hfitness⟩ := sound_of_start hrun
  obtain ⟨k, s, hreached, hreason, -⟩ := reaches_of_start hrun
  have hchronicles := hreached.chronicles
  obtain rfl : result.generations = k := hchronicles.size_eq
  obtain ⟨hnone, hsome⟩ := hchronicles.best_getD
  rw [← hfitness] at hnone hsome
  refine ⟨hchronicles.steps, hchronicles.measured, hnone, hsome, fun limit => hreached.le_limit, ?_⟩
  rcases reason_cases hcancel htime hreason with hstop | hstop
  · rw [hstop] at hreason
    exact Or.inl ⟨hstop, hreached.exists_threshold hsound hcancel hreason⟩
  · rw [hstop] at hreason
    obtain ⟨limit, hlimit, hexceeded⟩ := limit_of_steps hcancel hreason
    have hwithin := hreached.le_limit hlimit
    obtain rfl : limit = result.generations := by omega
    obtain ⟨-, -, -, -, hunmet⟩ := exists_criterion hcancel hreason
    refine Or.inr ⟨hstop, hlimit, fun t ht => ?_⟩
    exact lt_of_going hsound ht hchronicles (hunmet (by decide) t ht)

/-- A run that never accepts its sentence, and stops after the two generations that it may have. -/
theorem ends_accounted_two :
    ∃ (settings : Settings Float) (sentences : List Sentence) (result : RunResult Float),
      settings.stop = ⟨some 1, some 2, none⟩
        ∧ start .plain settings 0 (some (.ofRules .standard [.terminal 1 (-1)])) sentences
          (.brisk false) 5 = .ok result
        ∧ result.generations = 2 ∧ result.reason = .steps ∧ result.Accounted settings := by
  let settings : Settings Float :=
    { Settings.standard with coverage := .disabled, stop := ⟨some 1, some 2, none⟩, breeds := false }
  let sentences : List Sentence := [⟨[-1], .positive⟩, ⟨[-1, -1], .positive⟩]
  have hcheck : (match start .plain settings 0 (some (.ofRules .standard [.terminal 1 (-1)]))
        sentences (.brisk false) 5 with
      | .ok result => decide (result.generations = 2 ∧ result.reason = .steps)
      | .error _ => false) = true := by decide +kernel
  split at hcheck
  · rename_i result hrun
    obtain ⟨hgenerations, hreason⟩ := of_decide_eq_true hcheck
    exact ⟨settings, sentences, result, rfl, hrun, hgenerations, hreason,
      ends_accounted hrun rfl fun _ => rfl⟩
  · cases hcheck

end Run

end GrammarInduction

