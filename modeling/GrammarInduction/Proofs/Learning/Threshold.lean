import GrammarInduction.Proofs.Learning.Run

/-!
# What a reached accuracy says

A run stops for its accuracy once the best accuracy of its generations reaches the threshold.  It is the
last generation that has reached it: every one before gave no reason to stop.  But the accuracy of a
generation is one of many grammars, since coverage makes up rules between two sentences and breeding
follows on the last.

* `Run.meets_threshold` — the last generation has reached the threshold, and so does the grammar that
  the run ends with, if that generation left the rules as it found them;
* `Run.not_meets_threshold` — otherwise it need not.
-/

namespace GrammarInduction

open Attempt Learner

variable {α : Type} [Scalar α]

/-! ## The best accuracy -/

/-- What the greater of two values reaches and the first does not, the second reaches. -/
theorem Scalar.le_of_le_greater {t x y : α} (h : t ≤ greater x y) (hx : ¬ t ≤ x) : t ≤ y := by
  unfold greater at h
  split at h
  · split at h
    · exact h
    · exact absurd h hx
  · exact h

theorem StopSettings.fitness_mem_criteria {stop : StopSettings α} {t : α} :
    StopCriterion.fitness t ∈ stop.criteria ↔ stop.fitness? = some t := by
  unfold criteria
  cases stop.steps? <;> cases stop.seconds? <;> simp

namespace Run

variable {variant : Variant} {settings : Settings α} {sentences : List Sentence} {step : Nat}
  {series : Series α} {around : Surroundings} {t : α}

/-- A run goes on as long as its best accuracy is below the threshold. -/
theorem not_le_of_going (h : reason? settings around step series = none)
    (ht : settings.stop.fitness? = some t) {best : α} (hbest : series.bestFitness? = some best) :
    ¬ t ≤ best := by
  have hunmet := unmet_of_going h (StopSettings.fitness_mem_criteria.mpr ht)
  simpa [StopCriterion.isSatisfied, hbest] using hunmet

/-- A run stops for its accuracy when the best one reaches the threshold. -/
theorem le_of_fitness (h : reason? settings around step series = some .fitness)
    (ht : settings.stop.fitness? = some t) : ∃ best, series.bestFitness? = some best ∧ t ≤ best := by
  unfold reason? at h
  split at h
  · cases h
  · rw [StopCriterion.check, Option.map_eq_some_iff] at h
    obtain ⟨criterion, hfind, hreason⟩ := h
    have hmem := List.mem_of_find?_eq_some hfind
    have hmet := List.find?_some hfind
    cases criterion with
    | fitness threshold =>
        have heq := StopSettings.fitness_mem_criteria.mp hmem
        rw [ht, Option.some.injEq] at heq
        subst heq
        cases hbest : series.bestFitness? with
        | none =>
            rw [hbest] at hmet
            cases hmet
        | some best =>
            rw [hbest] at hmet
            exact ⟨best, rfl, of_decide_eq_true hmet⟩
    | steps limit => cases hreason
    | time budget => cases hreason

/-- **The last generation has reached the threshold** of a run that stops for its accuracy.  If coverage
had nothing to do in it, and the run ends with the rules that it began with, then the grammar of the run
has the very tally that was recorded, so it reaches the threshold too.  This is so in particular if
no operator of coverage ever fires and the run does not breed. -/
theorem meets_threshold {seed : UInt64} {given : Option (Population α)} {horizon : Nat}
    {result : RunResult α}
    (hrun : start variant settings seed given sentences around horizon = .ok result)
    (hreason : result.reason = .fitness) (ht : settings.stop.fitness? = some t) :
    ∃ k series before after last,
      Reaches variant settings sentences around (firstLearner variant settings seed given) k series
          before
        ∧ generation variant settings sentences (k + 1) series before = (.ok result.series, after)
        ∧ result.population = after.population
        ∧ result.series.generations = series.generations.push last ∧ last.step = k + 1
        ∧ (∃ accuracy, last.tally.accuracy = .ok accuracy ∧ t ≤ accuracy)
        ∧ ((∀ w ∈ sentences,
            NothingToCover settings.coverage (prepare settings (k + 1) before).population w) →
          (∀ b, result.population.rules.owner? b
            = (prepare settings (k + 1) before).population.rules.owner? b) →
          result.population.evaluate sentences = .ok last.tally)
        ∧ ((∀ kind, (settings.coverage.get kind).chance ≤ 0) → settings.breeds = false →
          result.population.evaluate sentences = .ok last.tally) := by
  obtain ⟨k, s, hreached, hstop, hpopulation⟩ := reaches_of_start hrun
  rw [hreason] at hstop
  obtain ⟨best, hbest, hle⟩ := le_of_fitness hstop ht
  generalize result.series = recorded at hreached hbest ⊢
  cases hreached with
  | start => cases hbest
  | @step k series _ before _ hbefore hgoing hran =>
      obtain ⟨tally, s₁, last, hpass, hlast, hlimits, hkeeps⟩ :=
        (generation_ensures variant settings sentences (k + 1) series before).of_ok hran
      -- The best accuracy has risen to the threshold in this generation, so it is that of its record.
      have haccuracy : t ≤ last.accuracy := by
        rw [hlast.raised, Option.some.injEq] at hbest
        rw [← hbest] at hle
        cases hbest' : series.bestFitness? with
        | none => simpa [hbest'] using hle
        | some earlier =>
            rw [hbest'] at hle
            exact Scalar.le_of_le_greater hle (not_le_of_going hgoing ht hbest')
      have hquiet : (∀ w ∈ sentences,
            NothingToCover settings.coverage (prepare settings (k + 1) before).population w) →
          s₁.population = (prepare settings (k + 1) before).population
            ∧ s₁.population.evaluate sentences = .ok tally := by
        intro hnothing
        obtain ⟨hsame, heval⟩ := (pass_ensures sentences hnothing .zero).of_ok hpass
        rw [← hsame] at heval
        exact ⟨hsame, heval⟩
      refine ⟨k, series, before, s, last, hbefore, hran, hpopulation, hlast.pushed, hlast.step_eq,
        ⟨_, hlast.tally_eq ▸ hlast.measured, haccuracy⟩, ?_, ?_⟩
      · intro hnothing hrules
        obtain ⟨hsame, heval⟩ := hquiet hnothing
        rw [hlast.tally_eq, ← heval, hpopulation]
        refine Population.evaluate_congr (by rw [hlimits]) (fun b => ?_) sentences
        rw [← hpopulation, hrules, hsame]
      · intro hnever hbreeds
        obtain ⟨-, heval⟩ := hquiet fun _ _ => Or.inl hnever
        rw [hlast.tally_eq, ← heval, hpopulation]
        refine Population.evaluate_congr (by rw [hlimits]) (fun b => ?_) sentences
        rw [hkeeps hbreeds]

/-- A run without coverage and breeding whose one generation reaches the threshold. -/
theorem meets_threshold_undisturbed :
    ∃ (settings : Settings Float) (sentences : List Sentence) (result : RunResult Float) (last : _),
      settings.stop.fitness? = some 1
        ∧ start .plain settings 0 (some (.ofRules .standard [.terminal 1 (-1)])) sentences
          (.brisk false) 5 = .ok result
        ∧ result.reason = .fitness
        ∧ result.series.generations.back? = some last
        ∧ (∃ accuracy : Float, last.tally.accuracy = .ok accuracy ∧ 1 ≤ accuracy)
        ∧ result.population.evaluate sentences = .ok last.tally := by
  let settings : Settings Float :=
    { Settings.standard with coverage := .disabled, stop := ⟨some 1, some 5, none⟩, breeds := false }
  let sentences : List Sentence := [⟨[-1], .positive⟩, ⟨[-1, -1], .negative⟩]
  have hcheck : (match start .plain settings 0 (some (.ofRules .standard [.terminal 1 (-1)]))
        sentences (.brisk false) 5 with
      | .ok result => decide (result.reason = .fitness)
      | .error _ => false) = true := by decide +kernel
  split at hcheck
  · rename_i result hrun
    have hreason := of_decide_eq_true hcheck
    obtain ⟨k, series, before, after, last, -, -, -, hlast, -, hle, -, heval⟩ :=
      meets_threshold hrun hreason (t := 1) rfl
    refine ⟨settings, sentences, result, last, rfl, hrun, hreason, ?_, hle, heval ?_ rfl⟩
    · rw [hlast, Array.back?_push]
    · intro kind
      cases kind <;> decide +kernel
  · cases hcheck

/-- The run whose grammar falls short of the accuracy that it stopped for.  The first sentence is
negative and rejected as long as its terminal has no rule; the second gives the terminal one, and is
accepted.  That is an accuracy of one, but the grammar accepts both. -/
theorem not_meets_threshold :
    ¬ ∀ (variant : Variant) (settings : Settings Float) (seed : UInt64)
      (given : Option (Population Float)) (sentences : List Sentence) (around : Surroundings)
      (horizon : Nat) (result : RunResult Float) (t : Float),
      settings.stop.fitness? = some t →
      start variant settings seed given sentences around horizon = .ok result →
      result.reason = .fitness →
      ∃ tally accuracy, result.population.evaluate sentences = .ok tally
        ∧ tally.accuracy = .ok accuracy ∧ t ≤ accuracy := by
  intro hmeets
  let settings : Settings Float :=
    { Settings.standard with
      coverage := { Coverage.disabled with starting := .always }
      stop := ⟨some 1, some 5, none⟩
      breeds := false }
  let sentences : List Sentence := [⟨[-1, -1], .negative⟩, ⟨[-1], .positive⟩]
  have hcheck : (match start .plain settings 0 (some (.ofRules .standard [.pair 1 1 1]))
        sentences (.brisk false) 5 with
      | .ok result => decide (result.reason = .fitness)
        && match result.population.evaluate sentences with
          | .ok tally => match (tally.accuracy : Except Fault Float) with
            | .ok accuracy => decide (¬ 1 ≤ accuracy)
            | .error _ => false
          | .error _ => false
      | .error _ => false) = true := by decide +kernel
  split at hcheck
  · rename_i result hrun
    rw [Bool.and_eq_true, decide_eq_true_eq] at hcheck
    obtain ⟨hreason, hbelow⟩ := hcheck
    obtain ⟨tally, accuracy, heval, haccuracy, hle⟩ :=
      hmeets _ settings _ _ _ _ _ result 1 rfl hrun hreason
    simp only [heval, haccuracy] at hbelow
    exact of_decide_eq_true hbelow hle
  · cases hcheck

end Run

end GrammarInduction
