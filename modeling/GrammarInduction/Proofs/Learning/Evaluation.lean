import GrammarInduction.Proofs.Learning.Correction
import GrammarInduction.Proofs.Learning.Run
import GrammarInduction.Proofs.Learning.Verdicts
import GrammarInduction.Proofs.Statistics.Series

/-!
# Runs that only evaluate

Without coverage and breeding a run has nothing to learn.  Its generations judge the sentences by the
rules it was given, over and over; the weights that are estimated after each pass choose between
derivations and decide nothing.  The rules change once at most: before the second generation they are
pruned, and pruning takes no sentence away and leaves nothing to prune.

* `Run.givenRules` — the rules after so many generations;
* `Run.Evaluating` — what holds after so many generations;
* `Run.Evaluating.generation` — one more generation keeps it, and does not fail;
* `Run.exists_evaluation` — so such a run ends, and records the tally of an evaluation in every
  generation.
-/

namespace GrammarInduction.Run

open Attempt

variable {α : Type} [Scalar α] {variant : Variant} {settings : Settings α}
  {sentences : List Sentence} {around : Surroundings} {p : Population α} {tally : Tally} {k : Nat}
  {series : Series α} {s : Learner α}

/-! ## The rules of a run -/

/-- The rules after `k` generations that were given those of a population: the same, but pruned before
the second generation if the run corrects. -/
def givenRules (settings : Settings α) (p : Population α) (k : Nat) : RuleSet :=
  if settings.corrects ∧ 1 < k then p.rules.pruned p.limits.universal? p.limits.start else p.rules

omit [Scalar α] in
/-- Pruned or not, the rules derive the same sentences. -/
theorem derives_givenRules (settings : Settings α) (p : Population α) (k : Nat) (u : List Symbol) :
    (givenRules settings p k).Derives p.limits.start u ↔ p.rules.Derives p.limits.start u := by
  unfold givenRules
  split
  · exact RuleSet.derives_pruned ..
  · exact Iff.rfl

theorem limits_prepare (settings : Settings α) (step : Nat) (s : Learner α) :
    (prepare settings step s).population.limits = s.population.limits := by
  unfold prepare
  dsimp only
  split
  · exact Learner.limits_correct s
  · rfl

/-- A generation starts from the rules of the next count: those that have been pruned are pruned again,
which changes nothing. -/
theorem rules_prepare (hlimits : s.population.limits = p.limits)
    (hrules : s.population.rules = givenRules settings p k) :
    (prepare settings (k + 1) s).population.rules = givenRules settings p (k + 1) := by
  unfold prepare givenRules
  dsimp only
  split
  · rw [Learner.rules_correct, hlimits, hrules, givenRules]
    split
    · exact RuleSet.pruned_pruned ..
    · rfl
  · rename_i hno
    rw [hrules, givenRules, if_neg]
    exact fun hyes => hno ⟨hyes.1, Nat.lt_succ_of_lt hyes.2⟩

/-! ## The generations of a run -/

/-- What holds after `k` generations of a run that only evaluates: the rules are those that it was given,
pruned or not, and every generation has the given tally. -/
structure Evaluating (settings : Settings α) (p : Population α) (tally : Tally) (k : Nat)
    (series : Series α) (s : Learner α) : Prop where
  limits : s.population.limits = p.limits
  rules : s.population.rules = givenRules settings p k
  count : series.generations.size = k
  tallies : ∀ g ∈ series.generations, g.tally = tally

/-- One more generation does not fail, and has the tally again. -/
theorem Evaluating.generation (h : Evaluating settings p tally k series s)
    (hnever : ∀ kind, (settings.coverage.get kind).chance ≤ 0) (hbreeds : settings.breeds = false)
    (hcorpus : sentences.length < wordCount) (htally : p.evaluate sentences = .ok tally) :
    Ensures (generation variant settings sentences (k + 1) series) s (fun _ _ => False)
      (Evaluating settings p tally (k + 1)) := by
  have hlimits := (limits_prepare settings (k + 1) s).trans h.limits
  have hrules := rules_prepare h.limits h.rules
  have hsame : (prepare settings (k + 1) s).population.evaluate sentences = .ok tally := by
    rw [← htally]
    refine Population.evaluate_eq_of_derives (fun u => ?_) sentences
    rw [hlimits, hrules]
    exact derives_givenRules ..
  refine ensures_bind.mpr (ensures_modify.mpr (ensures_bind.mpr ?_))
  refine ((pass_ensures sentences (fun _ _ => Or.inl hnever) .zero).and (ensures_self _ _)).mono
    (fun _ _ hgreat => ?_) fun tally' s₁ hpass => ?_
  · rw [show Tally.zero.verdicts = 0 from rfl] at hgreat
    omega
  obtain ⟨⟨hpopulation, heval⟩, hran⟩ := hpass
  obtain rfl : tally' = tally := Except.ok.inj (heval.symm.trans hsame)
  refine ensures_bind.mpr (ensures_modify.mpr (ensures_bind.mpr (ensures_get.mpr ?_)))
  have hfits : tally'.Fits := Nat.lt_of_le_of_lt (verdicts_pass_le hran) hcorpus
  obtain ⟨entry, htally', hrecord⟩ : ∃ entry : Entry α, entry.tally = tally'
      ∧ recordGeneration series (k + 1) tally' (score variant s₁) = .ok (series.enter entry) :=
    ⟨_, rfl, Series.enter?_of_fits (e := ⟨k + 1, tally', _, _, _⟩) hfits series⟩
  refine ensures_bind.mpr (ensures_of_except (fun e herror => ?_) fun series' hseries => ?_)
  · cases hrecord.symm.trans herror
  obtain rfl : series.enter entry = series' := Except.ok.inj (hrecord.symm.trans hseries)
  rw [if_neg (by simp [hbreeds])]
  refine ensures_pure.mpr ⟨?_, ?_, ?_, ?_⟩
  · rw [limits_score, hpopulation, hlimits]
  · rw [rules_score, hpopulation, hrules]
  · rw [Series.generations_enter, Array.size_push, h.count]
  · intro g hg
    rw [Series.generations_enter] at hg
    rcases Array.mem_push.mp hg with hold | rfl
    · exact h.tallies g hold
    · exact htally'

omit [Scalar α] in
theorem evaluating_empty (hlimits : s.population.limits = p.limits)
    (hrules : s.population.rules = p.rules) : Evaluating settings p tally 0 .empty s where
  limits := hlimits
  rules := by rw [hrules, givenRules, if_neg (by simp)]
  count := rfl
  tallies g hg := by simp [Series.empty] at hg

/-- What a run comes to by generations that only evaluate. -/
theorem Reaches.evaluating {first : Learner α}
    (h : Reaches variant settings sentences around first k series s)
    (hlimits : first.population.limits = p.limits) (hrules : first.population.rules = p.rules)
    (hnever : ∀ kind, (settings.coverage.get kind).chance ≤ 0) (hbreeds : settings.breeds = false)
    (hcorpus : sentences.length < wordCount) (htally : p.evaluate sentences = .ok tally) :
    Evaluating settings p tally k series s := by
  induction h with
  | start => exact evaluating_empty hlimits hrules
  | step _ _ ran ih => exact (ih.generation hnever hbreeds hcorpus htally).of_ok ran

/-! ## The whole run -/

theorem limits_firstLearner (variant : Variant) (settings : Settings α) (seed : UInt64)
    (p : Population α) :
    (firstLearner variant settings seed (some p)).population.limits = p.limits := by
  cases variant <;> rfl

theorem rules_firstLearner (variant : Variant) (settings : Settings α) (seed : UInt64)
    (p : Population α) :
    (firstLearner variant settings seed (some p)).population.rules = p.rules := by
  cases variant <;> rfl

/-- **A run without coverage and breeding is an evaluation.**  Sound settings with a limit of generations, and
sentences that a machine word can count, let it end with a result, the same for every horizon beyond the
limit.  Every generation that it records has the tally of the given population.  The rules it ends with are
the given ones, if it does not correct or comes to no second generation, and otherwise the given ones after
one correction. -/
theorem exists_evaluation {limit : Nat} (hsound : settings.flaw? = none)
    (hlimit : settings.stop.steps? = some limit)
    (hnever : ∀ kind, (settings.coverage.get kind).chance ≤ 0) (hbreeds : settings.breeds = false)
    (variant : Variant) (seed : UInt64) (p : Population α) {sentences : List Sentence}
    (hcorpus : sentences.length < wordCount) (around : Surroundings) :
    ∃ result tally,
      (∀ horizon, limit < horizon →
          start variant settings seed (some p) sentences around horizon = .ok result)
        ∧ p.evaluate sentences = .ok tally
        ∧ (∀ g ∈ result.series.generations, g.tally = tally)
        ∧ (settings.corrects = false ∨ result.generations ≤ 1 → result.population.rules = p.rules)
        ∧ (settings.corrects = true → 1 < result.generations → ∀ s : Learner α, s.population = p →
          result.population.rules = s.correct.2.population.rules) := by
  obtain ⟨tally, htally⟩ := p.exists_evaluate hcorpus
  have hreached : ∀ {k series s}, Reaches variant settings sentences around
      (firstLearner variant settings seed (some p)) k series s →
      Evaluating settings p tally k series s := by
    intro k series s h
    exact h.evaluating (limits_firstLearner ..) (rules_firstLearner ..) hnever hbreeds hcorpus htally
  obtain ⟨result, hresult⟩ := exists_start hsound hlimit fun {k series s} h => by
    obtain ⟨series', s', hran, -⟩ :=
      ((hreached h).generation hnever hbreeds hcorpus htally).exists_ok
    exact ⟨series', s', hran⟩
  obtain ⟨k, s, h, -, hpopulation⟩ := reaches_of_start (hresult (limit + 1) limit.lt_succ_self)
  have hend := hreached h
  refine ⟨result, tally, hresult, htally, hend.tallies, ?_, ?_⟩
  · intro hfew
    rw [hpopulation, hend.rules, givenRules, if_neg]
    rw [RunResult.generations, hend.count] at hfew
    rintro ⟨hcorrects, hmore⟩
    rcases hfew with hno | hfew
    · rw [hno] at hcorrects
      cases hcorrects
    · omega
  · rintro hcorrects hmore s' rfl
    rw [RunResult.generations, hend.count] at hmore
    rw [hpopulation, hend.rules, givenRules, if_pos ⟨hcorrects, hmore⟩, Learner.rules_correct]

/-- A run of three generations that corrects.  Of three given rules it ends with the two that a sentence
can be derived by. -/
theorem exists_evaluation_pruned :
    let settings : Settings Float :=
      { Settings.standard with coverage := .disabled, stop := ⟨none, some 3, none⟩, breeds := false }
    let p : Population Float := .ofRules .standard [.pair 1 2 2, .terminal 2 (-1), .pair 3 2 1]
    let sentences : List Sentence := [⟨[-1, -1], .positive⟩, ⟨[-1], .negative⟩]
    ∃ result tally, start .weighted settings 7 (some p) sentences (.brisk false) 4 = .ok result
      ∧ result.generations = 3
      ∧ p.evaluate sentences = .ok tally
      ∧ (∀ g ∈ result.series.generations, g.tally = tally)
      ∧ p.contains (.pair 3 2 1) = true
      ∧ result.population.contains (.pair 3 2 1) = false := by
  intro settings p sentences
  have hnever : ∀ kind, (settings.coverage.get kind).chance ≤ 0 := by
    intro kind
    cases kind <;> decide +kernel
  obtain ⟨result, tally, hrun, htally, htallies, -, hpruned⟩ :=
    exists_evaluation (by decide +kernel : settings.flaw? = none) rfl hnever rfl .weighted 7 p
      (by decide : sentences.length < wordCount) (.brisk false)
  have hrun := hrun 4 (by decide)
  have hcount : (match start .weighted settings 7 (some p) sentences (.brisk false) 4 with
      | .ok result => decide (result.generations = 3)
      | .error _ => false) = true := by decide +kernel
  rw [hrun] at hcount
  have hcount : result.generations = 3 := of_decide_eq_true hcount
  let s : Learner Float := .ofPopulation p .usage (.standard .standard 10) (.ofSeed 7)
  have hrules : result.population.rules = s.correct.2.population.rules :=
    hpruned rfl (by omega) s rfl
  refine ⟨result, tally, hrun, hcount, htally, htallies, by decide +kernel, ?_⟩
  rw [Population.contains, hrules]
  decide +kernel

end GrammarInduction.Run
