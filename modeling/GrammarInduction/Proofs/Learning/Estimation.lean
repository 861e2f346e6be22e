import Mathlib.Algebra.BigOperators.Ring.Finset
import GrammarInduction.Learning.Variant
import GrammarInduction.Proofs.Grammar.Normalisation
import GrammarInduction.Proofs.Learning.Lockstep
import GrammarInduction.Proofs.Statistics.Parents

/-!
# Estimated probabilities are relative frequencies

Where fitness is the count of uses, an estimate gives each rule of a used parent the weight of its uses.
The weight of the parent's group is then the sum of these, which is what the statistics count for the
parent itself; so the rule's share is its frequency among the uses of the parent.  Three accounts have to
agree for this: the rules that are weighed are those that are tracked, parents count what their rules do,
and the fitness that is remembered of a rule is not older than its last use.

* `Statistics.Scored` — fitness is the count of uses, and none that is remembered is stale;
* `Learner.group_estimate` — the weights of a used parent's rules after an estimate;
* `Learner.Frequencies` — what an estimate makes of the probabilities;
* `Learner.estimate_frequencies` — estimates from any population and any statistics that mirror it.
-/

namespace GrammarInduction

open RuleMap

variable {α : Type} [Scalar α]

/-! ## Fitness that is up to date -/

namespace Statistics

variable {s : Statistics α} {r : Rule} {u : Usage α}

/-- Events leave the fitness function as it is. -/
theorem function_run (e : Event) (s : Statistics α) : (e.run s).function = s.function := by
  cases e with
  | track r => exact function_track s r
  | untrack r => exact function_untrack s r
  | recordUse r label => exact function_recordUse s r label
  | resetUsage => rfl
  | updateFitness => rfl

theorem function_runAll (events : List Event) (s : Statistics α) :
    (Event.runAll events s).function = s.function := by
  induction events generalizing s with
  | nil => rfl
  | cons e events ih => exact (ih (e.run s)).trans (function_run e s)

/-- Fitness is the count of uses, and what is remembered of a rule is the count that it has now. -/
structure Scored (s : Statistics α) : Prop where
  function : s.function = .usage
  remembered : ∀ r u f, s.usage? r = some u → u.fitness? = some f → f = Scalar.ofCount u.uses

/-- Whether it is remembered or not, the fitness of a tracked rule is the count of its uses. -/
theorem Scored.fitness_eq (h : s.Scored) (hu : s.usage? r = some u) :
    s.fitness r = Scalar.ofCount u.uses := by
  have hlookup : s.usages[r]? = some u := hu
  unfold fitness
  rw [hlookup]
  dsimp only
  cases hf : u.fitness? with
  | some f => exact h.remembered r u f hu hf
  | none =>
      rw [h.function]
      rfl

/-- An update brings all fitness up to date. -/
theorem scored_updateFitness (h : s.function = .usage) : s.updateFitness.Scored where
  function := h
  remembered r u f hu hf := by
    rw [usage?_updateFitness, Option.map_eq_some_iff] at hu
    obtain ⟨v, -, rfl⟩ := hu
    rw [← Option.some.inj hf, h]
    rfl

/-- Only a use that is counted makes fitness stale: rules that come have neither uses nor fitness. -/
theorem Scored.event (h : s.Scored) {e : Event} (hquiet : ∀ r label, e ≠ .recordUse r label) :
    (e.run s).Scored := by
  cases e with
  | track r =>
      refine ⟨(function_run _ s).trans h.function, fun q u f hu hf => ?_⟩
      rw [Event.run, usage?_track] at hu
      split at hu
      · cases hu
        cases hf
      · exact h.remembered q u f hu hf
  | untrack r =>
      refine ⟨(function_run _ s).trans h.function, fun q u f hu hf => ?_⟩
      rw [Event.run, usage?_untrack] at hu
      split at hu
      · cases hu
      · exact h.remembered q u f hu hf
  | recordUse r label => exact absurd rfl (hquiet r label)
  | resetUsage =>
      refine ⟨h.function, fun q u f hu hf => ?_⟩
      rw [Event.run, usage?_resetUsage, Option.map_eq_some_iff] at hu
      obtain ⟨-, -, rfl⟩ := hu
      cases hf
  | updateFitness => exact scored_updateFitness h.function

/-- Fitness stays up to date if no use is counted after the last update. -/
theorem scored_runAll (before : List Event) {after : List Event}
    (hafter : ∀ r label, Event.recordUse r label ∉ after) :
    (Event.runAll (before ++ .updateFitness :: after) (empty (α := α) .usage)).Scored := by
  have hrun : ∀ s : Statistics α, s.Scored → (Event.runAll after s).Scored := by
    induction after with
    | nil => exact fun s h => h
    | cons e after ih =>
        intro s h
        have hfirst : ∀ r label, e ≠ .recordUse r label := by
          rintro r label rfl
          exact hafter r label List.mem_cons_self
        exact ih (fun r label hmem => hafter r label (List.mem_cons_of_mem e hmem)) _
          (h.event hfirst)
  have hsplit : Event.runAll (before ++ .updateFitness :: after) (empty (α := α) .usage)
      = Event.runAll after (Event.runAll before (empty .usage)).updateFitness :=
    List.foldl_append
  rw [hsplit]
  exact hrun _ (scored_updateFitness (function_runAll before _))

end Statistics

namespace Learner

/-! ## The weights that an estimate gives -/

section Weights

variable {s : Learner α} {w : Weighting α} {r : Rule} {x : α}

/-- A parent is used if one of its rules has been. -/
def IsUsed (s : Learner α) (p : Symbol) : Prop :=
  ∃ side, s.statistics.parent? p = some side ∧ 0 < side.uses

/-- An estimate concerns the stored rules of used parents. -/
theorem mem_estimates : (r, x) ∈ s.estimates ↔ (s.population.contains r = true ∧ s.IsUsed r.parent)
    ∧ Scalar.nonNegative (s.statistics.fitness r) = x := by
  have hstored : r ∈ s.population.rules.rules ↔ s.population.contains r = true :=
    RuleSet.mem_rules.trans RuleSet.contains_iff.symm
  have hused : ((s.statistics.parent? r.parent).any fun side => decide (0 < side.uses)) = true
      ↔ s.IsUsed r.parent := by
    simp [IsUsed, Option.any_eq_true]
  rw [← hstored, ← hused]
  unfold estimates
  rw [List.mem_map]
  simp [and_assoc]

/-- The rules of a parent that was not used keep their weights and their probabilities. -/
theorem reweigh_of_unused (hunused : ¬ s.IsUsed r.parent) (w : Weighting α) :
    (w.reweigh s.estimates).weights[r]? = w.weights[r]?
      ∧ (w.reweigh s.estimates).probabilities[r]? = w.probabilities[r]? := by
  apply Weighting.reweigh_apart
  intro change hchange hparent
  exact hunused (hparent ▸ (mem_estimates.mp hchange).1.2)

/-- A rule of a used parent is weighed by its fitness. -/
theorem weight_estimate (hstored : s.population.contains r = true) (hused : s.IsUsed r.parent)
    (hweight : r ∈ w.weights) : (w.reweigh s.estimates).weights[r]?
      = some (Scalar.nonNegative (Scalar.nonNegative (s.statistics.fitness r))) := by
  rcases Weighting.getElem?_weights_reweigh s.estimates w r with ⟨change, hchange, rfl, hvalue⟩
    | ⟨hnone, -⟩
  · rw [hvalue, (mem_estimates.mp (List.mem_filter.mp hchange).1).2]
  · have hlisted := mem_estimates.mpr ⟨⟨hstored, hused⟩, rfl⟩
    exact absurd rfl (hnone _ (List.mem_filter.mpr
      ⟨hlisted, Std.TreeMap.mem_iff_contains.mp hweight⟩))

end Weights

/-! ## Frequencies -/

variable {s : Learner Rat} {w : Weighting Rat} {p : Symbol}

theorem nonNegative_ofCount (n : Nat) :
    Scalar.nonNegative (Scalar.ofCount n : Rat) = Scalar.ofCount n := by
  unfold Scalar.nonNegative
  split
  · rfl
  · rename_i hpos
    exact le_antisymm (Nat.cast_nonneg n) (not_lt.mp hpos)

/-- The rules of a used parent are weighed by their uses. -/
theorem group_estimate (hscored : s.statistics.Scored) (hmirrors : s.Mirrors)
    (hweighed : s.population.Weighed w) (hused : s.IsUsed p) :
    (w.reweigh s.estimates).group p
      = (entries s.statistics.usages p).map fun entry => (entry.1, (entry.2.uses : Rat)) := by
  have hweights : ∀ r : Rule, r.parent = p → (w.reweigh s.estimates).weights[r]?
      = s.statistics.usages[r]?.map fun u => (u.uses : Rat) := by
    rintro r rfl
    cases hu : s.statistics.usages[r]? with
    | some u =>
        have hstored := (hmirrors r).mp (Statistics.tracks_iff.mpr (Option.isSome_of_eq_some hu))
        rw [weight_estimate hstored hused ((hweighed.mem_weights r).mpr hstored),
          hscored.fitness_eq hu, nonNegative_ofCount, nonNegative_ofCount]
        rfl
    | none =>
        apply Std.TreeMap.getElem?_eq_none
        rw [Weighting.mem_weights_reweigh, hweighed.mem_weights, ← hmirrors r,
          Statistics.tracks_iff, Statistics.usage?, hu]
        exact Bool.false_ne_true
  exact entries_eq_map hweights

/-- What their group weighs is what the statistics count for the parent. -/
theorem total_estimate (hbalanced : s.statistics.Balanced) (hscored : s.statistics.Scored)
    (hmirrors : s.Mirrors) (hweighed : s.population.Weighed w) {side : ParentUsage}
    (hside : s.statistics.parent? p = some side) (hused : 0 < side.uses) :
    (w.reweigh s.estimates).total p = side.uses := by
  have hsum := ParentUsage.getD_sum? (s.statistics.usesOf p)
  rw [← hbalanced p, hside, Option.getD_some] at hsum
  rw [Weighting.total, group_estimate hscored hmirrors hweighed ⟨side, hside, hused⟩,
    Weighting.sum_rat, hsum, Statistics.usesOf, Nat.cast_list_sum, List.map_map, List.map_map]
  rfl

/-- What an estimate makes of a learner: the rules of a used parent have their relative frequencies for
probabilities, those of any other parent keep their weights and probabilities, and no rule comes or goes. -/
structure Frequencies (s t : Learner Rat) : Prop where
  rules : t.population.rules = s.population.rules
  used : ∀ r, s.population.contains r = true → ∃ u side, s.statistics.usage? r = some u
    ∧ s.statistics.parent? r.parent = some side
    ∧ (0 < side.uses → t.population.probability r = u.uses / side.uses)
  unused : ∃ w w', s.population.weighting? = some w ∧ t.population.weighting? = some w'
    ∧ ∀ r : Rule, ¬ s.IsUsed r.parent → w'.weights[r]? = w.weights[r]?
      ∧ w'.probabilities[r]? = w.probabilities[r]?
      ∧ t.population.probability r = s.population.probability r

theorem frequencies_estimate (hbalanced : s.statistics.Balanced) (hscored : s.statistics.Scored)
    (hmirrors : s.Mirrors) (hweighed : s.population.Weighed w) : Frequencies s s.estimate := by
  have hweighting : s.estimate.population.weighting? = some (w.reweigh s.estimates) := by
    show s.population.weighting?.map _ = _
    rw [hweighed.weighting]
    rfl
  refine ⟨rfl, fun r hstored => ?_, w, _, hweighed.weighting, hweighting, fun r hunused => ?_⟩
  · obtain ⟨u, hu⟩ :=
      Option.isSome_iff_exists.mp (Statistics.tracks_iff.mp ((hmirrors r).mpr hstored))
    obtain ⟨side, hside⟩ : ∃ side, s.statistics.parent? r.parent = some side := by
      rw [hbalanced.parent?_eq r, hu]
      exact ⟨_, rfl⟩
    refine ⟨u, side, hu, hside, fun hused => ?_⟩
    have htotal := total_estimate hbalanced hscored hmirrors hweighed hside hused
    have hweight := weight_estimate hstored ⟨side, hside, hused⟩ ((hweighed.mem_weights r).mpr hstored)
    rw [hscored.fitness_eq hu, nonNegative_ofCount, nonNegative_ofCount] at hweight
    have hprobability : s.estimate.population.probability r
        = ((w.reweigh s.estimates).fresh? r).getD 0 := by
      rw [Population.probability, hweighting]
      exact congrArg (·.getD 0) (hweighed.normal.reweigh s.estimates r)
    have hpositive : (0 : Rat) < side.uses := Nat.cast_pos.mpr hused
    rw [hprobability, Weighting.fresh?, hweight, htotal, Option.map_some, Option.getD_some,
      Weighting.share_rat, if_pos hpositive]
    rfl
  · obtain ⟨hsame, hprobabilities⟩ := reweigh_of_unused hunused w
    refine ⟨hsame, hprobabilities, ?_⟩
    rw [Population.probability, Population.probability, hweighting, hweighed.weighting]
    exact congrArg (·.getD 0) hprobabilities

/-- **An estimate gives relative frequencies.**  Whatever has been done with a weighted population and with
statistics by uses that mirror it, as long as fitness was updated after the last use that was counted: the
probability of every rule whose parent was used becomes the share of its uses in those of the parent, and
the rules of all other parents keep their weights and probabilities. -/
theorem estimate_frequencies (population : Population Rat)
    (updates : List (Population.Update Rat)) (before after : List Statistics.Event)
    (hafter : ∀ r label, Statistics.Event.recordUse r label ∉ after)
    (hpopulation : s.population
      = Population.Update.runAll updates population.withUniformWeights)
    (hstatistics : s.statistics
      = Statistics.Event.runAll (before ++ .updateFitness :: after) (.empty .usage))
    (hmirrors : s.Mirrors) : Frequencies s s.estimate := by
  obtain ⟨w, hweighed⟩ := (Population.weighed_withUniformWeights population).updates updates
  rw [← hpopulation] at hweighed
  have hscored := Statistics.scored_runAll (α := Rat) before hafter
  have hbalanced := (Statistics.balanced_known_runAll (α := Rat) .usage
    (before ++ .updateFitness :: after)).1
  rw [← hstatistics] at hscored hbalanced
  exact frequencies_estimate hbalanced hscored hmirrors hweighed

/-- Three uses of a parent are two of one rule and one of the other, whatever the sentences; a parent that
gets a rule after the update was not used, and its rules keep their weights. -/
theorem estimate_frequencies_thirds :
    ∃ s : Learner Rat, s.Mirrors ∧ Frequencies s s.estimate
      ∧ s.population.probability (.pair 1 2 3) = 1 / 2
      ∧ s.estimate.population.probability (.pair 1 2 3) = 2 / 3
      ∧ s.estimate.population.probability (.pair 1 3 2) = 1 / 3
      ∧ s.estimate.population.probability (.pair 2 2 2) = 5 / 6 := by
  let population : Population Rat :=
    .ofRules .standard [.pair 1 2 3, .pair 1 3 2, .terminal 2 (-1)]
  let updates : List (Population.Update Rat) := [.addWithWeight (.pair 2 2 2) 5]
  let before : List Statistics.Event := [.track (.pair 1 2 3), .track (.pair 1 3 2),
    .track (.terminal 2 (-1)), .recordUse (.pair 1 2 3) .positive,
    .recordUse (.pair 1 3 2) .unknown, .recordUse (.pair 1 2 3) .negative]
  let after : List Statistics.Event := [.track (.pair 2 2 2)]
  let s : Learner Rat := ⟨Population.Update.runAll updates population.withUniformWeights,
    Statistics.Event.runAll (before ++ .updateFitness :: after) (.empty .usage),
    .standard .standard 1, .ofSeed 0⟩
  have hafter : ∀ r label, Statistics.Event.recordUse r label ∉ after := by simp [after]
  have hmirrors : s.Mirrors := mirrors_iff_perm.mpr (by decide +kernel)
  have hfrequencies : Frequencies s s.estimate :=
    estimate_frequencies population updates before after hafter rfl rfl hmirrors
  exact ⟨s, hmirrors, hfrequencies, by decide +kernel, by decide +kernel, by decide +kernel,
    by decide +kernel⟩

end Learner

end GrammarInduction
