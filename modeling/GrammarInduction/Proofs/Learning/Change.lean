import GrammarInduction.Learning.Run
import GrammarInduction.Proofs.Learning.Covering

/-!
# What learning consists of

Whatever is done with a learner comes down to a few elementary changes: a rule enters whose body is free,
a rule is expelled, counters and fitness of tracked rules change, rules are reweighed, and supervisor and
generator move on.  So what these changes keep is kept by every operation, also by one that ends in a
fault, and whatever is drawn.

Parsing, breeding and correcting make do with some of them: they trade rules, and leave the counters of
those that stay as they are.

* `Learner.Trade`, `Learner.Change` — the elementary changes;
* `Learner.trades_submit`, `Learner.trades_correct`, `Learner.moves_parse`, `Learner.moves_breed` — the
  operations that trade rules;
* `Learner.usage?_trades` — whoever is tracked after them has the counters of before, or none;
* `Learner.StaysRated`, `Learner.exists_ok_of_staysRated` — where every fitness stays a number there are no
  pair rules that cannot be ranked;
* `Learner.moves_recordUsage`, `Learner.changes_afterPass` — the operations that count and weigh.
-/

namespace GrammarInduction

open Relation

/-- The fitness of a usage is a number: the remembered one if there is one, or else whatever the bounds. -/
def Usage.Rates {α : Type} [Scalar α] (u : Usage α) (function : Fitness α) : Prop :=
  match u.fitness? with
  | some f => Scalar.IsNumber f
  | none => ∀ bounds, Scalar.IsNumber (function.value u bounds)

namespace Learner

open Attempt

variable {α : Type} [Scalar α] {s s' : Learner α}

/-! ## Elementary changes -/

/-- A rule enters or leaves, or supervisor and generator move on. -/
inductive Trade : Learner α → Learner α → Prop
  | enter (s : Learner α) (r : Rule) (free : s.population.rules.displaced? r = none) :
      Trade s (s.enter r)
  | expel (s : Learner α) (r : Rule) : Trade s (s.expel r)
  | turn (s : Learner α) (supervisor : Supervisor) (generator : Generator) :
      Trade s { s with supervisor := supervisor, generator := generator }

/-- An elementary change of a learner. -/
inductive Change : Learner α → Learner α → Prop
  | enter (s : Learner α) (r : Rule) (free : s.population.rules.displaced? r = none) :
      Change s (s.enter r)
  | expel (s : Learner α) (r : Rule) : Change s (s.expel r)
  | use (s : Learner α) (r : Rule) (label : Label) :
      Change s { s with statistics := s.statistics.recordUse r label }
  | reset (s : Learner α) : Change s { s with statistics := s.statistics.resetUsage }
  | score (s : Learner α) : Change s { s with statistics := s.statistics.updateFitness }
  | reweigh (s : Learner α) (weights : List (Rule × α)) :
      Change s { s with population := s.population.reweigh weights }
  | turn (s : Learner α) (supervisor : Supervisor) (generator : Generator) :
      Change s { s with supervisor := supervisor, generator := generator }

/-- One learner comes from another by trading rules. -/
abbrev Trades : Learner α → Learner α → Prop := ReflTransGen Trade

/-- One learner comes from another by elementary changes. -/
abbrev Changes : Learner α → Learner α → Prop := ReflTransGen Change

theorem Trade.change (h : Trade s s') : Change s s' := by
  cases h with
  | enter r free => exact .enter s r free
  | expel r => exact .expel s r
  | turn supervisor generator => exact .turn s supervisor generator

theorem changes_of_trades (h : Trades s s') : Changes s s' :=
  ReflTransGen.mono (fun _ _ => Trade.change) _ _ h

/-- No trade changes the limits. -/
theorem limits_trades (h : Trades s s') : s'.population.limits = s.population.limits := by
  induction h with
  | refl => rfl
  | tail _ htrade ih =>
      rw [← ih]
      cases htrade with
      | enter => exact Population.limits_insert ..
      | expel => exact Population.limits_erase ..
      | turn => rfl

/-- A rule that is tracked after a trade has the counters it had before, or none of its own yet. -/
theorem usage?_trades (h : Trades s s') {r : Rule} {u : Usage α}
    (hu : s'.statistics.usage? r = some u) :
    s.statistics.usage? r = some u ∨ u = Usage.unused := by
  induction h with
  | refl => exact Or.inl hu
  | @tail s₁ s₂ _ htrade ih =>
      cases htrade with
      | enter q free =>
          rw [show (s₁.enter q).statistics = s₁.statistics.track q from rfl,
            Statistics.usage?_track] at hu
          split at hu
          · exact Or.inr (Option.some.inj hu).symm
          · exact ih hu
      | expel q =>
          rw [show (s₁.expel q).statistics = s₁.statistics.untrack q from rfl,
            Statistics.usage?_untrack] at hu
          split at hu
          · cases hu
          · exact ih hu
      | turn => exact ih hu

theorem trades_generator (s : Learner α) (g : Generator) : Trades s { s with generator := g } :=
  .single (.turn s s.supervisor g)

theorem trades_refreshElite {s' : Learner α} (h : s.refreshElite = .ok s') : Trades s s' := by
  obtain ⟨elite, rfl⟩ := exists_elite_of_refreshElite h
  exact .single (.turn s _ s.generator)

theorem trades_foldl_expel (rules : List Rule) (s : Learner α) :
    Trades s (rules.foldl expel s) := by
  induction rules generalizing s with
  | nil => exact .refl
  | cons r rules ih => exact .head (.expel s r) (ih (s.expel r))

theorem trades_correct (s : Learner α) : Trades s s.correct.2 :=
  (trades_foldl_expel _ s).trans (trades_foldl_expel _ _)

/-! ## Submissions -/

theorem displaced?_expel {r old : Rule} (h : s.population.rules.displaced? r = none ∨
    s.population.rules.displaced? r = some old) :
    (s.expel old).population.rules.displaced? r = none := by
  rw [expel, Population.rules_erase]
  exact RuleSet.displaced?_erase h

theorem trades_settle {r : Rule} {old? : Option Rule}
    (h : s.population.rules.displaced? r = none ∨ s.population.rules.displaced? r = old?) :
    Trades s (settle r old? s).2 := by
  cases old? with
  | none => exact .single (.enter s r (h.elim id id))
  | some old => exact .head (.expel s old) (.single (.enter _ r (displaced?_expel h)))

/-- A submission makes room where the body is held, or else may look for a rule to remove. -/
theorem trades_submit (r : Rule) (h : Hint) (s : Learner α) : Trades s (submit r h s).2 := by
  cases hnew : s.population.contains r with
  | true => rw [submit_stored hnew]
  | false =>
      rcases exists_settle_of_submit hnew h with ⟨e, -, hsubmit⟩
        | ⟨old?, elite, g, s', rfl, hsubmit, -, hroom⟩
      · rw [hsubmit]
      · rw [hsubmit]
        exact .head (.turn s _ g) (trades_settle (hroom.imp_right And.left))

/-! ## Fitness that stays a number -/

/-- Whatever rules are traded, every stored rule has a fitness that is a number. -/
def StaysRated (s : Learner α) : Prop := ∀ s', Trades s s' → s'.Rated

/-- Trades can end in no fault but that of pair rules that cannot be ranked, so they end in none where every
fitness stays a number. -/
theorem exists_ok_of_staysRated {β : Type} {m : Attempt (Learner α) β}
    {post : β → Learner α → Prop} (hmoves : Moves Trade m) (h : Ensures m s FailsToRank post)
    (hrated : s.StaysRated) : ∃ b s', m s = (.ok b, s') ∧ post b s' := by
  refine ((h.and (hmoves s)).mono (fun e s' hfault => ?_) fun b s' hpost => hpost.1).exists_ok
  exact hfault.1.2.not_rated (hrated s' hfault.2)

theorem function_trades (h : Trades s s') : s'.statistics.function = s.statistics.function := by
  induction h with
  | refl => rfl
  | tail _ htrade ih =>
      rw [← ih]
      cases htrade with
      | enter => exact Statistics.function_track ..
      | expel => exact Statistics.function_untrack ..
      | turn => rfl

theorem rates_trades (h : Trades s s') {function : Fitness α}
    (hunused : Usage.unused.Rates function)
    (hrates : ∀ r, ∀ u ∈ s.statistics.usage? r, u.Rates function) :
    ∀ r, ∀ u ∈ s'.statistics.usage? r, u.Rates function := by
  intro r u hu
  rcases usage?_trades h hu with hbefore | rfl
  · exact hrates r u hbefore
  · exact hunused

/-- Counters whose fitness is remembered, or a number wherever the bounds are, leave no fitness that is
not. -/
theorem staysRated (hunused : Usage.unused.Rates s.statistics.function)
    (hrates : ∀ r, ∀ u ∈ s.statistics.usage? r, u.Rates s.statistics.function) : s.StaysRated := by
  intro s' htrades r _
  have hafter := rates_trades htrades hunused hrates r
  rw [Statistics.fitness, function_trades htrades]
  change ∀ u ∈ s'.statistics.usages[r]?, u.Rates s.statistics.function at hafter
  cases husage : s'.statistics.usages[r]? with
  | none => exact hunused _
  | some u =>
      have hu := hafter u husage
      unfold Usage.Rates at hu
      dsimp only
      cases hfitness : u.fitness? with
      | none =>
          rw [hfitness] at hu
          exact hu _
      | some f =>
          rw [hfitness] at hu
          exact hu

/-- A learner that has counted no use. -/
theorem staysRated_ofPopulation {function : Fitness α} (hunused : Usage.unused.Rates function)
    (p : Population α) (supervisor : Supervisor) (g : Generator) :
    (ofPopulation p function supervisor g).StaysRated := by
  have hfunction := Statistics.function_ofRules function p.rules.rules
  have hunused' : Usage.unused.Rates (ofPopulation p function supervisor g).statistics.function := by
    rw [ofPopulation, hfunction]
    exact hunused
  refine staysRated hunused' fun r u hu => ?_
  rw [Statistics.eq_unused_of_ofRules hu]
  exact hunused'

/-! ## Parses and breeding -/

theorem moves_attempt {β : Type} (d : Attempt Generator β) : Moves Trade (attempt (α := α) d) := by
  intro s
  rw [ensures_attempt]
  unfold Ensures
  split
  · exact trades_generator s _
  · exact trades_generator s _

theorem moves_submit (r : Rule) (h : Hint) : Moves Trade (submit (α := α) r h) := by
  intro s
  have htrades := trades_submit r h s
  unfold Ensures
  split <;> rename_i hsubmit <;> rw [hsubmit] at htrades <;> exact htrades

theorem moves_renewElite : Moves Trade (renewElite (α := α)) := by
  intro s
  unfold Ensures
  rw [renewElite_apply]
  cases hrefreshed : s.refreshElite with
  | ok s' => exact trades_refreshElite hrefreshed
  | error e => exact .refl

theorem moves_coverWith (coverage : Coverage α) (site : CoverageSite) (t : Table α) (pool : Pool α)
    (kind : CoverageKind) : Moves Trade (coverWith coverage site t pool kind) := by
  unfold coverWith
  apply moves_get.bind
  intro s
  apply (moves_attempt _).bind
  intro found
  cases found with
  | none => exact moves_pure none
  | some invented =>
      apply (moves_submit _ _).bind
      intro _
      apply (moves_except _).bind
      intro inside
      apply moves_get.bind
      intro s
      exact moves_pure _

theorem moves_coverFirst (coverage : Coverage α) (site : CoverageSite) (t : Table α) (pool : Pool α)
    (kinds : List CoverageKind) : Moves Trade (coverFirst coverage site t pool kinds) := by
  induction kinds with
  | nil => exact moves_pure pool
  | cons kind kinds ih =>
      apply (moves_coverWith coverage site t pool kind).bind
      intro covered
      cases covered with
      | none => exact ih
      | some pool => exact moves_pure pool

theorem moves_coverLeaf (coverage : Coverage α) (start : Symbol) (w : Sentence) (t : Table α)
    (col : Nat) (terminal : Symbol) (pool : Pool α) :
    Moves Trade (coverLeaf coverage start w t col terminal pool) := by
  rw [coverLeaf_eq]
  apply Moves.bind
  · split
    · apply moves_coverFirst
    · exact moves_pure pool
  · intro pool
    split
    · apply moves_coverFirst
    · exact moves_pure pool

theorem moves_coverSplit (coverage : Coverage α) (start : Symbol) (w : Sentence) (t : Table α)
    (row : Nat) (pool : Pool α) : Moves Trade (coverSplit coverage start w t row pool) := by
  unfold coverSplit
  dsimp only
  split
  · exact moves_pure pool
  · split
    · apply moves_coverFirst
    · split
      · apply moves_coverFirst
      · exact moves_pure pool

theorem moves_coveredPool (coverage : Coverage α) (start : Symbol) (w : Sentence) (t : Table α)
    (row col : Nat) : Moves Trade (coveredPool coverage start w t row col) := by
  unfold coveredPool
  apply moves_get.bind
  intro s
  apply (moves_except _).bind
  intro pool
  split
  · apply moves_coverLeaf
  · exact moves_pure pool
  · apply moves_coverSplit

theorem moves_parse (coverage : Coverage α) (w : Sentence) : Moves Trade (parse coverage w) := by
  unfold parse
  apply moves_get.bind
  intro s
  apply (Table.moves_fill (moves_coveredPool coverage _ w) w.length).bind
  intro t
  exact moves_pure _

theorem moves_submitAll (hint : Hint) (rules : List Rule) (report : BreedingReport) :
    Moves Trade (submitAll (α := α) hint rules report) := by
  induction rules generalizing report with
  | nil => exact moves_pure report
  | cons r rules ih => exact (moves_submit r hint).bind fun outcome => ih (report.count outcome)

theorem moves_breed (plan : BreedingPlan α) : Moves Trade (breed plan) := by
  unfold breed
  apply moves_get.bind
  intro s
  dsimp only
  split
  · exact moves_pure _
  · apply (moves_attempt _).bind
    intro selected
    apply moves_renewElite.bind
    intro _
    apply (moves_attempt _).bind
    intro offspring
    exact moves_submitAll _ _ _

/-! ## Uses -/

/-- A rule that is not tracked is passed over, so the uses of a list are recorded one by one. -/
theorem recordUses_cons (label : Label) (r : Rule) (rules : List Rule) (s : Learner α) :
    (recordUses label (r :: rules) s).2
      = (recordUses label rules { s with statistics := s.statistics.recordUse r label }).2 := by
  rw [recordUses, Statistics.recordUse]
  cases s.statistics.recordUse? r label <;> rfl

theorem changes_recordUses (label : Label) (rules : List Rule) (s : Learner α) :
    Changes s (recordUses label rules s).2 := by
  induction rules generalizing s with
  | nil => exact .refl
  | cons r rules ih =>
      rw [recordUses_cons]
      exact .head (.use s r label) (ih _)

theorem moves_recordUsage (variant : Variant) (outcome : Parse α) :
    Moves Change (variant.recordUsage outcome) := by
  unfold Variant.recordUsage
  split
  · apply moves_get.bind
    intro s
    apply (moves_except _).bind
    intro rules
    exact moves_state (changes_recordUses outcome.label rules)
  · exact moves_pure 0

theorem changes_afterPass (variant : Variant) (s : Learner α) :
    Changes s (variant.afterPass s) := by
  cases variant with
  | plain => exact .refl
  | weighted => exact .single (.reweigh s s.estimates)

end Learner

end GrammarInduction
