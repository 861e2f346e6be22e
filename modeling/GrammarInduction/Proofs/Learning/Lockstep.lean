import GrammarInduction.Proofs.Learning.Change

/-!
# Population and statistics in lockstep

The statistics of a learner track the rules that its population stores.  Every elementary change keeps
it so: what enters is tracked, what is expelled is not, and counters come and go with no rule.  So it
holds after any sequence of operations, with any supervisor and any draws, and after faults.

* `Learner.Mirrors` — the rules tracked are the rules stored;
* `Learner.Mirrors.change` — every elementary change keeps this;
* `Learner.Operation`, `Learner.changes_runAll` — what may be done with a learner from outside comes down
  to elementary changes;
* `Learner.lockstep_of_operations` — the statistics mirror the population after all of it.
-/

namespace GrammarInduction.Learner

variable {α : Type}

/-- The statistics track the rules that are stored. -/
def Mirrors (s : Learner α) : Prop :=
  ∀ r, s.statistics.tracks r = true ↔ s.population.contains r = true

/-- The rules tracked are the rules stored, but for their order. -/
theorem mirrors_iff_perm {s : Learner α} :
    s.Mirrors ↔ s.statistics.usages.keys.Perm s.population.rules.rules := by
  rw [List.perm_ext_iff_of_nodup Std.TreeMap.nodup_keys (RuleSet.nodup_rules _)]
  refine forall_congr' fun r => ?_
  rw [Std.TreeMap.mem_keys, Std.TreeMap.mem_iff_contains, RuleSet.mem_rules, ← RuleSet.contains_iff]
  exact Iff.rfl

/-- Who tracks the rules that are stored tracks as many as are stored. -/
theorem Mirrors.size_eq {s : Learner α} (h : s.Mirrors) :
    s.statistics.size = s.population.rules.size := by
  rw [Statistics.size, ← Std.TreeMap.length_keys, (mirrors_iff_perm.mp h).length_eq,
    RuleSet.length_rules]

variable [Scalar α] {s s' : Learner α}

/-- A learner that starts from a population tracks its rules. -/
theorem mirrors_ofPopulation (population : Population α) (function : Fitness α)
    (supervisor : Supervisor) (g : Generator) :
    (ofPopulation population function supervisor g).Mirrors := by
  intro r
  exact Statistics.tracks_ofRules.trans (RuleSet.mem_rules.trans RuleSet.contains_iff.symm)

/-! ## One change -/

/-- Where its body is free, a rule that enters is stored besides all others. -/
theorem contains_enter {r q : Rule} (free : s.population.rules.displaced? r = none) :
    (s.enter r).population.contains q = true ↔ q = r ∨ s.population.contains q = true :=
  Population.contains_insertWithWeight.trans
    (RuleSet.contains_insert.symm.trans (RuleSet.contains_insert_of_free free))

theorem contains_expel {r q : Rule} :
    (s.expel r).population.contains q = true ↔ s.population.contains q = true ∧ q ≠ r :=
  Population.contains_erase

/-- A rule enters on both sides; as its body is free, no rule leaves. -/
theorem Mirrors.enter (h : s.Mirrors) {r : Rule}
    (free : s.population.rules.displaced? r = none) : (s.enter r).Mirrors := by
  intro q
  have htracked : (s.enter r).statistics.tracks q = true ↔ q = r ∨ s.population.contains q = true :=
    Statistics.tracks_track.trans (or_congr_right (h q))
  rw [htracked, contains_enter free]

/-- A rule that is expelled leaves on both sides. -/
theorem Mirrors.expel (h : s.Mirrors) (r : Rule) : (s.expel r).Mirrors := by
  intro q
  have htracked : (s.expel r).statistics.tracks q = true ↔ s.statistics.tracks q = true ∧ q ≠ r :=
    Statistics.tracks_untrack
  rw [htracked, contains_expel, h q]

/-- Every elementary change keeps population and statistics in lockstep. -/
theorem Mirrors.change (h : s.Mirrors) (hchange : Change s s') : s'.Mirrors := by
  cases hchange with
  | enter r free => exact h.enter free
  | expel r => exact h.expel r
  | use r label =>
      intro q
      rw [Statistics.tracks_recordUse]
      exact h q
  | reset =>
      intro q
      rw [Statistics.tracks_resetUsage]
      exact h q
  | score =>
      intro q
      rw [Statistics.tracks_updateFitness]
      exact h q
  | reweigh weights => exact h
  | turn supervisor generator => exact h

theorem Mirrors.changes (h : s.Mirrors) (hchanges : Changes s s') : s'.Mirrors := by
  induction hchanges with
  | refl => exact h
  | tail _ hchange ih => exact ih.change hchange

/-! ## Any sequence of operations -/

/-- What may be done with a learner from outside. -/
inductive Operation (α : Type) where
  | submit (r : Rule) (hint : Hint)
  | correct
  | parse (coverage : Coverage α) (w : Sentence)
  | recordUsage (variant : Variant) (outcome : Parse α)
  | breed (plan : BreedingPlan α)
  | afterPass (variant : Variant)
  | resetUsage
  | updateFitness
  /-- Another supervisor takes over, with any strategies and any elite. -/
  | supervise (supervisor : Supervisor)
  /-- The draws that follow come from another generator. -/
  | reseed (generator : Generator)

/-- What becomes of a learner, whether the operation has a result or ends in a fault. -/
def Operation.run : Operation α → Learner α → Learner α
  | submit r hint, s => (Learner.submit r hint s).2
  | correct, s => s.correct.2
  | parse coverage w, s => (Learner.parse coverage w s).2
  | recordUsage variant outcome, s => (variant.recordUsage outcome s).2
  | breed plan, s => (Learner.breed plan s).2
  | afterPass variant, s => variant.afterPass s
  | resetUsage, s => { s with statistics := s.statistics.resetUsage }
  | updateFitness, s => { s with statistics := s.statistics.updateFitness }
  | supervise supervisor, s => { s with supervisor := supervisor }
  | reseed generator, s => { s with generator := generator }

/-- Every operation consists of elementary changes. -/
theorem changes_run (op : Operation α) (s : Learner α) : Changes s (op.run s) := by
  cases op with
  | submit r hint => exact changes_of_trades (trades_submit r hint s)
  | correct => exact changes_of_trades (trades_correct s)
  | parse coverage w => exact changes_of_trades ((moves_parse coverage w).reaches s)
  | recordUsage variant outcome => exact (moves_recordUsage variant outcome).reaches s
  | breed plan => exact changes_of_trades ((moves_breed plan).reaches s)
  | afterPass variant => exact changes_afterPass variant s
  | resetUsage => exact .single (.reset s)
  | updateFitness => exact .single (.score s)
  | supervise supervisor => exact .single (.turn s supervisor s.generator)
  | reseed generator => exact .single (.turn s s.supervisor generator)

/-- What becomes of a learner by operations in turn. -/
def Operation.runAll (ops : List (Operation α)) (s : Learner α) : Learner α :=
  ops.foldl (fun s op => op.run s) s

theorem changes_runAll (ops : List (Operation α)) (s : Learner α) :
    Changes s (Operation.runAll ops s) := by
  induction ops generalizing s with
  | nil => exact .refl
  | cons op ops ih => exact (changes_run op s).trans (ih (op.run s))

/-- **Population and statistics stay in lockstep**: whatever sequence of operations a learner has gone
through since it was made from a population, the statistics track the rules that are stored, and as
many. -/
theorem lockstep_of_operations (p : Population α) (function : Fitness α) (supervisor : Supervisor)
    (g : Generator) (ops : List (Operation α)) :
    (Operation.runAll ops (ofPopulation p function supervisor g)).Mirrors
      ∧ (Operation.runAll ops (ofPopulation p function supervisor g)).statistics.size
        = (Operation.runAll ops (ofPopulation p function supervisor g)).population.rules.size := by
  have hfirst := mirrors_ofPopulation p function supervisor g
  have hmirrors := hfirst.changes (changes_runAll ops _)
  exact ⟨hmirrors, hmirrors.size_eq⟩

end GrammarInduction.Learner
