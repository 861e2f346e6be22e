import GrammarInduction.Proofs.Grammar.Weighting
import GrammarInduction.Proofs.Learning.Lockstep
import GrammarInduction.Proofs.Scalar.Sum

/-!
# What the outcome of a submission tells

A submission answers with an outcome, and the outcome tells all that has become of the grammar.  A rule
that existed changes nothing at all.  A rule that is new enters without counters, one rule of its arity at
most makes way for it, and the other rules keep their counters, and their probabilities too unless they
share a parent with one of these two.  This asks nothing of the strategies, the elite and the draws.

* `Population.probability_insert`, `Population.probability_erase` — the probabilities of other parents;
* `Learner.Settled` — a newcomer has come in, perhaps in the place of another rule;
* `Learner.settled_settle` — settling does so, with nothing else changed;
* `Learner.submit_outcome` — the outcome of a submission and what it tells.
-/

namespace GrammarInduction

variable {α : Type} [Scalar α] {r q old : Rule}

/-- Rules are of one arity if both are terminal, or neither is. -/
theorem Rule.arity_eq (h : old.isTerminal = r.isTerminal) : old.arity = r.arity := by
  obtain ⟨x, _ | _⟩ := r <;> obtain ⟨y, _ | _⟩ := old <;> first | rfl | cases h

/-- The rule that made way, by what an outcome reports. -/
def Outcome.removed? : Outcome → Option Rule
  | replaced old => some old
  | _ => none

namespace Population

variable {p : Population α}

/-- A rule that leaves is of no account to the probabilities of other parents' rules. -/
theorem probability_erase (h : q.parent ≠ r.parent) (p : Population α) :
    (p.erase r).probability q = p.probability q := by
  cases hstored : p.contains r with
  | false => rw [erase_of_not_contains hstored]
  | true =>
      rw [probability, probability, weighting?_erase hstored]
      cases p.weighting? with
      | none => rfl
      | some w => exact w.probability_remove h

/-- Nor is a rule that comes in, where its body is free. -/
theorem probability_insert (free : p.rules.displaced? r = none) (h : q.parent ≠ r.parent) :
    (p.insert r).probability q = p.probability q := by
  have hroom : p.makeRoom r = p := by
    rw [makeRoom, free]
    cases p.weighting? <;> rfl
  have hweighting : (p.insert r).weighting? = p.weighting?.map (·.set r (p.newcomerWeight r)) := by
    rw [insert, insertWithWeight, addWithWeight, hroom]
  rw [probability, probability, hweighting]
  cases p.weighting? with
  | none => rfl
  | some w => exact w.probability_set h _

end Population

namespace Learner

variable {s s' : Learner α} {old? : Option Rule}

/-- A newcomer has settled, in the place of another rule if one is given. -/
structure Settled (r : Rule) (old? : Option Rule) (s s' : Learner α) : Prop where
  /-- The newcomer is stored besides all rules but the one that made way. -/
  stored : ∀ q, s'.population.contains q = true
    ↔ q = r ∨ s.population.contains q = true ∧ q ∉ old?
  /-- It is tracked with zero counters. -/
  fresh : s'.statistics.usage? r = some Usage.unused
  /-- All that are left have the counters that they had. -/
  kept : ∀ q, q ≠ r → q ∉ old? → s'.statistics.usage? q = s.statistics.usage? q
  /-- So it is with the probabilities of other parents' rules. -/
  apart : ∀ q : Rule, q.parent ≠ r.parent → (∀ old ∈ old?, q.parent ≠ old.parent) →
    s'.population.probability q = s.population.probability q

/-! ## One newcomer -/

/-- A rule that is not tracked enters with zero counters. -/
theorem settled_enter (hnew : s.statistics.tracks r = false)
    (free : s.population.rules.displaced? r = none) : Settled r none s (s.enter r) where
  stored q := by
    rw [contains_enter free]
    exact or_congr_right (and_iff_left (Option.not_mem_none q)).symm
  fresh := (Statistics.usage?_track ..).trans (if_pos ⟨rfl, hnew⟩)
  kept q hq _ := (Statistics.usage?_track ..).trans (if_neg fun hand => hq hand.1)
  apart _ hparent _ := Population.probability_insert free hparent

/-- A newcomer for which a rule was expelled takes its place. -/
theorem Settled.expelled (h : Settled r none (s.expel old) s') : Settled r (some old) s s' where
  stored q := by
    rw [h.stored, contains_expel, Option.mem_some_iff]
    simp only [Option.not_mem_none, not_false_eq_true, and_true, ne_comm (a := q), ne_eq]
  fresh := h.fresh
  kept q hq hold := by
    have hne : q ≠ old := fun heq => hold (congrArg some heq.symm)
    rw [h.kept q hq (Option.not_mem_none q)]
    exact (Statistics.usage?_untrack ..).trans (if_neg hne)
  apart q hparent hold := by
    rw [h.apart q hparent fun _ hnone => absurd hnone (Option.not_mem_none _)]
    exact Population.probability_erase (hold old rfl) s.population

/-- Supervisor and generator have no part in it. -/
theorem Settled.turned {supervisor : Supervisor} {g : Generator}
    (h : Settled r old? { s with supervisor := supervisor, generator := g } s') :
    Settled r old? s s' where
  stored := h.stored
  fresh := h.fresh
  kept := h.kept
  apart := h.apart

/-- **Settling brings in the newcomer and removes the given rule**, and nothing else moves. -/
theorem settled_settle (hmirrors : s.Mirrors) (hnew : s.population.contains r = false)
    (hroom : s.population.rules.displaced? r = none ∨ s.population.rules.displaced? r = old?) :
    Settled r old? s (settle r old? s).2 := by
  have huntracked : s.statistics.tracks r = false := by
    rw [← Bool.not_eq_true, hmirrors r, hnew]
    exact Bool.false_ne_true
  cases old? with
  | none => exact settled_enter huntracked (hroom.elim id id)
  | some old =>
      apply Settled.expelled
      apply settled_enter
      · rw [← Bool.not_eq_true] at huntracked ⊢
        exact fun htracked => huntracked (Statistics.tracks_untrack.mp htracked).1
      · exact displaced?_expel hroom

/-! ## A submission -/

/-- A learner in which every stored rule has a fitness that is a number answers every submission. -/
theorem Rated.exists_outcome [StrictScalar α] (hrated : s.Rated) (r : Rule) (h : Hint) :
    ∃ outcome, (submit r h s).1 = .ok outcome := by
  cases hended : (submit r h s).1 with
  | ok outcome => exact ⟨outcome, rfl⟩
  | error e => exact absurd hrated (disordered_of_submit hended).2.1.not_rated

/-- **A submission of a new rule settles it**, and reports the rule that made way, if any did. -/
theorem settled_submit (hmirrors : s.Mirrors) (hnew : s.population.contains r = false) {h : Hint}
    {outcome : Outcome} (hended : (submit r h s).1 = .ok outcome) :
    outcome ≠ .existing
      ∧ Settled r outcome.removed? s (submit r h s).2
      ∧ ∀ old ∈ outcome.removed?, s.population.contains old = true ∧ old.arity = r.arity := by
  rcases exists_settle_of_submit hnew h with ⟨e, -, hsubmit⟩
    | ⟨old?, elite, g, s', rfl, hsubmit, hstored, hroom⟩
  · rw [hsubmit] at hended
    cases hended
  rw [hsubmit] at hended ⊢
  cases hended
  have hremoved : (settle r old? { s with
      supervisor := { s.supervisor with elite := elite }, generator := g }).1.removed? = old? := by
    cases old? <;> rfl
  rw [hremoved]
  refine ⟨?_, ?_, ?_⟩
  · cases old? <;> nofun
  · apply Settled.turned
    exact settled_settle hmirrors hnew (hroom.imp_right And.left)
  · intro old hold
    exact (hstored old hold).imp_right Rule.arity_eq

/-- **A rule with the newcomer's body makes way**, and then nothing is drawn. -/
theorem submit_held (hheld : s.population.rules.displaced? r = some old) {h : Hint}
    {outcome : Outcome} (hended : (submit r h s).1 = .ok outcome) :
    outcome = .replaced old ∧ (submit r h s).2.generator = s.generator := by
  have hnew : s.population.contains r = false := by
    obtain ⟨-, hparent, howner⟩ := RuleSet.displaced?_eq_some_iff.mp hheld
    rw [← Bool.not_eq_true, Population.contains, RuleSet.contains_iff, howner, Option.some.injEq]
    exact hparent
  rcases exists_settle_of_submit hnew h with ⟨e, -, hsubmit⟩
    | ⟨old?, elite, g, s', rfl, hsubmit, -, hroom⟩
  · rw [hsubmit] at hended
    cases hended
  rw [hheld] at hroom
  obtain ⟨rfl, rfl⟩ := hroom.resolve_left (Option.some_ne_none old)
  rw [hsubmit] at hended ⊢
  cases hended
  exact ⟨rfl, rfl⟩

/-- **A submission does what its outcome says.**  Whatever the strategies, the elite, the hint and the
draws, a rule is reported to exist exactly if it was stored, and then nothing has changed; it is reported
inserted if it has come in besides all others, and in the place of a rule only if this was stored and of
the same arity.  A rule with its body under another parent is replaced, and then nothing is drawn.  There is
an outcome wherever every fitness is a number; if there is none, pair rules could not be ranked, and nothing
has changed. -/
theorem submit_outcome [StrictScalar α] (hmirrors : s.Mirrors) (r : Rule) (h : Hint) :
    ((submit r h s).1 = .ok .existing ↔ s.population.contains r = true)
      ∧ ((submit r h s).1 = .ok .existing → (submit r h s).2 = s)
      ∧ ((submit r h s).1 = .ok .inserted → Settled r none s (submit r h s).2)
      ∧ (∀ old, (submit r h s).1 = .ok (.replaced old) →
        s.population.contains old = true ∧ old.arity = r.arity
          ∧ Settled r (some old) s (submit r h s).2)
      ∧ (∀ holder, holder ≠ r.parent → s.population.rules.owner? r.body = some holder →
        ∀ outcome, (submit r h s).1 = .ok outcome →
          outcome = .replaced ⟨holder, r.body⟩ ∧ (submit r h s).2.generator = s.generator)
      ∧ (s.Rated → ∃ outcome, (submit r h s).1 = .ok outcome)
      ∧ ∀ e, (submit r h s).1 = .error e →
        e = .disorder ∧ s.Disordered ∧ (submit r h s).2 = s := by
  have hholder : ∀ holder, holder ≠ r.parent → s.population.rules.owner? r.body = some holder →
      ∀ outcome, (submit r h s).1 = .ok outcome →
        outcome = .replaced ⟨holder, r.body⟩ ∧ (submit r h s).2.generator = s.generator := by
    intro holder hother howner outcome hended
    have hheld : s.population.rules.displaced? r = some ⟨holder, r.body⟩ :=
      RuleSet.displaced?_eq_some_iff.mpr ⟨rfl, hother, howner⟩
    exact submit_held hheld hended
  have hends : (s.Rated → ∃ outcome, (submit r h s).1 = .ok outcome)
      ∧ ∀ e, (submit r h s).1 = .error e → e = .disorder ∧ s.Disordered ∧ (submit r h s).2 = s :=
    ⟨fun hrated => hrated.exists_outcome r h, fun _ => disordered_of_submit⟩
  cases hnew : s.population.contains r with
  | true =>
      rw [submit_stored hnew] at hholder hends ⊢
      exact ⟨by simp, fun _ => rfl, nofun, nofun, hholder, hends⟩
  | false =>
      have hnot : (submit r h s).1 ≠ .ok .existing :=
        fun hended => (settled_submit hmirrors hnew hended).1 rfl
      refine ⟨by simp [hnot], fun hended => absurd hended hnot, ?_, ?_, hholder, hends⟩
      · intro hended
        exact (settled_submit hmirrors hnew hended).2.1
      · intro old hended
        obtain ⟨-, hsettled, hremoved⟩ := settled_submit hmirrors hnew hended
        obtain ⟨hstored, harity⟩ := hremoved old rfl
        exact ⟨hstored, harity, hsettled⟩

/-- A learner at its limit, with three rules of equal weights within each parent's. -/
def crowded : Learner Rat :=
  ofPopulation
    (.withUniformWeights (.ofRules ⟨1, none, 20, 2, 0⟩ [.pair 1 2 3, .pair 5 6 7, .terminal 2 (-1)]))
    .usage (.standard .standard 1) (.ofSeed 0)

/-- A newcomer with the body of a stored rule takes its place at the limit, too. -/
theorem submit_outcome_overwrite :
    crowded.Mirrors ∧ (submit (.pair 4 2 3) .expand crowded).1 = .ok (.replaced (.pair 1 2 3))
      ∧ (submit (.pair 4 2 3) .expand crowded).2.generator = crowded.generator
      ∧ crowded.population.contains (.pair 1 2 3) = true
      ∧ Settled (.pair 4 2 3) (some (.pair 1 2 3)) crowded
        (submit (.pair 4 2 3) .expand crowded).2 := by
  have hmirrors : crowded.Mirrors := mirrors_ofPopulation _ _ _ _
  obtain ⟨-, -, -, hreplaced, hheld, hends, -⟩ := submit_outcome hmirrors (.pair 4 2 3) .expand
  obtain ⟨outcome, hended⟩ := hends fun _ _ => Rat.le_refl
  obtain ⟨rfl, hgenerator⟩ := hheld 1 (by decide) (by decide +kernel) outcome hended
  obtain ⟨hstored, -, hsettled⟩ := hreplaced _ hended
  exact ⟨hmirrors, hended, hgenerator, hstored, hsettled⟩

end Learner

end GrammarInduction
