import GrammarInduction.Proofs.Insertion.Crowding
import GrammarInduction.Proofs.Learning.Correction
import GrammarInduction.Proofs.Learning.Submission

/-!
# The grammar stays bounded

Below its limit the grammar may grow.  At the limit a newcomer takes the place of a rule of its arity,
so the count of pair rules stays as it is, unless there is nothing to evict: with every pair rule in the
elite, crowding that spares the elite has no candidate, and inserts.  Then the elite is all there is, and
the grammar has one rule more than the elite may have.

* `RuleSet.pairCount_erase` — a stored pair rule that leaves is one less;
* `Learner.pairCount_apply_le` — crowding grows the grammar only if all pair rules are spared;
* `Learner.pairCount_submit_le` — one submission;
* `Learner.pairCount_le_of_events` — any sequence of submissions and corrections.
-/

namespace GrammarInduction

/-- A set with no rules but those of another has no more pair rules. -/
theorem RuleSet.pairCount_mono {s s' : RuleSet}
    (h : ∀ r, s'.contains r = true → s.contains r = true) : s'.pairCount ≤ s.pairCount := by
  rw [← length_pairRules, ← length_pairRules]
  refine s'.nodup_pairRules.length_le_of_subset fun r hr => ?_
  obtain ⟨hmem, hpair⟩ := mem_pairRules.mp hr
  refine mem_pairRules.mpr ⟨mem_rules.mpr ?_, hpair⟩
  exact contains_iff.mp (h r (contains_iff.mpr (mem_rules.mp hmem)))

/-- The rules that are left are all but the one that leaves. -/
theorem RuleSet.perm_erase {s : RuleSet} {old : Rule} (hstored : s.contains old = true) :
    (old :: (s.erase old).rules).Perm s.rules := by
  have hmem : ∀ r, r ∈ (s.erase old).rules ↔ r ∈ s.rules ∧ r ≠ old := by
    intro r
    rw [mem_rules, mem_rules, ← contains_iff, ← contains_iff, contains_erase]
  have hfresh : old ∉ (s.erase old).rules := fun hold => ((hmem old).mp hold).2 rfl
  have hnodup : (old :: (s.erase old).rules).Nodup := List.nodup_cons.mpr ⟨hfresh, nodup_rules _⟩
  apply (List.perm_ext_iff_of_nodup hnodup s.nodup_rules).mpr
  intro r
  rw [List.mem_cons, hmem]
  by_cases heq : r = old
  · subst heq
    simp only [true_or, true_iff]
    exact mem_rules.mpr (contains_iff.mp hstored)
  · simp only [heq, false_or, ne_eq, not_false_eq_true, and_true]

/-- A stored pair rule that leaves is one less, and a stored terminal rule none. -/
theorem RuleSet.pairCount_erase {s : RuleSet} {old : Rule} (hstored : s.contains old = true) :
    (s.erase old).pairCount + (if old.isTerminal then 0 else 1) = s.pairCount := by
  have hcount := (perm_erase hstored).countP_eq fun r => !r.isTerminal
  rw [List.countP_cons, List.countP_eq_length_filter, List.countP_eq_length_filter, ← pairRules_eq,
    ← pairRules_eq, length_pairRules, length_pairRules] at hcount
  cases hterminal : old.isTerminal with
  | true => simpa [hterminal] using hcount
  | false => simpa [hterminal] using hcount

namespace Learner

variable {α : Type} [Scalar α] {s : Learner α} {r : Rule} {c : Crowding} {size : Nat}

/-! ## One strategy -/

/-- A newcomer for which no rule makes way is one more pair rule at most. -/
theorem pairCount_settle_none (r : Rule) (s : Learner α) :
    (settle r none s).2.population.rules.pairCount
      ≤ s.population.rules.pairCount + if r.isTerminal then 0 else 1 :=
  RuleSet.pairCount_le (Population.owner?_insert s.population r)

/-- A newcomer for which a rule of its arity makes way is no more. -/
theorem pairCount_settle_some {old : Rule} (hstored : s.population.contains old = true)
    (harity : old.isTerminal = r.isTerminal) :
    (settle r (some old) s).2.population.rules.pairCount ≤ s.population.rules.pairCount := by
  have hless := RuleSet.pairCount_erase hstored
  have hmore := RuleSet.pairCount_le (Population.owner?_insert (s.population.erase old) r)
  rw [Population.rules_erase] at hmore
  rw [harity] at hless
  exact Nat.le_trans hmore (Nat.le_of_eq hless)

omit [Scalar α] in
/-- Where a pair rule has no candidate to compete with, every pair rule is spared. -/
theorem pairCount_le_length_spared {spared : List Rule} (hpair : r.isTerminal = false)
    (hempty : s.candidates r spared = []) : s.population.rules.pairCount ≤ spared.length := by
  rw [← RuleSet.length_pairRules]
  refine s.population.rules.nodup_pairRules.length_le_of_subset fun x hx => ?_
  obtain ⟨hmem, hpair'⟩ := RuleSet.mem_pairRules.mp hx
  by_contra hfree
  have hcandidate := mem_candidates.mpr ⟨hmem, hpair'.trans hpair.symm, hfree⟩
  rw [hempty] at hcandidate
  cases hcandidate

/-- **Crowding grows the grammar only if all pair rules are spared**, and then there are no more of them
than are spared. -/
theorem pairCount_apply_le (hfactor : 1 ≤ c.factor) (hsize : 1 ≤ c.size) (strategy : Strategy)
    (elite spared : List Rule) (hvictim : (victim strategy elite r s).1
      = (c.victim s.statistics.fitness (s.candidates r spared) r s.generator).1) :
    (apply strategy elite r s).2.population.rules.pairCount
      ≤ max s.population.rules.pairCount (spared.length + 1) := by
  rw [apply_eq]
  cases hd : s.population.rules.displaced? r with
  | some old =>
      obtain ⟨hstored, harity⟩ := stored_of_displaced hd
      exact Nat.le_trans (pairCount_settle_some hstored harity) (Nat.le_max_left ..)
  | none =>
      have hpopulation : (victim strategy elite r s).2.population = s.population := by
        rw [victim_eq]
      have hnone : (victim strategy elite r s).1 = none ↔ s.candidates r spared = [] := by
        rw [hvictim]
        exact Crowding.victim_always hfactor hsize s.statistics.fitness
          (fun x hx => (mem_candidates.mp hx).2.1) s.generator
      dsimp only
      cases hold : (victim strategy elite r s).1 with
      | some old =>
          obtain ⟨hstored, harity⟩ := stored_of_victim hold
          rw [← hpopulation] at hstored
          have hle := pairCount_settle_some hstored harity
          rw [hpopulation] at hle
          exact Nat.le_trans hle (Nat.le_max_left ..)
      | none =>
          have hempty := hnone.mp hold
          have hle := pairCount_settle_none r (victim strategy elite r s).2
          rw [hpopulation] at hle
          cases hterminal : r.isTerminal with
          | true =>
              rw [hterminal] at hle
              exact Nat.le_trans hle (Nat.le_max_left ..)
          | false =>
              rw [hterminal] at hle
              have hspared := Nat.succ_le_succ (pairCount_le_length_spared hterminal hempty)
              exact Nat.le_trans hle (Nat.le_trans hspared (Nat.le_max_right ..))

/-! ## One submission -/

/-- The learner has one strategy for each hint, with the given crowding and size of the elite. -/
def IsStandard (s : Learner α) (c : Crowding) (size : Nat) : Prop :=
  s.supervisor.strategies = (Supervisor.standard c size).strategies

omit [Scalar α] in
theorem IsStandard.eliteSize? (h : s.IsStandard c size) : s.supervisor.eliteSize? = some size := by
  rw [Supervisor.eliteSize?, h]
  rfl

omit [Scalar α] in
/-- Growth that is not turned into crowding has room. -/
theorem hasRoom_of_effectiveHint {h : Hint} (hexpand : s.effectiveHint h = .expand) :
    s.HasRoom := by
  unfold effectiveHint at hexpand
  split at hexpand
  · unfold Supervisor.sizeHint at hexpand
    split at hexpand <;> cases hexpand
  · rename_i hbelow
    exact Nat.lt_of_not_le fun hle => hbelow ⟨hexpand, hle⟩

/-- No more rules are spared than the elite may have. -/
theorem length_elite_refreshElite {s' : Learner α} (h : s.IsStandard c size)
    (hrefreshed : s.refreshElite = .ok s') : s'.supervisor.elite.length ≤ size := by
  rw [refreshElite, h.eliteSize?] at hrefreshed
  obtain ⟨elite, helite, hrefreshed⟩ := Fault.bind_eq_ok.mp hrefreshed
  cases hrefreshed
  exact Nat.le_trans (Nat.le_of_eq (length_fittest helite)) (Nat.min_le_left ..)

/-- **A submission keeps the bound**: the grammar grows up to its limit, or to one rule more than the elite
may have. -/
theorem pairCount_submit_le (hstandard : s.IsStandard c size) (hfactor : 1 ≤ c.factor)
    (hsize : 1 ≤ c.size) (r : Rule) (h : Hint) :
    (submit r h s).2.population.rules.pairCount
      ≤ max s.population.rules.pairCount (max s.population.limits.pairRuleLimit (size + 1)) := by
  have hstrategy : s.supervisor.strategyFor? (s.effectiveHint h)
      = (Supervisor.standard c size).strategyFor? (s.effectiveHint h) :=
    congrArg (List.find? _) hstandard
  rw [submit_eq, hstrategy]
  split
  · exact Nat.le_max_left ..
  · cases hhint : s.effectiveHint h with
    | expand =>
        have hroom : s.population.rules.pairCount < s.population.limits.pairRuleLimit :=
          hasRoom_of_effectiveHint hhint
        have hle := RuleSet.pairCount_le (owner?_apply_simple r s)
        have hone : (if r.isTerminal = true then 0 else 1) ≤ 1 := by split <;> omega
        show (apply .simple [] r s).2.population.rules.pairCount ≤ _
        omega
    | keepSize =>
        have hle := pairCount_apply_le (s := s) (r := r) hfactor hsize (.crowding c) [] [] rfl
        show (apply (.crowding c) [] r s).2.population.rules.pairCount ≤ _
        rw [List.length_nil] at hle
        omega
    | keepSizeSparingElite =>
        cases hrefreshed : s.refreshElite with
        | error e =>
            dsimp only [Supervisor.strategyFor?]
            exact Nat.le_max_left ..
        | ok s' =>
            have hle := pairCount_apply_le (s := s') (r := r) hfactor hsize
              (.elitism c size) s'.supervisor.elite _ rfl
            have helite := length_elite_refreshElite hstandard hrefreshed
            rw [population_refreshElite hrefreshed] at hle
            show (apply (.elitism c size) _ r s').2.population.rules.pairCount ≤ _
            omega

/-! ## Any sequence -/

/-- A correction removes rules under the same supervisor. -/
theorem supervisor_correct (s : Learner α) : s.correct.2.supervisor = s.supervisor := by
  have hexpelled : ∀ (rules : List Rule) (s : Learner α),
      (rules.foldl expel s).supervisor = s.supervisor := by
    intro rules
    induction rules with
    | nil => exact fun s => rfl
    | cons r rules ih => exact fun s => ih (s.expel r)
  exact (hexpelled _ _).trans (hexpelled _ s)

/-- What may happen to the size of a grammar: submissions and corrections.  Between them the statistics and
the generator may become anything. -/
inductive Event (α : Type) where
  | submit (r : Rule) (hint : Hint)
  | correct
  | observe (statistics : Statistics α)
  | reseed (generator : Generator)

/-- What becomes of a learner. -/
def Event.run : Event α → Learner α → Learner α
  | submit r hint, s => (Learner.submit r hint s).2
  | correct, s => s.correct.2
  | observe statistics, s => { s with statistics := statistics }
  | reseed generator, s => { s with generator := generator }

/-- What becomes of a learner by events in turn. -/
def Event.runAll (events : List (Event α)) (s : Learner α) : Learner α :=
  events.foldl (fun s event => event.run s) s

/-- One event keeps the strategies, the limits and the bound. -/
theorem Event.run_keeps (hstandard : s.IsStandard c size) (hfactor : 1 ≤ c.factor)
    (hsize : 1 ≤ c.size) (event : Event α) :
    (event.run s).IsStandard c size ∧ (event.run s).population.limits = s.population.limits
      ∧ (event.run s).population.rules.pairCount
        ≤ max s.population.rules.pairCount (max s.population.limits.pairRuleLimit (size + 1)) := by
  cases event with
  | submit r hint =>
      exact ⟨(strategies_submit r hint s).trans hstandard, limits_submit r hint s,
        pairCount_submit_le hstandard hfactor hsize r hint⟩
  | correct =>
      have hfewer : s.correct.2.population.rules.pairCount ≤ s.population.rules.pairCount :=
        RuleSet.pairCount_mono fun _ => contains_of_correct
      exact ⟨(congrArg Supervisor.strategies (supervisor_correct s)).trans hstandard,
        limits_correct s, Nat.le_trans hfewer (Nat.le_max_left ..)⟩
  | observe statistics => exact ⟨hstandard, rfl, Nat.le_max_left ..⟩
  | reseed generator => exact ⟨hstandard, rfl, Nat.le_max_left ..⟩

/-- **The grammar stays bounded**: with one strategy for each hint, whatever is submitted with whatever
hints, whatever fitness the rules have and whatever is drawn, there are never more pair rules than at the
start, at the limit, or in the elite and one. -/
theorem pairCount_le_of_events (hstandard : s.supervisor = .standard c size)
    (hfactor : 1 ≤ c.factor) (hsize : 1 ≤ c.size) (events : List (Event α)) :
    (Event.runAll events s).population.rules.pairCount
      ≤ max s.population.rules.pairCount
        (max s.population.limits.pairRuleLimit (size + 1)) := by
  have hrun : ∀ (events : List (Event α)) (s : Learner α), s.IsStandard c size →
      (Event.runAll events s).population.rules.pairCount
        ≤ max s.population.rules.pairCount
          (max s.population.limits.pairRuleLimit (size + 1)) := by
    intro events
    induction events with
    | nil => exact fun s _ => Nat.le_max_left ..
    | cons event events ih =>
        intro s hstandard
        obtain ⟨hstandard', hlimits, hle⟩ := Event.run_keeps hstandard hfactor hsize event
        have hrest := ih (event.run s) hstandard'
        rw [hlimits] at hrest
        show (Event.runAll events (event.run s)).population.rules.pairCount ≤ _
        omega
  exact hrun events s (congrArg Supervisor.strategies hstandard)

/-- The bound is reached: an elite of two and a limit of one let a grammar grow to three rules, and then no
further. -/
theorem pairCount_le_of_events_three :
    ∃ (s : Learner Rat) (events : List (Event Rat)),
      s.supervisor = .standard .standard 2 ∧ s.population.limits.pairRuleLimit = 1
        ∧ s.population.rules.pairCount = 0
        ∧ (Event.runAll events s).population.rules.pairCount = 3
        ∧ (Event.runAll events s).population.rules.pairCount ≤ max 0 (max 1 (2 + 1)) := by
  let s : Learner Rat := ofPopulation (.ofRules ⟨1, none, 20, 1, 0⟩ []) .usage
    (.standard .standard 2) (.ofSeed 0)
  let events : List (Event Rat) := [.submit (.pair 1 2 2) .expand, .submit (.pair 1 2 3) .expand,
    .submit (.pair 1 3 2) .keepSizeSparingElite, .submit (.pair 1 3 3) .expand]
  have hstandard : s.supervisor = .standard .standard 2 := rfl
  have hbound := pairCount_le_of_events hstandard (by decide) (by decide) events
  exact ⟨s, events, rfl, rfl, by decide +kernel, by decide +kernel, hbound⟩

end Learner

end GrammarInduction
