import GrammarInduction.Learning.Submission
import GrammarInduction.Proofs.Attempt
import GrammarInduction.Proofs.Insertion.Selection

/-!
# What a submission does and what it leaves as it is

Whatever the hint and the strategies, a submission comes down to one thing: the newcomer takes the place
of a rule of its arity, or of none.  Where the grammar may grow and is below its limit, this is the rule
with its body, and all other rules stay.

* `Learner.exists_settle_of_submit` — what a submission comes down to;
* `Learner.Disordered`, `Learner.disordered_of_submit` — the one way in which it can fail, which takes a
  rule whose fitness is no number;
* `Learner.limits_submit`, `Learner.strategies_submit` — what no submission changes;
* `Learner.owner?_submit_expand` — growth below the limit is insertion;
* `RuleSet.pairCount_le` — which adds at most one to the count of pair rules;
* `RuleSet.contains_or` — and removes at most the rule that owned the newcomer's body.
-/

namespace GrammarInduction

/-- A set in which only one body may have changed its owner has at most one pair rule more, and none
if that body is a terminal. -/
theorem RuleSet.pairCount_le {s s' : RuleSet} {r : Rule}
    (h : ∀ b, s'.owner? b = if b = r.body then some r.parent else s.owner? b) :
    s'.pairCount ≤ s.pairCount + if r.isTerminal then 0 else 1 := by
  have hnodup := s'.nodup_pairRules
  have hmem : ∀ x ∈ s'.pairRules, x = r ∨ x ∈ s.pairRules := by
    intro x hx
    obtain ⟨hmem, hpair⟩ := mem_pairRules.mp hx
    have howner := mem_rules.mp hmem
    rw [h] at howner
    by_cases hbody : x.body = r.body
    · rw [if_pos hbody, Option.some.injEq] at howner
      obtain ⟨parent, body⟩ := x
      cases howner
      cases hbody
      exact Or.inl rfl
    · rw [if_neg hbody] at howner
      exact Or.inr (mem_pairRules.mpr ⟨mem_rules.mpr howner, hpair⟩)
  rw [← length_pairRules, ← length_pairRules]
  by_cases hterminal : r.isTerminal = true
  · rw [if_pos hterminal]
    refine hnodup.length_le_of_subset fun x hx => (hmem x hx).resolve_left ?_
    intro heq
    rw [heq, mem_pairRules, hterminal] at hx
    exact nomatch hx.2
  · rw [if_neg hterminal]
    have hsub : s'.pairRules ⊆ r :: s.pairRules := fun x hx => List.mem_cons.mpr (hmem x hx)
    exact hnodup.length_le_of_subset hsub

/-- A stored rule stays where one body changes its owner, unless the body is its own. -/
theorem RuleSet.contains_or {s s' : RuleSet} {r x : Rule}
    (h : ∀ b, s'.owner? b = if b = r.body then some r.parent else s.owner? b)
    (hx : s.contains x = true) :
    s'.contains x = true ∨ x.body = r.body ∧ x.parent ≠ r.parent := by
  rw [contains_iff] at hx ⊢
  rw [h]
  by_cases hbody : x.body = r.body
  · by_cases hparent : x.parent = r.parent
    · rw [if_pos hbody, hparent]
      exact Or.inl rfl
    · exact Or.inr ⟨hbody, hparent⟩
  · rw [if_neg hbody]
    exact Or.inl hx

namespace Learner

variable {α : Type} [Scalar α] {s : Learner α}

/-- Looking for a rule to remove draws, and changes nothing else. -/
theorem victim_eq (strategy : Strategy) (spared : List Rule) (r : Rule) (s : Learner α) :
    (victim strategy spared r s).2
      = { s with generator := (victim strategy spared r s).2.generator } := by
  cases strategy <;> rfl

omit [Scalar α] in
/-- The rule that holds a newcomer's body is stored, and has its arity. -/
theorem stored_of_displaced {r old : Rule} (h : s.population.rules.displaced? r = some old) :
    s.population.rules.contains old = true ∧ old.isTerminal = r.isTerminal := by
  obtain ⟨hbody, -, howner⟩ := RuleSet.displaced?_eq_some_iff.mp h
  exact ⟨RuleSet.contains_iff.mpr (hbody ▸ howner), congrArg Body.isTerminal hbody⟩

/-- The rule that a strategy removes for a newcomer is stored, and has its arity. -/
theorem stored_of_victim {strategy : Strategy} {spared : List Rule} {r old : Rule}
    (h : (victim strategy spared r s).1 = some old) :
    s.population.rules.contains old = true ∧ old.isTerminal = r.isTerminal := by
  obtain ⟨spared', hmem⟩ : ∃ spared', old ∈ s.candidates r spared' := by
    cases strategy with
    | simple => cases h
    | crowding c => exact ⟨_, Crowding.victim_mem c s.statistics.fitness _ r s.generator old h⟩
    | elitism c size => exact ⟨_, Crowding.victim_mem c s.statistics.fitness _ r s.generator old h⟩
  obtain ⟨hstored, harity, -⟩ := mem_candidates.mp hmem
  exact ⟨RuleSet.contains_iff.mpr (RuleSet.mem_rules.mp hstored), harity⟩

theorem limits_settle (r : Rule) (old? : Option Rule) (s : Learner α) :
    (settle r old? s).2.population.limits = s.population.limits := by
  cases old? with
  | none => exact Population.limits_insert ..
  | some old => exact (Population.limits_insert ..).trans (Population.limits_erase ..)

/-- What a strategy amounts to: the rule with the newcomer's body makes way, or else its victim. -/
theorem apply_eq (strategy : Strategy) (spared : List Rule) (r : Rule) (s : Learner α) :
    apply strategy spared r s = match s.population.rules.displaced? r with
      | some old => settle r (some old) s
      | none => settle r (victim strategy spared r s).1 (victim strategy spared r s).2 := by
  show (match s.population.rules.displaced? r with
    | some old => settle r (some old)
    | none => victim strategy spared r >>= settle r) s = _
  cases s.population.rules.displaced? r <;> rfl

/-- Only the elite is found anew. -/
theorem exists_elite_of_refreshElite {s' : Learner α} (h : s.refreshElite = .ok s') :
    ∃ elite, s' = { s with supervisor := { s.supervisor with elite := elite } } := by
  unfold refreshElite at h
  split at h
  · obtain ⟨elite, -, h⟩ := Fault.bind_eq_ok.mp h
    cases h
    exact ⟨elite, rfl⟩
  · cases h
    exact ⟨s.supervisor.elite, rfl⟩

theorem population_refreshElite {s' : Learner α} (h : s.refreshElite = .ok s') :
    s'.population = s.population := by
  obtain ⟨elite, rfl⟩ := exists_elite_of_refreshElite h
  rfl

theorem renewElite_apply (s : Learner α) :
    renewElite s = match s.refreshElite with
      | .ok s' => (.ok (), s')
      | .error e => (.error e, s) := by
  show ((liftM s.refreshElite : Attempt (Learner α) (Learner α)) >>= set) s = _
  rw [Attempt.bind_apply]
  cases s.refreshElite <;> rfl

theorem population_renewElite {s' : Learner α} (h : renewElite s = (.ok (), s')) :
    s'.population = s.population := by
  rw [renewElite_apply] at h
  cases hrefreshed : s.refreshElite with
  | ok s'' =>
      rw [hrefreshed] at h
      cases h
      exact population_refreshElite hrefreshed
  | error e =>
      rw [hrefreshed] at h
      cases h

/-- A submission changes nothing for a rule that is stored, and has one strategy bring in any other.  A
strategy that spares the elite has it found anew before, and if that fails nothing has happened. -/
theorem submit_eq (r : Rule) (h : Hint) (s : Learner α) :
    submit r h s = if s.population.contains r then (.ok .existing, s)
      else match s.supervisor.strategyFor? (s.effectiveHint h) with
        | none => (.ok (apply .simple [] r s).1, (apply .simple [] r s).2)
        | some (.elitism c size) => match s.refreshElite with
          | .ok s' => (.ok (apply (.elitism c size) s'.supervisor.elite r s').1,
            (apply (.elitism c size) s'.supervisor.elite r s').2)
          | .error e => (.error e, s)
        | some strategy => (.ok (apply strategy [] r s).1, (apply strategy [] r s).2) := by
  show (if s.population.contains r then pure .existing
    else match s.supervisor.strategyFor? (s.effectiveHint h) with
      | none => (apply .simple [] r : StateM (Learner α) Outcome)
      | some (.elitism c size) => do
        renewElite
        let s ← get
        (apply (.elitism c size) s.supervisor.elite r : StateM (Learner α) Outcome)
      | some strategy => (apply strategy [] r : StateM (Learner α) Outcome) :
    Attempt (Learner α) Outcome) s = _
  split
  · rfl
  · cases s.supervisor.strategyFor? (s.effectiveHint h) with
    | none => rfl
    | some strategy =>
        cases strategy with
        | simple => rfl
        | crowding c => rfl
        | elitism c size =>
            dsimp only
            rw [Attempt.bind_apply, renewElite_apply]
            cases s.refreshElite <;> rfl

/-- A rule that is stored need not be brought in. -/
theorem submit_stored {r : Rule} (hstored : s.population.contains r = true) (h : Hint) :
    submit r h s = (.ok .existing, s) := by
  rw [submit_eq, if_pos hstored]

/-- What a strategy comes down to: the newcomer takes the place of the rule with its body, and nothing is
drawn, or where there is none it takes the place of a rule of its arity or of no rule. -/
theorem exists_settle_of_apply (strategy : Strategy) (spared : List Rule) (r : Rule)
    (s : Learner α) : ∃ (old? : Option Rule) (g : Generator),
      apply strategy spared r s = settle r old? { s with generator := g }
        ∧ (∀ old ∈ old?, s.population.contains old = true ∧ old.isTerminal = r.isTerminal)
        ∧ (s.population.rules.displaced? r = none
          ∨ s.population.rules.displaced? r = old? ∧ g = s.generator) := by
  rw [apply_eq]
  cases hd : s.population.rules.displaced? r with
  | some holder =>
      refine ⟨some holder, s.generator, rfl, ?_, Or.inr ⟨rfl, rfl⟩⟩
      rintro old ⟨⟩
      exact stored_of_displaced hd
  | none =>
      refine ⟨(victim strategy spared r s).1, (victim strategy spared r s).2.generator, ?_,
        fun old hold => stored_of_victim hold, Or.inl rfl⟩
      rw [← victim_eq]

/-- **What a submission comes down to**, if the rule is not stored: the elite may be found anew, and then
a strategy brings the newcomer in.  If there is no elite to be found, nothing happens. -/
theorem exists_settle_of_submit {r : Rule} (hnew : s.population.contains r = false) (h : Hint) :
    (∃ e, s.refreshElite = .error e ∧ submit r h s = (.error e, s))
      ∨ ∃ (old? : Option Rule) (elite : List Rule) (g : Generator) (s' : Learner α),
        s' = { s with supervisor := { s.supervisor with elite := elite }, generator := g }
          ∧ submit r h s = (.ok (settle r old? s').1, (settle r old? s').2)
          ∧ (∀ old ∈ old?, s.population.contains old = true ∧ old.isTerminal = r.isTerminal)
          ∧ (s.population.rules.displaced? r = none
            ∨ s.population.rules.displaced? r = old? ∧ g = s.generator) := by
  have hend : (∃ e, s.refreshElite = .error e ∧ submit r h s = (.error e, s))
      ∨ ∃ strategy spared elite, submit r h s
        = (.ok (apply strategy spared r { s with supervisor := { s.supervisor with elite := elite } }).1,
          (apply strategy spared r { s with supervisor := { s.supervisor with elite := elite } }).2) := by
    rw [submit_eq, hnew, if_neg Bool.false_ne_true]
    split
    · exact Or.inr ⟨.simple, [], s.supervisor.elite, rfl⟩
    · rename_i c size _
      cases hrefreshed : s.refreshElite with
      | error e => exact Or.inl ⟨e, rfl, rfl⟩
      | ok s' =>
          obtain ⟨elite, rfl⟩ := exists_elite_of_refreshElite hrefreshed
          exact Or.inr ⟨.elitism c size, elite, elite, rfl⟩
    · rename_i strategy _ _
      exact Or.inr ⟨strategy, [], s.supervisor.elite, rfl⟩
  rcases hend with hfault | ⟨strategy, spared, elite, hsubmit⟩
  · exact Or.inl hfault
  · obtain ⟨old?, g, happly, hstored, hroom⟩ := exists_settle_of_apply strategy spared r
      { s with supervisor := { s.supervisor with elite := elite } }
    rw [happly] at hsubmit
    exact Or.inr ⟨old?, elite, g, _, rfl, hsubmit, hstored, hroom⟩

/-- A submission that has a fault has done nothing. -/
theorem submit_of_error {r : Rule} {h : Hint} {e : Fault} (hfault : (submit r h s).1 = .error e) :
    s.refreshElite = .error e ∧ (submit r h s).2 = s := by
  cases hnew : s.population.contains r with
  | true =>
      rw [submit_stored hnew] at hfault
      cases hfault
  | false =>
      rcases exists_settle_of_submit hnew h with ⟨e', hrefreshed, hsubmit⟩
        | ⟨old?, elite, g, s', -, hsubmit, -⟩
      · rw [hsubmit] at hfault ⊢
        cases hfault
        exact ⟨hrefreshed, rfl⟩
      · rw [hsubmit] at hfault
        cases hfault

/-- **No submission changes the limits**, whatever it inserts, removes or overwrites. -/
theorem limits_submit (r : Rule) (h : Hint) (s : Learner α) :
    (submit r h s).2.population.limits = s.population.limits := by
  cases hnew : s.population.contains r with
  | true => rw [submit_stored hnew]
  | false =>
      rcases exists_settle_of_submit hnew h with ⟨e, -, hsubmit⟩ | ⟨old?, elite, g, s', rfl, hsubmit, -⟩
      · rw [hsubmit]
      · rw [hsubmit, limits_settle]

/-- A submission may find the elite anew, but the strategies stay. -/
theorem strategies_submit (r : Rule) (h : Hint) (s : Learner α) :
    (submit r h s).2.supervisor.strategies = s.supervisor.strategies := by
  cases hnew : s.population.contains r with
  | true => rw [submit_stored hnew]
  | false =>
      rcases exists_settle_of_submit hnew h with ⟨e, -, hsubmit⟩ | ⟨old?, elite, g, s', rfl, hsubmit, -⟩
      · rw [hsubmit]
      · rw [hsubmit]
        cases old? <;> rfl

/-! ## Where no elite is found -/

/-- More than twenty pair rules cannot be ranked, as the fitness of one is no number. -/
structure Disordered (s : Learner α) : Prop where
  many : 20 < s.population.rules.pairCount
  unranked : ∃ r, s.population.contains r = true ∧ r.isTerminal = false
    ∧ ¬ Scalar.IsNumber (s.statistics.fitness r)

omit [Scalar α] in
/-- The pair rules are in the order of their bodies. -/
theorem pairRules_pairwise (s : Learner α) :
    s.population.rules.pairRules.Pairwise fun a b => compare a.body b.body = .lt :=
  s.population.rules.rules_pairwise.sublist (RuleSet.pairRules_sublist _)

omit [Scalar α] in
theorem mem_pairRules_iff {r : Rule} : r ∈ s.population.rules.pairRules
    ↔ s.population.contains r = true ∧ r.isTerminal = false :=
  RuleSet.mem_pairRules.trans (and_congr_left' (RuleSet.mem_rules.trans RuleSet.contains_iff.symm))

/-- Bodies are strictly ordered. -/
theorem strict_body : Ranking.Strict fun a b : Rule => compare a.body b.body = .lt where
  asymm h := Std.OrientedCmp.not_lt_of_lt h
  trans h h' := Std.TransCmp.lt_trans h h'

/-- **An elite is missing only where the pair rules cannot be ranked.** -/
theorem disordered_of_currentElite [StrictScalar α] {size : Nat} {e : Fault}
    (h : s.currentElite size = .error e) : e = .disorder ∧ s.Disordered := by
  obtain ⟨rfl, hmany, r, hr, hnumber⟩ := disorder_of_fittest strict_body s.pairRules_pairwise h
  obtain ⟨hstored, hpair⟩ := mem_pairRules_iff.mp hr
  exact ⟨rfl, RuleSet.length_pairRules _ ▸ hmany, r, hstored, hpair, hnumber⟩

theorem disordered_of_refreshElite [StrictScalar α] {e : Fault} (h : s.refreshElite = .error e) :
    e = .disorder ∧ s.Disordered := by
  unfold refreshElite at h
  split at h
  · rename_i size _
    cases helite : s.currentElite size with
    | ok elite =>
        rw [helite] at h
        cases h
    | error e' =>
        rw [helite] at h
        cases h
        exact disordered_of_currentElite helite
  · cases h

/-- **A submission has a fault only where the pair rules cannot be ranked**, and then it does nothing. -/
theorem disordered_of_submit [StrictScalar α] {r : Rule} {h : Hint} {e : Fault}
    (hfault : (submit r h s).1 = .error e) :
    e = .disorder ∧ s.Disordered ∧ (submit r h s).2 = s := by
  obtain ⟨hrefreshed, hsame⟩ := submit_of_error hfault
  obtain ⟨rfl, hdisordered⟩ := disordered_of_refreshElite hrefreshed
  exact ⟨rfl, hdisordered, hsame⟩

/-- Every stored rule has a fitness that is a number. -/
def Rated (s : Learner α) : Prop :=
  ∀ r, s.population.contains r = true → Scalar.IsNumber (s.statistics.fitness r)

theorem Disordered.not_rated (h : s.Disordered) : ¬ s.Rated := by
  obtain ⟨r, hstored, -, hnumber⟩ := h.unranked
  exact fun hrated => hnumber (hrated r hstored)

/-- A fault that comes of pair rules that cannot be ranked. -/
def FailsToRank (e : Fault) (s : Learner α) : Prop := e = .disorder ∧ s.Disordered

/-- A fault for want of an elite. -/
def LacksElite (e : Fault) (s : Learner α) : Prop := s.refreshElite = .error e

theorem LacksElite.failsToRank [StrictScalar α] {e : Fault} (h : LacksElite e s) : FailsToRank e s :=
  disordered_of_refreshElite h

theorem submit_ensures (r : Rule) (h : Hint) (s : Learner α) :
    Attempt.Ensures (submit r h) s LacksElite fun outcome s' => submit r h s = (.ok outcome, s') := by
  rcases hsubmit : submit r h s with ⟨ending, s'⟩
  cases ending with
  | ok outcome => exact Attempt.ensures_of_eq hsubmit rfl
  | error e =>
      obtain ⟨hrefreshed, hsame⟩ := submit_of_error (congrArg Prod.fst hsubmit)
      rw [hsubmit] at hsame
      change s' = s at hsame
      subst hsame
      unfold Attempt.Ensures
      rw [hsubmit]
      exact hrefreshed

/-- Finding the elite anew touches the supervisor alone. -/
theorem renewElite_ensures (s : Learner α) :
    Attempt.Ensures renewElite s LacksElite fun _ s' =>
      ∃ elite, s' = { s with supervisor := { s.supervisor with elite := elite } } := by
  unfold Attempt.Ensures
  rw [renewElite_apply]
  cases hrefreshed : s.refreshElite with
  | ok s' => exact exists_elite_of_refreshElite hrefreshed
  | error e => exact hrefreshed

/-! ## Growth below the limit -/

/-- The grammar has fewer pair rules than its limit. -/
def HasRoom (s : Learner α) : Prop :=
  s.population.rules.pairCount < s.population.limits.pairRuleLimit

/-- A strategy that serves growth removes no rule but one with the newcomer's body. -/
theorem strategyFor?_expand (supervisor : Supervisor) :
    supervisor.strategyFor? .expand = none ∨ supervisor.strategyFor? .expand = some .simple := by
  cases hfind : supervisor.strategyFor? .expand with
  | none => exact Or.inl rfl
  | some strategy =>
      have hserves := List.find?_some hfind
      cases strategy with
      | simple => exact Or.inr rfl
      | crowding c => simp [Strategy.supports, Strategy.hint] at hserves
      | elitism c size => simp [Strategy.supports, Strategy.hint] at hserves

/-- Simple insertion gives the newcomer its body and leaves all others. -/
theorem owner?_apply_simple (r : Rule) (s : Learner α) (b : Body) :
    (apply .simple [] r s).2.population.rules.owner? b
      = if b = r.body then some r.parent else s.population.rules.owner? b := by
  rw [apply_eq]
  cases hd : s.population.rules.displaced? r with
  | none => exact Population.owner?_insert ..
  | some old =>
      have hbody := (RuleSet.displaced?_eq_some_iff.mp hd).1
      refine (Population.owner?_insert ..).trans ?_
      by_cases hb : b = r.body
      · rw [if_pos hb, if_pos hb]
      · rw [if_neg hb, if_neg hb]
        show (s.population.erase old).rules.owner? b = _
        rw [Population.rules_erase, RuleSet.owner?_erase, hbody, if_neg fun hand => hb hand.2]

/-- **Growth below the limit is insertion**: the newcomer owns its body, and all other bodies keep
their owners. -/
theorem owner?_submit_expand (hroom : s.HasRoom) (r : Rule) (b : Body) :
    (submit r .expand s).2.population.rules.owner? b
      = if b = r.body then some r.parent else s.population.rules.owner? b := by
  have hhint : s.effectiveHint .expand = .expand := by
    rw [effectiveHint, if_neg fun hand => Nat.not_le.mpr hroom hand.2]
  rw [submit_eq, hhint]
  split
  · rename_i hstored
    have howner := RuleSet.contains_iff.mp hstored
    by_cases hb : b = r.body
    · rw [if_pos hb, hb]
      exact howner
    · rw [if_neg hb]
  · rcases strategyFor?_expand s.supervisor with hnone | hsimple
    · rw [hnone]
      exact owner?_apply_simple r s b
    · rw [hsimple]
      exact owner?_apply_simple r s b

end Learner

end GrammarInduction
