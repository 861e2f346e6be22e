import GrammarInduction.Proofs.Insertion.Selection
import GrammarInduction.Proofs.Learning.Outcome
import GrammarInduction.Proofs.Scalar.Double

/-!
# Which rule makes way

A newcomer whose body is free takes the place of no rule, or of the one that its strategy picks.  Crowding
picks a weak rule among those of the newcomer's arity, without the elite if the elite is spared, and it
always finds one if there is any.  The elite is found anew before each insertion that spares it, so what is
spared is the elite of the grammar at hand; only the rule with the newcomer's own body makes way for it in
any case.

* `Learner.contains_settle`, `Learner.contains_submit` — who is stored after an insertion;
* `Learner.apply_crowds` — crowding evicts a weak rule;
* `Learner.IsElite`, `Learner.isElite_currentElite` — the elite, and what is found anew;
* `Learner.submit_spares_elite` — an insertion that spares the elite does not evict from it.
-/

namespace GrammarInduction

open Ranking Scalar

/-- Rules are of one arity exactly if both are terminal, or neither is. -/
theorem Rule.arity_eq_iff {r s : Rule} : s.arity = r.arity ↔ s.isTerminal = r.isTerminal := by
  refine ⟨fun h => ?_, Rule.arity_eq⟩
  obtain ⟨x, _ | _⟩ := r <;> obtain ⟨y, _ | _⟩ := s <;> first | rfl | cases h

/-- The crowding that a strategy goes by, if it looks for a rule to remove. -/
def Strategy.crowding? : Strategy → Option Crowding
  | simple => none
  | crowding c => some c
  | elitism c _ => some c

/-- The rules that a strategy does not remove, of a given elite. -/
def Strategy.spared (elite : List Rule) : Strategy → List Rule
  | elitism .. => elite
  | _ => []

/-- The first strategy that serves a hint is the first elitist one, if it is elitist. -/
theorem Supervisor.eliteSize?_of_strategyFor? {supervisor : Supervisor} {h : Hint} {c : Crowding}
    {size : Nat} (hserves : supervisor.strategyFor? h = some (.elitism c size)) :
    supervisor.eliteSize? = some size := by
  have hsupports : (Strategy.elitism c size).supports h = true := by
    unfold strategyFor? at hserves
    have hfound := List.find?_some hserves
    exact hfound
  have hhint : h = .keepSizeSparingElite := (of_decide_eq_true hsupports).symm
  subst hhint
  unfold strategyFor? at hserves
  unfold eliteSize?
  revert hserves
  induction supervisor.strategies with
  | nil => exact nofun
  | cons strategy strategies ih =>
      cases strategy with
      | simple => exact ih
      | crowding => exact ih
      | elitism c' size' =>
          intro hserves
          cases hserves
          rfl

namespace Learner

variable {α : Type} {s : Learner α} {r q old : Rule} {old? : Option Rule} {c : Crowding} {size : Nat}
  {strategy : Strategy} {elite : List Rule} {h : Hint}

theorem nodup_candidates (s : Learner α) (r : Rule) (spared : List Rule) :
    (s.candidates r spared).Nodup := by
  unfold candidates
  refine List.Nodup.filter _ ?_
  split
  · exact s.population.rules.nodup_terminalRules
  · exact s.population.rules.nodup_pairRules

variable [Scalar α]

/-! ## Who is stored after an insertion -/

/-- What settling reports. -/
theorem outcome_settle (r : Rule) (old? : Option Rule) (s : Learner α) :
    (settle r old? s).1 = old?.elim .inserted .replaced := by
  cases old? <;> rfl

/-- Settling stores the newcomer besides all rules but the one that makes way. -/
theorem contains_settle
    (hroom : s.population.rules.displaced? r = none ∨ s.population.rules.displaced? r = old?) :
    (settle r old? s).2.population.contains q = true
      ↔ q = r ∨ s.population.contains q = true ∧ q ∉ old? := by
  cases old? with
  | none =>
      have hstored : (s.enter r).population.contains q = true
          ↔ q = r ∨ s.population.contains q = true := contains_enter (hroom.elim id id)
      refine hstored.trans ?_
      simp
  | some old =>
      have hstored : ((s.expel old).enter r).population.contains q = true
          ↔ q = r ∨ (s.expel old).population.contains q = true :=
        contains_enter (displaced?_expel hroom)
      refine hstored.trans ?_
      simp [contains_expel, eq_comm (a := old)]

/-- A submission stores the newcomer besides all rules but the one that it reports replaced. -/
theorem contains_submit {outcome : Outcome} (hended : (submit r h s).1 = .ok outcome) :
    (submit r h s).2.population.contains q = true
      ↔ q = r ∨ s.population.contains q = true ∧ outcome ≠ .replaced q := by
  cases hnew : s.population.contains r with
  | true =>
      rw [submit_stored hnew] at hended ⊢
      cases hended
      simp only [ne_eq, reduceCtorEq, not_false_eq_true, and_true, iff_or_self]
      rintro rfl
      exact hnew
  | false =>
      rcases exists_settle_of_submit hnew h with ⟨e, -, hsubmit⟩
        | ⟨old?, elite, g, s', rfl, hsubmit, -, hroom⟩
      · rw [hsubmit] at hended
        cases hended
      rw [hsubmit] at hended ⊢
      cases hended
      have hremoved : old?.elim Outcome.inserted .replaced = .replaced q ↔ q ∈ old? := by
        cases old? <;> simp
      rw [ne_eq, outcome_settle, hremoved]
      exact contains_settle (hroom.imp_right And.left)

/-! ## Crowding -/

/-- A strategy that crowds finds a rule among the candidates that it does not spare, if there is any, and
the rule is weak. -/
theorem exists_victim [OrderedScalar α] (hcrowding : strategy.crowding? = some c)
    (hfactor : 1 ≤ c.factor) (hsize : 1 ≤ c.size)
    (hnumber : ∀ x ∈ s.candidates r (strategy.spared elite), IsNumber (s.statistics.fitness x)) :
    ∃ (old? : Option Rule) (g : Generator),
      victim strategy elite r s = (old?, { s with generator := g })
        ∧ (old? = none ↔ s.candidates r (strategy.spared elite) = [])
        ∧ ∀ old ∈ old?, Crowding.IsWeak c.size s.statistics.fitness
          (s.candidates r (strategy.spared elite)) old := by
  have hdraw : victim strategy elite r s
      = draw (c.victim s.statistics.fitness (s.candidates r (strategy.spared elite)) r) s := by
    cases strategy <;> cases hcrowding <;> rfl
  have harity : ∀ x ∈ s.candidates r (strategy.spared elite), x.isTerminal = r.isTerminal :=
    fun x hx => (mem_candidates.mp hx).2.1
  refine ⟨_, _, hdraw, ?_, ?_⟩
  · exact Crowding.victim_always hfactor hsize s.statistics.fitness harity s.generator
  · exact Crowding.victim_weak (nodup_candidates ..) hnumber c r s.generator

/-- **Crowding evicts a weak rule.**  A newcomer whose body is free is inserted without an eviction exactly
if no rule of its arity could make way.  Otherwise it takes the place of one of them that is no fitter than
a whole sample of them, and so of the least fit if the sample may take them all. -/
theorem apply_crowds [OrderedScalar α] (elite : List Rule) (hcrowding : strategy.crowding? = some c)
    (hfactor : 1 ≤ c.factor) (hsize : 1 ≤ c.size)
    (hnumber : ∀ x, s.population.contains x = true → IsNumber (s.statistics.fitness x))
    (hfree : s.population.rules.owner? r.body = none) :
    ∃ rivals : List Rule, rivals.Nodup
      ∧ (∀ x, x ∈ rivals ↔ s.population.contains x = true ∧ x.arity = r.arity
        ∧ x ∉ strategy.spared elite)
      ∧ ((apply strategy elite r s).1 = .inserted ↔ rivals = [])
      ∧ (rivals = [] → ∀ q, (apply strategy elite r s).2.population.contains q = true
        ↔ q = r ∨ s.population.contains q = true)
      ∧ (rivals ≠ [] → ∃ old, (apply strategy elite r s).1 = .replaced old
        ∧ Crowding.IsWeak c.size s.statistics.fitness rivals old
        ∧ (rivals.length ≤ c.size →
          ∀ x ∈ rivals, s.statistics.fitness old ≤ s.statistics.fitness x)
        ∧ ∀ q, (apply strategy elite r s).2.population.contains q = true
          ↔ q = r ∨ s.population.contains q = true ∧ q ≠ old) := by
  have hdisplaced : s.population.rules.displaced? r = none := by
    rw [RuleSet.displaced?, hfree]
  have hrivals : ∀ x, x ∈ s.candidates r (strategy.spared elite)
      ↔ s.population.contains x = true ∧ x.arity = r.arity ∧ x ∉ strategy.spared elite := by
    intro x
    rw [mem_candidates, RuleSet.mem_rules, ← RuleSet.contains_iff, Rule.arity_eq_iff]
    rfl
  have hnumbers : ∀ x ∈ s.candidates r (strategy.spared elite), IsNumber (s.statistics.fitness x) :=
    fun x hx => hnumber x ((hrivals x).mp hx).1
  obtain ⟨old?, g, hvictim, hnone, hweak⟩ := exists_victim hcrowding hfactor hsize hnumbers
  have happly : apply strategy elite r s = settle r old? { s with generator := g } := by
    rw [apply_eq, hdisplaced, hvictim]
  have hstored : ∀ q, (apply strategy elite r s).2.population.contains q = true
      ↔ q = r ∨ s.population.contains q = true ∧ q ∉ old? := by
    intro q
    rw [happly]
    exact contains_settle (Or.inl hdisplaced)
  refine ⟨_, nodup_candidates .., hrivals, ?_, ?_, ?_⟩
  · rw [happly, outcome_settle, ← hnone]
    cases old? <;> simp
  · intro hempty q
    rw [hstored, hnone.mpr hempty]
    simp
  · intro hsome
    obtain ⟨old, rfl⟩ := Option.ne_none_iff_exists'.mp (mt hnone.mp hsome)
    refine ⟨old, ?_, hweak old rfl, (hweak old rfl).le, fun q => ?_⟩
    · rw [happly]
      rfl
    · rw [hstored, Option.mem_some_iff, eq_comm (a := old)]

/-- A learner with three pair rules, of which the first was never used, the second once and the third
twice. -/
def used : Learner Rat :=
  let s := ofPopulation
    (.ofRules .standard [.pair 1 2 3, .pair 4 2 2, .pair 5 5 5, .terminal 2 (-1)])
    .usage (.standard .standard 1) (.ofSeed 0)
  { s with
    statistics := ((s.statistics.recordUse (.pair 4 2 2) .positive).recordUse (.pair 5 5 5)
      .positive).recordUse (.pair 5 5 5) .negative }

/-- With the unused rule spared, a weak one of the other two makes way. -/
theorem apply_crowds_used :
    used.population.rules.owner? (Rule.pair 6 6 6).body = none
      ∧ ∃ rivals old, .pair 4 2 2 ∈ rivals ∧ .pair 5 5 5 ∈ rivals ∧ .pair 1 2 3 ∉ rivals
        ∧ (apply (.elitism .standard 1) [.pair 1 2 3] (.pair 6 6 6) used).1 = .replaced old
        ∧ Crowding.IsWeak 3 used.statistics.fitness rivals old := by
  have hfree : used.population.rules.owner? (Rule.pair 6 6 6).body = none := by decide +kernel
  have hcrowding : (Strategy.elitism .standard 1).crowding? = some .standard := rfl
  obtain ⟨rivals, -, hrivals, -, -, hevicts⟩ := apply_crowds [.pair 1 2 3] hcrowding (by decide)
    (by decide) (fun _ _ => Rat.le_refl) hfree
  have hsecond : .pair 4 2 2 ∈ rivals := (hrivals _).mpr (by decide +kernel)
  have hthird : .pair 5 5 5 ∈ rivals := (hrivals _).mpr (by decide +kernel)
  have hspared : .pair 1 2 3 ∉ rivals := fun hmem => ((hrivals _).mp hmem).2.2 List.mem_cons_self
  obtain ⟨old, hreplaced, hweak, -⟩ := hevicts (List.ne_nil_of_mem hsecond)
  exact ⟨hfree, rivals, old, hsecond, hthird, hspared, hreplaced, hweak⟩

/-! ## The elite -/

/-- The elite of a size: as many pair rules, or all, that outrank the others.  Of equally fit rules those
with the smaller bodies outrank the rest. -/
structure IsElite (s : Learner α) (size : Nat) (elite : List Rule) : Prop where
  nodup : elite.Nodup
  count : elite.length = min size s.population.rules.pairCount
  stored : ∀ a ∈ elite, s.population.contains a = true ∧ a.isTerminal = false
  outranks : ∀ a ∈ elite, ∀ b, s.population.contains b = true → b.isTerminal = false → b ∉ elite →
    Outranks s.statistics.fitness (fun a b => compare a.body b.body = .lt) a b

/-- There is an elite of any size where the fitness of each pair rule is a number. -/
theorem isElite_currentElite [StrictScalar α]
    (hnumber : ∀ x, s.population.contains x = true → x.isTerminal = false →
      IsNumber (s.statistics.fitness x)) (size : Nat) :
    ∃ elite, s.currentElite size = .ok elite ∧ s.IsElite size elite := by
  have hnumbers : ∀ x ∈ s.population.rules.pairRules, IsNumber (s.statistics.fitness x) := by
    intro x hx
    obtain ⟨hstored, hpair⟩ := mem_pairRules_iff.mp hx
    exact hnumber x hstored hpair
  obtain ⟨elite, helite, houtranks⟩ :=
    exists_fittest strict_body hnumbers s.pairRules_pairwise size
  refine ⟨elite, helite, nodup_fittest helite s.population.rules.nodup_pairRules, ?_, ?_, ?_⟩
  · exact (length_fittest helite).trans (congrArg (min size) (RuleSet.length_pairRules _))
  · exact fun a ha => mem_pairRules_iff.mp (mem_of_mem_fittest helite ha)
  · exact fun a ha b hb hpair hout => houtranks a ha b (mem_pairRules_iff.mpr ⟨hb, hpair⟩) hout

theorem supervisor_apply (strategy : Strategy) (spared : List Rule) (r : Rule) (s : Learner α) :
    (apply strategy spared r s).2.supervisor = s.supervisor := by
  obtain ⟨old?, g, happly, -⟩ := exists_settle_of_apply strategy spared r s
  rw [happly]
  cases old? <;> rfl

/-- The rule that an elitist strategy replaces is not spared, or has the newcomer's body. -/
theorem not_spared_of_replaced
    (hreplaced : (apply (.elitism c size) elite r s).1 = .replaced old) :
    old ∈ elite → old.body = r.body := by
  rw [apply_eq] at hreplaced
  intro hspared
  cases hheld : s.population.rules.displaced? r with
  | some holder =>
      rw [hheld] at hreplaced
      cases hreplaced
      exact (RuleSet.displaced?_eq_some_iff.mp hheld).1
  | none =>
      simp only [hheld, outcome_settle] at hreplaced
      obtain ⟨old?, hvictim⟩ : ∃ old?, (victim (.elitism c size) elite r s).1 = old? := ⟨_, rfl⟩
      rw [hvictim] at hreplaced
      cases old? with
      | none => cases hreplaced
      | some victim =>
          cases hreplaced
          have hmem := Crowding.victim_mem c s.statistics.fitness (s.candidates r elite) r s.generator
            old hvictim
          exact absurd hspared (mem_candidates.mp hmem).2.2

/-- **The elite is spared.**  What is found for an elite of any size is one: the pair rules that outrank all
others.  Whenever an elitist strategy brings in a newcomer, the elite of the grammar as it was is what the
supervisor spares, and the rule that is replaced is not in it unless it has the newcomer's body. -/
theorem submit_spares_elite [StrictScalar α]
    (hnumber : ∀ x, s.population.contains x = true → x.isTerminal = false →
      IsNumber (s.statistics.fitness x)) :
    (∀ size, ∃ elite, s.currentElite size = .ok elite ∧ s.IsElite size elite)
      ∧ ∀ (r : Rule) (h : Hint) (c : Crowding) (size : Nat) (old : Rule),
        s.supervisor.strategyFor? (s.effectiveHint h) = some (.elitism c size) →
        (submit r h s).1 = .ok (.replaced old) →
        ∃ elite, s.currentElite size = .ok elite ∧ (submit r h s).2.supervisor.elite = elite
          ∧ (old ∈ elite → old.body = r.body) := by
  refine ⟨isElite_currentElite hnumber, fun r h c size old hserves hreplaced => ?_⟩
  obtain ⟨elite, helite, -⟩ := isElite_currentElite hnumber size
  have hrefreshed : s.refreshElite
      = .ok { s with supervisor := { s.supervisor with elite := elite } } := by
    rw [refreshElite, Supervisor.eliteSize?_of_strategyFor? hserves]
    exact Fault.bind_eq_ok.mpr ⟨elite, helite, rfl⟩
  refine ⟨elite, helite, ?_⟩
  cases hnew : s.population.contains r with
  | true =>
      rw [submit_stored hnew] at hreplaced
      cases hreplaced
  | false =>
      rw [submit_eq, hnew, if_neg Bool.false_ne_true, hserves] at hreplaced ⊢
      dsimp only at hreplaced ⊢
      rw [hrefreshed] at hreplaced ⊢
      refine ⟨?_, not_spared_of_replaced (Except.ok.inj hreplaced)⟩
      exact congrArg Supervisor.elite (supervisor_apply ..)

/-- Of two rules that are equally fit the one with the smaller body is spared, and the other makes way. -/
theorem submit_spares_elite_crowded :
    crowded.supervisor.strategyFor? (crowded.effectiveHint .expand) = some (.elitism .standard 1)
      ∧ crowded.IsElite 1 [.pair 1 2 3]
      ∧ (submit (.pair 4 9 9) .expand crowded).1 = .ok (.replaced (.pair 5 6 7))
      ∧ (submit (.pair 4 9 9) .expand crowded).2.supervisor.elite = [.pair 1 2 3] := by
  have hcurrent : crowded.currentElite 1 = .ok [.pair 1 2 3] := by decide +kernel
  have hserves : crowded.supervisor.strategyFor? (crowded.effectiveHint .expand)
      = some (.elitism .standard 1) := by decide +kernel
  have hreplaced : (submit (.pair 4 9 9) .expand crowded).1 = .ok (.replaced (.pair 5 6 7)) := by
    decide +kernel
  obtain ⟨hall, hspares⟩ := submit_spares_elite (s := crowded) fun _ _ _ => Rat.le_refl
  obtain ⟨elite, helite, hiselite⟩ := hall 1
  obtain ⟨spared, hspared, hsupervisor, -⟩ :=
    hspares (.pair 4 9 9) .expand .standard 1 (.pair 5 6 7) hserves hreplaced
  cases hcurrent.symm.trans helite
  cases hcurrent.symm.trans hspared
  exact ⟨hserves, hiselite, hreplaced, hsupervisor⟩

end Learner

end GrammarInduction
