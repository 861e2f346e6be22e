import GrammarInduction.Proofs.Breeding.Totality
import GrammarInduction.Proofs.Learning.Growth

/-!
# What one step of breeding does

Selectors pick pair rules, and operators make pair rules of pair rules, so nothing but pair rules is
submitted.  What makes way for a pair rule is a pair rule: terminal rules and their counters stay as they
were, and there are as many more pair rules as were reported to be inserted.  The offspring may repeat
itself; a rule that is stored by then is neither inserted nor does it replace another.

* `Learner.Bred` — only pair rules have come and gone, and so many more are left;
* `Learner.bred_submit`, `Learner.submitAll_bred` — one submission, and the offspring in turn;
* `BreedingReport.Accounts`, `Learner.breed_accounted` — the whole step and its report.
-/

namespace GrammarInduction

open Attempt Scalar

/-- Sets that store the same terminal rules have as many. -/
theorem RuleSet.terminalCount_congr {s s' : RuleSet}
    (h : ∀ r : Rule, r.isTerminal = true → s'.contains r = s.contains r) :
    s'.terminalCount = s.terminalCount := by
  have hperm : s'.terminalRules.Perm s.terminalRules := by
    apply (List.perm_ext_iff_of_nodup s'.nodup_terminalRules s.nodup_terminalRules).mpr
    intro r
    rw [mem_terminalRules, mem_terminalRules, mem_rules, mem_rules, ← contains_iff, ← contains_iff]
    refine and_congr_left fun hterminal => ?_
    rw [h r hterminal]
  rw [← length_terminalRules, ← length_terminalRules, hperm.length_eq]

/-- A report with more insertions and replacements. -/
def BreedingReport.add (report : BreedingReport) (inserted replaced : Nat) : BreedingReport :=
  { report with inserted := report.inserted + inserted, replaced := report.replaced + replaced }

theorem BreedingReport.add_add (report : BreedingReport) (i j m n : Nat) :
    (report.add i j).add m n = report.add (i + m) (j + n) := by
  rw [add, add, add, Nat.add_assoc, Nat.add_assoc]

/-- A submission is counted once, if at all. -/
theorem BreedingReport.exists_count (report : BreedingReport) (outcome : Outcome) :
    ∃ replaced, report.count outcome = report.add (if outcome = .inserted then 1 else 0) replaced
      ∧ (if outcome = .inserted then 1 else 0) + replaced ≤ 1 := by
  cases outcome with
  | existing => exact ⟨0, rfl, Nat.zero_le 1⟩
  | inserted => exact ⟨0, rfl, Nat.le_refl 1⟩
  | replaced old => exact ⟨1, rfl, Nat.le_refl 1⟩

namespace Learner

variable {α : Type} [Scalar α] {s s' s'' : Learner α} {r : Rule}

/-! ## Pair rules alone -/

/-- There are `n` pair rules more, and no terminal rule or counter of one is touched. -/
structure Bred (n : Nat) (s s' : Learner α) : Prop where
  terminals : ∀ r : Rule, r.isTerminal = true → s'.population.contains r = s.population.contains r
  counters : ∀ r : Rule, r.isTerminal = true → s'.statistics.usage? r = s.statistics.usage? r
  grown : s'.population.rules.pairCount = s.population.rules.pairCount + n

omit [Scalar α] in
/-- Supervisor and generator are of no account. -/
theorem bred_turn (s : Learner α) (supervisor : Supervisor) (g : Generator) :
    Bred 0 s { s with supervisor := supervisor, generator := g } where
  terminals _ _ := rfl
  counters _ _ := rfl
  grown := rfl

omit [Scalar α] in
theorem Bred.trans {m n : Nat} (h : Bred m s s') (h' : Bred n s' s'') : Bred (m + n) s s'' where
  terminals r hr := (h'.terminals r hr).trans (h.terminals r hr)
  counters r hr := (h'.counters r hr).trans (h.counters r hr)
  grown := by rw [h'.grown, h.grown, Nat.add_assoc]

/-- **A pair rule that is submitted is one pair rule more if it is inserted**, and otherwise none. -/
theorem bred_submit (hpair : r.isTerminal = false) {h : Hint} {outcome : Outcome}
    (hended : (submit r h s).1 = .ok outcome) :
    Bred (if outcome = .inserted then 1 else 0) s (submit r h s).2 := by
  have hother : ∀ q : Rule, q.isTerminal = true → q.isTerminal ≠ r.isTerminal := by
    intro q hq
    rw [hq, hpair]
    exact Bool.false_ne_true.symm
  have hterminals : ∀ q : Rule, q.isTerminal = true →
      (submit r h s).2.population.contains q = s.population.contains q :=
    fun q hq => contains_submit_of_arity (hother q hq)
  refine ⟨hterminals, fun q hq => usage?_submit_of_arity (hother q hq), ?_⟩
  have hsize := size_submit hended
  have hcount := RuleSet.terminalCount_congr hterminals
  unfold RuleSet.size at hsize
  omega

/-- **Pair rules that are submitted in turn are as many more as are counted as inserted.**  No more are
counted than were submitted.  Only the want of an elite is in the way. -/
theorem submitAll_bred {rules : List Rule} (hpairs : ∀ r ∈ rules, r.isTerminal = false)
    (hint : Hint) (report : BreedingReport) (s : Learner α) :
    Ensures (submitAll hint rules report) s LacksElite fun report' s' =>
      ∃ inserted replaced, report' = report.add inserted replaced
        ∧ inserted + replaced ≤ rules.length ∧ Bred inserted s s' := by
  induction rules generalizing report s with
  | nil =>
      exact ensures_pure.mpr ⟨0, 0, rfl, Nat.le_refl 0, bred_turn s s.supervisor s.generator⟩
  | cons r rest ih =>
      rw [List.forall_mem_cons] at hpairs
      refine ensures_bind.mpr ((submit_ensures r hint s).imp fun outcome t hsubmit => ?_)
      have hfirst := bred_submit hpairs.1 (congrArg Prod.fst hsubmit)
      rw [hsubmit] at hfirst
      obtain ⟨first, hcount, hone⟩ := report.exists_count outcome
      refine (ih hpairs.2 (report.count outcome) t).imp fun report' s' hrest => ?_
      obtain ⟨inserted, replaced, hreport, hle, hbred⟩ := hrest
      refine ⟨_, first + replaced, ?_, ?_, hfirst.trans hbred⟩
      · rw [← BreedingReport.add_add, ← hcount]
        exact hreport
      · rw [List.length_cons]
        omega

end Learner

/-! ## The whole step -/

/-- The report tells what a step of breeding did: each selector has picked one stored pair rule, the offspring
are as many pair rules, and no more are counted than there are; pair rules alone have come and gone, as many
more as are counted as inserted. -/
structure BreedingReport.Accounts {α : Type} (report : BreedingReport) (plan : BreedingPlan α)
    (s s' : Learner α) : Prop where
  one_each : report.selected.length = plan.selectors.length
  stored : ∀ r ∈ report.selected, s.population.contains r = true ∧ r.isTerminal = false
  as_many : report.offspring.length = report.selected.length
  pairs : ∀ r ∈ report.offspring, r.isTerminal = false
  counted : report.inserted + report.replaced ≤ report.offspring.length
  bred : Learner.Bred report.inserted s s'

namespace Learner

variable {α : Type} [Scalar α] {s t : Learner α} {plan : BreedingPlan α} {selected offspring : List Rule}

/-- The report is truthful once the offspring is submitted. -/
theorem submitAll_accounts (hlength : selected.length = plan.selectors.length)
    (hstored : ∀ r ∈ selected, s.population.contains r = true ∧ r.isTerminal = false)
    (hmany : offspring.length = selected.length) (hpairs : ∀ r ∈ offspring, r.isTerminal = false)
    (hturned : Bred 0 s t) :
    Ensures (submitAll plan.hint offspring ⟨selected, offspring, 0, 0⟩) t LacksElite
      fun report s' => report.Accounts plan s s' := by
  refine (submitAll_bred hpairs plan.hint ⟨selected, offspring, 0, 0⟩ t).imp fun report s' hbred => ?_
  obtain ⟨inserted, replaced, rfl, hcounted, hbred⟩ := hbred
  rw [BreedingReport.add, Nat.zero_add, Nat.zero_add]
  refine ⟨hlength, hstored, hmany, hpairs, hcounted, ?_⟩
  have hwhole := hturned.trans hbred
  rwa [Nat.zero_add] at hwhole

/-- A selector has no range to draw from. -/
def FailsToDraw (plan : BreedingPlan α) (s : Learner α) (e : Fault) : Prop :=
  e = .undefinedDraw ∧ ∃ selector ∈ plan.selectors,
    ¬ selector.CanDraw s.statistics.fitness s.population.rules.pairRules

/-- A selector fails to draw, or as pair rules cannot be ranked. -/
theorem failsToDraw_or_rank {selector : Selector} {e : Fault} (g : Generator)
    (hlisted : selector ∈ plan.selectors)
    (hfails : selector.Fails s.statistics.fitness s.population.rules.pairRules e) :
    FailsToDraw plan s e ∨ FailsToRank e { s with generator := g } := by
  rcases hfails with ⟨rfl, hdraw⟩ | ⟨rfl, hmany, r, hr, hnumber⟩
  · exact Or.inl ⟨rfl, selector, hlisted, hdraw⟩
  · obtain ⟨hstored, hpair⟩ := mem_pairRules_iff.mp hr
    exact Or.inr ⟨rfl, RuleSet.length_pairRules _ ▸ hmany, r, hstored, hpair, hnumber⟩

/-- **A step of breeding touches pair rules only, and reports truthfully.**  It asks for a pair rule to pick
and for chances that are numbers.  Whatever the strategies, the weights of rules and the generator, each
selector has picked one stored pair rule then, the offspring are as many pair rules, terminal rules and their
counters are as they were, and there are as many more pair rules as are reported to be inserted; unless a
selector has no range to draw from, or there are pair rules that cannot be ranked.  So there is a report if
every selector can draw and every fitness stays a number. -/
theorem breed_accounted [LawfulScalar α] [HalvingScalar α] [StrictScalar α]
    (hpairs : s.population.rules.pairRules ≠ [])
    (hchances : ∀ op ∈ plan.operators, IsNumber op.chance) :
    Ensures (breed plan) s (fun e s' => FailsToDraw plan s e ∨ FailsToRank e s')
        (fun report s' => report.Accounts plan s s')
      ∧ ((∀ selector ∈ plan.selectors,
          selector.CanDraw s.statistics.fitness s.population.rules.pairRules) → s.StaysRated →
        ∃ report s', breed plan s = (.ok report, s') ∧ report.Accounts plan s s') := by
  have hstages : ∀ op ∈ plan.stages, IsNumber op.chance := by
    intro op hop
    rcases List.mem_append.mp hop with hone | htwo
    · exact hchances op (List.mem_of_mem_filter hone)
    · exact hchances op (List.mem_of_mem_filter htwo)
  have hends : Ensures (breed plan) s (fun e s' => FailsToDraw plan s e ∨ FailsToRank e s')
      fun report s' => report.Accounts plan s s' := by
    unfold breed
    refine ensures_bind.mpr (ensures_get.mpr ?_)
    dsimp only
    rw [if_neg (by simpa using hpairs)]
    refine ensures_bind.mpr (ensures_attempt.mpr ((Learner.selectAll_picks hpairs _).mono ?_ ?_))
    · rintro e g ⟨selector, hlisted, hfails⟩
      exact failsToDraw_or_rank g hlisted hfails
    rintro selected g ⟨hlength, hselected⟩
    have hstored := fun r hr => mem_pairRules_iff.mp (hselected r hr)
    refine ensures_bind.mpr ((renewElite_ensures _).mono (fun _ _ h => Or.inr h.failsToRank) ?_)
    -- The elite is found anew in between, and the generator has moved on.
    rintro - _ ⟨elite, rfl⟩
    refine ensures_bind.mpr (ensures_attempt.mpr ?_)
    refine (applyStages_pairs hstages fun r hr => (hstored r hr).2).mono (fun _ _ h => h.elim) ?_
    rintro offspring g' ⟨hmany, hoffspring⟩
    exact (submitAll_accounts hlength hstored hmany hoffspring (bred_turn s _ g')).mono
      (fun _ _ h => Or.inr h.failsToRank) fun _ _ h => h
  refine ⟨hends, fun hdraw hrated => exists_ok_of_staysRated (moves_breed plan) ?_ hrated⟩
  refine hends.mono (fun e s' hfails => hfails.resolve_left ?_) fun _ _ h => h
  rintro ⟨-, selector, hlisted, hnone⟩
  exact hnone (hdraw selector hlisted)

/-- Every kind of selector picks from two pair rules, and every kind of operator may change what is picked. -/
theorem breed_accounted_four :
    ∃ (s : Learner Float) (plan : BreedingPlan Float), s.Mirrors
      ∧ plan.selectors = [.random, .tournament 2, .roulette, .rank]
      ∧ plan.operators = BreedingPlan.standard.operators
      ∧ ∃ report s', breed plan s = (.ok report, s') ∧ report.offspring.length = 4
        ∧ report.Accounts plan s s' := by
  let s : Learner Float := ofPopulation
    (.ofRules .standard [.pair 1 2 3, .pair 2 3 1, .terminal 3 (-1)]) .usage
    (.standard .standard 1) (.ofSeed 0)
  let plan : BreedingPlan Float :=
    { BreedingPlan.standard with selectors := [.random, .tournament 2, .roulette, .rank] }
  have hpairs : s.population.rules.pairRules ≠ [] := by decide +kernel
  have hchances : ∀ op ∈ plan.operators, IsNumber op.chance := by decide +kernel
  have hdraw : ∀ selector ∈ plan.selectors,
      selector.CanDraw s.statistics.fitness s.population.rules.pairRules := by decide +kernel
  have hrated : s.StaysRated := by
    have hzero : IsNumber (ofCount 0 : Float) := by decide +kernel
    have hunused : (Usage.unused : Usage Float).Rates .usage := fun _ => hzero
    exact staysRated_ofPopulation hunused _ _ _
  obtain ⟨report, s', hbreed, haccounts⟩ := (breed_accounted hpairs hchances).2 hdraw hrated
  exact ⟨s, plan, mirrors_ofPopulation _ _ _ _, rfl, rfl, report, s', hbreed,
    haccounts.as_many.trans haccounts.one_each, haccounts⟩

/-- A fitness that is great unless a rule is used, and then as far below zero. -/
def opposed : Fitness Float :=
  .blend { Blend.standard with
    classicWeight := -1, fertilityWeight := 2, base := 1e308, validPrice := 0, invalidPrice := 0 }

/-- A learner of three pair rules, of which the second was used. -/
def divided : Learner Float :=
  let s : Learner Float := ofPopulation
    (.ofRules .standard [.pair 1 1 1, .pair 1 1 2, .pair 1 1 3]) opposed (.standard .standard 10) (.ofSeed 0)
  { s with statistics := s.statistics.recordUse (.pair 1 1 2) .positive }

/-- **A finite sum of fitness is not enough.**  Without what is below zero the sum is infinite, and then there
is no range to draw from. -/
theorem breed_divided :
    let plan : BreedingPlan Float := { BreedingPlan.standard with selectors := [.roulette] }
    let fitness := divided.population.rules.pairRules.map divided.statistics.fitness
    divided.Mirrors ∧ divided.population.rules.pairRules ≠ []
      ∧ (∀ op ∈ plan.operators, IsNumber op.chance)
      ∧ (∀ x ∈ fitness, IsNumber x) ∧ (value? (Scalar.sum fitness)).isSome = true
      ∧ ∃ e s', breed plan divided = (.error e, s') := by
  intro plan fitness
  have hmirrors : divided.Mirrors := (mirrors_ofPopulation _ _ _ _).change (.use _ _ _)
  obtain ⟨e, s', hbreed, -⟩ := exists_error_of_check (fun _ _ => true) (m := breed plan) (s := divided)
    (by decide +kernel)
  exact ⟨hmirrors, by decide +kernel, by decide +kernel, by decide +kernel, by decide +kernel, e, s', hbreed⟩

end Learner

end GrammarInduction
