import GrammarInduction.Learning.Learner
import GrammarInduction.Proofs.Chart.Trace

/-!
# What a correction leaves

A correction removes the rules with a child that is not productive and, of the rest, those with a parent
that is not reachable.  Neither takes part in a derivation of a sentence, so the same sentences are
accepted before and after.  What is left is tidy: a second correction finds nothing, and without a
universal symbol every rule is found by the traceback of some accepted sentence.

* `Learner.rules_correct` — the rules that a correction leaves depend on those stored before alone;
* `Learner.tidy_correct` — they are a tidy set;
* `Learner.recognise_correct` — and the language as it was;
* `Learner.correct_useful` — every rule left is of use, and there is nothing left to correct.
-/

namespace GrammarInduction.Learner

variable {α : Type} [Scalar α] {s : Learner α}

/-! ## Rules expelled in turn -/

theorem limits_foldl_expel (rules : List Rule) (s : Learner α) :
    (rules.foldl expel s).population.limits = s.population.limits := by
  induction rules generalizing s with
  | nil => rfl
  | cons r rules ih =>
      rw [List.foldl_cons, ih]
      exact Population.limits_erase s.population r

theorem rules_foldl_expel (rules : List Rule) (s : Learner α) :
    (rules.foldl expel s).population.rules = rules.foldl RuleSet.erase s.population.rules := by
  induction rules generalizing s with
  | nil => rfl
  | cons r rules ih =>
      have hone : (s.expel r).population.rules = s.population.rules.erase r :=
        Population.rules_erase s.population r
      rw [List.foldl_cons, ih, hone, List.foldl_cons]

/-! ## Both passes -/

theorem correct_eq (s : Learner α) :
    s.correct = (⟨s.removeUnproductive.1, s.removeUnproductive.2.removeUnreachable.1⟩,
      s.removeUnproductive.2.removeUnreachable.2) :=
  rfl

theorem limits_removeUnproductive (s : Learner α) :
    s.removeUnproductive.2.population.limits = s.population.limits :=
  limits_foldl_expel ..

theorem limits_correct (s : Learner α) : s.correct.2.population.limits = s.population.limits :=
  (limits_foldl_expel ..).trans (limits_removeUnproductive s)

/-- A correction prunes the rule set, whatever the weights and the statistics are. -/
theorem rules_correct (s : Learner α) : s.correct.2.population.rules
    = s.population.rules.pruned s.population.limits.universal? s.population.limits.start := by
  have hfirst : s.removeUnproductive.2.population.rules
      = (s.population.rules.unproductiveRules s.population.limits.universal?).foldl RuleSet.erase
        s.population.rules := rules_foldl_expel ..
  have hsecond : s.correct.2.population.rules
      = (s.removeUnproductive.2.population.rules.unreachableRules
        s.removeUnproductive.2.population.limits.start).foldl RuleSet.erase
          s.removeUnproductive.2.population.rules := rules_foldl_expel ..
  rw [hsecond, limits_removeUnproductive, hfirst]
  rfl

/-- A correction brings in no rule. -/
theorem contains_of_correct {s : Learner α} {r : Rule}
    (h : s.correct.2.population.rules.contains r = true) : s.population.rules.contains r = true := by
  rw [rules_correct, RuleSet.pruned] at h
  exact (RuleSet.contains_foldl_erase.mp (RuleSet.contains_foldl_erase.mp h).1).1

/-- A correction leaves a tidy rule set. -/
theorem tidy_correct (s : Learner α) :
    s.correct.2.population.rules.Tidy s.population.limits.universal? s.population.limits.start := by
  rw [rules_correct]
  exact RuleSet.tidy_pruned ..

/-- A correction leaves the derivations of sentences. -/
theorem derives_correct (s : Learner α) (w : List Symbol) :
    s.correct.2.population.rules.Derives s.population.limits.start w
      ↔ s.population.rules.Derives s.population.limits.start w := by
  rw [rules_correct]
  exact RuleSet.derives_pruned ..

/-- **A correction preserves the language**: every sentence has the same answer before and after. -/
theorem recognise_correct (s : Learner α) (w : Sentence) :
    ∃ before after, s.population.recognise w = .ok before
      ∧ s.correct.2.population.recognise w = .ok after ∧ after.accepted = before.accepted := by
  obtain ⟨before, hbefore, -, haccepted⟩ := s.population.exists_recognise_charts w
  obtain ⟨after, hafter, -, haccepted'⟩ := s.correct.2.population.exists_recognise_charts w
  refine ⟨before, after, hbefore, hafter, ?_⟩
  rw [Bool.eq_iff_iff, haccepted, haccepted', limits_correct]
  exact derives_correct s w.symbols

/-- A population of a tidy rule set is left as it is. -/
theorem correct_of_tidy
    (h : s.population.rules.Tidy s.population.limits.universal? s.population.limits.start) :
    s.correct = (⟨[], []⟩, s) := by
  obtain ⟨hproductive, hreachable⟩ := h.nothing_useless
  have hfirst : s.removeUnproductive = ([], s) := by
    rw [removeUnproductive, hproductive]
    rfl
  have hsecond : s.removeUnreachable = ([], s) := by
    rw [removeUnreachable, hreachable]
    rfl
  rw [correct_eq, hfirst, hsecond]

/-- In a tidy rule set without a universal symbol every rule is found by the traceback of an accepted
sentence. -/
theorem exists_traced_of_tidy {p : Population α} {r : Rule}
    (h : p.rules.Tidy none p.limits.start) (hr : p.contains r = true) (label : Label) :
    ∃ (w : List Symbol) (parse : Parse α) (rules : List Rule),
      p.recognise ⟨w, label⟩ = .ok parse ∧ parse.accepted = true
        ∧ parse.table.trace .allDerivations p.limits.start = .ok rules ∧ r ∈ rules := by
  obtain ⟨w, hoccurs⟩ := h.exists_occurs hr
  obtain ⟨parse, hrun, hcharts, haccepted⟩ := p.exists_recognise_charts ⟨w, label⟩
  obtain ⟨rules, hrules, -, hmem⟩ := hcharts.allRules_ok p.limits.start
  exact ⟨w, parse, rules, hrun, haccepted.mpr hoccurs.derives, hrules, (hmem r).mpr hoccurs⟩

/-- **A correction leaves only rules of use.**  Without a universal symbol every rule that is left is
found by the traceback of a sentence that is accepted; and with or without one, a second correction
removes nothing. -/
theorem correct_useful (s : Learner α) :
    (s.population.limits.universal? = none →
      ∀ r, s.correct.2.population.contains r = true →
        ∃ (w : Sentence) (parse : Parse α) (rules : List Rule),
          s.correct.2.population.recognise w = .ok parse ∧ parse.accepted = true
            ∧ parse.table.trace .allDerivations s.correct.2.population.limits.start = .ok rules
            ∧ r ∈ rules)
      ∧ s.correct.2.correct = (⟨[], []⟩, s.correct.2) := by
  have htidy := tidy_correct s
  rw [← limits_correct s] at htidy
  refine ⟨?_, correct_of_tidy htidy⟩
  intro huniversal r hr
  rw [limits_correct, huniversal] at htidy
  obtain ⟨w, parse, rules, hfound⟩ :=
    exists_traced_of_tidy (p := s.correct.2.population) (limits_correct s ▸ htidy) hr .positive
  exact ⟨⟨w, .positive⟩, parse, rules, hfound⟩

/-- Of three rules the correction removes one that no sentence needs, and the pair rule that it leaves
is of use. -/
theorem correct_useful_pair :
    ∃ (s : Learner Float) (w : Sentence) (parse : Parse Float) (rules : List Rule),
      s.population.contains (.pair 3 2 1) = true
        ∧ s.correct.2.population.contains (.pair 3 2 1) = false
        ∧ s.correct.2.population.recognise w = .ok parse ∧ parse.accepted = true
        ∧ parse.table.trace .allDerivations s.correct.2.population.limits.start = .ok rules
        ∧ .pair 1 2 2 ∈ rules := by
  have huseful := correct_useful (ofPopulation
    (.ofRules .standard [.pair 1 2 2, .terminal 2 (-1), .pair 3 2 1]) .usage
    (.standard .standard 10) (.ofSeed 7) : Learner Float)
  obtain ⟨w, parse, rules, hfound⟩ := huseful.1 rfl (.pair 1 2 2) (by decide +kernel)
  exact ⟨_, w, parse, rules, by decide +kernel, by decide +kernel, hfound⟩

end GrammarInduction.Learner
