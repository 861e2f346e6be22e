import GrammarInduction.Proofs.Learning.Run
import GrammarInduction.Proofs.Learning.Verdicts
import GrammarInduction.Proofs.Statistics.Counters

/-!
# Usage is accounted for by the verdicts

A generation keeps two books: the tally of its verdicts, and the counters of its rules.  Every labelled
sentence gets one verdict.  In the plain variant the rules of an accepted sentence are those of all its
derivations, each once, so a sentence adds at most one use to a rule, and that together with its verdict.
Rules may come and go meanwhile, and after the pass, but whoever comes has no uses yet.  And since the
counters are reset as a generation starts, they stay within its tally until the next one.

* `Run.pass_within` — the counters stay within the tally of a pass;
* `Run.Reaches.verdicts`, `Run.Reaches.within_last` — what a run has recorded, and what its learner has
  counted;
* `Run.usage_accounted` — the two books of a run agree.
-/

namespace GrammarInduction

open Attempt Learner

variable {α : Type} [Scalar α]

omit [Scalar α] in
/-- What is read off all derivations of a table lists each rule once. -/
theorem Table.nodup_of_trace {t : Table α} {x : Symbol} {rules : List Rule}
    (h : t.trace .allDerivations x = .ok rules) : rules.Nodup := by
  rw [trace, allRules] at h
  split at h
  · cases h
    exact List.nodup_nil
  · cases hsearch : t.search t.searchSteps ⟨∅, ∅⟩ [t.root x] with
    | error e =>
        rw [hsearch] at h
        cases h
    | ok found =>
        rw [hsearch] at h
        cases h
        have hdistinct := Std.TreeSet.distinct_toList (t := found.used)
        exact hdistinct.imp fun hne heq => hne (Std.LawfulEqCmp.compare_eq_iff_eq.mpr heq)

/-- The uses of a sentence are counted along with its verdict. -/
theorem Variant.recordUsage_within {tally : Tally} {unknown : Nat} {s : Learner α}
    (h : s.statistics.Within tally unknown) (outcome : Parse α) :
    Ensures (Variant.plain.recordUsage outcome) s (fun _ _ => True) fun _ s' =>
      s'.statistics.Within (tally.after (Verdict.of? outcome.label outcome.accepted))
        (unknown + if outcome.label = .unknown then 1 else 0) := by
  unfold recordUsage
  split
  · rename_i haccepted
    rw [haccepted]
    apply ensures_bind.mpr
    apply ensures_get.mpr
    apply ensures_bind.mpr
    apply ensures_except.mpr
    split
    · rename_i rules hrules
      exact ensures_state.mpr (within_recordUses h (Table.nodup_of_trace hrules) outcome.label)
    · trivial
  · exact ensures_pure.mpr (h.pass outcome.label outcome.accepted)

namespace Run

variable {variant : Variant} {settings : Settings α} {sentences : List Sentence} {k : Nat}
  {series : Series α} {around : Surroundings} {s first : Learner α}

/-! ## One generation -/

/-- One sentence adds as much to the counters as to the tally. -/
theorem passOne_within {tally : Tally} {unknown : Nat} (h : s.statistics.Within tally unknown)
    (coverage : Coverage α) (w : Sentence) :
    Ensures (passOne .plain coverage tally w) s (fun _ _ => True) fun tally' s' =>
      s'.statistics.Within tally' (unknown + if w.label = .unknown then 1 else 0) := by
  have hparse : Ensures (parse coverage w) s (fun _ _ => True) fun _ s₁ => Trades s s₁ :=
    (moves_parse coverage w s).mono (fun _ _ _ => trivial) fun _ _ htrades => htrades
  apply ensures_bind.mpr
  apply ((parse_verdict coverage w s).and hparse).mono (fun _ _ _ => trivial)
  intro outcome s₁ houtcome
  obtain ⟨⟨hlabel, hverdict⟩, htrades⟩ := houtcome
  apply ensures_bind.mpr
  apply (Variant.recordUsage_within (within_trades h htrades) outcome).imp
  intro _ s₂ hwithin
  rw [hlabel, ← hverdict] at hwithin
  apply ensures_of_except (fun _ _ => trivial)
  intro tally' hrecord
  rw [Tally.eq_of_record? hrecord]
  exact hwithin

/-- A pass adds no more to the counters than to the tally, and its unknown sentences. -/
theorem pass_within {tally : Tally} {unknown : Nat} (h : s.statistics.Within tally unknown)
    (coverage : Coverage α) (ws : List Sentence) :
    Ensures (pass .plain coverage ws tally) s (fun _ _ => True) fun tally' s' =>
      s'.statistics.Within tally' (unknown + ws.countP fun w => decide (w.label = .unknown)) := by
  induction ws generalizing tally unknown s with
  | nil => exact ensures_pure.mpr h
  | cons w ws ih =>
      apply ensures_bind.mpr
      apply (passOne_within h coverage w).imp
      intro tally₁ s₁ hone
      apply (ih hone).imp
      intro tally' s' hwithin
      simp only [List.countP_cons, decide_eq_true_eq]
      rw [Nat.add_comm (ws.countP _), ← Nat.add_assoc]
      exact hwithin

/-- After a generation the counters stay within the tally that it has recorded. -/
theorem generation_within (settings : Settings α) (sentences : List Sentence) (step : Nat)
    (series : Series α) (s : Learner α) :
    Ensures (generation .plain settings sentences step series) s (fun _ _ => True)
      fun series' s' => ∃ last, series'.generations = series.generations.push last
        ∧ s'.statistics.Within last.tally
          (sentences.countP fun w => decide (w.label = .unknown)) := by
  apply (generation_trades .plain settings sentences step series s).imp
  intro series' s' h
  obtain ⟨tally, s₁, last, hpass, hlast, htrades, -⟩ := h
  have hreset : (prepare settings step s).statistics.Within .zero 0 :=
    Statistics.within_resetUsage _
  have hwithin := (pass_within hreset settings.coverage sentences).of_ok hpass
  rw [Nat.zero_add] at hwithin
  have hscored : (score .plain s₁).statistics.Within tally
      (sentences.countP fun w => decide (w.label = .unknown)) := hwithin.updateFitness
  rw [← hlast.tally_eq] at hscored
  exact ⟨last, hlast.pushed, within_trades hscored htrades⟩

/-! ## The whole run -/

/-- Every generation that a run has recorded has one verdict for each labelled sentence. -/
theorem Reaches.verdicts (h : Reaches variant settings sentences around first k series s) :
    ∀ gen ∈ series.generations,
      gen.tally.positives = sentences.countP (fun w => decide (w.label = .positive))
        ∧ gen.tally.negatives = sentences.countP fun w => decide (w.label = .negative) := by
  induction h with
  | start =>
      intro gen hgen
      simp [Series.empty] at hgen
  | @step k series series' s s' before going ran ih =>
      obtain ⟨tally, s₁, last, hpass, hlast, -⟩ :=
        (generation_trades variant settings sentences (k + 1) series s).of_ok ran
      obtain ⟨hpositives, hnegatives⟩ := (pass_counts ..).of_ok hpass
      intro gen hgen
      rw [hlast.pushed] at hgen
      rcases Array.mem_push.mp hgen with hold | rfl
      · exact ih gen hold
      · rw [hlast.tally_eq]
        constructor
        · exact hpositives.trans (Nat.zero_add _)
        · exact hnegatives.trans (Nat.zero_add _)

/-- The counters of a learner stay within the tally of the generation recorded last. -/
theorem Reaches.within_last (h : Reaches .plain settings sentences around first k series s)
    {last : Generation α} (hlast : series.generations.back? = some last) :
    s.statistics.Within last.tally (sentences.countP fun w => decide (w.label = .unknown)) := by
  cases h with
  | start => cases hlast
  | @step k series _ s _ before going ran =>
      obtain ⟨gen, hpush, hwithin⟩ :=
        (generation_within settings sentences (k + 1) series s).of_ok ran
      rw [hpush, Array.back?_push, Option.some.injEq] at hlast
      rw [← hlast]
      exact hwithin

/-- **Usage is accounted for by the verdicts.**  Whatever its operators, its sentences and its seed, in a
run that has a result every recorded generation has a verdict for each member and for each sentence
known not to be one.  In the plain variant, if there was a generation, every rule that the result tracks
was used in no more members than the last generation accepted, in no more others than it accepted
wrongly, and otherwise in no more sentences than there are of unknown membership. -/
theorem usage_accounted {seed : UInt64} {given : Option (Population α)} {horizon : Nat}
    {result : RunResult α}
    (hrun : start variant settings seed given sentences around horizon = .ok result) :
    (∀ gen ∈ result.series.generations,
      gen.tally.truePositives + gen.tally.falseNegatives
          = sentences.countP (fun w => decide (w.label = .positive))
        ∧ gen.tally.trueNegatives + gen.tally.falsePositives
          = sentences.countP fun w => decide (w.label = .negative))
      ∧ (variant = .plain → ∀ last, result.series.generations.back? = some last →
        ∀ r u, result.statistics.usage? r = some u →
          u.valid ≤ last.tally.truePositives ∧ u.invalid ≤ last.tally.falsePositives
            ∧ u.valid + u.invalid ≤ u.uses
            ∧ u.uses - u.valid - u.invalid
              ≤ sentences.countP fun w => decide (w.label = .unknown)) := by
  obtain ⟨k, s, hreached, -, -, hstatistics⟩ := exists_end_of_start hrun
  refine ⟨hreached.verdicts, ?_⟩
  rintro rfl last hlast r u hu
  rw [hstatistics] at hu
  obtain ⟨hvalid, hinvalid, hknown, hrest⟩ := hreached.within_last hlast r u hu
  exact ⟨hvalid, hinvalid, hknown, by omega⟩

/-- The standard settings for a run of two generations that do not breed. -/
def twice : Settings Float :=
  { Settings.standard with stop := ⟨none, some 2, none⟩, breeds := false }

/-- A grammar of one sentence. -/
def onePair : Population Float := .ofRules .standard [.terminal 2 (-1), .terminal 3 (-2), .pair 1 2 3]

/-- That sentence as a member and without a label, and another one that is no member. -/
def mixed : List Sentence :=
  [⟨[-1, -2], .positive⟩, ⟨[-1, -2], .unknown⟩, ⟨[-2, -1], .negative⟩]

/-- In the second generation a terminal rule is used once by the member and once by the sentence without
a label. -/
theorem usage_accounted_twice :
    ∃ (result : RunResult Float) (last : Generation Float) (u : Usage Float),
      start .plain twice 0 (some onePair) mixed (.brisk false) 3 = .ok result
        ∧ result.generations = 2
        ∧ result.series.generations.back? = some last
        ∧ result.statistics.usage? (.terminal 2 (-1)) = some u
        ∧ u.uses = 2 ∧ u.valid = 1
        ∧ last.tally.truePositives + last.tally.falseNegatives = 1
        ∧ last.tally.trueNegatives + last.tally.falsePositives = 1
        ∧ u.valid ≤ last.tally.truePositives ∧ u.uses - u.valid - u.invalid ≤ 1 := by
  have hcheck : (match start .plain twice 0 (some onePair) mixed (.brisk false) 3 with
      | .ok result => decide (result.generations = 2) && result.series.generations.back?.isSome
        && (result.statistics.usage? (.terminal 2 (-1))).any fun u =>
          decide (u.uses = 2 ∧ u.valid = 1)
      | .error _ => false) = true := by decide +kernel
  split at hcheck
  · rename_i result hrun
    rw [Bool.and_eq_true, Bool.and_eq_true] at hcheck
    obtain ⟨⟨hsize, hsome⟩, hused⟩ := hcheck
    obtain ⟨last, hlast⟩ := Option.isSome_iff_exists.mp hsome
    obtain ⟨u, hu, hcounts⟩ := (Option.any_eq_true ..).mp hused
    obtain ⟨huses, hvalid⟩ := of_decide_eq_true hcounts
    obtain ⟨hverdicts, hcounters⟩ := usage_accounted hrun
    obtain ⟨hmembers, hothers⟩ := hverdicts last (Array.mem_of_back? hlast)
    obtain ⟨hwithin, -, -, hrest⟩ := hcounters rfl last hlast _ u hu
    exact ⟨result, last, u, hrun, of_decide_eq_true hsize, hlast, hu, huses, hvalid, hmembers,
      hothers, hwithin, hrest⟩
  · cases hcheck

end Run

end GrammarInduction
