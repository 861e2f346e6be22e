import GrammarInduction.Proofs.Learning.Change

/-!
# Counters within a tally

A rule is used at most once by an accepted sentence, and the use is valid, invalid or neither as the
sentence is a member, no member or unknown.  So its counters stay within the verdicts on the accepted
sentences: valid uses within the true positives, invalid ones within the false positives, and the rest
within the count of unknown sentences.

* `Usage.Within` — the counters of one rule stay within a tally;
* `Usage.Within.record`, `Usage.Within.pass` — one more sentence, with or without a use;
* `Learner.usage?_recordUses` — recording a list of different rules is one use for each of them.
-/

namespace GrammarInduction

variable {α : Type}

/-- Verdicts are only added to a tally. -/
theorem Tally.le_after (tally : Tally) (verdict? : Option Verdict) :
    tally.truePositives ≤ (tally.after verdict?).truePositives
      ∧ tally.falsePositives ≤ (tally.after verdict?).falsePositives := by
  cases verdict? with
  | none => exact ⟨Nat.le_refl _, Nat.le_refl _⟩
  | some verdict => cases verdict <;> grind [Tally.after, Tally.withCount, Tally.count]

/-! ## The counters of one rule -/

namespace Usage

/-- The counters of a rule stay within the verdicts of a tally and a count of unknown sentences. -/
structure Within (tally : Tally) (unknown : Nat) (u : Usage α) : Prop where
  valid : u.valid ≤ tally.truePositives
  invalid : u.invalid ≤ tally.falsePositives
  known : u.valid + u.invalid ≤ u.uses
  rest : u.uses ≤ u.valid + u.invalid + unknown

variable {tally : Tally} {unknown : Nat} {u : Usage α}

/-- The counters stay within the tally when a sentence is judged that does not use the rule. -/
theorem Within.pass (h : u.Within tally unknown) (label : Label) (accepted : Bool) :
    u.Within (tally.after (Verdict.of? label accepted))
      (unknown + if label = .unknown then 1 else 0) := by
  obtain ⟨htrue, hfalse⟩ := tally.le_after (Verdict.of? label accepted)
  have hrest := h.rest
  exact ⟨Nat.le_trans h.valid htrue, Nat.le_trans h.invalid hfalse, h.known, by omega⟩

variable [Scalar α]

theorem within_unused : (unused : Usage α).Within tally unknown :=
  ⟨Nat.zero_le _, Nat.zero_le _, Nat.le_refl 0, Nat.zero_le _⟩

/-- The counters stay within the tally when an accepted sentence uses the rule. -/
theorem Within.record (h : u.Within tally unknown) (function : Fitness α) (label : Label) :
    (u.record function label).Within (tally.after (Verdict.of? label true))
      (unknown + if label = .unknown then 1 else 0) := by
  obtain ⟨hvalid, hinvalid, hknown, hrest⟩ := h
  constructor <;> cases label <;> grind [Usage.record, Verdict.of?, Tally.after, Tally.withCount, Tally.count]

end Usage

/-! ## The counters of all rules -/

namespace Statistics

/-- The counters of all tracked rules stay within a tally. -/
def Within (tally : Tally) (unknown : Nat) (s : Statistics α) : Prop :=
  ∀ r u, s.usage? r = some u → u.Within tally unknown

variable {tally : Tally} {unknown : Nat} {s : Statistics α}

theorem Within.pass (h : s.Within tally unknown) (label : Label) (accepted : Bool) :
    s.Within (tally.after (Verdict.of? label accepted))
      (unknown + if label = .unknown then 1 else 0) := by
  intro r u hu
  exact (h r u hu).pass label accepted

variable [Scalar α]

/-- After a reset no counter has anything in it. -/
theorem within_resetUsage (s : Statistics α) : s.resetUsage.Within tally unknown := by
  intro r u hu
  rw [usage?_resetUsage, Option.map_eq_some_iff] at hu
  obtain ⟨_, -, rfl⟩ := hu
  exact Usage.within_unused

/-- The fitness that is remembered is no counter. -/
theorem Within.updateFitness (h : s.Within tally unknown) : s.updateFitness.Within tally unknown := by
  intro r u hu
  rw [usage?_updateFitness, Option.map_eq_some_iff] at hu
  obtain ⟨v, hv, rfl⟩ := hu
  obtain ⟨hvalid, hinvalid, hknown, hrest⟩ := h r v hv
  exact ⟨hvalid, hinvalid, hknown, hrest⟩

end Statistics

namespace Learner

variable [Scalar α] {tally : Tally} {unknown : Nat} {s s' : Learner α} {label : Label}
  {rules : List Rule}

/-- **Every use counts once.**  Recording the uses of different rules counts one for each of them that is
tracked, and none for any other rule. -/
theorem usage?_recordUses (hnodup : rules.Nodup) (s : Learner α) (q : Rule) :
    (recordUses label rules s).2.statistics.usage? q
      = if q ∈ rules then (s.statistics.usage? q).map (·.record s.statistics.function label)
        else s.statistics.usage? q := by
  induction rules generalizing s with
  | nil => rfl
  | cons r rules ih =>
      obtain ⟨hfresh, hrest⟩ := List.nodup_cons.mp hnodup
      rw [recordUses_cons, ih hrest, Statistics.usage?_recordUse, Statistics.function_recordUse]
      by_cases hq : q = r
      · subst hq
        rw [if_neg hfresh, if_pos rfl, if_pos List.mem_cons_self]
      · simp only [List.mem_cons, hq, false_or, if_false]

/-- The counters stay within the tally when an accepted sentence uses different rules. -/
theorem within_recordUses (h : s.statistics.Within tally unknown) (hnodup : rules.Nodup)
    (label : Label) :
    (recordUses label rules s).2.statistics.Within (tally.after (Verdict.of? label true))
      (unknown + if label = .unknown then 1 else 0) := by
  intro q u hu
  rw [usage?_recordUses hnodup] at hu
  split at hu
  · obtain ⟨v, hv, rfl⟩ := Option.map_eq_some_iff.mp hu
    exact (h q v hv).record _ label
  · exact (h q u hu).pass label true

/-- Trading rules keeps the counters within the tally: newcomers have none. -/
theorem within_trades (h : s.statistics.Within tally unknown) (htrades : Trades s s') :
    s'.statistics.Within tally unknown := by
  intro q u hu
  rcases usage?_trades htrades hu with hbefore | rfl
  · exact h q u hbefore
  · exact Usage.within_unused

end Learner

end GrammarInduction
