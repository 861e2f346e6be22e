import GrammarInduction.Learning.Run
import GrammarInduction.Proofs.Attempt

/-!
# Every labelled sentence is counted once

Whatever coverage makes up while a sentence is parsed, the sentence gets one verdict by its label: a
member is a true positive or a false negative, a non-member a true negative or a false positive.  So the
tally of a pass has as many verdicts of either kind as there are sentences of either label.

* `Tally.positives`, `Tally.negatives` — the two kinds of verdicts;
* `Learner.parse_verdict` — the verdict of a parse is one on the label of its sentence;
* `Run.pass_counts` — the verdicts of a pass.
-/

namespace GrammarInduction

open Attempt

namespace Tally

/-- The verdicts on members. -/
def positives (t : Tally) : Nat := t.truePositives + t.falseNegatives

/-- The verdicts on sentences known not to be members. -/
def negatives (t : Tally) : Nat := t.trueNegatives + t.falsePositives

theorem verdicts_eq (t : Tally) : t.verdicts = t.positives + t.negatives := by
  unfold verdicts positives negatives
  omega

theorem positives_after (t : Tally) (label : Label) (accepted : Bool) :
    (t.after (Verdict.of? label accepted)).positives
      = t.positives + if label = .positive then 1 else 0 := by
  unfold positives
  cases label <;> cases accepted <;> simp only [Verdict.of?, after, withCount, count] <;> simp <;> omega

theorem negatives_after (t : Tally) (label : Label) (accepted : Bool) :
    (t.after (Verdict.of? label accepted)).negatives
      = t.negatives + if label = .negative then 1 else 0 := by
  unfold negatives
  cases label <;> cases accepted <;> simp only [Verdict.of?, after, withCount, count] <;> simp <;> omega

end Tally

variable {α : Type} [Scalar α]

/-- A parse keeps the label of its sentence, and its verdict is one on that label. -/
theorem Learner.parse_verdict (coverage : Coverage α) (w : Sentence) (s : Learner α) :
    Ensures (parse coverage w) s (fun _ _ => True) fun parse _ =>
      parse.label = w.label ∧ parse.verdict? = Verdict.of? w.label parse.accepted := by
  refine ensures_bind.mpr (ensures_get.mpr (ensures_bind.mpr ?_))
  refine (ensures_self _ s).mono (fun _ _ _ => trivial) fun t s' _ => ?_
  exact ensures_pure.mpr ⟨rfl, rfl⟩

/-- **A pass has one verdict for each labelled sentence.** -/
theorem Run.pass_counts (variant : Variant) (coverage : Coverage α) (ws : List Sentence)
    (tally : Tally) (s : Learner α) :
    Ensures (pass variant coverage ws tally) s (fun _ _ => True) fun tally' _ =>
      tally'.positives = tally.positives + ws.countP (fun w => decide (w.label = .positive))
        ∧ tally'.negatives
          = tally.negatives + ws.countP fun w => decide (w.label = .negative) := by
  induction ws generalizing tally s with
  | nil => exact ensures_pure.mpr ⟨rfl, rfl⟩
  | cons w ws ih =>
      refine ensures_bind.mpr (ensures_bind.mpr ((Learner.parse_verdict coverage w s).imp ?_))
      intro parse s₁ hverdict
      obtain ⟨-, hverdict⟩ := hverdict
      refine ensures_bind.mpr ((ensures_self _ s₁).mono (fun _ _ _ => trivial) fun _ s₂ _ => ?_)
      refine ensures_of_except (fun _ _ => trivial) fun tally₁ hrecord => ?_
      obtain rfl := Tally.eq_of_record? hrecord
      refine (ih (tally.after parse.verdict?) s₂).imp fun tally' _ htally => ?_
      obtain ⟨hpositives, hnegatives⟩ := htally
      rw [hverdict, Tally.positives_after] at hpositives
      rw [hverdict, Tally.negatives_after] at hnegatives
      simp only [List.countP_cons, decide_eq_true_eq]
      omega

/-- A pass has no more verdicts than sentences. -/
theorem Run.verdicts_pass_le {variant : Variant} {coverage : Coverage α} {ws : List Sentence}
    {s s' : Learner α} {tally : Tally}
    (h : pass variant coverage ws .zero s = (.ok tally, s')) : tally.verdicts ≤ ws.length := by
  obtain ⟨hpositives, hnegatives⟩ := (pass_counts variant coverage ws .zero s).of_ok h
  have hsplit := List.length_eq_countP_add_countP (fun w => decide (w.label = .positive)) (l := ws)
  have hapart : ws.countP (fun w => decide (w.label = .negative))
      ≤ ws.countP fun w => decide ¬ decide (w.label = .positive) = true := by
    refine List.countP_mono_left fun w _ hnegative => ?_
    rw [of_decide_eq_true hnegative]
    rfl
  rw [Tally.verdicts_eq]
  have hzero : Tally.zero.positives = 0 ∧ Tally.zero.negatives = 0 := ⟨rfl, rfl⟩
  omega

end GrammarInduction
