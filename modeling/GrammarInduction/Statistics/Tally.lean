import GrammarInduction.Grammar.Symbol
import GrammarInduction.Scalar
import GrammarInduction.Word

/-!
# Verdicts and their tally

A sentence of known membership that a grammar accepts or rejects gets one of four verdicts.  A tally
counts them, and five quotients of its counts measure the grammar; a quotient by zero is zero.  Counts are
machine words, and so are the sums of counts that the quotients are taken of: a sum that is none is a fault.

* `Tally.record` — one more verdict;
* `Tally.total`, `Tally.accuracy`, `Tally.sensitivity`, `Tally.specificity`, `Tally.precision`, `Tally.f1` —
  the count of all verdicts, and the measures.
-/

namespace GrammarInduction

/-- How the answer of a grammar stands to what is known of a sentence. -/
inductive Verdict where
  | truePositive
  | falsePositive
  | trueNegative
  | falseNegative
deriving DecidableEq, Repr

/-- The verdict on a label and an answer; where nothing is known there is none. -/
def Verdict.of? : Label → Bool → Option Verdict
  | .positive, true => some truePositive
  | .positive, false => some falseNegative
  | .negative, true => some falsePositive
  | .negative, false => some trueNegative
  | .unknown, _ => none

/-- How often each verdict was given. -/
structure Tally where
  truePositives : Nat
  trueNegatives : Nat
  falsePositives : Nat
  falseNegatives : Nat
deriving DecidableEq, Repr, Inhabited

namespace Tally

/-- The tally of no verdict. -/
def zero : Tally := ⟨0, 0, 0, 0⟩

/-- How often a verdict was given. -/
def count (t : Tally) : Verdict → Nat
  | .truePositive => t.truePositives
  | .falsePositive => t.falsePositives
  | .trueNegative => t.trueNegatives
  | .falseNegative => t.falseNegatives

/-- The tally with another count of a verdict. -/
def withCount (t : Tally) (n : Nat) : Verdict → Tally
  | .truePositive => { t with truePositives := n }
  | .falsePositive => { t with falsePositives := n }
  | .trueNegative => { t with trueNegatives := n }
  | .falseNegative => { t with falseNegatives := n }

/-- The tally after one more verdict. -/
def record (t : Tally) (v : Verdict) : Except Fault Tally := do
  let n ← Word.checked (t.count v + 1)
  pure (t.withCount n v)

/-- The tally after one more verdict, if there is one. -/
def record? (t : Tally) : Option Verdict → Except Fault Tally
  | some v => t.record v
  | none => pure t

/-- The number of all verdicts, whether there is a word for it or not. -/
def verdicts (t : Tally) : Nat :=
  t.truePositives + t.trueNegatives + t.falsePositives + t.falseNegatives

/-- The count of all verdicts. -/
def total (t : Tally) : Except Fault Nat := Word.checked t.verdicts

variable {α : Type} [Scalar α]

/-- The quotient of two counts, zero over zero. -/
def ratio (part whole : Nat) : α :=
  if whole = 0 then 0 else Scalar.ofCount part / Scalar.ofCount whole

/-- The share of right answers. -/
def accuracy (t : Tally) : Except Fault α := do
  let right ← Word.checked (t.truePositives + t.trueNegatives)
  pure (ratio right (← t.total))

/-- The share of some verdicts among them and others. -/
def shareOf (part others : Nat) : Except Fault α := do
  pure (ratio part (← Word.checked (part + others)))

/-- The share of members that were accepted. -/
def sensitivity (t : Tally) : Except Fault α := shareOf t.truePositives t.falseNegatives

/-- The share of non-members that were rejected. -/
def specificity (t : Tally) : Except Fault α := shareOf t.trueNegatives t.falsePositives

/-- The share of members among the accepted sentences. -/
def precision (t : Tally) : Except Fault α := shareOf t.truePositives t.falsePositives

/-- The harmonic mean of precision and sensitivity. -/
def f1 (t : Tally) : Except Fault α := do
  let p : α ← t.precision
  let r : α ← t.sensitivity
  pure (if 0 < p + r then Scalar.ofCount 2 * p * r / (p + r) else 0)

/-! ## What can be counted and measured -/

/-- The count of all verdicts is a word. -/
def Fits (t : Tally) : Prop := t.verdicts < wordCount

instance (t : Tally) : Decidable t.Fits := inferInstanceAs (Decidable (t.verdicts < wordCount))

theorem count_le_verdicts (t : Tally) (v : Verdict) : t.count v ≤ t.verdicts := by
  unfold verdicts
  cases v <;> dsimp only [count] <;> omega

theorem verdicts_withCount (t : Tally) (n : Nat) (v : Verdict) :
    (t.withCount n v).verdicts + t.count v = t.verdicts + n := by
  unfold verdicts
  cases v <;> dsimp only [withCount, count] <;> omega

/-- The tally with one more verdict, if there is one, whether its count is a word or not. -/
def after (t : Tally) : Option Verdict → Tally
  | some v => t.withCount (t.count v + 1) v
  | none => t

theorem verdicts_after_le (t : Tally) (verdict? : Option Verdict) :
    (t.after verdict?).verdicts ≤ t.verdicts + 1 := by
  cases verdict? with
  | none => exact Nat.le_succ _
  | some v =>
    have hnew := t.verdicts_withCount (t.count v + 1) v
    dsimp only [after]
    omega

/-- What is recorded is the verdict. -/
theorem eq_of_record? {t t' : Tally} {verdict? : Option Verdict}
    (h : t.record? verdict? = .ok t') : t' = t.after verdict? := by
  cases verdict? with
  | none => exact (Except.ok.inj h).symm
  | some v =>
    obtain ⟨n, hn, h⟩ := Fault.bind_eq_ok.mp h
    obtain ⟨-, rfl⟩ := Word.eq_of_checked hn
    exact (Except.ok.inj h).symm

/-- A tally whose verdicts can be counted together with one more has room for it. -/
theorem record?_of_lt {t : Tally} (h : t.verdicts + 1 < wordCount) (verdict? : Option Verdict) :
    t.record? verdict? = .ok (t.after verdict?) := by
  cases verdict? with
  | none => rfl
  | some v =>
    have hcount := t.count_le_verdicts v
    rw [record?, record, Word.checked_of_lt (by omega)]
    rfl

/-- Where all verdicts can be counted together, accuracy can be measured. -/
theorem accuracy_of_fits {t : Tally} (h : t.Fits) :
    t.accuracy = .ok (ratio (t.truePositives + t.trueNegatives) t.verdicts : α) := by
  have hright : t.truePositives + t.trueNegatives < wordCount := by
    unfold Fits verdicts at h
    omega
  rw [accuracy, total, Word.checked_of_lt hright, Word.checked_of_lt h]
  rfl

/-- Where they cannot, there is no accuracy. -/
theorem accuracy_of_not_fits {t : Tally} (h : ¬ t.Fits) :
    (t.accuracy : Except Fault α) = .error .overflow := by
  rw [accuracy, total, Word.checked_of_le (Nat.not_lt.mp h), Word.checked]
  split <;> rfl

end Tally

end GrammarInduction
