import GrammarInduction.Fault

/-!
# Machine words

Counts and coordinates are machine words of 64 bits.  A number that is too great for a word is a fault where
a sum or a product of given numbers comes to it.
-/

namespace GrammarInduction

/-- How many numbers a machine word can hold. -/
def wordCount : Nat := 0x10000000000000000

namespace Word

/-- A number that a word can hold, or the fault that none can. -/
def checked (n : Nat) : Except Fault Nat := if n < wordCount then .ok n else .error .overflow

variable {n m : Nat}

theorem checked_of_lt (h : n < wordCount) : checked n = .ok n := if_pos h

theorem checked_of_le (h : wordCount ≤ n) : checked n = .error .overflow := if_neg (Nat.not_lt.mpr h)

/-- What a word holds is the number itself. -/
theorem eq_of_checked (h : checked n = .ok m) : n < wordCount ∧ m = n := by
  by_cases hn : n < wordCount
  · rw [checked_of_lt hn] at h
    cases h
    exact ⟨hn, rfl⟩
  · rw [checked_of_le (Nat.not_lt.mp hn)] at h
    cases h

end Word

end GrammarInduction
