import Mathlib.Tactic.Linarith
import Mathlib.Tactic.Ring

/-!
# Rounding to the digits of a mantissa

A whole number of more than 53 digits is rounded to the nearest number that has a mantissa of 53 and zeros
after it; of two that are equally near to the one whose mantissa is even.  Numbers that have such a mantissa
stay, and the order is kept.

* `nearest` — the quotient by a power of two, rounded;
* `rounded` — the number that a double holds for a whole number;
* `Fits`, `fits_rounded` — a mantissa of 53 digits;
* `le_rounded`, `rounded_le` — rounding does not pass a number that has one;
* `rounded_eq` — rounding between two powers of two.
-/

namespace GrammarInduction.Double

/-- The quotient of a number by `2 ^ k`, rounded to the nearest, the even one of two. -/
def nearest (n k : Nat) : Nat :=
  if 2 * (n % 2 ^ k) < 2 ^ k then n / 2 ^ k
  else if 2 * (n % 2 ^ k) = 2 ^ k then n / 2 ^ k + n / 2 ^ k % 2
  else n / 2 ^ k + 1

/-- The number nearest to a whole number of those with a mantissa of 53 digits. -/
def rounded (n : Nat) : Nat := nearest n (n.log2 - 52) * 2 ^ (n.log2 - 52)

/-- The number has a mantissa of 53 digits, or fewer, and zeros after it. -/
def Fits (n : Nat) : Prop := ∃ m k, m < 2 ^ 53 ∧ n = m * 2 ^ k

theorem rounded_def (n : Nat) :
    rounded n = nearest n (n.log2 - 52) * 2 ^ (n.log2 - 52) := rfl

-- Nothing that follows computes a rounded number.
attribute [irreducible] rounded

/-- Rounding goes down or up to the next quotient, and up only if there is a rest. -/
theorem nearest_cases (n k : Nat) :
    nearest n k = n / 2 ^ k ∨ nearest n k = n / 2 ^ k + 1 ∧ n % 2 ^ k ≠ 0 := by
  have hpos : 0 < 2 ^ k := Nat.two_pow_pos k
  unfold nearest
  split
  · exact Or.inl rfl
  · split <;> omega

theorem nearest_of_dvd {n k : Nat} (h : 2 ^ k ∣ n) : nearest n k = n / 2 ^ k := by
  rcases nearest_cases n k with heq | ⟨-, hrest⟩
  · exact heq
  · exact absurd (Nat.mod_eq_zero_of_dvd h) hrest

/-- Zeros that are dropped do not count. -/
theorem nearest_mul_two_pow (n k j : Nat) : nearest (n * 2 ^ j) (k + j) = nearest n k := by
  have hpos : 0 < 2 ^ j := Nat.two_pow_pos j
  have hrest : 2 * (n * 2 ^ j % (2 ^ k * 2 ^ j)) = 2 * (n % 2 ^ k) * 2 ^ j := by
    rw [Nat.mul_mod_mul_right, Nat.mul_assoc]
  rw [nearest, nearest, Nat.pow_add, Nat.mul_div_mul_right _ _ hpos, hrest]
  exact if_congr (Nat.mul_lt_mul_right hpos) rfl (if_congr (Nat.mul_left_inj hpos.ne') rfl rfl)

/-- Between two neighbouring powers of two the numbers are rounded alike. -/
theorem rounded_eq {n k : Nat} (hlow : 2 ^ (52 + k) ≤ n) (hhigh : n < 2 ^ (53 + k)) :
    rounded n = nearest n k * 2 ^ k := by
  have hpos : n ≠ 0 := (Nat.lt_of_lt_of_le (Nat.two_pow_pos _) hlow).ne'
  have hlog : n.log2 = 52 + k := (Nat.log2_eq_iff hpos).mpr ⟨hlow, by rwa [Nat.add_right_comm]⟩
  rw [rounded_def, hlog, Nat.add_sub_cancel_left]

/-- Where a number lies that is too large to have 53 digits. -/
theorem exists_binade {n : Nat} (h : 2 ^ 53 ≤ n) :
    ∃ k, 2 ^ (52 + k) ≤ n ∧ n < 2 ^ (53 + k) := by
  have hpos : n ≠ 0 := by omega
  have hlog : 53 ≤ n.log2 := (Nat.le_log2 hpos).mpr h
  obtain ⟨hlow, hhigh⟩ := (Nat.log2_eq_iff hpos).mp rfl
  refine ⟨n.log2 - 52, ?_, ?_⟩
  · rwa [show 52 + (n.log2 - 52) = n.log2 by omega]
  · rwa [show 53 + (n.log2 - 52) = n.log2 + 1 by omega]

/-- Between two neighbouring powers of two the quotient has 53 digits, or is rounded to the next power. -/
theorem nearest_mem {n k : Nat} (hlow : 2 ^ (52 + k) ≤ n) (hhigh : n < 2 ^ (53 + k)) :
    2 ^ 52 ≤ nearest n k ∧ nearest n k ≤ 2 ^ 53 := by
  have hpos : 0 < 2 ^ k := Nat.two_pow_pos k
  have hleast : 2 ^ 52 ≤ n / 2 ^ k := by
    rw [Nat.le_div_iff_mul_le hpos, ← Nat.pow_add]
    exact hlow
  have hmost : n / 2 ^ k < 2 ^ 53 := by
    rw [Nat.div_lt_iff_lt_mul hpos, ← Nat.pow_add]
    exact hhigh
  rcases nearest_cases n k with heq | ⟨heq, -⟩ <;> omega

/-- A number of 53 digits stays. -/
theorem rounded_of_lt {n : Nat} (h : n < 2 ^ 53) : rounded n = n := by
  have hlog : n.log2 - 52 = 0 := by
    rcases Nat.eq_zero_or_pos n with rfl | hpos
    · rfl
    · have := (Nat.log2_lt hpos.ne').mpr h
      omega
  rw [rounded_def, hlog, Nat.pow_zero, Nat.mul_one, nearest_of_dvd (by simp), Nat.pow_zero, Nat.div_one]

/-- Rounding does not fall below a number that fits. -/
theorem le_rounded {x n : Nat} (hx : Fits x) (h : x ≤ n) : x ≤ rounded n := by
  rcases Nat.lt_or_ge n (2 ^ 53) with hlt | hge
  · rwa [rounded_of_lt hlt]
  obtain ⟨k, hlow, hhigh⟩ := exists_binade hge
  obtain ⟨m, j, hm, rfl⟩ := hx
  have hfloor : n / 2 ^ k * 2 ^ k ≤ rounded n := by
    rw [rounded_eq hlow hhigh]
    refine Nat.mul_le_mul_right _ ?_
    rcases nearest_cases n k with heq | ⟨heq, -⟩ <;> omega
  refine Nat.le_trans ?_ hfloor
  rcases Nat.le_total k j with hle | hle
  · -- Both are multiples of the last digit.
    obtain ⟨d, rfl⟩ := Nat.exists_eq_add_of_le hle
    rw [Nat.pow_add, Nat.mul_left_comm, Nat.mul_comm (2 ^ k)] at h ⊢
    exact Nat.mul_le_mul_right _ ((Nat.le_div_iff_mul_le (Nat.two_pow_pos k)).mpr h)
  · -- The number lies below the power of two that starts the digits.
    have hstart : 2 ^ 52 ≤ n / 2 ^ k := by
      rw [Nat.le_div_iff_mul_le (Nat.two_pow_pos k), ← Nat.pow_add]
      exact hlow
    rcases hle.lt_or_eq with hlt | rfl
    · calc m * 2 ^ j ≤ 2 ^ 53 * 2 ^ j := Nat.mul_le_mul_right _ hm.le
        _ = 2 ^ 52 * 2 ^ (j + 1) := by ring
        _ ≤ n / 2 ^ k * 2 ^ k := Nat.mul_le_mul hstart (Nat.pow_le_pow_right Nat.two_pos hlt)
    · exact Nat.mul_le_mul_right _ ((Nat.le_div_iff_mul_le (Nat.two_pow_pos j)).mpr h)

/-- Rounding does not rise above a number that fits. -/
theorem rounded_le {x n : Nat} (hx : Fits x) (h : n ≤ x) : rounded n ≤ x := by
  rcases Nat.lt_or_ge n (2 ^ 53) with hlt | hge
  · rwa [rounded_of_lt hlt]
  obtain ⟨k, hlow, hhigh⟩ := exists_binade hge
  obtain ⟨m, j, hm, rfl⟩ := hx
  have hkj : k ≤ j := by
    by_contra hlt
    have hshort : m * 2 ^ j < 2 ^ (52 + k) := by
      calc m * 2 ^ j < 2 ^ 53 * 2 ^ j := Nat.mul_lt_mul_of_pos_right hm (Nat.two_pow_pos j)
        _ = 2 ^ (53 + j) := (Nat.pow_add ..).symm
        _ ≤ 2 ^ (52 + k) := Nat.pow_le_pow_right Nat.two_pos (by omega)
    omega
  obtain ⟨d, rfl⟩ := Nat.exists_eq_add_of_le hkj
  rw [rounded_eq hlow hhigh]
  rw [Nat.pow_add, Nat.mul_left_comm, Nat.mul_comm (2 ^ k)] at h ⊢
  refine Nat.mul_le_mul_right _ ?_
  have hpos : 0 < 2 ^ k := Nat.two_pow_pos k
  have hdivmod := Nat.div_add_mod' n (2 ^ k)
  rcases nearest_cases n k with heq | ⟨heq, hrest⟩
  · rw [heq]
    exact Nat.div_le_of_le_mul (by rwa [Nat.mul_comm])
  · rw [heq, Nat.succ_le_iff, Nat.div_lt_iff_lt_mul hpos]
    refine lt_of_le_of_ne h fun hsame => hrest ?_
    rw [hsame, Nat.mul_mod_left]

/-- What is rounded fits. -/
theorem fits_rounded (n : Nat) : Fits (rounded n) := by
  rcases Nat.lt_or_ge n (2 ^ 53) with hlt | hge
  · exact ⟨n, 0, hlt, by rw [rounded_of_lt hlt, Nat.pow_zero, Nat.mul_one]⟩
  obtain ⟨k, hlow, hhigh⟩ := exists_binade hge
  rw [rounded_eq hlow hhigh]
  rcases (nearest_mem hlow hhigh).2.lt_or_eq with hlt | heq
  · exact ⟨nearest n k, k, hlt, rfl⟩
  · refine ⟨2 ^ 52, k + 1, by decide, ?_⟩
    rw [heq, Nat.pow_succ 2 k]
    ring

theorem Fits.rounded_eq {n : Nat} (h : Fits n) : rounded n = n :=
  Nat.le_antisymm (rounded_le h (Nat.le_refl n)) (le_rounded h (Nat.le_refl n))

/-- The first power of two with more digits stays as well. -/
theorem rounded_of_le {n : Nat} (h : n ≤ 2 ^ 53) : rounded n = n := by
  rcases h.lt_or_eq with hlt | rfl
  · exact rounded_of_lt hlt
  · exact Fits.rounded_eq ⟨1, 53, by decide, (Nat.one_mul _).symm⟩

theorem Fits.mul_two_pow {n : Nat} (h : Fits n) (j : Nat) : Fits (n * 2 ^ j) := by
  obtain ⟨m, k, hm, rfl⟩ := h
  exact ⟨m, k + j, hm, by rw [Nat.pow_add, Nat.mul_assoc]⟩

/-- Zeros at the end of a number stay. -/
theorem rounded_mul_two_pow (n j : Nat) : rounded (n * 2 ^ j) = rounded n * 2 ^ j := by
  rcases Nat.lt_or_ge n (2 ^ 53) with hlt | hge
  · rw [rounded_of_lt hlt]
    exact Fits.rounded_eq ⟨n, j, hlt, rfl⟩
  · obtain ⟨k, hlow, hhigh⟩ := exists_binade hge
    have hpos : 0 < 2 ^ j := Nat.two_pow_pos j
    rw [rounded_eq hlow hhigh, rounded_eq (k := k + j), nearest_mul_two_pow, Nat.pow_add, Nat.mul_assoc]
    · rw [← Nat.add_assoc, Nat.pow_add _ _ j]
      exact Nat.mul_le_mul_right _ hlow
    · rw [← Nat.add_assoc, Nat.pow_add _ _ j]
      exact Nat.mul_lt_mul_of_pos_right hhigh hpos

theorem fits_of_lt {n : Nat} (h : n < 2 ^ 53) : Fits n := ⟨n, 0, h, by rw [Nat.pow_zero, Nat.mul_one]⟩

end GrammarInduction.Double
