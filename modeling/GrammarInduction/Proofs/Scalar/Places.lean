import Mathlib.Algebra.Order.Ring.Abs
import Mathlib.Tactic.Linarith
import Mathlib.Tactic.LinearCombination
import Mathlib.Tactic.Ring
import GrammarInduction.Proofs.Scalar.Rounding

/-!
# The rounded sum of all places

The places from a number down to one are added up in turn, and every sum is rounded.  What rounding takes is
made up for: the places fall by one, so between two powers of two as much is filled up as is cut off, and of
the sums that lie half way all but the first are rounded up, since the even mantissa that such a sum leaves is
even again when the next one comes.  So a potential stays the same from place to place, and falls where a power
of two is passed, but by less than the places that are left then make up for.

* `addPlaces` — the rounded sum;
* `potential`, `potential_nearest` — what stays the same between two powers of two;
* `potential_le_addPlaces` — a run through several powers of two;
* `twice_le_addPlaces` — rounding takes nothing from the sum of fewer than `2 ^ 32` places;
* `rounded_le_addPlaces` — nor does the sum of any places fall below that of a word that wraps around.
-/

namespace GrammarInduction.Double

/-- The sum of a number and of all places from one on down, rounded after each. -/
def addPlaces (sum : Nat) : Nat → Nat
  | 0 => sum
  | m + 1 => addPlaces (rounded (sum + rounded (m + 1))) m

theorem addPlaces_zero (sum : Nat) : addPlaces sum 0 = sum := rfl

theorem addPlaces_succ (sum m : Nat) :
    addPlaces sum (m + 1) = addPlaces (rounded (sum + rounded (m + 1))) m := rfl

/-! ## What rounding takes -/

/-- Rounding moves a number by half a digit at most. -/
theorem nearest_error (n k : Nat) :
    2 * (nearest n k * 2 ^ k) ≤ 2 * n + 2 ^ k ∧ 2 * n ≤ 2 * (nearest n k * 2 ^ k) + 2 ^ k := by
  have hsplit := Nat.div_add_mod' n (2 ^ k)
  have hrest : n % 2 ^ k < 2 ^ k := Nat.mod_lt _ (Nat.two_pow_pos k)
  unfold nearest
  split
  · omega
  · split
    · rcases Nat.mod_two_eq_zero_or_one (n / 2 ^ k) with hparity | hparity <;> rw [hparity]
      · rw [Nat.add_zero]
        omega
      · rw [Nat.add_one_mul (n / 2 ^ k)]
        omega
    · rw [Nat.add_one_mul (n / 2 ^ k)]
      omega

/-- A sum that is a multiple of the last digit and a rest is rounded by the rest, except half way. -/
theorem nearest_mul_add (a w j : Nat) :
    nearest (a * 2 ^ (j + 1) + w) (j + 1)
      = if (w + 2 ^ j) % 2 ^ (j + 1) = 0 then
          a + (w + 2 ^ j) / 2 ^ (j + 1) - (a + (w + 2 ^ j) / 2 ^ (j + 1)) % 2
        else a + (w + 2 ^ j) / 2 ^ (j + 1) := by
  have hdigit : 2 ^ (j + 1) = 2 * 2 ^ j := Nat.pow_succ'
  have hpos : 0 < 2 ^ (j + 1) := Nat.two_pow_pos _
  have hquotient : (a * 2 ^ (j + 1) + w) / 2 ^ (j + 1) = a + w / 2 ^ (j + 1) := by
    rw [Nat.add_comm, Nat.add_mul_div_right _ _ hpos, Nat.add_comm]
  have hrest : (a * 2 ^ (j + 1) + w) % 2 ^ (j + 1) = w % 2 ^ (j + 1) := by
    rw [Nat.add_comm, Nat.add_mul_mod_self_right]
  have hsplit := Nat.div_add_mod' w (2 ^ (j + 1))
  have hlt : w % 2 ^ (j + 1) < 2 ^ (j + 1) := Nat.mod_lt _ hpos
  rw [nearest, hquotient, hrest]
  generalize w / 2 ^ (j + 1) = q at hsplit ⊢
  generalize w % 2 ^ (j + 1) = r at hsplit hlt ⊢
  generalize 2 ^ (j + 1) = u at *
  generalize 2 ^ j = h at *
  subst hdigit
  rcases Nat.lt_or_ge r h with hlow | hhigh
  · have hdiv : (w + h) / (2 * h) = q := by
      rw [Nat.div_eq_iff hpos]
      omega
    have hmod : (w + h) % (2 * h) = r + h := by
      rw [← hsplit, Nat.add_assoc, Nat.mul_comm, Nat.mul_add_mod, Nat.mod_eq_of_lt (by omega)]
    rw [hdiv, hmod, if_pos (by omega), if_neg (by omega)]
  · have hdiv : (w + h) / (2 * h) = q + 1 := by
      rw [Nat.div_eq_iff hpos, Nat.add_one_mul]
      omega
    have hmod : (w + h) % (2 * h) = r - h := by
      have hsum : w + h = (2 * h) * (q + 1) + (r - h) := by
        rw [← hsplit, Nat.mul_add_one, Nat.mul_comm q]
        omega
      rw [hsum, Nat.mul_add_mod, Nat.mod_eq_of_lt (by omega)]
    rw [hdiv, hmod, if_neg (by omega)]
    by_cases htie : r = h
    · rw [if_pos (by omega), if_pos (by omega)]
      omega
    · rw [if_neg (by omega), if_neg (by omega)]
      omega

/-! ## Between two powers of two -/

/-- How many last digits a place has, counted from half a digit below. -/
def level (j m : Nat) : Nat := (m + 2 ^ j) / 2 ^ (j + 1)

/-- How far a place is above its last digits, counted from half a digit below. -/
def phase (j m : Nat) : Nat := (m + 2 ^ j) % 2 ^ (j + 1)

/-- What the rests of the places that are left give, beyond what they take. -/
def slack (j m : Nat) : Int := m + 1 - ((phase j m : Int) - 2 ^ j + 1) ^ 2

/-- What the next sum half way takes: two digits if it will be rounded down. -/
def debt (j a m : Nat) : Nat :=
  if (a + (phase j m + 1) * level j m) % 2 = 0 then 0 else 2 * 2 ^ (j + 1)

/-- Twice the sum of all places that are left, on top of a mantissa. -/
def potential (j a m : Nat) : Int :=
  2 * (a * 2 ^ (j + 1)) + m * (m + 1) + slack j m - debt j a m

theorem level_add_phase (j m : Nat) : level j m * 2 ^ (j + 1) + phase j m = m + 2 ^ j :=
  Nat.div_add_mod' _ _

/-- From place to place the phase falls by one, or starts anew below the next level. -/
theorem phase_succ (j m : Nat) :
    phase j (m + 1) = phase j m + 1 ∧ level j (m + 1) = level j m
      ∨ phase j (m + 1) = 0 ∧ phase j m + 1 = 2 ^ (j + 1) ∧ level j (m + 1) = level j m + 1 := by
  have hpos : 0 < 2 ^ (j + 1) := Nat.two_pow_pos _
  have hlt : phase j m < 2 ^ (j + 1) := Nat.mod_lt _ hpos
  have hsplit := level_add_phase j m
  have hsucc : m + 1 + 2 ^ j = 2 ^ (j + 1) * level j m + (phase j m + 1) := by
    rw [Nat.mul_comm]
    omega
  rcases Nat.lt_or_ge (phase j m + 1) (2 ^ (j + 1)) with hinside | hend
  · left
    rw [phase, level, hsucc, Nat.mul_add_mod, Nat.mod_eq_of_lt hinside, Nat.mul_add_div hpos,
      Nat.div_eq_of_lt hinside]
    exact ⟨rfl, rfl⟩
  · have heq : phase j m + 1 = 2 ^ (j + 1) := by omega
    right
    rw [phase, level, hsucc, heq, Nat.mul_add_mod, Nat.mod_self, Nat.mul_add_div hpos, Nat.div_self hpos]
    exact ⟨rfl, rfl, rfl⟩

/-- Between two powers of two, adding a place leaves the potential as it is. -/
theorem potential_nearest (j a m : Nat) :
    potential j (nearest (a * 2 ^ (j + 1) + (m + 1)) (j + 1)) m = potential j a (m + 1) := by
  have hdigit : (2 : Int) ^ (j + 1) = 2 * 2 ^ j := pow_succ' 2 j
  have hplace : (level j (m + 1) : Int) * 2 ^ (j + 1) + phase j (m + 1) = m + 1 + 2 ^ j := by
    exact_mod_cast level_add_phase j (m + 1)
  rw [nearest_mul_add]
  change potential j (if phase j (m + 1) = 0 then a + level j (m + 1) - (a + level j (m + 1)) % 2
    else a + level j (m + 1)) m = _
  rcases phase_succ j m with ⟨hphase, hlevel⟩ | ⟨hphase, hend, hlevel⟩
  · -- No sum is half way, and the next that is will be rounded as before.
    have hdebt : debt j (a + level j (m + 1)) m = debt j a (m + 1) := by
      have hparity : a + level j m + (phase j m + 1) * level j m
          = a + (phase j m + 1 + 1) * level j m := by ring
      rw [debt, debt, hphase, hlevel, hparity]
    rw [if_neg (by omega), potential, potential, hdebt, slack, slack]
    rw [hphase] at hplace ⊢
    push_cast at hplace ⊢
    linear_combination 2 * hplace
  · -- The sum is half way.  The mantissa that it leaves is even, so there is no debt any more.
    have heven : debt j (a + level j (m + 1) - (a + level j (m + 1)) % 2) m = 0 := by
      rw [debt, if_pos]
      rw [hend, Nat.pow_succ', Nat.mul_assoc, Nat.add_mul_mod_self_left]
      omega
    have hdebt : (debt j a (m + 1) : Int) = 2 * (((a + level j (m + 1)) % 2 : Nat) : Int) * 2 ^ (j + 1) := by
      rw [debt, hphase, Nat.zero_add, Nat.one_mul]
      rcases Nat.mod_two_eq_zero_or_one (a + level j (m + 1)) with hparity | hparity <;> rw [hparity]
      · simp
      · simp
    have hend' : (phase j m : Int) + 1 = 2 * 2 ^ j := by
      rw [← hdigit]
      exact_mod_cast hend
    rw [if_pos hphase, potential, potential, heven, hdebt, slack, slack,
      Nat.cast_sub (Nat.mod_le _ _)]
    rw [hphase] at hplace ⊢
    push_cast at hplace ⊢
    rw [show (phase j m : Int) = 2 * 2 ^ j - 1 by linarith]
    linear_combination 2 * hplace

/-! ## Through several powers of two -/

theorem le_slack (j m : Nat) : (m : Int) + 1 - (2 ^ j) ^ 2 ≤ slack j m := by
  have hlow : (0 : Int) ≤ phase j m := Int.natCast_nonneg _
  have hhigh : (phase j m : Int) + 1 ≤ 2 * 2 ^ j := by
    have hlt : phase j m < 2 ^ (j + 1) := Nat.mod_lt _ (Nat.two_pow_pos _)
    rw [Nat.pow_succ'] at hlt
    exact_mod_cast hlt
  have hsquare : ((phase j m : Int) - 2 ^ j + 1) ^ 2 ≤ (2 ^ j) ^ 2 :=
    sq_le_sq' (by linarith) (by linarith)
  rw [slack]
  linarith

/-- The potential is at most what the places give that are left, and the next. -/
theorem potential_le (j a m : Nat) :
    potential j a m ≤ 2 * (a * 2 ^ (j + 1)) + m * (m + 1) + (m + 1) := by
  have hdebt : (0 : Int) ≤ debt j a m := Int.natCast_nonneg _
  have hsquare : 0 ≤ ((phase j m : Int) - 2 ^ j + 1) ^ 2 := sq_nonneg _
  rw [potential, slack]
  linarith

/-- The potential is less than that by a square of half a digit, and two digits, at most. -/
theorem le_potential (j a m : Nat) :
    2 * (a * 2 ^ (j + 1)) + m * (m + 1) + (m + 1) - (2 ^ j) ^ 2 - 2 * 2 ^ (j + 1) ≤ potential j a m := by
  have hdebt : (debt j a m : Int) ≤ 2 * 2 ^ (j + 1) := by
    unfold debt
    split
    · positivity
    · push_cast
      exact le_rfl
  have hslack := le_slack j m
  rw [potential]
  linarith

/-- Passing a power of two costs less than the power allows for. -/
theorem potential_nearest_succ (j a m : Nat) :
    potential j a (m + 1) + 4 ^ (j + 2)
      ≤ potential (j + 1) (nearest (a * 2 ^ (j + 1) + (m + 1)) (j + 2)) m + 4 ^ (j + 3) := by
  have hbefore := potential_le j a (m + 1)
  have hafter := le_potential (j + 1) (nearest (a * 2 ^ (j + 1) + (m + 1)) (j + 2)) m
  have herror : (2 : Int) * (a * 2 ^ (j + 1) + (m + 1))
      ≤ 2 * (nearest (a * 2 ^ (j + 1) + (m + 1)) (j + 2) * 2 ^ (j + 2)) + 2 ^ (j + 2) := by
    exact_mod_cast (nearest_error (a * 2 ^ (j + 1) + (m + 1)) (j + 2)).2
  have hdigit : (2 : Int) ^ (j + 1 + 1) = 2 * 2 ^ (j + 1) := pow_succ' 2 (j + 1)
  have hfour : (4 : Int) ^ (j + 2) = 4 * (2 ^ (j + 1)) ^ 2 := by
    rw [← pow_mul, show (4 : Int) = 2 ^ 2 from rfl, ← pow_mul, ← pow_add]
    congr 1
    omega
  have hsixteen : (4 : Int) ^ (j + 3) = 4 * 4 ^ (j + 2) := pow_succ' 4 (j + 2)
  have htwo : (2 : Int) ≤ 2 ^ (j + 1) := by
    rw [pow_succ']
    have := one_le_pow₀ (a := (2 : Int)) (n := j) (by norm_num)
    linarith
  push_cast at hbefore
  rw [hdigit] at hafter herror
  rw [hsixteen, hfour]
  generalize (2 : Int) ^ (j + 1) = digit at *
  nlinarith

/-- Where no place is left there is nothing to gain. -/
theorem potential_zero_le (j a : Nat) : potential j a 0 ≤ 2 * (a * 2 ^ (j + 1)) := by
  have hphase : phase j 0 = 2 ^ j := by
    rw [phase, Nat.zero_add, Nat.mod_eq_of_lt (Nat.pow_lt_pow_right (by decide) (Nat.lt_succ_self j))]
  have hslack : slack j 0 = 0 := by
    rw [slack, hphase]
    push_cast
    ring
  have hdebt : (0 : Int) ≤ debt j a 0 := Int.natCast_nonneg _
  rw [potential, hslack]
  push_cast
  linarith

/-- **No more is lost on the way through several powers of two than they allow for.** -/
theorem potential_le_addPlaces {top j a m : Nat} (hj : j + 1 ≤ top) (hleast : 2 ^ 52 ≤ a)
    (hmost : a ≤ 2 ^ 53) (hm : m < 2 ^ 53)
    (htop : 2 * (a * 2 ^ (j + 1)) + m * (m + 1) + m * 2 ^ top < 2 ^ (54 + top)) :
    potential j a m + 4 ^ (j + 2) ≤ 2 * addPlaces (a * 2 ^ (j + 1)) m + 4 ^ (top + 1) := by
  induction m generalizing j a with
  | zero =>
      have hbelow := potential_zero_le j a
      have hfour : (4 : Int) ^ (j + 2) ≤ 4 ^ (top + 1) := pow_le_pow_right₀ (by norm_num) (by omega)
      rewrite [addPlaces_zero]
      push_cast
      linarith only [hbelow, hfour]
  | succ m ih =>
      have hstart : 2 ^ (52 + (j + 1)) ≤ a * 2 ^ (j + 1) + (m + 1) :=
        calc 2 ^ (52 + (j + 1)) = 2 ^ 52 * 2 ^ (j + 1) := Nat.pow_add ..
          _ ≤ a * 2 ^ (j + 1) := Nat.mul_le_mul_right _ hleast
          _ ≤ a * 2 ^ (j + 1) + (m + 1) := Nat.le_add_right ..
      -- A sum that is rounded to some last digit leaves room for the places that are left.
      have hroom : ∀ k, k ≤ top → 2 * (nearest (a * 2 ^ (j + 1) + (m + 1)) k * 2 ^ k) + m * (m + 1)
          + m * 2 ^ top < 2 ^ (54 + top) := by
        intro k hk
        have herror := (nearest_error (a * 2 ^ (j + 1) + (m + 1)) k).1
        have hdigit : 2 ^ k ≤ 2 ^ top := Nat.pow_le_pow_right Nat.two_pos hk
        have hplaces : (m + 1) * (m + 1 + 1) = m * (m + 1) + 2 * (m + 1) := by ring
        rw [hplaces, Nat.add_one_mul m (2 ^ top)] at htop
        omega
      rewrite [addPlaces_succ, rounded_of_lt hm]
      rcases Nat.lt_or_ge (a * 2 ^ (j + 1) + (m + 1)) (2 ^ (53 + (j + 1))) with hinside | hpassed
      · have hmem := nearest_mem hstart hinside
        rewrite [rounded_eq hstart hinside, ← potential_nearest]
        exact ih hj hmem.1 hmem.2 (Nat.lt_of_succ_lt hm) (hroom _ hj)
      · have hlast : j + 2 ≤ top := by
          by_contra hnot
          obtain rfl : top = j + 1 := by omega
          have hdouble : 2 ^ (54 + (j + 1)) = 2 * 2 ^ (53 + (j + 1)) := by
            rw [← Nat.pow_succ']
            congr 1
            omega
          have hplaces : (m + 1) * (m + 1 + 1) = m * (m + 1) + 2 * (m + 1) := by ring
          omega
        have hend : a * 2 ^ (j + 1) + (m + 1) < 2 ^ (53 + (j + 2)) :=
          calc a * 2 ^ (j + 1) + (m + 1) < 2 ^ 53 * 2 ^ (j + 1) + 2 ^ 53 * 2 ^ (j + 1) :=
              Nat.add_lt_add_of_le_of_lt (Nat.mul_le_mul_right _ hmost)
                (hm.trans_le (Nat.le_mul_of_pos_right _ (Nat.two_pow_pos _)))
            _ = 2 ^ 53 * 2 ^ (j + 2) := by ring
            _ = 2 ^ (53 + (j + 2)) := (Nat.pow_add ..).symm
        have hpassed' : 2 ^ (52 + (j + 2)) ≤ a * 2 ^ (j + 1) + (m + 1) :=
          (Nat.pow_le_pow_right Nat.two_pos (by omega)).trans hpassed
        have hmem := nearest_mem hpassed' hend
        have hcost := potential_nearest_succ j a m
        have hrest := ih hlast hmem.1 hmem.2 (Nat.lt_of_succ_lt hm) (hroom _ hlast)
        rewrite [rounded_eq hpassed' hend]
        linarith only [hcost, hrest]

/-! ## From the first place on -/

/-- As long as a sum has the digits of a mantissa, nothing is rounded. -/
theorem addPlaces_exact {sum m : Nat} (h : 2 * sum + m * (m + 1) ≤ 2 ^ 54) :
    2 * addPlaces sum m = 2 * sum + m * (m + 1) := by
  induction m generalizing sum with
  | zero => rw [addPlaces_zero, Nat.zero_mul, Nat.add_zero]
  | succ m ih =>
      have hplaces : (m + 1) * (m + 1 + 1) = m * (m + 1) + 2 * (m + 1) := by ring
      rw [hplaces] at h ⊢
      rw [addPlaces_succ, rounded_of_le (by omega : m + 1 ≤ 2 ^ 53), rounded_of_le (by omega),
        ih (by omega)]
      ring

/-- If many places are left when the sums begin to be rounded, rounding takes nothing on the whole. -/
theorem twice_le_addPlaces_of_many (top : Nat) {sum m : Nat} (htop : 1 ≤ top) (hsum : sum < 2 ^ 53)
    (hm : m < 2 ^ 53) (hroom : 2 * sum + m * (m + 1) + m * 2 ^ top < 2 ^ (54 + top))
    (hmany : 2 ^ 54 + (4 ^ (top + 1) + 1) * (4 ^ (top + 1) + 1) ≤ 2 * sum + m * (m + 1)) :
    2 * sum + m * (m + 1) ≤ 2 * addPlaces sum m := by
  induction m generalizing sum with
  | zero => omega
  | succ m ih =>
      have hplaces : (m + 1) * (m + 1 + 1) = m * (m + 1) + 2 * (m + 1) := by ring
      have hdigit : 2 ≤ 2 ^ top := Nat.le_self_pow (by omega) 2
      rw [Nat.add_one_mul m (2 ^ top)] at hroom
      rw [addPlaces_succ, rounded_of_lt hm]
      rcases Nat.lt_or_ge (sum + (m + 1)) (2 ^ 53) with hexact | hpassed
      · have hrest := ih hexact (Nat.lt_of_succ_lt hm) (by omega) (by omega)
        rw [rounded_of_lt hexact]
        omega
      · -- The first sum that is rounded.
        have hmem := nearest_mem (k := 1) hpassed (by omega)
        have herror := nearest_error (sum + (m + 1)) 1
        have hrun := potential_le_addPlaces (j := 0) htop hmem.1 hmem.2 (Nat.lt_of_succ_lt hm) (by omega)
        have hstart := le_potential 0 (nearest (sum + (m + 1)) 1) m
        have hleft : 4 ^ (top + 1) ≤ m := by
          by_contra hfew
          have hproduct : (m + 1) * (m + 1 + 1) ≤ (4 ^ (top + 1) + 1) * (4 ^ (top + 1) + 1) :=
            Nat.mul_le_mul (by omega) (by omega)
          omega
        rw [rounded_eq (k := 1) hpassed (by omega)]
        zify at hleft herror hplaces ⊢
        rw [Nat.zero_add] at hrun hstart
        linarith only [hrun, hstart, hleft, herror.2, hplaces]

/-- **Rounding takes nothing from the sum of all places.** -/
theorem twice_le_addPlaces {n : Nat} (hn : n < 2 ^ 32) : n * (n + 1) ≤ 2 * addPlaces 0 n := by
  rcases le_or_gt (n * (n + 1)) (2 ^ 54) with hexact | hlarge
  · rw [addPlaces_exact (by omega)]
    omega
  have hmany : 2 ^ 27 ≤ n := by
    by_contra hfew
    have hproduct : n * (n + 1) ≤ 2 ^ 27 * 2 ^ 27 := Nat.mul_le_mul (by omega) (by omega)
    omega
  have hstart : 2 ^ 27 * (2 ^ 27 + 1) ≤ n * (n + 1) := Nat.mul_le_mul hmany (by omega)
  have hend : n * (n + 1) ≤ 2 ^ 32 * 2 ^ 32 := Nat.mul_le_mul hn.le hn
  -- Either one power of two is passed, or very many places are left at the first.
  rcases Nat.lt_or_ge (n * (n + 1) + n * 2 ^ 1) (2 ^ 55) with hone | hmore
  · have hsum : 2 * 0 + n * (n + 1) ≤ 2 * addPlaces 0 n :=
      twice_le_addPlaces_of_many 1 le_rfl (by omega) (by omega) (by omega) (by omega)
    omega
  · have hsum : 2 * 0 + n * (n + 1) ≤ 2 * addPlaces 0 n :=
      twice_le_addPlaces_of_many 11 (by omega) (by omega) (by omega) (by omega) (by omega)
    omega

/-! ## More places than a word can sum up -/

theorem fits_addPlaces {sum : Nat} (h : Fits sum) (m : Nat) : Fits (addPlaces sum m) := by
  induction m generalizing sum with
  | zero => exact h
  | succ m ih => exact ih (fits_rounded _)

/-- The sum of a number and places is no less than the number. -/
theorem le_addPlaces {sum : Nat} (h : Fits sum) (m : Nat) : sum ≤ addPlaces sum m := by
  induction m generalizing sum with
  | zero => exact Nat.le_refl _
  | succ m ih => exact (le_rounded h (Nat.le_add_right ..)).trans (ih (fits_rounded _))

/-- Below `2 ^ 64` rounding takes little. -/
theorem le_rounded_add {n : Nat} (h : n < 2 ^ 64) : n ≤ rounded n + 2 ^ 10 := by
  rcases Nat.lt_or_ge n (2 ^ 53) with hlt | hge
  · rw [rounded_of_lt hlt]
    exact Nat.le_add_right ..
  obtain ⟨k, hlow, hhigh⟩ := exists_binade hge
  have hk : 52 + k < 64 := (Nat.pow_lt_pow_iff_right (by decide)).mp (hlow.trans_lt h)
  have hdigit : 2 ^ k ≤ 2 ^ 11 := Nat.pow_le_pow_right Nat.two_pos (by omega)
  have herror := (nearest_error n k).2
  rw [rounded_eq hlow hhigh]
  omega

/-- Either the sum exceeds the half of all words, or rounding takes little from each place. -/
theorem addPlaces_large {m : Nat} (hm : m < 2 ^ 64) (sum : Nat) :
    2 ^ 64 ≤ 2 * addPlaces sum m ∨ 2 * sum + m * (m + 1) ≤ 2 * addPlaces sum m + m * 2 ^ 12 := by
  induction m generalizing sum with
  | zero =>
      rw [addPlaces_zero]
      omega
  | succ m ih =>
      have hplaces : (m + 1) * (m + 1 + 1) = m * (m + 1) + 2 * (m + 1) := by ring
      have hplace := le_rounded_add hm
      rw [addPlaces_succ]
      rcases Nat.lt_or_ge (sum + rounded (m + 1)) (2 ^ 64) with hsmall | hlarge
      · have hsum := le_rounded_add hsmall
        rcases ih (by omega) (rounded (sum + rounded (m + 1))) with hhalf | hlittle
        · exact Or.inl hhalf
        · right
          omega
      · have hhalf := (le_rounded ⟨1, 64, by decide, (Nat.one_mul _).symm⟩ hlarge).trans
          (le_addPlaces (fits_rounded _) m)
        left
        omega

/-- **The sum of all places is no less than what a word holds of it**, rounded. -/
theorem rounded_le_addPlaces {n : Nat} (hn : n < 2 ^ 63) :
    rounded (n * (n + 1) % 2 ^ 64) ≤ 2 * addPlaces 0 n := by
  have hfits : Fits (2 * addPlaces 0 n) := by
    have hdouble := (fits_addPlaces (fits_of_lt (by decide)) n).mul_two_pow 1 (n := addPlaces 0 n)
    rwa [Nat.pow_one, Nat.mul_comm] at hdouble
  refine rounded_le hfits ?_
  have hword : n * (n + 1) % 2 ^ 64 < 2 ^ 64 := Nat.mod_lt _ (by decide)
  rcases Nat.lt_or_ge n (2 ^ 32) with hfew | hmany
  · exact (Nat.mod_le _ _).trans (twice_le_addPlaces hfew)
  rcases addPlaces_large (m := n) (by omega) 0 with hhalf | hlittle
  · omega
  have hwrapped : 2 ^ 64 ≤ n * (n + 1) := (by decide : 2 ^ 64 ≤ 2 ^ 32 * 2 ^ 32).trans
    (Nat.mul_le_mul hmany (by omega))
  rcases le_or_gt n (2 ^ 52) with hless | hmore
  · omega
  · have hproduct : n * 2 ^ 52 ≤ n * (n + 1) := Nat.mul_le_mul_left _ (by omega)
    omega

end GrammarInduction.Double
