import Mathlib.Data.Nat.Prime.Basic
import GrammarInduction.Proofs.Scalar.Magnitude
import GrammarInduction.Proofs.Scalar.Places

/-!
# Sums of scalars

Scalars from zero on grow when one is added to another, and zero adds nothing.  The places of a ranking, added
up from the first, come to no less than the half of the product that says what their sum is, though every sum
of doubles is rounded and the product wraps around.

* `SummingScalar` — these laws, with the instances for rationals and doubles;
* `Scalar.places` — the places of a ranking, from the first on;
* `Scalar.le_foldl`, `Scalar.le_sum` — what follows for sums.
-/

namespace GrammarInduction

open Scalar

/-- The places of a ranking of some length, from the first to the last, which counts as one. -/
def Scalar.places (α : Type) [Scalar α] (n : Nat) : List α :=
  (List.range n).map fun place => ofCount (n - place)

/-- Scalars that, from zero on, grow by what is added to them, and among them the sum of all places. -/
class SummingScalar (α : Type) [Scalar α] : Prop extends HalvingScalar α where
  not_le_of_lt : ∀ {x y : α}, x < y → ¬ y ≤ x
  add_zero_le : ∀ {x : α}, 0 ≤ x → x + 0 ≤ x
  le_add_right : ∀ {x y : α}, 0 ≤ x → 0 ≤ y → x ≤ x + y
  le_add_left : ∀ {x y : α}, 0 ≤ x → 0 ≤ y → y ≤ x + y
  half_le_sum_places : ∀ {n : Nat}, 0 < n → n < 2 ^ 63 →
    (ofCount (n * (n + 1) % wordCount) / ofCount 2 : α) ≤ sum (places α n)

instance {α : Type} [Scalar α] [SummingScalar α] : StrictScalar α where
  not_le_of_lt := SummingScalar.not_le_of_lt

namespace Scalar

variable {α : Type} [Scalar α]

theorem places_succ (n : Nat) : places α (n + 1) = ofCount (n + 1) :: places α n := by
  rw [places, List.range_succ_eq_map, List.map_cons, List.map_map]
  refine congrArg _ (List.map_congr_left fun place _ => ?_)
  show ofCount (n + 1 - (place + 1)) = _
  rw [Nat.add_sub_add_right]

/-- The product of two neighbours has too few digits two to be a multiple of all words. -/
theorem mod_wordCount_ne_zero {n : Nat} (hpos : 0 < n) (hn : n < 2 ^ 63) :
    n * (n + 1) % wordCount ≠ 0 := by
  intro hzero
  have hdvd : 2 ^ 64 ∣ n * (n + 1) := Nat.dvd_of_mod_eq_zero hzero
  rcases Nat.even_or_odd n with heven | hodd
  · have hcoprime : Nat.Coprime (2 ^ 64) (n + 1) :=
      (Nat.coprime_two_left.mpr heven.add_one).pow_left 64
    have := Nat.le_of_dvd hpos (hcoprime.dvd_of_dvd_mul_right hdvd)
    omega
  · have hcoprime : Nat.Coprime (2 ^ 64) n := (Nat.coprime_two_left.mpr hodd).pow_left 64
    have := Nat.le_of_dvd (Nat.succ_pos n) (hcoprime.dvd_of_dvd_mul_left hdvd)
    omega

end Scalar

/-! ## Rationals -/

/-- Rationals add up all places exactly. -/
theorem Scalar.foldl_places (x : Rat) (n : Nat) :
    (places Rat n).foldl (· + ·) x = x + (n : Rat) * (n + 1) / 2 := by
  induction n generalizing x with
  | zero => 
      show x = _
      push_cast
      ring
  | succ n ih =>
      rw [places_succ, List.foldl_cons, ih]
      show (x + ((n + 1 : Nat) : Rat)) + _ = _
      push_cast
      ring

instance : SummingScalar Rat where
  not_le_of_lt := not_le_of_gt
  add_zero_le {x} _ := by
    show x + (0 : Rat) ≤ x
    rw [add_zero]
  le_add_right {x y} _ hy := by
    show x ≤ x + y
    exact le_add_of_nonneg_right hy
  le_add_left {x y} hx _ := by
    show y ≤ x + y
    exact le_add_of_nonneg_left hx
  half_le_sum_places {n} _ _ := by
    have hmod : ((n * (n + 1) % wordCount : Nat) : Rat) ≤ (n : Rat) * (n + 1) := by
      exact_mod_cast Nat.mod_le (n * (n + 1)) wordCount
    rw [Scalar.sum, foldl_places]
    show ((n * (n + 1) % wordCount : Nat) : Rat) / (2 : Nat) ≤ 0 + (n : Rat) * (n + 1) / 2
    push_cast
    linarith

/-! ## Doubles -/

namespace Double

/-- What adding a place does to a magnitude. -/
theorem min_rounded_add (c w : Nat) :
    min (rounded (min (c * unit) overflow + w * unit)) overflow
      = min (rounded (c + w) * unit) overflow := by
  have hfits : Fits overflow := Magnitude.infinity.fits.1
  rw [← rounded_mul_unit, Nat.add_mul]
  rcases Nat.le_total (c * unit) overflow with hsmall | hlarge
  · rw [Nat.min_eq_left hsmall]
  · rw [Nat.min_eq_right hlarge, Nat.min_eq_right (le_rounded hfits (Nat.le_add_right ..)),
      Nat.min_eq_right (le_rounded hfits (hlarge.trans (Nat.le_add_right ..)))]

/-- Doubles add up places with rounding. -/
theorem magnitude_foldl_places {x : Float} {c n : Nat} (hn : n < wordCount)
    (hx : Magnitude x.toModel.unpack (min (c * unit) overflow)) :
    Magnitude ((places Float n).foldl (· + ·) x).toModel.unpack
      (min (addPlaces c n * unit) overflow) := by
  induction n generalizing x c with
  | zero => exact hx
  | succ n ih =>
      have hstep := magnitude_add hx (magnitude_ofCount hn)
      rw [min_rounded_add] at hstep
      rw [places_succ, List.foldl_cons, addPlaces_succ]
      exact ih (Nat.lt_of_succ_lt hn) hstep

instance : SummingScalar Float where
  not_le_of_lt {x y} hlt hle := by
    obtain ⟨p, hp, q, hq, hpq⟩ := lt_iff.mp hlt
    obtain ⟨q', hq', p', hp', hqp⟩ := le_iff.mp hle
    cases Option.mem_unique hp hp'
    cases Option.mem_unique hq hq'
    exact absurd hpq (not_lt.mpr hqp)
  add_zero_le {x} hx := by
    obtain ⟨a, ha⟩ := exists_magnitude hx
    have hzero : Magnitude (0 : Float).toModel.unpack 0 := .zero .positive
    have hsum := magnitude_add ha hzero
    rw [Nat.add_zero, ha.fits.1.rounded_eq, Nat.min_eq_left ha.fits.2] at hsum
    exact le_of_magnitude_le hsum ha le_rfl
  le_add_right {x y} hx hy := by
    obtain ⟨a, ha⟩ := exists_magnitude hx
    obtain ⟨b, hb⟩ := exists_magnitude hy
    refine le_of_magnitude_le ha (magnitude_add ha hb) (Nat.le_min.mpr ⟨?_, ha.fits.2⟩)
    exact le_rounded ha.fits.1 (Nat.le_add_right ..)
  le_add_left {x y} hx hy := by
    obtain ⟨a, ha⟩ := exists_magnitude hx
    obtain ⟨b, hb⟩ := exists_magnitude hy
    refine le_of_magnitude_le hb (magnitude_add ha hb) (Nat.le_min.mpr ⟨?_, hb.fits.2⟩)
    exact le_rounded hb.fits.1 (Nat.le_add_left ..)
  half_le_sum_places {n} hpos hn := by
    have hword : n * (n + 1) % wordCount < wordCount := Nat.mod_lt _ (by decide)
    obtain ⟨a, ha, hdouble⟩ := exists_magnitude_half (mod_wordCount_ne_zero hpos hn) hword
    have hstart : Magnitude (0 : Float).toModel.unpack (min (0 * unit) overflow) := by
      rw [Nat.zero_mul, Nat.zero_min]
      exact .zero .positive
    have hsum := magnitude_foldl_places (hn.trans (by decide)) hstart
    refine le_of_magnitude_le ha hsum (Nat.le_min.mpr ⟨?_, ha.fits.2⟩)
    have hplaces : rounded (n * (n + 1) % wordCount) * unit ≤ 2 * addPlaces 0 n * unit :=
      Nat.mul_le_mul_right _ (rounded_le_addPlaces hn)
    rw [← hdouble, Nat.mul_assoc] at hplaces
    exact Nat.le_of_mul_le_mul_left hplaces Nat.two_pos

end Double

/-! ## What sums exceed -/

namespace Scalar

variable {α : Type} [Scalar α] [SummingScalar α] {x : α}

theorem nonNegative_nonneg (x : α) : 0 ≤ nonNegative x := by
  unfold nonNegative
  split
  · rename_i hpos
    exact OrderedScalar.le_of_lt hpos
  · exact zero_le_zero

/-- A running sum exceeds what it starts from, and all that is added. -/
theorem le_foldl {xs : List α} (hxs : ∀ w ∈ xs, 0 ≤ w) (hx : 0 ≤ x) :
    x ≤ xs.foldl (· + ·) x ∧ ∀ w ∈ xs, w ≤ xs.foldl (· + ·) x := by
  induction xs generalizing x with
  | nil => exact ⟨OrderedScalar.isNumber_right hx, fun w hw => nomatch hw⟩
  | cons w rest ih =>
      rw [List.forall_mem_cons] at hxs
      have hstep := SummingScalar.le_add_right hx hxs.1
      obtain ⟨hstart, hrest⟩ := ih hxs.2 (OrderedScalar.le_trans hx hstep)
      refine ⟨OrderedScalar.le_trans hstep hstart, List.forall_mem_cons.mpr ⟨?_, hrest⟩⟩
      exact OrderedScalar.le_trans (SummingScalar.le_add_left hx hxs.1) hstart

/-- Of what is not below zero, everything is at most the sum. -/
theorem le_sum {xs : List α} (hxs : ∀ w ∈ xs, 0 ≤ w) {w : α} (hw : w ∈ xs) : w ≤ sum xs :=
  (le_foldl hxs zero_le_zero).2 w hw

/-- Zeros do not add up to anything. -/
theorem sum_le_zero {xs : List α} (hxs : ∀ w ∈ xs, w = 0) : sum xs ≤ 0 := by
  have hfold : ∀ x : α, 0 ≤ x → x ≤ 0 → xs.foldl (· + ·) x ≤ 0 := by
    induction xs with
    | nil => exact fun x _ hx => hx
    | cons w rest ih =>
        rw [List.forall_mem_cons] at hxs
        intro x hlow hhigh
        rw [List.foldl_cons, hxs.1]
        exact ih hxs.2 (x + 0) (OrderedScalar.le_trans hlow (SummingScalar.le_add_right hlow zero_le_zero))
          (OrderedScalar.le_trans (SummingScalar.add_zero_le hlow) hhigh)
  exact hfold 0 zero_le_zero zero_le_zero

end Scalar

end GrammarInduction
