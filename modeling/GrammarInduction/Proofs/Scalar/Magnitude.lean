import GrammarInduction.Proofs.Scalar.Rounding
import GrammarInduction.Proofs.Scalar.Value

/-!
# The magnitudes of doubles

A double that is not below zero is a whole multiple of the least positive one, and infinity takes the place of
the first power of two that no double reaches.  These multiples are ordered as the doubles are; that of a sum
is the sum of both, rounded, or infinity's.

* `Magnitude` — the multiple, of what is not below zero;
* `roundedMantissa_shiftRight` — bits that are shifted out decide as the rest of a division does;
* `round_scaled` — what is rounded has the rounded magnitude;
* `exists_magnitude`, `le_of_magnitude_le` — the order;
* `magnitude_add`, `magnitude_ofCount`, `exists_magnitude_half` — sums, counts and their halves.
-/

namespace GrammarInduction.Double

open Float.Model UnpackedFloat

/-! ## Shifted mantissas -/

/-- The last bit shifted out, and whether any bit before it was set. -/
theorem ofMantissa_shiftRight (m k : Nat) :
    ExtendedMantissa.ofMantissaAndAccuracy m .exact >>> k
      = ⟨m / 2 ^ k, decide (2 ^ k ≤ 2 * (m % 2 ^ k)), decide (2 * (m % 2 ^ k) % 2 ^ k ≠ 0)⟩ := by
  induction k with
  | zero => simp [ExtendedMantissa.ofMantissaAndAccuracy, HShiftRight.hShiftRight, Nat.repeat, Nat.mod_one]
  | succ k ih =>
      have hlt : m % 2 ^ k < 2 ^ k := Nat.mod_lt _ (Nat.two_pow_pos k)
      have hrest : m % 2 ^ (k + 1) = m % 2 ^ k + 2 ^ k * (m / 2 ^ k % 2) := Nat.mod_pow_succ
      have hdouble : 2 ^ (k + 1) = 2 * 2 ^ k := Nat.pow_succ'
      -- What was shifted out before is the rest; it is not zero if and only if a bit of it is set.
      have hsticky : 2 * (m % 2 ^ (k + 1)) % 2 ^ (k + 1) = 2 * (m % 2 ^ k) := by
        rw [hrest, Nat.mul_add, ← Nat.mul_assoc, ← hdouble, Nat.add_mul_mod_self_left]
        exact Nat.mod_eq_of_lt (by omega)
      have hbits : 2 ^ k ≤ 2 * (m % 2 ^ k) ∨ 2 * (m % 2 ^ k) % 2 ^ k ≠ 0 ↔ 2 * (m % 2 ^ k) ≠ 0 := by
        rcases Nat.lt_or_ge (2 * (m % 2 ^ k)) (2 ^ k) with hlow | hhigh
        · rw [Nat.mod_eq_of_lt hlow]
          omega
        · have := Nat.two_pow_pos k
          omega
      show (ExtendedMantissa.ofMantissaAndAccuracy m .exact >>> k).shiftRightOne = _
      rw [ih, ExtendedMantissa.shiftRightOne, Nat.div_div_eq_div_mul, ← Nat.pow_succ, hsticky]
      congr 1
      · rw [Bool.eq_iff_iff, bne_iff_ne, decide_eq_true_iff, hrest, hdouble]
        rcases Nat.mod_two_eq_zero_or_one (m / 2 ^ k) with hbit | hbit <;> rw [hbit] <;> omega
      · rw [Bool.eq_iff_iff, Bool.or_eq_true, decide_eq_true_iff, decide_eq_true_iff, decide_eq_true_iff]
        exact hbits

/-- Rounding what was shifted is rounding the quotient. -/
theorem roundedMantissa_shiftRight (m k : Nat) :
    (ExtendedMantissa.ofMantissaAndAccuracy m .exact >>> k).roundedMantissa = nearest m k := by
  have hlt : m % 2 ^ k < 2 ^ k := Nat.mod_lt _ (Nat.two_pow_pos k)
  rw [ofMantissa_shiftRight, nearest]
  rcases lt_trichotomy (2 * (m % 2 ^ k)) (2 ^ k) with hless | htie | hmore
  · rw [if_pos hless, decide_eq_false (Nat.not_le.mpr hless)]
    cases decide (2 * (m % 2 ^ k) % 2 ^ k ≠ 0) <;> rfl
  · rw [if_neg htie.ge.not_gt, if_pos htie, htie, Nat.mod_self, decide_eq_true (Nat.le_refl _)]
    rfl
  · have hrest : 2 * (m % 2 ^ k) % 2 ^ k ≠ 0 := by
      rw [Nat.mod_eq_sub_mod hmore.le, Nat.mod_eq_of_lt (by omega)]
      omega
    rw [if_neg hmore.not_gt, if_neg hmore.ne', decide_eq_true hmore.le, decide_eq_true hrest]
    rfl

/-! ## Rounding -/

theorem log2_mul_two_pow {n : Nat} (hn : n ≠ 0) (k : Nat) : (n * 2 ^ k).log2 = n.log2 + k := by
  rw [← Nat.shiftLeft_eq, log2_shiftLeft hn]

/-- A mantissa is shifted until 53 digits are left above the least exponent. -/
theorem shiftToTargetExponent_scaled {m low shift : Nat} (hm : m ≠ 0)
    (hshift : (m * 2 ^ low).log2 - 52 = low + shift) :
    shiftToTargetExponent Format.binary64 m (low - 1074) .exact
      = (ExtendedMantissa.ofMantissaAndAccuracy m .exact >>> shift, ((low + shift : Nat) : Int) - 1074) := by
  rw [log2_mul_two_pow hm] at hshift
  have htarget : Format.binary64.targetExponent (totalExponent m (low - 1074))
      = ((low + shift : Nat) : Int) - 1074 := by
    rw [targetExponent_eq]
    omega
  have hcount : (((low + shift : Nat) : Int) - 1074 - (low - 1074)).toNat = shift := by omega
  rw [shiftToTargetExponent, htarget, shiftToExponent, hcount]
  exact Prod.ext rfl (by dsimp only; omega)

/-- The digits of a mantissa that was rounded. -/
theorem nearest_bounds {m low shift : Nat} (hm : m ≠ 0)
    (hshift : (m * 2 ^ low).log2 - 52 = low + shift) :
    nearest m shift ≠ 0 ∧ nearest m shift ≤ 2 ^ 53 ∧ (2 ^ 52 ≤ nearest m shift ∨ low + shift = 0) := by
  rw [log2_mul_two_pow hm] at hshift
  obtain ⟨hlow, hhigh⟩ := (Nat.log2_eq_iff hm).mp rfl
  have hpos : 0 < 2 ^ shift := Nat.two_pow_pos shift
  have hless : m / 2 ^ shift < 2 ^ 53 := by
    rw [Nat.div_lt_iff_lt_mul hpos, ← Nat.pow_add]
    exact hhigh.trans_le (Nat.pow_le_pow_right Nat.two_pos (by omega))
  have hcases := nearest_cases m shift
  have hmore : 2 ^ 52 ≤ m / 2 ^ shift ∨ low + shift = 0 ∧ m / 2 ^ shift ≠ 0 := by
    by_cases hleast : low + shift = 0
    · obtain rfl : shift = 0 := by omega
      exact Or.inr ⟨hleast, by rwa [Nat.pow_zero, Nat.div_one]⟩
    · rw [Nat.le_div_iff_mul_le hpos, ← Nat.pow_add]
      exact Or.inl ((Nat.pow_le_pow_right Nat.two_pos (by omega)).trans hlow)
  generalize m / 2 ^ shift = quotient at hless hmore hcases
  omega

/-- Rounding up can end at the next power of two, which has one digit too many; that digit is a zero. -/
theorem exists_carry {r low : Nat} (hne : r ≠ 0) (hmost : r ≤ 2 ^ 53) (hdigits : 2 ^ 52 ≤ r ∨ low = 0) :
    ∃ more, (r * 2 ^ low).log2 - 52 = low + more ∧ r / 2 ^ more * 2 ^ more = r
      ∧ r / 2 ^ more < 2 ^ 53 ∧ (2 ^ 52 ≤ r / 2 ^ more ∨ low + more = 0) := by
  rw [log2_mul_two_pow hne]
  rcases hmost.lt_or_eq with hlt | rfl
  · have hlog : r.log2 < 53 := (Nat.log2_lt hne).mpr hlt
    refine ⟨0, ?_, by simp, by simpa using hlt, by simpa using hdigits⟩
    rcases hdigits with hnormal | rfl
    · have := (Nat.le_log2 hne).mpr hnormal
      omega
    · omega
  · refine ⟨1, ?_, by decide, by decide, Or.inl (by decide)⟩
    rw [Nat.log2_two_pow]
    omega

/-- What is rounded has the rounded magnitude, and a mantissa of the format. -/
theorem roundWithAccuracy_scaled (s : Sign) {m low shift : Nat} (hm : m ≠ 0)
    (hshift : (m * 2 ^ low).log2 - 52 = low + shift) :
    ∃ (m' low' : Nat) (h : 0 < m'),
      roundWithAccuracy Format.binary64 s m (low - 1074) .exact = .finite s m' (low' - 1074) h
        ∧ Standard m' (low' - 1074) ∧ m' * 2 ^ low' = rounded (m * 2 ^ low) := by
  obtain ⟨hne, hmost, hdigits⟩ := nearest_bounds hm hshift
  have hrounded : rounded (m * 2 ^ low) = nearest m shift * 2 ^ (low + shift) := by
    rw [rounded_def, hshift, Nat.add_comm low, nearest_mul_two_pow]
  have hfirst := shiftToTargetExponent_scaled hm hshift
  have hround := roundedMantissa_shiftRight m shift
  generalize nearest m shift = r at *
  obtain ⟨more, hmore, hdvd, hfew, hnormal⟩ := exists_carry hne hmost hdigits
  have hsecond := shiftToTargetExponent_scaled hne hmore
  have hmantissa : (ExtendedMantissa.ofMantissaAndAccuracy r .exact >>> more).mantissa = r / 2 ^ more :=
    mantissa_shiftRight _ _
  have hpos : r / 2 ^ more ≠ 0 := by
    intro hzero
    rw [hzero, Nat.zero_mul] at hdvd
    exact hne hdvd.symm
  refine ⟨r / 2 ^ more, low + shift + more, Nat.pos_of_ne_zero hpos, ?_, ⟨hfew, by omega, ?_⟩, ?_⟩
  · rw [roundWithAccuracy, hfirst]
    dsimp only
    rw [hround, hsecond]
    dsimp only
    generalize (ExtendedMantissa.ofMantissaAndAccuracy r .exact >>> more).mantissa = x at hmantissa ⊢
    subst hmantissa
    exact dif_neg hpos
  · exact hnormal.imp_right fun hleast => by omega
  · rw [hrounded, Nat.pow_add, Nat.mul_left_comm, hdvd, Nat.mul_comm]

/-- A mantissa of any length is rounded to one of the format. -/
theorem round_scaled (s : Sign) {m : Nat} (hm : m ≠ 0) (low : Nat) :
    ∃ (m' low' : Nat) (h : 0 < m'),
      UnpackedFloat.round Format.binary64 s m (low - 1074) = .finite s m' (low' - 1074) h
        ∧ Standard m' (low' - 1074) ∧ m' * 2 ^ low' = rounded (m * 2 ^ low) := by
  -- A short mantissa gets zeros first, as many as it lacks or the exponent allows.
  have hlog := log2_mul_two_pow hm low
  have htarget : Format.binary64.targetExponent (totalExponent m (low - 1074))
      = ((m.log2 + low - 52 : Nat) : Int) - 1074 := by
    rw [targetExponent_eq]
    omega
  have hcount : ((low : Int) - 1074 - (((m.log2 + low - 52 : Nat) : Int) - 1074)).toNat
      = low - (m.log2 + low - 52) := by omega
  have hexponent : (low : Int) - 1074 - ((low - (m.log2 + low - 52) : Nat) : Int)
      = (min low (m.log2 + low - 52) : Nat) - 1074 := by omega
  have hsame : m * 2 ^ (low - (m.log2 + low - 52)) * 2 ^ min low (m.log2 + low - 52) = m * 2 ^ low := by
    rw [Nat.mul_assoc, ← Nat.pow_add]
    congr 2
    omega
  have hshift : (m * 2 ^ (low - (m.log2 + low - 52)) * 2 ^ min low (m.log2 + low - 52)).log2 - 52
      = min low (m.log2 + low - 52) + (m.log2 + low - 52 - low) := by
    rw [hsame, hlog]
    omega
  rw [UnpackedFloat.round, htarget, decreaseExponent, hcount, hexponent, Nat.shiftLeft_eq, ← hsame]
  exact roundWithAccuracy_scaled s (Nat.mul_ne_zero hm (Nat.two_pow_pos _).ne') hshift

/-! ## Magnitudes -/

/-- The exponent of the first power of two that no double reaches. -/
@[irreducible] def overflowExponent : Nat := 2098

/-- The first power of two that no double reaches, in units of the least positive double. -/
@[irreducible] def overflow : Nat := 2 ^ overflowExponent

/-- How many times the least positive double goes into a double that is not below zero. -/
inductive Magnitude : UnpackedFloat → Nat → Prop
  | zero (s : Sign) : Magnitude (.zero s) 0
  | finite {m low : Nat} (hm : 0 < m) (standard : Standard m (low - 1074)) (small : low ≤ 2045) :
      Magnitude (.finite .positive m (low - 1074) hm) (m * 2 ^ low)
  | infinity : Magnitude (.infinity .positive) overflow

theorem overflow_pos : 0 < overflow := by
  rw [overflow]
  exact Nat.two_pow_pos _

theorem Standard.log2_eq {m : Nat} {e : Int} (h : Standard m e) (hnormal : hiddenBit ≤ m) :
    m.log2 = 52 :=
  (Nat.log2_eq_iff (by unfold hiddenBit at hnormal; omega)).mpr ⟨hnormal, h.digits⟩

theorem Standard.lt_overflow {m low : Nat} (h : Standard m (low - 1074)) (hlow : low ≤ 2045) :
    m * 2 ^ low < overflow :=
  calc m * 2 ^ low < 2 ^ 53 * 2 ^ low := Nat.mul_lt_mul_of_pos_right h.digits (Nat.two_pow_pos low)
    _ = 2 ^ (53 + low) := (Nat.pow_add ..).symm
    _ ≤ 2 ^ overflowExponent := Nat.pow_le_pow_right Nat.two_pos (by unfold overflowExponent; omega)
    _ = overflow := by rw [overflow]

/-- A double without all its digits unpacks to what was packed. -/
theorem unpack_pack_subnormal (s : Sign) {m : Nat} {e : Int} (hm : 0 < m) (hfew : m < hiddenBit)
    (he : e = -1074) : (Float.Model.pack (.finite s m e hm)).unpack = .finite s m e hm := by
  subst he
  have hlog : m.log2 < 52 := (Nat.log2_lt hm.ne').mpr hfew
  have hpack : UnpackedFloat.pack Format.binary64 (.finite s m (-1074) hm)
      = packComponents Format.binary64 s 0#11 (BitVec.ofNat 52 m) := by
    rw [pack_finite, if_neg (by decide)]
    exact if_neg (by show m.log2 + 1 ≠ 53; omega)
  show UnpackedFloat.unpack Format.binary64 (UnpackedFloat.pack Format.binary64 (.finite s m _ hm)) = _
  have h := encodes_unpack (UnpackedFloat.pack Format.binary64 (.finite s m (-1074) hm))
  rw [hpack] at h ⊢
  rw [ofBitVec_unpackSign_packComponents, unpackExponent_packComponents,
    unpackMantissa_packComponents] at h
  have hfraction : (BitVec.ofNat 52 m).toNat = m := Nat.mod_eq_of_lt hfew
  have hexponent : (0#11).toNat = 0 := rfl
  rw [hexponent, hfraction] at h
  generalize UnpackedFloat.unpack Format.binary64 _ = u at h ⊢
  cases h with
  | infinity top => omega
  | notANumber top => omega
  | zero least nothing => omega
  | @subnormal m' e' hm' least digits power =>
      obtain rfl : m' = m := digits
      obtain rfl : e' = -1074 := power
      rfl
  | normal more less digits power => exact absurd rfl more

/-- A double that is too large unpacks to infinity, any other to what was packed. -/
theorem magnitude_unpack_pack {m low : Nat} (hm : 0 < m) (h : Standard m (low - 1074)) :
    Magnitude (Float.Model.pack (.finite .positive m (low - 1074) hm)).unpack
      (min (m * 2 ^ low) overflow) := by
  rcases Nat.lt_or_ge low 2046 with hsmall | hlarge
  · rw [Nat.min_eq_left (h.lt_overflow (by omega)).le]
    rcases Nat.lt_or_ge m hiddenBit with hfew | hall
    · rw [unpack_pack_subnormal .positive hm hfew (h.normal.resolve_left (Nat.not_le.mpr hfew))]
      exact .finite hm h (by omega)
    · rw [unpack_pack_normal .positive hm (h.log2_eq hall) (by omega) (by omega)]
      exact .finite hm h (by omega)
  · have hall : hiddenBit ≤ m := h.normal.resolve_right (by omega)
    have hover : overflow ≤ m * 2 ^ low :=
      calc overflow = 2 ^ overflowExponent := by rw [overflow]
        _ ≤ 2 ^ (52 + low) := Nat.pow_le_pow_right Nat.two_pos (by unfold overflowExponent; omega)
        _ = 2 ^ 52 * 2 ^ low := Nat.pow_add ..
        _ ≤ m * 2 ^ low := Nat.mul_le_mul_right _ hall
    have hpack : UnpackedFloat.pack Format.binary64 (.finite .positive m (low - 1074) hm)
        = packedInfinity Format.binary64 .positive := by
      rw [pack_finite]
      refine if_pos ?_
      show 2048 ≤ ((low : Int) - 1074 + (1023 : Nat) + (52 : Nat)).toNat + 1
      omega
    rw [Nat.min_eq_right hover]
    show Magnitude (UnpackedFloat.unpack Format.binary64
      (UnpackedFloat.pack Format.binary64 (.finite .positive m (low - 1074) hm))) _
    rw [hpack]
    exact .infinity

/-! ## The order of magnitudes -/

/-- What is not below zero has a magnitude. -/
theorem exists_magnitude {x : Float} (hx : 0 ≤ x) : ∃ a, Magnitude x.toModel.unpack a := by
  obtain ⟨p, hp, q, hq, hle⟩ := le_iff.mp hx
  cases hp
  have hcanonical := canonical_unpack x
  have h := encodes x
  generalize (if x.toBits.toNat / hiddenBit / 2048 = 0 then Sign.positive else .negative) = sign at h
  generalize x.toModel.unpack = u at hq hcanonical h ⊢
  rcases u with (_ | _) | _ | s | ⟨_ | _, m, e, hm⟩
  case infinity.negative =>
    cases hq
    simp [Prod.Lex.toLex_le_toLex] at hle
  case infinity.positive => exact ⟨_, .infinity⟩
  case notANumber => cases hq
  case zero => exact ⟨_, .zero s⟩
  case finite.negative =>
    cases hq
    simp [Prod.Lex.toLex_le_toLex] at hle
  case finite.positive =>
    have hleast := hcanonical.least
    have hsmall : e ≤ 971 := by
      cases h with
      | subnormal least digits power => omega
      | normal more less digits power => omega
    obtain ⟨low, rfl⟩ : ∃ low : Nat, e = low - 1074 := ⟨(e + 1074).toNat, by omega⟩
    exact ⟨_, .finite hm hcanonical (by omega)⟩

/-- Magnitudes have the digits of a mantissa, and end at infinity's. -/
theorem Magnitude.fits {u : UnpackedFloat} {a : Nat} (h : Magnitude u a) : Fits a ∧ a ≤ overflow := by
  cases h with
  | zero s => exact ⟨fits_of_lt (by decide), Nat.zero_le _⟩
  | finite hm standard small => exact ⟨⟨_, _, standard.digits, rfl⟩, (standard.lt_overflow small).le⟩
  | infinity => exact ⟨⟨1, overflowExponent, by decide, by rw [overflow, Nat.one_mul]⟩, Nat.le_refl _⟩

/-- A greater exponent outweighs every mantissa. -/
theorem Standard.magnitude_lt {m n low low' : Nat} (hm : Standard m (low - 1074))
    (hn : Standard n (low' - 1074)) (h : low < low' ∨ low = low' ∧ m < n) :
    m * 2 ^ low < n * 2 ^ low' := by
  rcases h with hlt | ⟨rfl, hlt⟩
  · have hall : hiddenBit ≤ n := hn.normal.resolve_right (by omega)
    calc m * 2 ^ low < 2 * hiddenBit * 2 ^ low := Nat.mul_lt_mul_of_pos_right hm.digits (Nat.two_pow_pos low)
      _ = hiddenBit * 2 ^ (low + 1) := by rw [Nat.pow_succ]; ring
      _ ≤ n * 2 ^ low' := Nat.mul_le_mul hall (Nat.pow_le_pow_right Nat.two_pos hlt)
  · exact Nat.mul_lt_mul_of_pos_right hlt (Nat.two_pow_pos low)

theorem Magnitude.isSome_place? {u : UnpackedFloat} {a : Nat} (h : Magnitude u a) :
    (place? u).isSome = true := by
  cases h <;> rfl

/-- Magnitudes are ordered as the doubles are. -/
theorem Magnitude.lt_of_place_lt {u v : UnpackedFloat} {a b : Nat} (ha : Magnitude u a)
    (hb : Magnitude v b) {i j : Int ×ₗ Int ×ₗ Int} (hi : place? u = some i) (hj : place? v = some j)
    (hlt : i < j) : a < b := by
  cases ha with
  | zero s =>
      cases hi
      cases hb with
      | zero s' => cases hj; exact absurd hlt (lt_irrefl _)
      | finite hm standard small => exact Nat.mul_pos hm (Nat.two_pow_pos _)
      | infinity => exact overflow_pos
  | finite hm standard small =>
      cases hi
      cases hb with
      | zero s' =>
          cases hj
          simp [Prod.Lex.toLex_lt_toLex] at hlt
      | finite hn standard' small' =>
          cases hj
          simp [Prod.Lex.toLex_lt_toLex] at hlt
          exact standard.magnitude_lt standard' hlt
      | infinity => exact standard.lt_overflow small
  | infinity =>
      cases hi
      cases hb with
      | zero s' => cases hj; simp [Prod.Lex.toLex_lt_toLex] at hlt
      | finite hn standard' small' => cases hj; simp [Prod.Lex.toLex_lt_toLex] at hlt
      | infinity => cases hj; exact absurd hlt (lt_irrefl _)

/-- A double is below or equal to one of a magnitude that is not less. -/
theorem le_of_magnitude_le {x y : Float} {a b : Nat} (ha : Magnitude x.toModel.unpack a)
    (hb : Magnitude y.toModel.unpack b) (hle : a ≤ b) : x ≤ y := by
  obtain ⟨i, hi⟩ := Option.isSome_iff_exists.mp ha.isSome_place?
  obtain ⟨j, hj⟩ := Option.isSome_iff_exists.mp hb.isSome_place?
  refine le_iff.mpr ⟨i, hi, j, hj, not_lt.mp fun hlt => ?_⟩
  exact absurd (hb.lt_of_place_lt ha hj hi hlt) (Nat.not_lt.mpr hle)

/-! ## Sums -/

/-- What a double stands for is packed as that double. -/
theorem Magnitude.unpack_pack {u : UnpackedFloat} {a : Nat} (h : Magnitude u a) :
    Magnitude (Float.Model.pack u).unpack a := by
  have hfits := h.fits
  cases h with
  | zero s => cases s <;> exact .zero _
  | finite hm standard small =>
      have hpack := magnitude_unpack_pack hm standard
      rwa [Nat.min_eq_left hfits.2] at hpack
  | infinity => exact .infinity

theorem normalize_pos {n : Nat} (hn : n ≠ 0) (e : Int) :
    UnpackedFloat.normalize Format.binary64 n e .positive
      = UnpackedFloat.round Format.binary64 .positive n e := by
  have hcompare : compare (n : Int) 0 = .gt := compare_gt_iff_gt.mpr (by omega)
  rw [UnpackedFloat.normalize, hcompare]
  rfl

/-- Two mantissas are added at the lesser of their exponents. -/
theorem add_finite {m n low low' : Nat} (hm : 0 < m) (hn : 0 < n) :
    UnpackedFloat.add Format.binary64 (.finite .positive m (low - 1074) hm)
        (.finite .positive n (low' - 1074) hn)
      = UnpackedFloat.round Format.binary64 .positive
          (m * 2 ^ (low - min low low') + n * 2 ^ (low' - min low low')) ((min low low' : Nat) - 1074) := by
  have hleast : min ((low : Int) - 1074) (low' - 1074) = ((min low low' : Nat) : Int) - 1074 := by omega
  have hfirst : ((low : Int) - 1074 - (((min low low' : Nat) : Int) - 1074)).toNat = low - min low low' := by
    omega
  have hsecond : ((low' : Int) - 1074 - (((min low low' : Nat) : Int) - 1074)).toNat
      = low' - min low low' := by omega
  have hpos : m * 2 ^ (low - min low low') + n * 2 ^ (low' - min low low') ≠ 0 := by
    have := Nat.mul_pos hm (Nat.two_pow_pos (low - min low low'))
    omega
  rw [← normalize_pos hpos]
  show UnpackedFloat.normalize Format.binary64
    (((m <<< ((low : Int) - 1074 - min ((low : Int) - 1074) (low' - 1074)).toNat : Nat) : Int)
      + ((n <<< ((low' : Int) - 1074 - min ((low : Int) - 1074) (low' - 1074)).toNat : Nat) : Int))
    (min ((low : Int) - 1074) (low' - 1074)) .positive = _
  rw [hleast, hfirst, hsecond, Nat.shiftLeft_eq, Nat.shiftLeft_eq, Nat.cast_add]

/-- The magnitude of a sum is the sum of the magnitudes, rounded, or infinity's. -/
theorem magnitude_add {x y : Float} {a b : Nat} (ha : Magnitude x.toModel.unpack a)
    (hb : Magnitude y.toModel.unpack b) :
    Magnitude (x + y).toModel.unpack (min (rounded (a + b)) overflow) := by
  show Magnitude (Float.Model.pack
    (UnpackedFloat.add Format.binary64 x.toModel.unpack y.toModel.unpack)).unpack _
  generalize x.toModel.unpack = u at ha
  generalize y.toModel.unpack = v at hb
  obtain ⟨hfitsa, hmosta⟩ := ha.fits
  obtain ⟨hfitsb, hmostb⟩ := hb.fits
  have hinfinite : Fits overflow := Magnitude.infinity.fits.1
  cases ha with
  | infinity =>
      rw [Nat.min_eq_right (le_rounded hinfinite (Nat.le_add_right _ _))]
      cases hb <;> exact Magnitude.infinity.unpack_pack
  | zero s =>
      rw [Nat.zero_add, hfitsb.rounded_eq, Nat.min_eq_left hmostb]
      cases hb with
      | zero s' => cases s <;> cases s' <;> exact (Magnitude.zero _).unpack_pack
      | finite hm standard small => exact (Magnitude.finite hm standard small).unpack_pack
      | infinity => exact Magnitude.infinity.unpack_pack
  | @finite m low hm standard small =>
      cases hb with
      | zero s' =>
          rw [Nat.add_zero, hfitsa.rounded_eq, Nat.min_eq_left hmosta]
          exact (Magnitude.finite hm standard small).unpack_pack
      | infinity =>
          rw [Nat.min_eq_right (le_rounded hinfinite (Nat.le_add_left _ _))]
          exact Magnitude.infinity.unpack_pack
      | @finite n low' hn standard' small' =>
          have hpos : m * 2 ^ (low - min low low') + n * 2 ^ (low' - min low low') ≠ 0 := by
            have := Nat.mul_pos hm (Nat.two_pow_pos (low - min low low'))
            omega
          have hsum : (m * 2 ^ (low - min low low') + n * 2 ^ (low' - min low low')) * 2 ^ min low low'
              = m * 2 ^ low + n * 2 ^ low' := by
            rw [Nat.add_mul, Nat.mul_assoc, Nat.mul_assoc, ← Nat.pow_add, ← Nat.pow_add,
              Nat.sub_add_cancel (Nat.min_le_left ..), Nat.sub_add_cancel (Nat.min_le_right ..)]
          obtain ⟨m', low'', h, hround, standard'', hrounded⟩ := round_scaled .positive hpos (min low low')
          rw [add_finite hm hn, hround, ← hsum, ← hrounded]
          exact magnitude_unpack_pack h standard''

/-! ## Counts -/

/-- The exponent of one. -/
@[irreducible] def unitExponent : Nat := 1074

/-- How many times the least positive double goes into one. -/
@[irreducible] def unit : Nat := 2 ^ unitExponent

theorem rounded_mul_unit (n : Nat) : rounded (n * unit) = rounded n * unit := by
  rw [unit, rounded_mul_two_pow]

/-- No count of a machine word comes near the overflow. -/
theorem rounded_mul_unit_le {n : Nat} (hword : n < wordCount) : rounded n * unit ≤ overflow := by
  have hmost : rounded n ≤ 2 ^ 64 := rounded_le ⟨1, 64, by decide, by decide⟩ hword.le
  calc rounded n * unit ≤ 2 ^ 64 * unit := Nat.mul_le_mul_right _ hmost
    _ = 2 ^ (64 + unitExponent) := by rw [unit, Nat.pow_add]
    _ ≤ 2 ^ overflowExponent := Nat.pow_le_pow_right Nat.two_pos (by
        unfold unitExponent overflowExponent
        omega)
    _ = overflow := by rw [overflow]

/-- A count of a machine word has its own magnitude, rounded. -/
theorem magnitude_ofCount {n : Nat} (hword : n < wordCount) :
    Magnitude (Scalar.ofCount n : Float).toModel.unpack (rounded n * unit) := by
  rw [toModel_ofCount hword]
  by_cases hzero : n = 0
  · subst hzero
    rw [rounded_of_lt (by decide), Nat.zero_mul]
    exact .zero .positive
  · have hexponent : ((unitExponent : Nat) : Int) - 1074 = 0 := by
      unfold unitExponent
      omega
    obtain ⟨m, low, hm, hround, standard, hrounded⟩ := round_scaled .positive hzero unitExponent
    have hmagnitude := magnitude_unpack_pack hm standard
    rw [hexponent] at hround
    rw [hrounded, ← unit, rounded_mul_unit, Nat.min_eq_left (rounded_mul_unit_le hword), ← hround,
      ← normalize_pos hzero] at hmagnitude
    exact hmagnitude

/-- The half of a count of a machine word has half its magnitude. -/
theorem exists_magnitude_half {n : Nat} (hpos : n ≠ 0) (hword : n < wordCount) :
    ∃ a, Magnitude (Scalar.ofCount n / Scalar.ofCount 2 : Float).toModel.unpack a
      ∧ 2 * a = rounded n * unit := by
  obtain ⟨m, e, hm, hvalue, hlog, hlow, hhigh⟩ := exists_ofCount hpos hword
  have hunpack : (Scalar.ofCount n : Float).toModel.unpack = .finite .positive m e hm := by
    rw [hvalue]
    exact unpack_pack_normal _ hm hlog (by omega) (by omega)
  have hcount := magnitude_ofCount hword
  rw [hunpack] at hcount
  generalize rounded n * unit = a at hcount ⊢
  cases hcount with
  | @finite m low hm standard small =>
      obtain ⟨half, rfl⟩ : ∃ half, low = half + 2 := ⟨low - 2, by omega⟩
      have hshift : (2 * m * 2 ^ half).log2 - 52 = half + 1 := by
        rw [log2_mul_two_pow (by omega), Nat.log2_two_mul hm.ne', hlog]
        omega
      have hexponent : ((half + 2 : Nat) : Int) - 1074 - 2 = half - 1074 := by omega
      have hdouble : 2 * m * 2 ^ half = m * 2 ^ (half + 1) := by
        rw [Nat.pow_succ]
        ring
      have hmost : m * 2 ^ (half + 1) ≤ overflow :=
        (Nat.mul_le_mul_left m (Nat.pow_le_pow_right Nat.two_pos (Nat.le_succ _))).trans
          (standard.lt_overflow small).le
      obtain ⟨m', low', h, hround, standard', hrounded⟩ :=
        roundWithAccuracy_scaled .positive (by omega : 2 * m ≠ 0) hshift
      have hmagnitude := magnitude_unpack_pack h standard'
      rw [hrounded, hdouble, Fits.rounded_eq ⟨m, half + 1, standard.digits, rfl⟩, Nat.min_eq_left hmost,
        ← hround, ← hexponent, ← div_two hm hlog hlow] at hmagnitude
      refine ⟨m * 2 ^ (half + 1), ?_, ?_⟩
      · show Magnitude (Float.Model.pack (UnpackedFloat.div Format.binary64
          (Scalar.ofCount n : Float).toModel.unpack (Scalar.ofCount 2 : Float).toModel.unpack)).unpack _
        rw [hunpack, unpack_ofCount_two]
        exact hmagnitude
      · rw [Nat.pow_succ 2 (half + 1)]
        ring

end GrammarInduction.Double
