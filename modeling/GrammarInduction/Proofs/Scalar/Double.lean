import Mathlib.Algebra.Order.Ring.Int
import Mathlib.Data.Prod.Lex
import GrammarInduction.Proofs.Scalar.Order

/-!
# The order of doubles

Doubles are compared by sign, then by exponent, then by mantissa; so a lexicographic order of integers
says where a double lies, and what is no number lies nowhere.  The quotient of two counts is a number,
since the double nearest to a count of a machine word is finite, and not zero unless the count is.

* `Double.place?`, `Double.le_iff`, `Double.lt_iff` — where a double lies, and that the order says so;
* `Double.unpack_pack_ne` — a number is packed as a number;
* `Double.exists_ofCount`, `Double.isFinite_ofCount` — counts are finite;
* the instance of `CountingScalar` for doubles.
-/

namespace GrammarInduction.Double

open Float.Model UnpackedFloat

/-! ## Where doubles lie -/

/-- Where a double lies in the order, unless it is no number. -/
def place? : UnpackedFloat → Option (Int ×ₗ Int ×ₗ Int)
  | .notANumber => none
  | .infinity .negative => some (toLex (-2, toLex (0, 0)))
  | .finite .negative m e _ => some (toLex (-1, toLex (-e, -m)))
  | .zero _ => some (toLex (0, toLex (0, 0)))
  | .finite .positive m e _ => some (toLex (1, toLex (e, m)))
  | .infinity .positive => some (toLex (2, toLex (0, 0)))

theorem compare_neg (a b : Int) : compare (-a) (-b) = (compare a b).swap := by
  rw [← Std.OrientedOrd.eq_swap, compare_iff]
  cases h : compare b a <;> simp_all [compare_iff, Ordering.Compares]

theorem compare_cast (a b : Nat) : compare (a : Int) b = compare a b := by
  rw [compare_iff]
  cases h : compare a b <;> simp_all [compare_iff, Ordering.Compares]

theorem compare_toLex (x₁ x₂ x₃ y₁ y₂ y₃ : Int) :
    compare (α := Int ×ₗ Int ×ₗ Int) (toLex (x₁, toLex (x₂, x₃))) (toLex (y₁, toLex (y₂, y₃)))
      = (compare x₁ y₁).then ((compare x₂ y₂).then (compare x₃ y₃)) := rfl

/-- Doubles compare as their places do. -/
theorem compare_eq (a b : UnpackedFloat) : a.compare b = match place? a, place? b with
    | some p, some q => some (compare p q)
    | _, _ => none := by
  rcases a with (_ | _) | _ | _ | ⟨_ | _, m, e, hm⟩ <;>
    rcases b with (_ | _) | _ | _ | ⟨_ | _, n, f, hn⟩
  case finite.negative.finite.negative =>
    show some (Ordering.swap _) = some (compare _ _)
    rw [compare_toLex, compare_neg e f, compare_neg m n, compare_cast, Ordering.swap_then]
    rfl
  case finite.positive.finite.positive =>
    show some _ = some (compare _ _)
    rw [compare_toLex, compare_cast]
    rfl
  all_goals rfl

theorem float_le_iff {x y : Float} :
    x ≤ y ↔ x.toModel.unpack.le y.toModel.unpack = true := by
  show Float.le x y = true ↔ _
  rw [Float.le, decide_eq_true_iff]
  exact Iff.rfl

theorem float_lt_iff {x y : Float} :
    x < y ↔ x.toModel.unpack.lt y.toModel.unpack = true := by
  show Float.lt x y = true ↔ _
  rw [Float.lt, decide_eq_true_iff]
  exact Iff.rfl

theorem unpack_one :
    (1 : Float).toModel.unpack = .finite .positive 4503599627370496 (-52) (by decide) := rfl

theorem unpack_zero : (0 : Float).toModel.unpack = .zero .positive := rfl

theorem le_iff {x y : Float} : x ≤ y
    ↔ ∃ p ∈ place? x.toModel.unpack, ∃ q ∈ place? y.toModel.unpack, p ≤ q := by
  rw [float_le_iff, UnpackedFloat.le, compare_eq]
  cases place? x.toModel.unpack <;> cases place? y.toModel.unpack <;>
    simp [Ordering.isLE_iff_ne_gt, compare_gt_iff_gt]

theorem lt_iff {x y : Float} : x < y
    ↔ ∃ p ∈ place? x.toModel.unpack, ∃ q ∈ place? y.toModel.unpack, p < q := by
  rw [float_lt_iff, UnpackedFloat.lt, compare_eq]
  cases place? x.toModel.unpack <;> cases place? y.toModel.unpack <;> simp [compare_lt_iff_lt]

/-- The numbers are the doubles that lie somewhere. -/
theorem isNumber_iff {x : Float} :
    Scalar.IsNumber x ↔ (place? x.toModel.unpack).isSome = true := by
  refine le_iff.trans ?_
  cases place? x.toModel.unpack <;> simp

theorem isNumber_iff_ne {x : Float} : Scalar.IsNumber x ↔ x.toModel.unpack ≠ .notANumber := by
  rw [isNumber_iff]
  rcases x.toModel.unpack with (_ | _) | _ | _ | ⟨_ | _, m, e, hm⟩
  case notANumber => exact ⟨fun hsome => (nomatch hsome), fun hne => absurd rfl hne⟩
  all_goals exact ⟨fun _ => UnpackedFloat.noConfusion, fun _ => rfl⟩

/-! ## Packed numbers -/

/-- Only the greatest exponent with a mantissa other than zero stands for no number. -/
theorem unpack_ne {b : BitVec Format.binary64.numBits}
    (h : unpackExponent b = -1#11 → unpackMantissa b = 0#52) :
    UnpackedFloat.unpack Format.binary64 b ≠ .notANumber := by
  unfold UnpackedFloat.unpack
  by_cases htop : unpackExponent b = -1#11
  · rw [if_pos htop, if_pos (h htop)]
    exact UnpackedFloat.noConfusion
  · rw [if_neg htop]
    by_cases hbottom : unpackExponent b = 0#11
    · rw [if_pos hbottom]
      by_cases hzero : unpackMantissa b = 0#52
      · rw [dif_pos hzero]
        exact UnpackedFloat.noConfusion
      · rw [dif_neg hzero]
        exact UnpackedFloat.noConfusion
    · rw [if_neg hbottom]
      exact UnpackedFloat.noConfusion

theorem unpack_packComponents_ne {s : Sign} {e : BitVec 11} {m : BitVec 52}
    (h : e = -1#11 → m = 0#52) :
    UnpackedFloat.unpack Format.binary64 (packComponents Format.binary64 s e m) ≠ .notANumber := by
  refine unpack_ne fun he => ?_
  rw [unpackExponent_packComponents] at he
  rw [unpackMantissa_packComponents]
  exact h he

/-- How the parts of a finite double are packed. -/
theorem pack_finite (s : Sign) (m : Nat) (e : Int) (hm : 0 < m) :
    UnpackedFloat.pack Format.binary64 (.finite s m e hm)
      = if 2 ^ 11 ≤ (e + Format.binary64.exponentBias + (52 : Nat)).toNat + 1 then
          packedInfinity Format.binary64 s
        else if m.log2 + 1 = Format.binary64.mantissaBits then
          packComponents Format.binary64 s
            (BitVec.ofNat 11 (e + Format.binary64.exponentBias + (52 : Nat)).toNat) (BitVec.ofNat 52 m)
        else packComponents Format.binary64 s 0#11 (BitVec.ofNat 52 m) := rfl

/-- A number is packed as a number. -/
theorem unpack_pack_ne {x : UnpackedFloat} (h : x ≠ .notANumber) :
    (Float.Model.pack x).unpack ≠ .notANumber := by
  unfold Float.Model.pack Float.Model.unpack
  cases x with
  | notANumber => exact absurd rfl h
  | infinity s => exact unpack_packComponents_ne fun _ => rfl
  | zero s => exact unpack_packComponents_ne fun _ => rfl
  | finite s m e hm =>
      show UnpackedFloat.unpack Format.binary64
        (UnpackedFloat.pack Format.binary64 (.finite s m e hm)) ≠ _
      rw [pack_finite]
      split
      · exact unpack_packComponents_ne fun _ => rfl
      · rename_i hsmall
        have hexponent : (e + Format.binary64.exponentBias + (52 : Nat)).toNat + 1 < 2048 :=
          Nat.not_le.mp hsmall
        split
        · refine unpack_packComponents_ne fun he => absurd (congrArg BitVec.toNat he) ?_
          show (e + Format.binary64.exponentBias + (52 : Nat)).toNat % 2048 ≠ 2047
          omega
        · exact unpack_packComponents_ne fun he => absurd he (by decide)

/-! ## Counts -/

theorem mantissa_shiftRight (em : ExtendedMantissa) (k : Nat) :
    (em >>> k).mantissa = em.mantissa / 2 ^ k := by
  induction k generalizing em with
  | zero => simp [HShiftRight.hShiftRight, Nat.repeat]
  | succ k ih =>
      show (em >>> k).mantissa / 2 = _
      rw [ih, Nat.div_div_eq_div_mul, Nat.pow_succ]

theorem log2_shiftLeft {n : Nat} (hn : n ≠ 0) (k : Nat) : (n <<< k).log2 = n.log2 + k := by
  induction k with
  | zero => rfl
  | succ k ih =>
      have hne : n <<< k ≠ 0 := by simpa [Nat.shiftLeft_eq] using hn
      rw [Nat.shiftLeft_succ, Nat.log2_two_mul hne, ih, Nat.add_assoc]

/-- Dropping digits of a number leaves the others. -/
theorem log2_div_two_pow {n k d : Nat} (h : n.log2 = d + k) (hn : n ≠ 0) :
    (n / 2 ^ k).log2 = d := by
  obtain ⟨hlow, hhigh⟩ := (Nat.log2_eq_iff hn).mp h
  have hpow : 0 < 2 ^ k := Nat.two_pow_pos k
  rw [Nat.pow_add] at hlow
  rw [Nat.add_right_comm, Nat.pow_add] at hhigh
  have hle : 2 ^ d ≤ n / 2 ^ k := (Nat.le_div_iff_mul_le hpow).mpr hlow
  have hne : n / 2 ^ k ≠ 0 := Nat.pos_iff_ne_zero.mp (Nat.lt_of_lt_of_le (Nat.two_pow_pos d) hle)
  exact (Nat.log2_eq_iff hne).mpr ⟨hle, (Nat.div_lt_iff_lt_mul hpow).mpr hhigh⟩

/-- Rounding goes to the next mantissa at most. -/
theorem roundedMantissa_cases (em : ExtendedMantissa) :
    em.roundedMantissa = em.mantissa ∨ em.roundedMantissa = em.mantissa + 1 := by
  obtain ⟨m, r, s⟩ := em
  cases r <;> cases s <;>
    simp [ExtendedMantissa.roundedMantissa, ExtendedMantissa.accuracy, Accuracy.roundToNearestEven]
  omega

/-- The exponent of a mantissa of 53 digits, but no less than the least. -/
theorem targetExponent_eq (m : Nat) (e : Int) :
    Format.binary64.targetExponent (totalExponent m e) = max (m.log2 + 1 + e - 53) (-1074) := rfl

/-- A mantissa of 53 digits or more is shifted to 53, above the least exponent. -/
theorem shiftToTargetExponent_normal {m : Nat} {e : Int} (a : Accuracy) (hm : 52 ≤ m.log2)
    (he : -1074 ≤ m.log2 + e - 52) :
    ∃ em, shiftToTargetExponent Format.binary64 m e a = (em, m.log2 + e - 52)
      ∧ em.mantissa.log2 = 52 := by
  have htarget : Format.binary64.targetExponent (totalExponent m e) = m.log2 + e - 52 := by
    rw [targetExponent_eq]
    omega
  have hshift : (m.log2 + e - 52 - e).toNat = m.log2 - 52 := by omega
  have hstart : (ExtendedMantissa.ofMantissaAndAccuracy m a).mantissa = m := by
    cases a with
    | exact => rfl
    | inexact o => cases o <;> rfl
  rw [shiftToTargetExponent, htarget, shiftToExponent, hshift]
  refine ⟨_, Prod.ext rfl ?_, ?_⟩
  · dsimp only
    omega
  · have hne : m ≠ 0 := by
      rintro rfl
      exact absurd hm (by decide)
    rw [mantissa_shiftRight, hstart]
    exact log2_div_two_pow (by omega) hne

/-- A mantissa of 53 digits or more is rounded to one of 53, above the least exponent. -/
theorem roundWithAccuracy_normal {s : Sign} {m : Nat} {e : Int} (a : Accuracy) (hm : 52 ≤ m.log2)
    (he : -1074 ≤ m.log2 + e - 52) :
    ∃ m' e' h, roundWithAccuracy Format.binary64 s m e a = .finite s m' e' h ∧ m'.log2 = 52
      ∧ m.log2 + e - 52 ≤ e' ∧ e' ≤ m.log2 + e - 51 := by
  obtain ⟨first, hfirst, hlog⟩ := shiftToTargetExponent_normal a hm he
  have hpos : first.mantissa ≠ 0 := by
    intro hzero
    simp [hzero] at hlog
  have hdigits := (Nat.log2_eq_iff hpos).mp hlog
  -- Rounding up can take the mantissa to the next power of two, but no further.
  have hrounded : 52 ≤ first.roundedMantissa.log2 ∧ first.roundedMantissa.log2 < 54 := by
    have hne : first.roundedMantissa ≠ 0 := by
      rcases roundedMantissa_cases first with h | h <;> omega
    rw [Nat.le_log2 hne, Nat.log2_lt hne]
    rcases roundedMantissa_cases first with h | h <;> omega
  obtain ⟨second, hsecond, hlog'⟩ :=
    shiftToTargetExponent_normal (e := m.log2 + e - 52) .exact hrounded.1 (by omega)
  have hne : second.mantissa ≠ 0 := by
    intro hzero
    simp [hzero] at hlog'
  refine ⟨second.mantissa, first.roundedMantissa.log2 + (m.log2 + e - 52) - 52,
    Nat.pos_of_ne_zero hne, ?_, hlog', by omega, by omega⟩
  rw [roundWithAccuracy, hfirst]
  dsimp only
  rw [hsecond]
  exact dif_neg hne

/-- What is rounded is a number. -/
theorem roundWithAccuracy_ne (s : Sign) (m : Nat) (e : Int) (a : Accuracy) :
    roundWithAccuracy Format.binary64 s m e a ≠ .notANumber := by
  unfold roundWithAccuracy
  generalize shiftToTargetExponent Format.binary64 m e a = first
  dsimp only
  generalize shiftToTargetExponent Format.binary64 first.1.roundedMantissa first.2 .exact = second
  by_cases hzero : second.1.mantissa = 0
  · rw [dif_pos hzero]
    exact UnpackedFloat.noConfusion
  · rw [dif_neg hzero]
    exact UnpackedFloat.noConfusion

/-- Not zero, not infinite, and a number. -/
def IsFinite : UnpackedFloat → Prop
  | .finite .. => True
  | _ => False

/-- Exponents other than the least and the greatest stand for finite doubles. -/
theorem isFinite_unpack {b : BitVec Format.binary64.numBits} (htop : unpackExponent b ≠ -1#11)
    (hbottom : unpackExponent b ≠ 0#11) : IsFinite (UnpackedFloat.unpack Format.binary64 b) := by
  unfold UnpackedFloat.unpack
  dsimp only
  rw [if_neg htop, if_neg hbottom]
  trivial

/-- How the parts of a normal double are packed. -/
theorem pack_normal (s : Sign) {m : Nat} {e : Int} (hm : 0 < m) (hlog : m.log2 = 52)
    (hlow : -1074 ≤ e) (hhigh : e ≤ 971) : UnpackedFloat.pack Format.binary64 (.finite s m e hm)
      = packComponents Format.binary64 s (BitVec.ofNat 11 (e + 1075).toNat) (BitVec.ofNat 52 m) := by
  have hexponent : (e + Format.binary64.exponentBias + (52 : Nat)).toNat = (e + 1075).toNat := by
    show (e + (1023 : Nat) + (52 : Nat)).toNat = _
    omega
  have hsmall : ¬ 2 ^ 11 ≤ (e + Format.binary64.exponentBias + (52 : Nat)).toNat + 1 := by omega
  rw [pack_finite, if_neg hsmall, hlog, hexponent]
  rfl

/-- A normal double is packed as a finite one. -/
theorem isFinite_unpack_pack {s : Sign} {m : Nat} {e : Int} {hm : 0 < m} (hlog : m.log2 = 52)
    (hlow : -1074 ≤ e) (hhigh : e ≤ 971) : IsFinite (Float.Model.pack (.finite s m e hm)).unpack := by
  have htop : BitVec.ofNat 11 (e + 1075).toNat ≠ -1#11 := by
    refine fun heq => absurd (congrArg BitVec.toNat heq) ?_
    show (e + 1075).toNat % 2048 ≠ 2047
    omega
  have hbottom : BitVec.ofNat 11 (e + 1075).toNat ≠ 0#11 := by
    refine fun heq => absurd (congrArg BitVec.toNat heq) ?_
    show (e + 1075).toNat % 2048 ≠ 0
    omega
  show IsFinite (UnpackedFloat.unpack Format.binary64
    (UnpackedFloat.pack Format.binary64 (.finite s m e hm)))
  rw [pack_normal s hm hlog hlow hhigh]
  apply isFinite_unpack <;> rw [unpackExponent_packComponents]
  · exact htop
  · exact hbottom

/-- A count of a machine word is rounded to a double. -/
theorem toModel_ofCount {n : Nat} (hword : n < wordCount) :
    (Scalar.ofCount n : Float).toModel = Float.Model.pack (UnpackedFloat.ofNat Format.binary64 n) := by
  have hmod : n.toUInt64.toNat = n := Nat.mod_eq_of_lt hword
  show (if n < wordCount then n.toUInt64.toFloat else Float.ofScientific n false 0).toModel = _
  rw [if_pos hword]
  show Float.Model.pack (UnpackedFloat.ofNat Format.binary64 n.toUInt64.toNat) = _
  rw [hmod]

/-- The double nearest to a count of a machine word has all the digits of a mantissa, unless the count is
zero. -/
theorem exists_ofCount {n : Nat} (hpos : n ≠ 0) (hword : n < wordCount) :
    ∃ m e h, (Scalar.ofCount n : Float).toModel = Float.Model.pack (.finite .positive m e h)
      ∧ m.log2 = 52 ∧ -52 ≤ e ∧ e ≤ 12 := by
  have hlog : n.log2 < 64 := (Nat.log2_lt hpos).mpr hword
  have htarget : Format.binary64.targetExponent (totalExponent n 0) = n.log2 - 52 := by
    rw [targetExponent_eq]
    omega
  have hshift : (0 - ((n.log2 : Int) - 52)).toNat = 52 - n.log2 := by omega
  have hstart : (n <<< (52 - n.log2)).log2 = n.log2 + (52 - n.log2) := log2_shiftLeft hpos _
  obtain ⟨m, e, hm, hround, hnormal, hlow, hhigh⟩ := roundWithAccuracy_normal (s := .positive)
    (e := 0 - ((52 - n.log2 : Nat) : Int)) .exact (by omega : 52 ≤ (n <<< (52 - n.log2)).log2)
    (by omega)
  have hcount : UnpackedFloat.ofNat Format.binary64 n = .finite .positive m e hm := by
    have hcompare : compare (n : Int) 0 = .gt := compare_gt_iff_gt.mpr (by omega)
    rw [UnpackedFloat.ofNat, UnpackedFloat.ofInt, UnpackedFloat.normalize, hcompare]
    show UnpackedFloat.round Format.binary64 .positive n 0 = _
    rw [UnpackedFloat.round, htarget, decreaseExponent, hshift]
    exact hround
  exact ⟨m, e, hm, by rw [toModel_ofCount hword, hcount], hnormal, by omega, by omega⟩

/-- The double nearest to a count of a machine word is finite, unless the count is zero. -/
theorem isFinite_ofCount {n : Nat} (hpos : n ≠ 0) (hword : n < wordCount) :
    IsFinite (Scalar.ofCount n : Float).toModel.unpack := by
  obtain ⟨m, e, hm, hvalue, hnormal, hlow, hhigh⟩ := exists_ofCount hpos hword
  rw [hvalue]
  exact isFinite_unpack_pack hnormal (by omega) (by omega)

theorem isNumber_of_isFinite {x : Float} (h : IsFinite x.toModel.unpack) : Scalar.IsNumber x := by
  rw [isNumber_iff_ne]
  intro hnone
  rw [hnone] at h
  exact h

/-- A number divided by a finite double is a number. -/
theorem isNumber_div {x y : Float} (hx : Scalar.IsNumber x) (hy : IsFinite y.toModel.unpack) :
    Scalar.IsNumber (x / y) := by
  rw [isNumber_iff_ne] at hx ⊢
  show (Float.Model.pack
    (UnpackedFloat.div Format.binary64 x.toModel.unpack y.toModel.unpack)).unpack ≠ _
  apply unpack_pack_ne
  generalize x.toModel.unpack = a at hx
  generalize y.toModel.unpack = b at hy
  cases b with
  | notANumber => exact hy.elim
  | infinity s => exact hy.elim
  | zero s => exact hy.elim
  | finite s m e hm =>
      cases a with
      | notANumber => exact absurd rfl hx
      | infinity s' => exact UnpackedFloat.noConfusion
      | zero s' => exact UnpackedFloat.noConfusion
      | finite s' m' e' h' =>
          exact roundWithAccuracy_ne _ _ _ _

/-- Doubles are ordered by their places, and counts are among them. -/
instance : CountingScalar Float where
  isNumber_left h := by
    obtain ⟨p, hp, -⟩ := le_iff.mp h
    exact isNumber_iff.mpr (Option.isSome_of_mem hp)
  isNumber_right h := by
    obtain ⟨-, -, q, hq, -⟩ := le_iff.mp h
    exact isNumber_iff.mpr (Option.isSome_of_mem hq)
  le_trans hxy hyz := by
    obtain ⟨p, hp, q, hq, hpq⟩ := le_iff.mp hxy
    obtain ⟨q', hq', r, hr, hqr⟩ := le_iff.mp hyz
    cases Option.mem_unique hq hq'
    exact le_iff.mpr ⟨p, hp, r, hr, hpq.trans hqr⟩
  le_of_lt h := by
    obtain ⟨p, hp, q, hq, hpq⟩ := lt_iff.mp h
    exact le_iff.mpr ⟨p, hp, q, hq, hpq.le⟩
  lt_of_not_le {x y} hx hy h := by
    obtain ⟨p, hp⟩ := Option.isSome_iff_exists.mp (isNumber_iff.mp hx)
    obtain ⟨q, hq⟩ := Option.isSome_iff_exists.mp (isNumber_iff.mp hy)
    refine lt_iff.mpr ⟨p, hp, q, hq, not_le.mp fun hqp => h ?_⟩
    exact le_iff.mpr ⟨q, hq, p, hp, hqp⟩
  isNumber_ratio {part whole} hpart hword := by
    unfold Tally.ratio
    split
    · exact isNumber_iff_ne.mpr (unpack_zero ▸ UnpackedFloat.noConfusion)
    · rename_i hwhole
      refine isNumber_div ?_ (isFinite_ofCount hwhole hword)
      by_cases hnone : part = 0
      · subst hnone
        exact isNumber_iff_ne.mpr (unpack_zero ▸ UnpackedFloat.noConfusion)
      · exact isNumber_of_isFinite (isFinite_ofCount hnone (by omega))

end GrammarInduction.Double
