import Mathlib.Algebra.Order.Field.Power
import Mathlib.Data.Rat.Lemmas
import Mathlib.Tactic.Positivity
import Mathlib.Tactic.Ring
import GrammarInduction.Proofs.Scalar.Double

/-!
# The values of scalars

A finite scalar stands for a rational, and scalars that do are ordered as their values are.  For doubles
this is so because no mantissa has more digits than it has room for, and only the least exponent goes with
fewer: then a greater exponent outweighs every mantissa.

* `ValuedScalar` — what has a value is a number, and the order is that of the values;
* `HalvingScalar` — besides, the halves of counts have values;
* `Double.value?_eq` — the value of a double, read off what it unpacks to;
* `Double.canonical_unpack` — the digits of a mantissa;
* the instances for rationals and doubles.
-/

namespace GrammarInduction

open Scalar

/-- Ordered scalars whose values are ordered as they are. -/
class ValuedScalar (α : Type) [Scalar α] : Prop extends OrderedScalar α where
  isNumber_of_value? : ∀ {x : α} {p : Rat}, value? x = some p → IsNumber x
  value_mono : ∀ {x y : α} {p q : Rat}, value? x = some p → value? y = some q → x ≤ y → p ≤ q

/-- Besides, the half of a count that a machine word can hold has a value, above zero unless the count is
zero. -/
class HalvingScalar (α : Type) [Scalar α] : Prop extends ValuedScalar α where
  half_count : ∀ {n : Nat}, n ≠ 0 → n < wordCount →
    0 < (ofCount n / ofCount 2 : α) ∧ (value? (ofCount n / ofCount 2 : α)).isSome = true

instance : HalvingScalar Rat where
  isNumber_of_value? _ := Rat.le_refl
  value_mono hx hy h := by
    cases hx
    cases hy
    exact h
  half_count {n} hn _ := by
    refine ⟨?_, rfl⟩
    show (0 : Rat) < (n : Rat) / (2 : Nat)
    positivity

/-- Zero is below the half of one, so it is a number. -/
theorem Scalar.zero_le_zero {α : Type} [Scalar α] [HalvingScalar α] : (0 : α) ≤ 0 :=
  OrderedScalar.isNumber_left (OrderedScalar.le_of_lt (HalvingScalar.half_count (n := 1)
    Nat.one_ne_zero (by decide)).1)

/-- What has a value and is not below or equal to zero is above it. -/
theorem Scalar.pos_of_not_le_zero {α : Type} [Scalar α] [HalvingScalar α] {x : α}
    (hvalue : (value? x).isSome = true) (h : ¬ x ≤ 0) : 0 < x := by
  obtain ⟨p, hp⟩ := Option.isSome_iff_exists.mp hvalue
  exact OrderedScalar.lt_of_not_le zero_le_zero (ValuedScalar.isNumber_of_value? hp) h

theorem scaleByPower_eq (m e : Int) : scaleByPower m e = m * (2 : Rat) ^ e := by
  unfold scaleByPower
  split
  · rename_i he
    obtain ⟨k, rfl⟩ := Int.eq_ofNat_of_zero_le he
    rw [Int.toNat_natCast, zpow_natCast]
    show ((m * (2 ^ k : Nat) : Int) : Rat) = _
    push_cast
    rfl
  · rename_i he
    obtain ⟨k, hk⟩ := Int.eq_ofNat_of_zero_le (by omega : 0 ≤ -e)
    obtain rfl : e = -(k : Int) := by omega
    rw [neg_neg, Int.toNat_natCast, Rat.mkRat_eq_div, zpow_neg, zpow_natCast, div_eq_mul_inv]
    show (m : Rat) * ((2 ^ k : Nat) : Rat)⁻¹ = _
    push_cast
    rfl

namespace Double

open Float.Model UnpackedFloat

/-! ## The value of a double -/

/-- The value of what is neither infinite nor no number. -/
def valueOf? : UnpackedFloat → Option Rat
  | .zero _ => some 0
  | .finite .positive m e _ => some (scaleByPower m e)
  | .finite .negative m e _ => some (scaleByPower (-m) e)
  | _ => none

/-- A mantissa has all its digits, or fewer at the least exponent. -/
structure Standard (m : Nat) (e : Int) : Prop where
  digits : m < 2 * hiddenBit
  least : -1074 ≤ e
  normal : hiddenBit ≤ m ∨ e = -1074

/-- Finite doubles have mantissas of their format. -/
def Canonical : UnpackedFloat → Prop
  | .finite _ m e _ => Standard m e
  | _ => True

theorem scaleByPower_nonneg (m : Nat) (e : Int) : 0 ≤ scaleByPower m e := by
  rw [scaleByPower_eq]
  positivity

theorem scaleByPower_neg (m e : Int) : scaleByPower (-m) e = -scaleByPower m e := by
  rw [scaleByPower_eq, scaleByPower_eq, Int.cast_neg, neg_mul]

/-- A greater exponent outweighs every mantissa. -/
theorem scale_le_scale {m n : Nat} {e f : Int} (hm : Standard m e) (hn : Standard n f)
    (hle : e < f ∨ e = f ∧ m ≤ n) : scaleByPower m e ≤ scaleByPower n f := by
  rw [scaleByPower_eq, scaleByPower_eq]
  rcases hle with hlt | ⟨rfl, hmn⟩
  · have hleast := hm.least
    have hnormal : hiddenBit ≤ n := hn.normal.resolve_right (by omega)
    have hdigits := hm.digits
    calc ((m : Int) : Rat) * 2 ^ e ≤ ((2 * hiddenBit : Nat) : Int) * 2 ^ e := by gcongr
      _ = ((hiddenBit : Nat) : Int) * 2 ^ (e + 1) := by
          rw [zpow_add_one₀ two_ne_zero]
          push_cast
          ring
      _ ≤ ((n : Int) : Rat) * 2 ^ f := by
          gcongr
          · exact one_le_two
          · omega
  · gcongr

/-! ## Unpacking -/

/-- What a sign, an exponent and a fraction of stored bits stand for.  The least exponent goes with the
digits that are stored, any other but the greatest with one more above them. -/
inductive Encodes (sign : Sign) (exponent fraction : Nat) : UnpackedFloat → Prop
  | infinity (top : exponent = 2047) : Encodes sign exponent fraction (.infinity sign)
  | notANumber (top : exponent = 2047) : Encodes sign exponent fraction .notANumber
  | zero (least : exponent = 0) (nothing : fraction = 0) : Encodes sign exponent fraction (.zero sign)
  | subnormal {m : Nat} {e : Int} {h : 0 < m} (least : exponent = 0) (digits : m = fraction)
      (power : e = -1074) : Encodes sign exponent fraction (.finite sign m e h)
  | normal {m : Nat} {e : Int} {h : 0 < m} (more : exponent ≠ 0) (less : exponent ≠ 2047)
      (digits : m = fraction + hiddenBit) (power : e = exponent - 1075) :
      Encodes sign exponent fraction (.finite sign m e h)

theorem encodes_unpack (b : BitVec Format.binary64.numBits) :
    Encodes (.ofBitVec (unpackSign b)) (unpackExponent b).toNat (unpackMantissa b).toNat
      (UnpackedFloat.unpack Format.binary64 b) := by
  unfold UnpackedFloat.unpack
  dsimp only
  by_cases htop : unpackExponent b = -1#11
  · have hmost : (unpackExponent b).toNat = 2047 := congrArg BitVec.toNat htop
    rw [if_pos htop]
    by_cases hzero : unpackMantissa b = 0#52
    · rw [if_pos hzero]
      exact .infinity hmost
    · rw [if_neg hzero]
      exact .notANumber hmost
  · rw [if_neg htop]
    by_cases hbottom : unpackExponent b = 0#11
    · have hleast : (unpackExponent b).toNat = 0 := congrArg BitVec.toNat hbottom
      rw [if_pos hbottom]
      by_cases hzero : unpackMantissa b = 0#52
      · rw [dif_pos hzero]
        exact .zero hleast (congrArg BitVec.toNat hzero)
      · rw [dif_neg hzero]
        refine .subnormal hleast rfl ?_
        rw [hleast]
        rfl
    · rw [if_neg hbottom]
      refine .normal (fun h => hbottom (BitVec.eq_of_toNat_eq h))
        (fun h => htop (BitVec.eq_of_toNat_eq h)) ?_ rfl
      show 1 <<< 52 ||| (unpackMantissa b).toNat = _
      rw [← Nat.shiftLeft_add_eq_or_of_lt (unpackMantissa b).isLt, Nat.add_comm]
      rfl

/-- The exponent that a double stores. -/
theorem unpackExponent_toNat (bits : UInt64) :
    (@unpackExponent Format.binary64 bits.toBitVec).toNat = bits.toNat / hiddenBit % 2048 := by
  simp [unpackExponent, BitVec.extractLsb, Nat.shiftRight_eq_div_pow, hiddenBit]

/-- The fraction that a double stores. -/
theorem unpackMantissa_toNat (bits : UInt64) :
    (@unpackMantissa Format.binary64 bits.toBitVec).toNat = bits.toNat % hiddenBit := by
  simp [unpackMantissa, BitVec.extractLsb, hiddenBit]

/-- The sign that a double stores. -/
theorem ofBitVec_unpackSign (bits : UInt64) :
    Sign.ofBitVec (@unpackSign Format.binary64 bits.toBitVec)
      = if bits.toNat / hiddenBit / 2048 = 0 then .positive else .negative := by
  have hlt := bits.toNat_lt
  have hsign : (@unpackSign Format.binary64 bits.toBitVec).toNat
      = bits.toNat / hiddenBit / 2048 := by
    show (BitVec.extractLsb 63 63 bits.toBitVec).toNat = _
    simp [BitVec.extractLsb, Nat.shiftRight_eq_div_pow, hiddenBit]
    omega
  refine if_congr ?_ rfl rfl
  rw [← BitVec.toNat_inj, hsign]
  rfl

/-- What the bits of a double stand for. -/
theorem encodes (x : Float) :
    Encodes (if x.toBits.toNat / hiddenBit / 2048 = 0 then .positive else .negative)
      (x.toBits.toNat / hiddenBit % 2048) (x.toBits.toNat % hiddenBit) x.toModel.unpack := by
  have h := encodes_unpack x.toBits.toBitVec
  rwa [unpackExponent_toNat, unpackMantissa_toNat, ofBitVec_unpackSign] at h

theorem valueOf?_finite (p : Prop) [Decidable p] (m : Nat) (e : Int) (h : 0 < m) :
    valueOf? (.finite (if p then .positive else .negative) m e h)
      = some (scaleByPower ((if p then 1 else -1) * m) e) := by
  by_cases hp : p
  · rw [if_pos hp, if_pos hp, one_mul]
    rfl
  · rw [if_neg hp, if_neg hp, neg_one_mul]
    rfl

/-- The value of a double is that of what it unpacks to. -/
theorem value?_eq (x : Float) : Scalar.value? x = valueOf? x.toModel.unpack := by
  show binaryValue? x.toBits = _
  have h := encodes x
  unfold binaryValue?
  dsimp only
  generalize x.toBits.toNat / hiddenBit / 2048 = sign at h ⊢
  generalize x.toBits.toNat / hiddenBit % 2048 = exponent at h ⊢
  generalize x.toBits.toNat % hiddenBit = fraction at h ⊢
  generalize x.toModel.unpack = u at h ⊢
  cases h with
  | infinity top => rw [if_pos top]; rfl
  | notANumber top => rw [if_pos top]; rfl
  | zero least nothing =>
      rw [if_neg (by omega), if_pos least, nothing, scaleByPower_eq, Nat.cast_zero, mul_zero,
        Int.cast_zero, zero_mul]
      rfl
  | subnormal least digits power =>
      rw [if_neg (by omega), if_pos least, valueOf?_finite, digits, power]
  | normal more less digits power =>
      rw [if_neg less, if_neg more, valueOf?_finite, digits, power]

/-- What a double unpacks to is canonical. -/
theorem canonical_unpack (x : Float) : Canonical x.toModel.unpack := by
  have hfraction : x.toBits.toNat % hiddenBit < hiddenBit := Nat.mod_lt _ (by decide)
  have h := encodes x
  generalize x.toModel.unpack = u at h ⊢
  cases h with
  | infinity top => trivial
  | notANumber top => trivial
  | zero least nothing => trivial
  | subnormal least digits power => exact ⟨by omega, by omega, Or.inr power⟩
  | normal more less digits power => exact ⟨by omega, by omega, Or.inl (by omega)⟩

/-! ## The order of values -/

/-- Where a canonical double with a value lies. -/
theorem place_cases {u : UnpackedFloat} (hu : Canonical u) {p : Rat} (hp : valueOf? u = some p)
    {i : Int ×ₗ Int ×ₗ Int} (hi : place? u = some i) :
    (i = toLex (0, toLex (0, 0)) ∧ p = 0)
      ∨ ∃ (m : Nat) (e : Int), Standard m e
        ∧ (i = toLex (1, toLex (e, (m : Int))) ∧ p = scaleByPower m e
          ∨ i = toLex (-1, toLex (-e, -(m : Int))) ∧ p = -scaleByPower m e) := by
  rcases u with (_ | _) | _ | _ | ⟨_ | _, m, e, hm⟩
  case infinity.negative => cases hp
  case infinity.positive => cases hp
  case notANumber => cases hp
  case zero =>
    cases hi
    cases hp
    exact Or.inl ⟨rfl, rfl⟩
  case finite.negative =>
    cases hi
    cases hp
    exact Or.inr ⟨m, e, hu, Or.inr ⟨rfl, scaleByPower_neg m e⟩⟩
  case finite.positive =>
    cases hi
    cases hp
    exact Or.inr ⟨m, e, hu, Or.inl ⟨rfl, rfl⟩⟩

/-- The order of places is that of canonical values. -/
theorem value_le_of_place_le {a b : UnpackedFloat} (ha : Canonical a) (hb : Canonical b) {p q : Rat}
    (hp : valueOf? a = some p) (hq : valueOf? b = some q) {i j : Int ×ₗ Int ×ₗ Int}
    (hi : place? a = some i) (hj : place? b = some j) (hle : i ≤ j) : p ≤ q := by
  -- The first coordinate is the sign, so only doubles of one sign are compared by their magnitudes.
  rcases place_cases ha hp hi with ⟨rfl, rfl⟩ | ⟨m, e, hm, ⟨rfl, rfl⟩ | ⟨rfl, rfl⟩⟩ <;>
    rcases place_cases hb hq hj with ⟨rfl, rfl⟩ | ⟨n, f, hn, ⟨rfl, rfl⟩ | ⟨rfl, rfl⟩⟩ <;>
    simp [Prod.Lex.toLex_le_toLex] at hle ⊢
  case inl.inr.inl => exact scaleByPower_nonneg n f
  case inr.inl.inr.inl => exact scale_le_scale hm hn hle
  case inr.inr.inl => exact scaleByPower_nonneg m e
  case inr.inr.inr.inl =>
    exact (neg_nonpos.mpr (scaleByPower_nonneg m e)).trans (scaleByPower_nonneg n f)
  case inr.inr.inr.inr =>
    refine scale_le_scale hn hm (hle.imp_right fun heq => ⟨heq.1.symm, heq.2⟩)

/-- What has a value lies somewhere. -/
theorem isSome_place?_of_valueOf? {u : UnpackedFloat} {p : Rat} (h : valueOf? u = some p) :
    (place? u).isSome = true := by
  rcases u with (_ | _) | _ | _ | ⟨_ | _, m, e, hm⟩
  case notANumber => cases h
  all_goals rfl

/-! ## Halves of counts -/

theorem ofBitVec_unpackSign_packComponents (s : Sign) (e : BitVec 11) (m : BitVec 52) :
    Sign.ofBitVec (unpackSign (packComponents Format.binary64 s e m)) = s := by
  show Sign.ofBitVec (BitVec.extractLsb' 63 1 (s.toBitVec ++ e ++ m)) = s
  rw [BitVec.extractLsb'_append_eq_of_le (by decide), BitVec.extractLsb'_append_eq_of_le (by decide)]
  cases s <;> rfl

/-- A normal double unpacks to what was packed. -/
theorem unpack_pack_normal (s : Sign) {m : Nat} {e : Int} (hm : 0 < m) (hlog : m.log2 = 52)
    (hlow : -1074 ≤ e) (hhigh : e ≤ 971) :
    (Float.Model.pack (.finite s m e hm)).unpack = .finite s m e hm := by
  show UnpackedFloat.unpack Format.binary64 (UnpackedFloat.pack Format.binary64 (.finite s m e hm)) = _
  have h := encodes_unpack (UnpackedFloat.pack Format.binary64 (.finite s m e hm))
  rw [pack_normal s hm hlog hlow hhigh] at h ⊢
  rw [ofBitVec_unpackSign_packComponents, unpackExponent_packComponents,
    unpackMantissa_packComponents] at h
  have hexponent : (BitVec.ofNat 11 (e + 1075).toNat).toNat = (e + 1075).toNat :=
    Nat.mod_eq_of_lt (by omega)
  have hfraction : (BitVec.ofNat 52 m).toNat = m % hiddenBit := rfl
  have hrest : m % hiddenBit + hiddenBit = m := by
    have hdigits : hiddenBit ≤ m ∧ m < 2 * hiddenBit := (Nat.log2_eq_iff hm.ne').mp hlog
    rw [Nat.mod_eq_sub_mod hdigits.1, Nat.mod_eq_of_lt (by omega), Nat.sub_add_cancel hdigits.1]
  rw [hexponent, hfraction] at h
  generalize UnpackedFloat.unpack Format.binary64 _ = u at h ⊢
  cases h with
  | infinity top => omega
  | notANumber top => omega
  | zero least nothing => omega
  | subnormal least digits power => omega
  | @normal m' e' hm' more less digits power =>
      obtain rfl : m' = m := digits.trans hrest
      obtain rfl : e' = e := by omega
      rfl

theorem unpack_ofCount_two :
    (Scalar.ofCount 2 : Float).toModel.unpack = .finite .positive hiddenBit (-51) (by decide) :=
  rfl

/-- The divisor is a power of two, so nothing is lost but an exponent. -/
theorem divCore_two {m : Nat} {e : Int} (hlog : m.log2 = 52) (hlow : -52 ≤ e) :
    divCore Format.binary64 m e hiddenBit (-51) = (2 * m, e - 2, .exact) := by
  have htarget : Format.binary64.targetExponent
      (totalExponent m e - totalExponent hiddenBit (-51)) = e - 2 := by
    have htwo : hiddenBit.log2 = 52 := by decide +kernel
    show max ((m.log2 + 1 + e - (hiddenBit.log2 + 1 + (-51)) : Int) - (53 : Nat)) (-1074) = _
    omega
  have hleast : min (e - -51) (e - 2) = e - 2 := by omega
  have hshift : (e - -51 - (e - 2)).toNat = 53 := by omega
  have hshifted : m <<< 53 = hiddenBit * (2 * m) := by
    rw [Nat.shiftLeft_eq, hiddenBit]
    omega
  rw [divCore, htarget, hleast, hshift, hshifted, Nat.mul_div_cancel_left _ (by decide),
    Nat.mul_mod_right]
  rfl

/-- The half of a double that has all its digits, before it is rounded. -/
theorem div_two {m : Nat} {e : Int} (hm : 0 < m) (hlog : m.log2 = 52) (hlow : -52 ≤ e) :
    UnpackedFloat.div Format.binary64 (.finite .positive m e hm)
        (.finite .positive hiddenBit (-51) (by decide))
      = roundWithAccuracy Format.binary64 .positive (2 * m) (e - 2) .exact := by
  show roundWithAccuracy Format.binary64 (.positive / .positive)
    (divCore Format.binary64 m e hiddenBit (-51)).1 (divCore Format.binary64 m e hiddenBit (-51)).2.1
    (divCore Format.binary64 m e hiddenBit (-51)).2.2 = _
  rw [divCore_two hlog hlow]
  rfl

/-- The half of a double that has all its digits is finite and positive. -/
theorem exists_half {x : Float} {m : Nat} {e : Int} {hm : 0 < m}
    (hx : x.toModel.unpack = .finite .positive m e hm) (hlog : m.log2 = 52) (hlow : -52 ≤ e)
    (hhigh : e ≤ 12) :
    ∃ m' e' h, (x / Scalar.ofCount 2).toModel.unpack = .finite .positive m' e' h := by
  have hlog2 : (2 * m).log2 = 53 := by rw [Nat.log2_two_mul hm.ne', hlog]
  obtain ⟨m', e', h, hround, hnormal, hlow', hhigh'⟩ := roundWithAccuracy_normal (s := .positive)
    (m := 2 * m) (e := e - 2) .exact (by omega) (by omega)
  refine ⟨m', e', h, ?_⟩
  show (Float.Model.pack (UnpackedFloat.div Format.binary64 x.toModel.unpack
    (Scalar.ofCount 2 : Float).toModel.unpack)).unpack = _
  rw [hx, unpack_ofCount_two, div_two hm hlog hlow, hround]
  exact unpack_pack_normal _ h hnormal (by omega) (by omega)

/-- Doubles are ordered as their values are, and counts can be halved. -/
instance : HalvingScalar Float where
  isNumber_of_value? h := by
    rw [value?_eq] at h
    exact isNumber_iff.mpr (isSome_place?_of_valueOf? h)
  value_mono {x y p q} hx hy h := by
    rw [value?_eq] at hx hy
    obtain ⟨i, hi, j, hj, hle⟩ := le_iff.mp h
    exact value_le_of_place_le (canonical_unpack x) (canonical_unpack y) hx hy hi hj hle
  half_count {n} hn hword := by
    obtain ⟨m, e, hm, hvalue, hlog, hlow, hhigh⟩ := exists_ofCount hn hword
    have hcount : (ofCount n : Float).toModel.unpack = .finite .positive m e hm := by
      rw [hvalue]
      exact unpack_pack_normal _ hm hlog (by omega) (by omega)
    obtain ⟨m', e', hm', hhalf⟩ := exists_half hcount hlog hlow hhigh
    constructor
    · refine lt_iff.mpr ⟨toLex (0, toLex (0, 0)), rfl, toLex (1, toLex (e', (m' : Int))), ?_, ?_⟩
      · rw [hhalf]
        rfl
      · exact Prod.Lex.toLex_lt_toLex.mpr (Or.inl Int.zero_lt_one)
    · rw [value?_eq, hhalf]
      rfl

end Double

end GrammarInduction
