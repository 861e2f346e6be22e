/-!
# Scalars

Weights, probabilities, chances and fitness values are numbers of a type of scalars: floating point
when the program runs, exact rationals when a law of arithmetic is wanted.  A value that is not
below or equal to itself is *no number*; the functions here say what happens to it:

* `Scalar.lesser`, `Scalar.greater` — the extremes of two values, where no number yields to a number;
* `Scalar.clampUnit` — the nearest value of the unit interval, where no number stays;
* `Scalar.value?` — the rational that a finite scalar stands for.
-/

namespace GrammarInduction

/-- Numbers with the four operations, a decidable order, and an exact value when finite. -/
class Scalar (α : Type) extends Zero α, One α, Add α, Sub α, Mul α, Div α, LE α, LT α where
  decLe : ∀ x y : α, Decidable (x ≤ y)
  decLt : ∀ x y : α, Decidable (x < y)
  /-- The scalar nearest to a count. -/
  ofCount : Nat → α
  /-- The value of a finite scalar. -/
  value? : α → Option Rat

namespace Scalar

variable {α : Type} [Scalar α]

instance (x y : α) : Decidable (x ≤ y) := decLe x y

instance (x y : α) : Decidable (x < y) := decLt x y

/-- Holds of every scalar but those that stand for no number. -/
def IsNumber (x : α) : Prop := x ≤ x

instance (x : α) : Decidable (IsNumber x) := inferInstanceAs (Decidable (x ≤ x))

/-- The smaller value; of a number and no number, the number. -/
def lesser (x y : α) : α :=
  if IsNumber x then if y < x then y else x else y

/-- The larger value; of a number and no number, the number. -/
def greater (x y : α) : α :=
  if IsNumber x then if x < y then y else x else y

/-- The value raised to zero from below; no number counts as zero. -/
def nonNegative (x : α) : α :=
  if 0 < x then x else 0

/-- The nearest value of the unit interval. -/
def clampUnit (x : α) : α :=
  if x < 0 then 0 else if 1 < x then 1 else x

/-- Membership of the unit interval, which no number lacks. -/
def InUnit (x : α) : Prop := 0 ≤ x ∧ x ≤ 1

instance (x : α) : Decidable (InUnit x) := inferInstanceAs (Decidable (0 ≤ x ∧ x ≤ 1))

/-- The sum of a list, from the left and from zero. -/
def sum (xs : List α) : α := xs.foldl (· + ·) 0

/-- The least number of a list; over no number, the quotient of one by zero. -/
def least (xs : List α) : α :=
  match xs.filter (fun x => decide (IsNumber x)) with
  | [] => 1 / 0
  | x :: rest => rest.foldl lesser x

/-- The greatest number of a list; over no number, the quotient of minus one by zero. -/
def greatest (xs : List α) : α :=
  match xs.filter (fun x => decide (IsNumber x)) with
  | [] => (0 - 1) / 0
  | x :: rest => rest.foldl greater x

end Scalar

/-- Rationals are scalars with nothing to round. -/
instance : Scalar Rat where
  zero := 0
  one := 1
  toAdd := Rat.instAdd
  toSub := Rat.instSub
  toMul := Rat.instMul
  toDiv := Rat.instDiv
  toLE := Rat.instLE
  toLT := Rat.instLT
  decLe := fun _ _ => inferInstance
  decLt := fun _ _ => inferInstance
  ofCount := fun n => Rat.ofInt n
  value? := some

/-- The rational `m · 2 ^ e`. -/
def scaleByPower (m : Int) (e : Int) : Rat :=
  if 0 ≤ e then Rat.ofInt (m * Nat.pow 2 e.toNat) else mkRat m (Nat.pow 2 (-e).toNat)

/-- The leading digit of a normal double, above its 52 stored ones. -/
def hiddenBit : Nat := 0x10000000000000

/-- The value that a double stores as sign, exponent and fraction. -/
def binaryValue? (bits : UInt64) : Option Rat :=
  let fraction : Nat := bits.toNat % hiddenBit
  let exponent : Nat := bits.toNat / hiddenBit % 2048
  let sign : Int := if bits.toNat / hiddenBit / 2048 = 0 then 1 else -1
  if exponent = 2047 then none
  else if exponent = 0 then some (scaleByPower (sign * fraction) (-1074))
  else some (scaleByPower (sign * (fraction + hiddenBit : Nat)) (exponent - 1075))

/-- Doubles are the scalars that the program runs on. -/
instance : Scalar Float where
  decLe := fun _ _ => inferInstance
  decLt := fun _ _ => inferInstance
  ofCount := fun n => if n < 0x10000000000000000 then n.toUInt64.toFloat else Float.ofScientific n false 0
  value? := fun x => binaryValue? x.toBits

end GrammarInduction
