import GrammarInduction.Fault
import GrammarInduction.Random.Keystream
import GrammarInduction.Scalar

/-!
# Draws

A generator is a key and a position in its keystream; a draw moves the position on.  The main facts:

* `Draw.below` — a whole number under a bound, from one word and in rare cases a second;
* `Draw.choose` — an element of a list, each equally likely;
* `Draw.chance` — an event of given probability, which costs nothing when it is certain either way;
* `Draw.real` — a scalar from zero up to a finite bound.
-/

namespace GrammarInduction

/-- A source of random words: where it stands in which stream. -/
structure Generator where
  key : Key
  position : Nat
deriving DecidableEq, Repr, Inhabited

/-- The generator at the start of the stream of a seed. -/
def Generator.ofSeed (seed : UInt64) : Generator := ⟨Key.ofSeed seed, 0⟩

/-- A computation that takes words from a generator. -/
abbrev Draw (β : Type) := StateM Generator β

namespace Draw

/-- The next word of the stream. -/
def word : Draw UInt32 := fun g => (g.key.word g.position, ⟨g.key, g.position + 1⟩)

/-- Two words as one number, the low half first. -/
def doubleWord : Draw Nat := do
  let low ← word
  let high ← word
  pure (low.toNat + 0x100000000 * high.toNat)

/-- How many bits the numbers of a draw have. -/
inductive Width where
  | single
  | double
deriving DecidableEq, Repr

namespace Width

/-- The count of numbers of a width. -/
def size : Width → Nat
  | single => 0x100000000
  | double => 0x10000000000000000

/-- Bounds that fit in one word are drawn from one word. -/
def ofBound (n : Nat) : Width := if n < 0x100000000 then single else double

end Width

/-- A number of a width, each equally likely. -/
def number : Width → Draw Nat
  | .single => do
    let w ← word
    pure w.toNat
  | .double => doubleWord

/-- A number below `n`: the high part of a product with `n`.  When the low part lies so near the top
that more digits could carry into it, a second number supplies them. -/
def below (n : Nat) : Draw Nat := do
  let width := Width.ofBound n
  let product := (← number width) * n
  let high := product / width.size
  let low := product % width.size
  if low > width.size - n then
    let more := (← number width) * n / width.size
    pure (if low + more ≥ width.size then high + 1 else high)
  else
    pure high

/-- A number has no more bits than its width. -/
theorem number_lt (width : Width) (g : Generator) : (number width g).1 < width.size := by
  cases width with
  | single => exact (g.key.word g.position).toNat_lt
  | double =>
    have hlow := (g.key.word g.position).toNat_lt
    have hhigh := (g.key.word (g.position + 1)).toNat_lt
    show (g.key.word g.position).toNat
      + 0x100000000 * (g.key.word (g.position + 1)).toNat < 0x10000000000000000
    omega

/-- The high part of a product with a bound lies below the bound, and so far below it that a carry
changes nothing about that, where the low part is large enough to let one happen. -/
theorem high_lt {n size drawn : Nat} (hn : 0 < n) (hd : drawn < size) :
    drawn * n / size < n
      ∧ (size - n < drawn * n % size → drawn * n / size + 1 < n) := by
  have hsize : 0 < size := by omega
  have hlt : drawn * n / size < n := by
    rw [Nat.div_lt_iff_lt_mul hsize, Nat.mul_comm n size]
    exact Nat.mul_lt_mul_of_pos_right hd hn
  refine ⟨hlt, fun hlow => ?_⟩
  have hdiv : size * (drawn * n / size) + drawn * n % size = drawn * n :=
    Nat.div_add_mod (drawn * n) size
  have htop : drawn * n + n ≤ size * n := by
    have h : (drawn + 1) * n ≤ size * n := Nat.mul_le_mul_right n hd
    rwa [Nat.add_mul, Nat.one_mul] at h
  refine Nat.lt_of_not_le fun hle => ?_
  have heq : drawn * n / size = n - 1 := by omega
  rw [heq, Nat.mul_sub, Nat.mul_one] at hdiv
  have hself : size ≤ size * n := Nat.le_mul_of_pos_right size hn
  omega

/-- A number below a bound is below it. -/
theorem below_lt {n : Nat} (hn : 0 < n) (g : Generator) : (below n g).1 < n := by
  have hhigh := high_lt hn (number_lt (Width.ofBound n) g)
  obtain ⟨⟨drawn, after⟩, hnumber⟩ : ∃ answer, number (Width.ofBound n) g = answer := ⟨_, rfl⟩
  rw [hnumber] at hhigh
  simp only [below, bind, StateT.bind, hnumber]
  split
  · rename_i hlow
    show (if _ ≥ (Width.ofBound n).size then drawn * n / (Width.ofBound n).size + 1
      else drawn * n / (Width.ofBound n).size) < n
    split
    · exact hhigh.2 hlow
    · exact hhigh.1
  · exact hhigh.1

/-- An element of a list, or nothing, without a draw, when the list is empty. -/
def choose {β : Type} (xs : List β) : Draw (Option β) :=
  if xs.isEmpty then pure none
  else do
    let i ← below xs.length
    pure xs[i]?

/-- A choice from a list that is not empty is one of its elements. -/
theorem exists_choose {β : Type} {xs : List β} (h : xs ≠ []) (g : Generator) :
    ∃ x ∈ xs, (choose xs g).1 = some x := by
  have hi := below_lt (List.length_pos_iff.mpr h) g
  refine ⟨xs[(below xs.length g).1], List.getElem_mem hi, ?_⟩
  have hempty : xs.isEmpty = false := by simpa using h
  simp only [choose, hempty, Bool.false_eq_true, if_false]
  exact List.getElem?_eq_getElem hi

variable {α : Type} [Scalar α]

/-- A scalar of the unit interval without one, on a grid of 2⁻⁵². -/
def unitReal : Draw α := do
  let w ← doubleWord
  pure (Scalar.ofCount (w / 0x1000) / Scalar.ofCount 0x10000000000000)

/-- A scalar from zero up to, without, a finite positive bound. -/
def real (bound : α) : Attempt Generator α :=
  if 0 < bound ∧ (Scalar.value? bound).isSome then do
    let u : α ← (unitReal : Draw α)
    pure (u * bound + 0)
  else throw Fault.undefinedDraw

/-- An event of probability `p`.  Probabilities of at most zero and at least one decide at once;
between them a number of 64 bits is compared with the scaled probability. -/
def chance (p : α) : Attempt Generator Bool :=
  if p ≤ 0 then pure false
  else if 1 ≤ p then pure true
  else match Scalar.value? p with
    | none => throw Fault.undefinedDraw
    | some q => do
      let w ← (doubleWord : Draw Nat)
      pure (decide ((w : Int) < (q * 0x10000000000000000).floor))

end Draw

end GrammarInduction
