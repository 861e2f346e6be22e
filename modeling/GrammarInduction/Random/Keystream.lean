/-!
# The keystream behind the draws

Random words come from a stream cipher of twelve rounds: a seed is stretched to a key of eight words,
and the key and a block number give sixteen words of the stream.  Nothing is remembered between
words, so the stream is a function of the key and a position:

* `Key.ofSeed` — the key that a seed stands for;
* `Key.block` — the sixteen words of one block, as four rows of four lanes;
* `Key.word` — the word at a position of the stream.
-/

namespace GrammarInduction

/-- Four words that are always treated alike. -/
structure Lanes where
  a : UInt32
  b : UInt32
  c : UInt32
  d : UInt32
deriving DecidableEq, Repr, Inhabited

namespace Lanes

/-- Lane by lane sum, modulo the word size. -/
@[inline] def add (x y : Lanes) : Lanes := ⟨x.a + y.a, x.b + y.b, x.c + y.c, x.d + y.d⟩

/-- Lane by lane difference of bits. -/
@[inline] def xor (x y : Lanes) : Lanes := ⟨x.a ^^^ y.a, x.b ^^^ y.b, x.c ^^^ y.c, x.d ^^^ y.d⟩

end Lanes

/-- A word whose bits are moved `k` places up, around the end. -/
@[inline] def rotateUp (x k : UInt32) : UInt32 := (x <<< k) ||| (x >>> (32 - k))

/-- A word whose bits are moved `k` places down, around the end. -/
@[inline] def rotateDown (x k : UInt32) : UInt32 := (x >>> k) ||| (x <<< ((32 - k) % 32))

namespace Lanes

/-- Every lane rotated upwards. -/
@[inline] def rotate (x : Lanes) (k : UInt32) : Lanes :=
  ⟨rotateUp x.a k, rotateUp x.b k, rotateUp x.c k, rotateUp x.d k⟩

/-- The lanes moved one place to the left, around the end. -/
@[inline] def turn (x : Lanes) : Lanes := ⟨x.b, x.c, x.d, x.a⟩

/-- The lane at an index modulo four. -/
def lane (x : Lanes) (i : Nat) : UInt32 :=
  match i % 4 with
  | 0 => x.a
  | 1 => x.b
  | 2 => x.c
  | _ => x.d

end Lanes

/-- The working state of the cipher: four rows of four lanes. -/
structure Block where
  first : Lanes
  second : Lanes
  third : Lanes
  fourth : Lanes
deriving DecidableEq, Repr, Inhabited

namespace Block

/-- One quarter round in each of the four columns. -/
@[inline] def mixColumns (s : Block) : Block :=
  let p := s.first.add s.second
  let s4 := (s.fourth.xor p).rotate 16
  let q := s.third.add s4
  let s2 := (s.second.xor q).rotate 12
  let p := p.add s2
  let s4 := (s4.xor p).rotate 8
  let q := q.add s4
  let s2 := (s2.xor q).rotate 7
  ⟨p, s2, q, s4⟩

/-- The rows turned so that the diagonals stand in the columns. -/
@[inline] def diagonalsToColumns (s : Block) : Block :=
  ⟨s.first, s.second.turn, s.third.turn.turn, s.fourth.turn.turn.turn⟩

/-- The rows turned back. -/
@[inline] def columnsToDiagonals (s : Block) : Block :=
  ⟨s.first, s.second.turn.turn.turn, s.third.turn.turn, s.fourth.turn⟩

/-- A double round mixes the columns and then the diagonals. -/
def doubleRound (s : Block) : Block :=
  s.mixColumns.diagonalsToColumns.mixColumns.columnsToDiagonals

/-- Row by row sum. -/
def add (s t : Block) : Block :=
  ⟨s.first.add t.first, s.second.add t.second, s.third.add t.third, s.fourth.add t.fourth⟩

/-- The word at an index modulo sixteen, row after row. -/
def word (s : Block) (i : Nat) : UInt32 :=
  match i / 4 % 4 with
  | 0 => s.first.lane i
  | 1 => s.second.lane i
  | 2 => s.third.lane i
  | _ => s.fourth.lane i

end Block

/-- The constant row that opens every block. -/
def blockConstants : Lanes := ⟨0x61707865, 0x3320646e, 0x79622d32, 0x6b206574⟩

/-- The eight words that fix a stream. -/
structure Key where
  low : Lanes
  high : Lanes
deriving DecidableEq, Repr, Inhabited

namespace Key

/-- One step of the generator that stretches a seed. -/
def stretch (state : UInt64) : UInt64 := state * 6364136223846793005 + 11634580027462260723

/-- The key word that a state of the stretching generator gives. -/
def wordOf (state : UInt64) : UInt32 :=
  let folded := (((state >>> 18) ^^^ state) >>> 27).toUInt32
  rotateDown folded (state >>> 59).toUInt32

/-- The key of a seed: the words of its first eight stretched states. -/
def ofSeed (seed : UInt64) : Key :=
  let s1 := stretch seed
  let s2 := stretch s1
  let s3 := stretch s2
  let s4 := stretch s3
  let s5 := stretch s4
  let s6 := stretch s5
  let s7 := stretch s6
  let s8 := stretch s7
  ⟨⟨wordOf s1, wordOf s2, wordOf s3, wordOf s4⟩, ⟨wordOf s5, wordOf s6, wordOf s7, wordOf s8⟩⟩

/-- The block of a given number: six double rounds over constants, key and number, added to the
state they started from. -/
def block (key : Key) (number : Nat) : Block :=
  let start : Block :=
    ⟨blockConstants, key.low, key.high, ⟨number.toUInt32, (number / 0x100000000).toUInt32, 0, 0⟩⟩
  start.doubleRound.doubleRound.doubleRound.doubleRound.doubleRound.doubleRound.add start

/-- The word of the stream at a position. -/
def word (key : Key) (position : Nat) : UInt32 := (key.block (position / 16)).word position

end Key

end GrammarInduction
