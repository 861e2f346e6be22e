import GrammarInduction.Random.Draw

/-!
# Random arrangements

Index lists drawn without repetition, and shuffled lists.  How a sample is drawn depends on how much
of the range it takes:

* `Sample.growing` — a few of a moderate range: the range grows by one for each index, and an index
  met twice is replaced by the newest one;
* `Sample.byExchange` — a large part of a range: the first places of the whole range are filled by
  exchanges;
* `Sample.byRejection` — a few of a huge range: draw until an index is new;
* `Draw.sample` — the choice between them;
* `Draw.shuffle` — every order equally likely, several small numbers drawn from one word.
-/

namespace GrammarInduction

namespace Sample

/-- The ways to draw distinct indices. -/
inductive Method where
  | growing
  | byExchange
  | byRejection
deriving DecidableEq, Repr

/-- The method for `amount` indices below `n`, weighed in single precision: exchanging costs the
whole range, growing costs the square of the amount. -/
def Method.choose (n amount : Nat) : Method :=
  let large := decide (500000 ≤ n)
  let range : Float32 := n.toUInt64.toFloat32
  let part : Float32 := amount.toUInt64.toFloat32
  if n ≥ 0x100000000 then byRejection
  else if amount < 163 then
    let slope : Float32 := if large then 8 / 45 else 1.6
    let offset : Float32 := if large then 70 / 9 else 10
    if amount > 11 ∧ range < (offset + slope * part) * part then byExchange else growing
  else
    let factor : Float32 := if large then 330 / 9 else 270
    if range < factor * part then byExchange else byRejection

/-- One step of growing: of the indices up to `top` one is drawn; an index met before leaves its
place to `top`. -/
def grow (taken : List Nat) (top : Nat) : Draw (List Nat) := do
  let t ← Draw.below (top + 1)
  pure (taken.map (fun x => if x = t then top else x) ++ [t])

/-- Indices drawn from a range that grows up to `n`. -/
def growing (n amount : Nat) : Draw (List Nat) :=
  (List.range' (n - amount) amount).foldlM grow []

/-- The places from `i` on, `count` of them, filled by exchanges with later places. -/
def exchange (xs : Array Nat) (i : Nat) : Nat → Draw (Array Nat)
  | 0 => pure xs
  | count + 1 => do
    let offset ← Draw.below (xs.size - i)
    exchange (xs.swapIfInBounds i (i + offset)) (i + 1) count

/-- The first places of the whole range after exchanges. -/
def byExchange (n amount : Nat) : Draw (List Nat) := do
  let xs ← exchange (Array.range n) 0 amount
  pure (xs.toList.take amount)

/-- The least index below `n` that is not taken, or zero. -/
def leastUntaken (n : Nat) (taken : List Nat) : Nat :=
  ((List.range (taken.length + 1)).find? (fun i => decide (i < n ∧ i ∉ taken))).getD 0

/-- An index below `n` that is not taken.  A draw counts only if its low part lies above the
remainder that would favour some indices.  Draws go on until one counts; how many that takes depends on the
stream alone, and no argument bounds it, so the recursion is on a number of `tries`, after which the least
untaken index stands in.  `rejecting` grants 4096.  Rejection is the method where few of many indices are
wanted: at least every other index is untaken and at least every other low part is good, so that all of the
tries are in vain with a probability below `(3 / 4) ^ 4096 < 2 ^ (-1000)`. -/
def untaken (width : Draw.Width) (n : Nat) (taken : List Nat) : Nat → Draw Nat
  | 0 => pure (leastUntaken n taken)
  | tries + 1 => do
    let product := (← Draw.number width) * n
    let index := product / width.size
    if product % width.size ≥ (width.size - n) % n ∧ index ∉ taken then pure index
    else untaken width n taken tries

/-- Indices drawn until each is new, the newest first. -/
def rejecting (width : Draw.Width) (n : Nat) (taken : List Nat) : Nat → Draw (List Nat)
  | 0 => pure taken
  | amount + 1 => do
    let index ← untaken width n taken 4096
    rejecting width n (index :: taken) amount

/-- Indices drawn until each is new. -/
def byRejection (n amount : Nat) : Draw (List Nat) := do
  let taken ← rejecting (Draw.Width.ofBound n) n [] amount
  pure taken.reverse

end Sample

namespace Draw

/-- `amount` distinct indices below `n` in random order, or all of them when there are fewer. -/
def sample (n amount : Nat) : Draw (List Nat) :=
  let amount := min amount n
  match Sample.Method.choose n amount with
  | .growing => Sample.growing n amount
  | .byExchange => Sample.byExchange n amount
  | .byRejection => Sample.byRejection n amount

/-- The product of consecutive numbers from `next` on that still fits in one word, with the count of
its factors. -/
def batch (product next count : Nat) : Nat → Nat × Nat
  | 0 => (product, count)
  | tries + 1 =>
    if product * next < 0x100000000 then batch (product * next) (next + 1) (count + 1) tries
    else (product, count)

/-- What is left of a word from which several small numbers are taken. -/
structure Reserve where
  chunk : Nat
  remaining : Nat
deriving DecidableEq, Repr

/-- A number below `n`, taken from the reserve, which is drawn anew when it is used up. -/
def Reserve.below (reserve : Reserve) (n : Nat) : Draw (Nat × Reserve) := do
  let full ←
    if reserve.remaining = 0 then do
      let (product, count) := batch n (n + 1) 1 32
      let chunk ← Draw.below product
      pure (⟨chunk, count⟩ : Reserve)
    else pure reserve
  if full.remaining = 1 then pure (full.chunk, ⟨full.chunk, 0⟩)
  else pure (full.chunk % n, ⟨full.chunk / n, full.remaining - 1⟩)

/-- The places from `i` on, `count` of them, each exchanged with a place up to itself. -/
def shuffleFrom {β : Type} (xs : Array β) (reserve : Reserve) (i : Nat) : Nat → Draw (Array β)
  | 0 => pure xs
  | count + 1 => do
    let (j, reserve) ← reserve.below (i + 1)
    shuffleFrom (xs.swapIfInBounds i j) reserve (i + 1) count

/-- The elements of a list in random order. -/
def shuffle {β : Type} (xs : List β) : Draw (List β) :=
  if xs.length ≤ 1 then pure xs
  else do
    let shuffled ← shuffleFrom xs.toArray ⟨0, 0⟩ 1 (xs.length - 1)
    pure shuffled.toList

end Draw

end GrammarInduction
