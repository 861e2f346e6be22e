import GrammarInduction.Sorting.Short

/-!
# Sorting by runs

A list of more than twenty elements is cut into runs.  Where it rises or falls for long enough by itself
the run is sorted already; the other runs are short and sorted at once, or they are left loose for a
quicksort.  Neighbouring runs are then merged, in an order that balances the merges.

* `Sorting.cut` — the runs of a list;
* `Sorting.mergeRuns` — all runs merged;
* `Sorting.quick` — the quicksort of loose runs;
* `Sorting.stable` — the whole sort.
-/

namespace GrammarInduction.Sorting

/-! ## Runs -/

/-- A stretch of a list, which may be sorted. -/
structure Run (β : Type) where
  sorted : Bool
  items : List β

/-- How many elements a list starts with of which each is followed by one that may follow it. -/
def lead {β : Type} (follows : β → β → Bool) : List β → Nat
  | x :: y :: rest => if follows x y then lead follows (y :: rest) + 1 else 1
  | xs => xs.length

variable {β : Type} (less : β → β → Bool)

/-- The run that a list starts with by itself.  A run that falls is turned round; only one that falls at
each step can be, as equal elements would change places. -/
def naturalRun (xs : List β) : Run β :=
  let rise := lead (fun x y => !less y x) xs
  let fall := lead (fun x y => less y x) xs
  if 1 < fall then ⟨true, (xs.take fall).reverse⟩ else ⟨true, xs.take rise⟩

/-- The first run of a list: the one it starts with if that is long enough, or else a loose run. -/
def firstRun (good loose : Nat) (xs : List β) : Run β :=
  let run := naturalRun less xs
  if good ≤ run.items.length then run else ⟨false, xs.take loose⟩

/-- The runs of a list, of which it has at most as many as elements. -/
def cutSome (good loose : Nat) : Nat → List β → List (Run β)
  | _, [] => []
  | 0, xs => [⟨false, xs⟩]
  | count + 1, xs =>
    let run := firstRun less good loose xs
    run :: cutSome good loose count (xs.drop run.items.length)

/-- The runs of a list. -/
def cut (good loose : Nat) (xs : List β) : List (Run β) := cutSome less good loose xs.length xs

/-! ## Merging runs -/

/-- A merge of two sorted lists.  It starts where the shorter list can be put aside: at the front, or at
the end if that is the second. -/
def merge (xs ys : List β) : List β :=
  let steps := xs.length + ys.length
  if xs.length ≤ ys.length then
    let rest := interleave less steps xs ys
    rest.taken ++ rest.left ++ rest.right
  else
    let rest := interleaveBack less steps xs ys
    (rest.taken ++ rest.left ++ rest.right).reverse

/-- The elements of a run in order. -/
def Run.inOrder (sort : List β → Option (List β)) (run : Run β) : Option (List β) :=
  if run.sorted then pure run.items else sort run.items

/-- A run with its elements in order. -/
def Run.settle (sort : List β → Option (List β)) (run : Run β) : Option (Run β) := do
  pure ⟨true, ← run.inOrder sort⟩

/-- Joins neighbouring runs.  Loose runs stay loose as long as there is room to sort them together. -/
def join (room : Nat) (sort : List β → Option (List β)) (first second : Run β) :
    Option (Run β) := do
  if room < first.items.length + second.items.length ∨ first.sorted ∨ second.sorted then
    let xs ← first.inOrder sort
    let ys ← second.inOrder sort
    pure ⟨true, merge less xs ys⟩
  else pure ⟨false, first.items ++ second.items⟩

/-- The place of a boundary between runs in the merge tree: the deeper, the sooner it is merged away. -/
def depth (scale first middle last : Nat) : Nat :=
  let differing := (scale * (first + middle)) ^^^ (scale * (middle + last))
  if differing = 0 then 64 else 63 - differing.log2

/-- Joins a run with the runs before it, the last of them first, whose boundaries lie no higher than a
given depth. -/
def collapse (room : Nat) (sort : List β → Option (List β)) (level : Nat) :
    List (Run β × Nat) → Run β → Option (List (Run β × Nat) × Run β)
  | (earlier, place) :: stack, run => do
    if level ≤ place then collapse room sort level stack (← join less room sort earlier run)
    else pure ((earlier, place) :: stack, run)
  | [], run => pure ([], run)

/-- Joins runs into one: those on the stack, one that ends at a given place, and those to come. -/
def joinAll (room : Nat) (sort : List β → Option (List β)) (scale : Nat) :
    List (Run β × Nat) → Nat → Run β → List (Run β) → Option (Run β)
  | stack, _, run, [] => do
    let (_, run) ← collapse less room sort 0 stack run
    pure run
  | stack, place, run, next :: rest => do
    let level := depth scale (place - run.items.length) place (place + next.items.length)
    let (stack, joined) ← collapse less room sort level stack run
    joinAll room sort scale ((joined, level) :: stack) (place + next.items.length) next rest

/-- Merges the runs of a list of some length. -/
def mergeRuns (room : Nat) (sort : List β → Option (List β)) (length : Nat) :
    List (Run β) → Option (List β)
  | [] => pure []
  | first :: rest => do
    let scale := (0x4000000000000000 + length - 1) / length
    let run ← joinAll less room sort scale [] first.items.length first rest
    run.inOrder sort

/-! ## The sort -/

/-- How many elements are put aside at least for a sort of elements of some width in bytes. -/
def room (bytes length : Nat) : Nat :=
  max (4096 / bytes) (max (max (length - length / 2) (min length (8000000 / bytes))) 48)

/-- How long a run must be to count as one: half of a short list, and about a square root of a long one. -/
def goodLength (length : Nat) : Nat :=
  if length ≤ 4096 then min (length - length / 2) 64
  else
    let shift := (1 + length.log2) / 2
    ((1 <<< shift) + (length >>> shift)) / 2

/-- Sorts by runs of which none is left loose. -/
def eager (bytes : Nat) (xs : List β) : Option (List β) := do
  let sort := short less (bytes ≤ 16)
  let runs ← (cut less (goodLength xs.length) 32 xs).mapM (Run.settle sort)
  mergeRuns less (room bytes xs.length) sort xs.length runs

/-- The median of three elements. -/
def median (a b c : β) : β :=
  let below := less a b
  if below = less a c then
    if less b c = below then b else c
  else a

/-- An element of a list that stands in for the median of some of its elements from a place on. -/
def pivot (xs : List β) (default : β) (place length : Nat) : β :=
  if length < 8 then xs.getD place default
  else
    median less (pivot xs default place (length / 8))
      (pivot xs default (place + length / 8 * 4) (length / 8))
      (pivot xs default (place + length / 8 * 7) (length / 8))
termination_by length
decreasing_by all_goals omega

/-- Sorts by parting a list at a pivot, a given number of times at most.  Elements that equal the pivot
are set apart where nothing is less: no element is less than the one given, if one is. -/
def quick (bytes : Nat) : Nat → Option β → List β → Option (List β)
  | limit + 1, least?, x :: xs => do
    if xs.length < 32 then short less (bytes ≤ 16) (x :: xs)
    else
      let p := pivot less (x :: xs) x 0 (xs.length + 1)
      let below := (x :: xs).filter (less · p)
      if below.isEmpty ∨ least?.any (fun least => !less least p) then
        let above ← quick bytes limit none ((x :: xs).filter (less p ·))
        pure ((x :: xs).filter (fun y => !less p y) ++ above)
      else
        let notBelow ← quick bytes limit (some p) ((x :: xs).filter (fun y => !less y p))
        let below ← quick bytes limit least? below
        pure (below ++ notBelow)
  | _, _, xs => if xs.length ≤ 32 then short less (bytes ≤ 16) xs else eager less bytes xs

/-- The quicksort, with a limit to its depth that only a bad choice of pivots reaches. -/
def quicksort (bytes : Nat) (xs : List β) : Option (List β) :=
  quick less bytes (2 * (xs.length ||| 1).log2) none xs

/-- Sorts a list of elements of some width in bytes. -/
def stable (bytes : Nat) (xs : List β) : Option (List β) :=
  if xs.length ≤ 20 then pure (insertAll less [] xs)
  else if xs.length ≤ 64 then eager less bytes xs
  else
    let good := goodLength xs.length
    mergeRuns less (room bytes xs.length) (quicksort less bytes) xs.length (cut less good good xs)

end GrammarInduction.Sorting
