/-!
# Sorting short lists

A sort goes by a comparison `less`, of which it takes for granted that it is an order.  A list of a few
elements is sorted in two halves, each by insertion, which are merged from both ends at once.  Where the
comparison contradicts itself, the ends of the merge miss each other, and the list has no result.

* `Sorting.insertAll` — insertion, which always has a result;
* `Sorting.mergeEnds` — a merge of equal halves from both ends;
* `Sorting.short` — the sort of a short list.
-/

namespace GrammarInduction.Sorting

variable {β : Type} (less : β → β → Bool)

/-- Places an element into a list that stands from its last place to its first: it passes those that it
is less than. -/
def insertBack (x : β) : List β → List β
  | [] => [x]
  | y :: ys => if less x y then y :: insertBack x ys else x :: y :: ys

/-- Sorts further elements into a sorted list, one after another. -/
def insertAll (sorted xs : List β) : List β :=
  (xs.foldl (fun placed x => insertBack less x placed) sorted.reverse).reverse

/-- What a merge has taken from two lists, and what it leaves of each. -/
structure Merge (β : Type) where
  taken : List β
  left : List β
  right : List β

/-- Some steps of a merge, or as many as both lists last: the head of the second list is taken where it is
less than the head of the first. -/
def interleave : Nat → List β → List β → Merge β
  | steps + 1, x :: xs, y :: ys =>
    if less y x then
      let rest := interleave steps (x :: xs) ys
      { rest with taken := y :: rest.taken }
    else
      let rest := interleave steps xs (y :: ys)
      { rest with taken := x :: rest.taken }
  | _, xs, ys => ⟨[], xs, ys⟩

/-- Some steps of a merge from the ends of two lists.  All lists stand from their last place to their
first. -/
def interleaveBack (steps : Nat) (xs ys : List β) : Merge β :=
  interleave (fun x y => less y x) steps ys.reverse xs.reverse

/-- What both ends of a merge have taken of two lists, around what they both leave.  There is no result if
they have taken an element twice. -/
def meet (xs ys : List β) (front back : Merge β) : Option (List β) :=
  if xs.length ≤ front.left.length + back.right.length
      ∧ ys.length ≤ front.right.length + back.left.length then
    some (front.taken
      ++ (front.left.take (front.left.length + back.right.length - xs.length)
        ++ front.right.take (front.right.length + back.left.length - ys.length))
      ++ back.taken.reverse)
  else none

/-- A merge of halves from both ends, which each take half of the elements, so that one at most is left. -/
def mergeEnds (xs ys : List β) : Option (List β) :=
  let half := (xs.length + ys.length) / 2
  meet xs ys (interleave less half xs ys) (interleaveBack less half xs ys)

/-- Two elements in order. -/
def pair (x y : β) : β × β := if less y x then (y, x) else (x, y)

/-- Two elements in order between the least and the greatest of four. -/
def between (least x y greatest : β) : List β :=
  [least, (pair less x y).1, (pair less x y).2, greatest]

/-- Four elements from two ordered pairs.  Of the two that are neither the least nor the greatest, the one
that stood first comes first. -/
def quartet (a b c d : β) : List β :=
  match less c a, less d b with
  | false, false => between less a b c d
  | false, true => between less a c d b
  | true, false => between less c a b d
  | true, true => between less c a d b

/-- Sorts four elements. -/
def four : List β → List β
  | [a, b, c, d] =>
    quartet less (pair less a b).1 (pair less a b).2 (pair less c d).1 (pair less c d).2
  | xs => xs

/-- Sorts eight elements. -/
def eight (xs : List β) : Option (List β) :=
  mergeEnds less (four less (xs.take 4)) (four less (xs.drop 4))

/-- Sorts one half of a short list of some length.  Its first elements are sorted at once: more of them
where the elements are narrow. -/
def halfOf (narrow : Bool) (length : Nat) (xs : List β) : Option (List β) :=
  if narrow = true ∧ 16 ≤ length then do
    let first ← eight less (xs.take 8)
    pure (insertAll less first (xs.drop 8))
  else if 8 ≤ length then pure (insertAll less (four less (xs.take 4)) (xs.drop 4))
  else pure (insertAll less [] xs)

/-- Sorts a short list. -/
def short (narrow : Bool) (xs : List β) : Option (List β) := do
  if xs.length < 2 then pure xs
  else
    let left ← halfOf less narrow xs.length (xs.take (xs.length / 2))
    let right ← halfOf less narrow xs.length (xs.drop (xs.length / 2))
    mergeEnds less left right

end GrammarInduction.Sorting
