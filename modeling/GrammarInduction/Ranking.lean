import GrammarInduction.Fault
import GrammarInduction.Scalar
import GrammarInduction.Sorting.Runs

/-!
# Ranking by a key

Elements ordered by a key, the greatest first.  The order is stable: an element moves forward only past
elements with a strictly smaller key.  Keys that do not compare count as equal to all others, by which the
comparisons of three elements can contradict each other.
-/

namespace GrammarInduction.Ranking

variable {α β : Type} [Scalar α]

/-- The elements, which are of some width in bytes, with the greatest key first. -/
def descending (bytes : Nat) (key : β → α) (xs : List β) : Except Fault (List β) :=
  match Sorting.stable (fun x y => decide (key y < key x)) bytes xs with
  | some ranked => .ok ranked
  | none => .error .disorder

theorem stable_of_descending {bytes : Nat} {key : β → α} {xs ys : List β}
    (h : descending bytes key xs = .ok ys) :
    Sorting.stable (fun x y => decide (key y < key x)) bytes xs = some ys := by
  unfold descending at h
  split at h
  · rename_i hranked
    cases h
    exact hranked
  · cases h

end GrammarInduction.Ranking
