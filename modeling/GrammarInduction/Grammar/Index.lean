import GrammarInduction.Grammar.Symbol
import Std.Data.TreeMap

/-!
# Indexes of parents

An index gives keys their parents, one for each key, and keeps count of its keys while it changes, so
that its size can be told without a walk through it.

* `Index.owner?` — the parent of a key, the view that both operations are described by;
* `Index.put` — the last parent given to a key stays;
* `Index.remove` — a key leaves only if it has the parent that is named.
-/

namespace GrammarInduction

/-- Parents of keys, and a count of the keys. -/
structure Index (κ : Type) (cmp : κ → κ → Ordering) where
  owners : Std.TreeMap κ Symbol cmp
  count : Nat
  count_eq : count = owners.size

namespace Index

variable {κ : Type} {cmp : κ → κ → Ordering} [Std.TransCmp cmp]

omit [Std.TransCmp cmp] in
/-- The index of no key. -/
def empty : Index κ cmp := ⟨∅, 0, Std.TreeMap.size_emptyc.symm⟩

/-- The parent of a key. -/
def owner? (i : Index κ cmp) (k : κ) : Option Symbol := i.owners[k]?

/-- An overwritten key is no new one. -/
theorem size_insert_of_some {owners : Std.TreeMap κ Symbol cmp} {k : κ} {old parent : Symbol}
    (h : owners[k]? = some old) : (owners.insert k parent).size = owners.size := by
  have hmem : owners.contains k = true := by
    rw [Std.TreeMap.contains_eq_isSome_getElem?, h, Option.isSome_some]
  rw [Std.TreeMap.size_insert, if_pos hmem]

theorem size_insert_of_none {owners : Std.TreeMap κ Symbol cmp} {k : κ} {parent : Symbol}
    (h : owners[k]? = none) : (owners.insert k parent).size = owners.size + 1 := by
  have hmem : owners.contains k = false := by
    rw [Std.TreeMap.contains_eq_isSome_getElem?, h, Option.isSome_none]
  rw [Std.TreeMap.size_insert, hmem, if_neg Bool.false_ne_true]

theorem size_erase_of_some {owners : Std.TreeMap κ Symbol cmp} {k : κ} {old : Symbol}
    (h : owners[k]? = some old) : (owners.erase k).size = owners.size - 1 := by
  have hmem : owners.contains k = true := by
    rw [Std.TreeMap.contains_eq_isSome_getElem?, h, Option.isSome_some]
  rw [Std.TreeMap.size_erase, if_pos hmem]

/-- Gives a key a parent in the place of any other, and tells whether the parent is new to the key.  Only
a key that had no parent is counted. -/
def put (i : Index κ cmp) (k : κ) (parent : Symbol) : Bool × Index κ cmp :=
  match h : i.owners[k]? with
  | some old =>
    (decide (old ≠ parent),
      ⟨i.owners.insert k parent, i.count, i.count_eq.trans (size_insert_of_some h).symm⟩)
  | none =>
    (true, ⟨i.owners.insert k parent, i.count + 1,
      (congrArg (· + 1) i.count_eq).trans (size_insert_of_none h).symm⟩)

/-- Removes a key if it has a given parent, and tells whether it had.  A key that leaves is no longer
counted. -/
def remove (i : Index κ cmp) (k : κ) (parent : Symbol) : Bool × Index κ cmp :=
  if h : i.owners[k]? = some parent then
    (true, ⟨i.owners.erase k, i.count - 1,
      (congrArg (· - 1) i.count_eq).trans (size_erase_of_some h).symm⟩)
  else (false, i)

/-! ## What the operations do to the parents of keys -/

@[simp]
theorem owner?_empty (k : κ) : (empty : Index κ cmp).owner? k = none := by
  simp [empty, owner?]

/-- A parent is new to a key unless the key has it. -/
theorem put_fst (i : Index κ cmp) (k : κ) (parent : Symbol) :
    (i.put k parent).1 = decide (i.owner? k ≠ some parent) := by
  unfold put owner?
  split
  · rename_i h
    simp [h]
  · rename_i h
    simp [h]

theorem remove_fst (i : Index κ cmp) (k : κ) (parent : Symbol) :
    (i.remove k parent).1 = decide (i.owner? k = some parent) := by
  unfold remove owner?
  split
  · rename_i h
    simp [h]
  · rename_i h
    simp [h]

/-- Nothing is done about a key with another parent, or none. -/
theorem remove_of_ne {i : Index κ cmp} {k : κ} {parent : Symbol} (h : i.owner? k ≠ some parent) :
    i.remove k parent = (false, i) := dif_neg h

variable [Std.LawfulEqCmp cmp] [DecidableEq κ]

/-- A key has the parent it was given, and all other keys keep theirs. -/
theorem owner?_put (i : Index κ cmp) (k k' : κ) (parent : Symbol) :
    (i.put k parent).2.owner? k' = if k' = k then some parent else i.owner? k' := by
  have howners : (i.put k parent).2.owners = i.owners.insert k parent := by
    unfold put
    split <;> rfl
  rw [owner?, howners, Std.TreeMap.getElem?_insert]
  simp only [Std.LawfulEqCmp.compare_eq_iff_eq, eq_comm (a := k), owner?]

/-- Only a key that has the parent named loses it. -/
theorem owner?_remove (i : Index κ cmp) (k k' : κ) (parent : Symbol) :
    (i.remove k parent).2.owner? k'
      = if i.owner? k = some parent ∧ k' = k then none else i.owner? k' := by
  unfold remove owner?
  split
  · rename_i h
    rw [Std.TreeMap.getElem?_erase]
    simp only [Std.LawfulEqCmp.compare_eq_iff_eq, eq_comm (a := k), h, true_and]
  · rename_i h
    rw [if_neg fun hand => h hand.1]

end Index

end GrammarInduction
