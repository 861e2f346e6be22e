import GrammarInduction.Chart.Table
import Std.Data.TreeSet

/-!
# Traceback

A completed table tells which rules derive a symbol over the whole sentence.  A *node* is a symbol in
a cell; its productions lead to the nodes of their children.

* `Table.allRules` — the rules of all derivations, each once, ascending;
* `Table.bestTree` — the rules of the most probable derivation: parent, right part, left part.
-/

namespace GrammarInduction

/-- A symbol to be derived over the stretch of a cell. -/
structure Node where
  row : Nat
  col : Nat
  symbol : Symbol
deriving DecidableEq, Repr

namespace Node

instance : Ord Node where
  compare a b :=
    (compare a.row b.row).then ((compare a.col b.col).then (compare a.symbol b.symbol))

instance : Std.TransOrd Node :=
  inferInstanceAs (Std.TransCmp
    (compareLex (compareOn row) (compareLex (compareOn col) (compareOn symbol))))

instance : Std.LawfulEqOrd Node where
  eq_of_compare {a b} h := by
    have h' := Ordering.then_eq_eq.1 h
    have h'' := Ordering.then_eq_eq.1 h'.2
    have hr : a.row = b.row := Std.LawfulEqOrd.eq_of_compare h'.1
    have hc : a.col = b.col := Std.LawfulEqOrd.eq_of_compare h''.1
    have hs : a.symbol = b.symbol := Std.LawfulEqOrd.eq_of_compare h''.2
    cases a
    cases b
    simp_all

end Node

/-- The ways to read the rules off a completed table. -/
inductive Traceback where
  | allDerivations
  | bestDerivation
deriving DecidableEq, Repr

namespace Table

variable {α : Type} [Scalar α]

/-- The node of the whole sentence. -/
def root (t : Table α) (start : Symbol) : Node := ⟨t.length - 1, 0, start⟩

/-- The nodes of the children of a production, if it has a pair rule: left, then right. -/
def childNodes (t : Table α) (p : Production α) : Except Fault (Option (Node × Node)) :=
  match p.rule? with
  | some ⟨_, .pair l r⟩ => do
    match ← t.children p.detector with
    | some ((leftRow, leftCol), (rightRow, rightCol)) =>
      pure (some (⟨leftRow, leftCol, l⟩, ⟨rightRow, rightCol, r⟩))
    | none => pure none
  | _ => pure none

/-- What a search has seen and found. -/
structure Search where
  visited : Std.TreeSet Node
  used : Std.TreeSet Rule

/-- The nodes still to be searched with the children of a production, the right child on top; nodes seen
before are left out. -/
def pushChildren (visited : Std.TreeSet Node) (stack : List Node) :
    Option (Node × Node) → List Node
  | some (left, right) => [right, left].filter (fun n => !visited.contains n) ++ stack
  | none => stack

/-- Searches the nodes of a stack, and those they lead to, for the rules they use. -/
def search (t : Table α) : Nat → Search → List Node → Except Fault Search
  | 0, s, _ => .ok s
  | _, s, [] => .ok s
  | steps + 1, s, node :: stack =>
    if s.visited.contains node then search t steps s stack
    else do
      let pool ← t.cell node.row node.col
      let visited := s.visited.insert node
      let productions := pool.productionsFor node.symbol
      let used := productions.foldl (fun used p => used.insertMany p.rule?.toList) s.used
      let children ← productions.mapM t.childNodes
      search t steps ⟨visited, used⟩ (children.foldl (pushChildren visited) stack)

/-- The count of productions in all cells. -/
def productionCount (t : Table α) : Nat :=
  t.cells.foldl (fun count pool => count + pool.productions.size) 0

/-- More steps than a search takes: each production leads to two nodes once from every node that it
derives, and a cell is addressed by at most one node of its symbol in each row. -/
def searchSteps (t : Table α) : Nat := 2 * t.length * t.productionCount + 2

/-- The rules of all derivations of `start` over the whole sentence, ascending. -/
def allRules (t : Table α) (start : Symbol) : Except Fault (List Rule) :=
  if t.length = 0 then .ok []
  else do
    let s ← t.search t.searchSteps ⟨∅, ∅⟩ [t.root start]
    pure s.used.toList

/-- The rules of the best derivation of a node, of at most the given height. -/
def treeFrom (t : Table α) : Nat → Node → Except Fault (List Rule)
  | 0, _ => .ok []
  | height + 1, node => do
    let pool ← t.cell node.row node.col
    match pool.best? node.symbol with
    | none => pure []
    | some p =>
      match ← t.childNodes p with
      | none => pure p.rule?.toList
      | some (left, right) => do
        let rightRules ← treeFrom t height right
        let leftRules ← treeFrom t height left
        pure (p.rule?.toList ++ rightRules ++ leftRules)

/-- The rules of the best derivation of `start` over the whole sentence: the parent first, then the
right part, then the left. -/
def bestTree (t : Table α) (start : Symbol) : Except Fault (List Rule) :=
  if t.length = 0 then .ok []
  else t.treeFrom (t.productionCount + 2) (t.root start)

/-- The rules that a traceback reads off a table. -/
def trace (t : Table α) (traceback : Traceback) (start : Symbol) : Except Fault (List Rule) :=
  match traceback with
  | .allDerivations => t.allRules start
  | .bestDerivation => t.bestTree start

end Table

end GrammarInduction
