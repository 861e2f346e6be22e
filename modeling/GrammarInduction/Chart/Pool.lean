import GrammarInduction.Grammar.Rule
import GrammarInduction.Scalar
import Std.Data.TreeMap
import Std.Data.TreeSet

/-!
# Detectors, productions and pools

A cell of a chart covers a stretch of the sentence.  A *detector* is one way to look at the stretch:
the terminal it consists of, or a split with a symbol found on each side.  A *production* is a
detector with the rule that fits it, if there is one, and the probability of the best derivation
through it.  A *pool* holds the productions of one cell in the order in which they were added:

* `Pool.add` — keeps the parents, for each of them the place of the first of its most probable
  productions, and the detectors that no rule fits;
* `Pool.effectors` — the parents of all productions, ascending;
* `Pool.best?` — the production at the place that is kept for a parent.
-/

namespace GrammarInduction

/-- One way to look at the stretch of a cell. -/
inductive Detector where
  /-- The single terminal at a column. -/
  | leaf (col : Nat) (terminal : Symbol)
  /-- A split of cell `(row, col)` whose left part ends `shift` places after it starts. -/
  | split (row col shift : Nat) (left right : Symbol)
deriving DecidableEq, Repr

namespace Detector

/-- The body that a fitting rule has. -/
def body : Detector → Body
  | leaf _ terminal => .terminal terminal
  | split _ _ _ left right => .pair left right

end Detector

/-- A detector with the rule that fits it, if any. -/
structure Production (α : Type) where
  detector : Detector
  rule? : Option Rule
  probability : α
deriving Repr

namespace Production

variable {α : Type}

/-- The symbol that a production derives. -/
def parent? (p : Production α) : Option Symbol := p.rule?.map Rule.parent

/-- The production of a detector that no rule fits. -/
def empty [Scalar α] (d : Detector) : Production α := ⟨d, none, 0⟩

end Production

/-- The productions of one cell, with what is kept about them while they are added: the symbols that they
derive, for each of these the place of its best production, and the detectors that no rule fits. -/
structure Pool (α : Type) where
  productions : Array (Production α)
  parents : Std.TreeSet Symbol
  best : Std.TreeMap Symbol Nat
  unsatisfied : Array Detector
  mem_best : ∀ {s : Symbol}, s ∈ best ↔ s ∈ parents
  lt_size : ∀ {s : Symbol} {i : Nat}, best[s]? = some i → i < productions.size

namespace Pool

variable {α : Type}

/-- The pool of no production. -/
def empty : Pool α where
  productions := #[]
  parents := ∅
  best := ∅
  unsatisfied := #[]
  mem_best := iff_of_false Std.TreeMap.not_mem_emptyc Std.TreeSet.not_mem_emptyc
  lt_size h := by simp at h

instance : Inhabited (Pool α) := ⟨empty⟩

/-- The symbols that some production derives, ascending. -/
def effectors (pool : Pool α) : List Symbol := pool.parents.toList

/-- Whether some production derives a symbol. -/
def derives (pool : Pool α) (s : Symbol) : Bool := pool.parents.contains s

/-- The productions that derive a symbol. -/
def productionsFor (pool : Pool α) (s : Symbol) : List (Production α) :=
  pool.productions.toList.filter fun p => decide (p.parent? = some s)

/-- The first of the most probable productions that derive a symbol. -/
def best? (pool : Pool α) (s : Symbol) : Option (Production α) :=
  match h : pool.best[s]? with
  | some i =>
    have : i < pool.productions.size := pool.lt_size h
    some pool.productions[i]
  | none => none

/-- The detectors of all productions. -/
def detectors (pool : Pool α) : List Detector := pool.productions.toList.map (·.detector)

/-- Whether no production has a rule. -/
def isBarren (pool : Pool α) : Bool := pool.parents.isEmpty

theorem best?_eq (pool : Pool α) (s : Symbol) :
    pool.best? s = (pool.best[s]?).bind fun i => pool.productions[i]? := by
  unfold best?
  split
  · rename_i i h
    simp only [h, Option.bind_some, Array.getElem?_eq_getElem (pool.lt_size h)]
  · rename_i h
    rw [h, Option.bind_none]

@[simp]
theorem best?_empty (s : Symbol) : (empty : Pool α).best? s = none := by
  simp [best?_eq, empty]

theorem isSome_best? {pool : Pool α} {s : Symbol} :
    (pool.best? s).isSome = true ↔ s ∈ pool.best := by
  rw [Std.TreeMap.mem_iff_isSome_getElem?, best?_eq]
  cases h : pool.best[s]? with
  | none => simp
  | some i => simp [pool.lt_size h]

/-- A symbol is derived exactly if it has a best production. -/
theorem derives_iff {pool : Pool α} {s : Symbol} :
    pool.derives s = true ↔ (pool.best? s).isSome = true := by
  rw [isSome_best?, pool.mem_best]
  exact Std.TreeSet.contains_iff_mem

theorem mem_effectors {pool : Pool α} {s : Symbol} :
    s ∈ pool.effectors ↔ pool.derives s = true :=
  Std.TreeSet.mem_toList.trans Std.TreeSet.mem_iff_contains

theorem isBarren_iff {pool : Pool α} : pool.isBarren = true ↔ ∀ s, pool.derives s = false :=
  Std.TreeSet.isEmpty_iff_forall_contains

variable [Scalar α]

/-- The probability of the best production of a symbol, zero without one. -/
def bestProbability (pool : Pool α) (s : Symbol) : α :=
  match pool.best? s with
  | some p => p.probability
  | none => 0

/-- Whether a production takes over as the best of its parent. -/
def improves (pool : Pool α) (parent : Symbol) (p : Production α) : Bool :=
  match pool.best? parent with
  | none => true
  | some b => decide (b.probability < p.probability)

theorem improves_iff {pool : Pool α} {parent : Symbol} {p b : Production α}
    (h : pool.best? parent = some b) :
    pool.improves parent p = true ↔ b.probability < p.probability := by
  rw [improves, h, decide_eq_true_iff]

/-- Where a production does not take over, its parent has a best one already. -/
theorem isSome_best?_of_not_improves {pool : Pool α} {parent : Symbol} {p : Production α}
    (h : ¬ pool.improves parent p = true) : (pool.best? parent).isSome = true := by
  cases hb : pool.best? parent with
  | none => exact absurd (by rw [improves, hb]) h
  | some b => rfl

/-- The places of the best productions once a production of a symbol stands at the end. -/
def bestAfter (pool : Pool α) (parent : Symbol) (p : Production α) : Std.TreeMap Symbol Nat :=
  if pool.improves parent p then pool.best.insert parent pool.productions.size else pool.best

theorem mem_bestAfter {pool : Pool α} {parent s : Symbol} {p : Production α} :
    s ∈ pool.bestAfter parent p ↔ s ∈ pool.parents.insert parent := by
  unfold bestAfter
  rw [Std.TreeSet.mem_insert, ← pool.mem_best]
  split
  · rw [Std.TreeMap.mem_insert]
  · rename_i hstays
    have hmem : parent ∈ pool.best := isSome_best?.mp (isSome_best?_of_not_improves hstays)
    rw [Std.LawfulEqOrd.compare_eq_iff_eq]
    exact ⟨Or.inr, fun h => h.elim (fun heq => heq ▸ hmem) id⟩

theorem getElem?_bestAfter (pool : Pool α) (parent s : Symbol) (p : Production α) :
    (pool.bestAfter parent p)[s]?
      = if parent = s ∧ pool.improves parent p = true then some pool.productions.size
        else pool.best[s]? := by
  unfold bestAfter
  split
  · rename_i htakes
    simp only [Std.TreeMap.getElem?_insert, Std.LawfulEqOrd.compare_eq_iff_eq, htakes, and_true]
  · rename_i hstays
    rw [if_neg fun h => hstays h.2]

omit [Scalar α] in
theorem lt_size_push {pool : Pool α} {s : Symbol} {i : Nat} (h : pool.best[s]? = some i)
    (p : Production α) : i < (pool.productions.push p).size := by
  rw [Array.size_push]
  exact Nat.lt_succ_of_lt (pool.lt_size h)

theorem lt_size_bestAfter {pool : Pool α} {parent s : Symbol} {p : Production α} {i : Nat}
    (h : (pool.bestAfter parent p)[s]? = some i) : i < (pool.productions.push p).size := by
  rw [getElem?_bestAfter] at h
  split at h
  · cases h
    rw [Array.size_push]
    exact Nat.lt_succ_self _
  · exact lt_size_push h p

/-- Adds a production at the end. -/
def add (pool : Pool α) (p : Production α) : Pool α :=
  match p.parent? with
  | some parent =>
    { productions := pool.productions.push p
      parents := pool.parents.insert parent
      best := pool.bestAfter parent p
      unsatisfied := pool.unsatisfied
      mem_best := mem_bestAfter
      lt_size := lt_size_bestAfter }
  | none =>
    { productions := pool.productions.push p
      parents := pool.parents
      best := pool.best
      unsatisfied := pool.unsatisfied.push p.detector
      mem_best := pool.mem_best
      lt_size h := lt_size_push h p }

/-- The pool of a list of productions, added in turn. -/
def ofList (ps : List (Production α)) : Pool α := ps.foldl add empty

/-! ## What adding a production does to the views of a pool -/

/-- Productions stay in the order in which they were added. -/
@[simp]
theorem productions_add (pool : Pool α) (p : Production α) :
    (pool.add p).productions = pool.productions.push p := by
  unfold add
  split <;> rfl

/-- Only a production without a rule leaves its detector unsatisfied. -/
theorem unsatisfied_add (pool : Pool α) (p : Production α) :
    (pool.add p).unsatisfied
      = if p.parent? = none then pool.unsatisfied.push p.detector else pool.unsatisfied := by
  unfold add
  split <;> simp_all

/-- A pool derives what it did before a production was added, and the parent of that production. -/
theorem derives_add (pool : Pool α) (p : Production α) (s : Symbol) :
    (pool.add p).derives s = true ↔ pool.derives s = true ∨ p.parent? = some s := by
  unfold add derives
  cases h : p.parent? with
  | none => simp
  | some parent => simp [or_comm]

/-- A production takes over as the best of its own parent alone, and only if it improves on it. -/
theorem getElem?_best_add (pool : Pool α) (p : Production α) (s : Symbol) :
    (pool.add p).best[s]?
      = if p.parent? = some s ∧ pool.improves s p = true then some pool.productions.size
        else pool.best[s]? := by
  unfold add
  cases h : p.parent? with
  | none => simp
  | some parent =>
    by_cases hs : parent = s
    · simp [getElem?_bestAfter, hs]
    · simp [getElem?_bestAfter, hs]

theorem best?_add (pool : Pool α) (p : Production α) (s : Symbol) :
    (pool.add p).best? s
      = if p.parent? = some s ∧ pool.improves s p = true then some p else pool.best? s := by
  rw [best?_eq, best?_eq, getElem?_best_add, productions_add]
  split
  · rw [Option.bind_some, Array.getElem?_push_size]
  · cases h : pool.best[s]? with
    | none => rfl
    | some i =>
      have hlt := pool.lt_size h
      rw [Option.bind_some, Option.bind_some, Array.getElem?_push_lt hlt,
        Array.getElem?_eq_getElem hlt]

end Pool

end GrammarInduction
