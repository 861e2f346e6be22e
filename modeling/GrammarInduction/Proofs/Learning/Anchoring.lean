import GrammarInduction.Proofs.Learning.Linking

/-!
# Anchored productions

Rules are read off a table by going from a production to the cells that its detector names, and no step of
this is checked.  None has to be: whatever the grammar became while the table was filled, a production names
the cell it stands in, and the cells that it refers to are cells of the table, divide the columns of its own
and derive the symbols that its rule joins.

* `Table.Divides` — two cells share out the columns of a third;
* `Table.Anchored` — a production says where it stands and what it was made of;
* `Table.Linked.anchored` — the productions of a linked table are anchored;
* `Parse.Completed.productions_anchored` — so are those of every table that a recognition or a parse returns.
-/

namespace GrammarInduction

open Attempt

variable {α : Type}

namespace Detector

/-- The row of the cell that is looked at.  Terminals stand in the first. -/
def row : Detector → Nat
  | leaf .. => 0
  | split row .. => row

/-- The column at which the cell starts that is looked at. -/
def col : Detector → Nat
  | leaf col _ => col
  | split _ col .. => col

end Detector

namespace Table

variable {w : List Symbol} {t : Table α} {row col shift : Nat}

/-! ## The columns of a cell -/

/-- The columns that a cell covers. -/
def columns (row col : Nat) : List Nat := List.range' col (row + 1)

/-- The columns of a split are those of its left part and then those of its right part. -/
theorem columns_append (col : Nat) (hshift : shift < row) :
    columns shift col ++ columns (row - shift - 1) (col + shift + 1) = columns row col := by
  have hwidth : shift + 1 + (row - shift - 1 + 1) = row + 1 := by omega
  rw [columns, columns, columns, ← hwidth]
  exact List.range'_append_1

/-- The two cells lie side by side in a table of `n` columns, and cover the columns of a cell together. -/
structure Divides (n row col : Nat) (left right : Nat × Nat) : Prop where
  left_inside : left.1 + left.2 < n
  right_inside : right.1 + right.2 < n
  apart : ∀ c ∈ columns left.1 left.2, c ∉ columns right.1 right.2
  join : columns left.1 left.2 ++ columns right.1 right.2 = columns row col

/-- The parts of a split divide the columns of its cell. -/
theorem divides_of_lt {n : Nat} (hshift : shift < row) (inside : row + col < n) :
    Divides n row col (shift, col) (row - shift - 1, col + shift + 1) where
  left_inside := by
    dsimp only
    omega
  right_inside := by
    dsimp only
    omega
  apart c hleft hright := by
    have hbefore := (List.mem_range'_1.mp hleft).2
    have hafter := (List.mem_range'_1.mp hright).1
    dsimp only at hbefore hafter
    omega
  join := columns_append col hshift

/-! ## Where a production stands -/

/-- The cell has a pool, and the symbol is one of its effectors. -/
def HasEffector (t : Table α) (cell : Nat × Nat) (x : Symbol) : Prop :=
  ∃ pool, t.cell cell.1 cell.2 = .ok pool ∧ x ∈ pool.effectors

theorem hasEffector_of_derives (inside : row + col < t.length) {x : Symbol}
    (hx : (t.poolAt row col).derives x = true) : t.HasEffector (row, col) x :=
  ⟨_, cell_eq_poolAt inside, Pool.mem_effectors.mpr hx⟩

/-- The detector of a production names the cell it stands in.  In the first row it is that of the terminal
there.  Below, it is a split, and the cells on its two sides share out the columns of the cell and derive the
symbols that it names.  The rule, if there is one, has these symbols for its body. -/
structure Anchored (w : List Symbol) (t : Table α) (row col : Nat) (q : Production α) : Prop where
  row_eq : q.detector.row = row
  col_eq : q.detector.col = col
  leaf : row = 0 → ∃ a, w[col]? = some a ∧ q.detector = .leaf col a
  split : 0 < row → ∃ shift l r left right, q.detector = .split row col shift l r ∧ shift < row
    ∧ t.children q.detector = .ok (some (left, right)) ∧ Divides t.length row col left right
    ∧ t.HasEffector left l ∧ t.HasEffector right r
  body : ∀ r, q.rule? = some r → r.body = q.detector.body

/-- The productions of a linked table are anchored. -/
theorem Linked.anchored (h : t.Linked w) (inside : row + col < w.length) {q : Production α}
    (hq : q ∈ (t.poolAt row col).productions) : t.Anchored w row col q := by
  have hbody := (h.cell inside).body q hq
  have hsees := (h.cell inside).sees q hq
  rw [← h.length] at inside
  generalize hdetector : q.detector = d at hsees
  cases hsees with
  | @leaf col a here =>
      refine ⟨congrArg Detector.row hdetector, congrArg Detector.col hdetector,
        fun _ => ⟨a, here, hdetector⟩, ?_, hbody⟩
      exact fun hpos => absurd hpos (Nat.lt_irrefl 0)
  | @split row col shift l r hshift left right =>
      refine ⟨congrArg Detector.row hdetector, congrArg Detector.col hdetector, ?_, fun _ => ?_, hbody⟩
      · exact fun hzero => absurd hshift (hzero ▸ Nat.not_lt_zero shift)
      · have hchildren := children_split hshift inside l r
        refine ⟨shift, l, r, _, _, hdetector, hshift, hdetector ▸ hchildren,
          divides_of_lt hshift inside, ?_, ?_⟩
        · exact hasEffector_of_derives (by omega) left
        · exact hasEffector_of_derives (by omega) right

end Table

namespace Parse.Completed

variable [Scalar α] {w : Sentence} {start : Symbol} {outcome : Parse α}

/-- **The productions of a completed table are anchored.**  Whatever grammar, coverage and draws a table
comes from, it has a cell for each stretch of the sentence, and each production of each cell names this cell,
refers to cells that divide it and derive what it names, and has a rule for just that or none. -/
theorem productions_anchored (h : Completed w start outcome) :
    outcome.table.length = w.length
      ∧ ∀ row col, row + col < w.length → ∃ pool, outcome.table.cell row col = .ok pool
        ∧ ∀ q ∈ pool.productions, outcome.table.Anchored w.symbols row col q := by
  obtain ⟨t, rfl, hlinked⟩ := h.exists_linked
  refine ⟨hlinked.length, fun row col inside => ?_⟩
  have hcell : t.cell row col = .ok (t.poolAt row col) := by
    apply Table.cell_eq_poolAt
    rw [hlinked.length]
    exact inside
  exact ⟨_, hcell, fun q hq => hlinked.anchored inside hq⟩

/-- The standard settings learn a sentence of three symbols from no rule at all.  The cell of the whole of it
has a production then, and this is anchored. -/
theorem productions_anchored_standard :
    ∃ (outcome : Parse Float) (s' : Learner Float) (pool : Pool Float) (q : Production Float),
      Learner.parse .standard ⟨[-1, -2, -1], .positive⟩
          (.ofPopulation (.ofRules .standard []) .usage (.standard .standard 10) (.ofSeed 7))
        = (.ok outcome, s')
        ∧ outcome.table.cell 2 0 = .ok pool ∧ q ∈ pool.productions
        ∧ outcome.table.Anchored [-1, -2, -1] 2 0 q := by
  obtain ⟨outcome, s', hrun, hcheck⟩ := exists_ok_of_check
    (fun outcome _ => match outcome.table.cell 2 0 with
      | .ok pool => decide (0 < pool.productions.size)
      | .error _ => false)
    (m := Learner.parse (.standard : Coverage Float) ⟨[-1, -2, -1], .positive⟩)
    (s := .ofPopulation (.ofRules .standard []) .usage (.standard .standard 10) (.ofSeed 7))
    (by decide +kernel)
  obtain ⟨pool, hcell, hpool⟩ := (productions_anchored (.covered hrun)).2 2 0 (by decide)
  rw [hcell] at hcheck
  have hsome : 0 < pool.productions.size := of_decide_eq_true hcheck
  have hmem := Array.getElem_mem hsome
  exact ⟨outcome, s', pool, _, hrun, hcell, hmem, hpool _ hmem⟩

end Parse.Completed

end GrammarInduction
