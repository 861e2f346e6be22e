import GrammarInduction.Chart.Pool
import GrammarInduction.Word

/-!
# Triangular tables

The table of a sentence of `n` symbols has a cell for each stretch of it: cell `(row, col)` covers the
`row + 1` symbols from column `col` on, so `row + col < n`.  Coordinates are machine words, and a sum of them
that is too great for one is a fault.

* `Table.cell`, `Table.write` — one cell read or written, or the fault that there is none;
* `Table.children` — the two cells that a split detector refers to;
* `Table.fill` — a table filled cell by cell, the shorter stretches first.
-/

namespace GrammarInduction

/-- One pool for each stretch of a sentence. -/
structure Table (α : Type) where
  length : Nat
  cells : Array (Pool α)
  size_cells : cells.size = length * length

namespace Table

variable {α : Type}

/-- The table of empty cells for a sentence of a given length. -/
def blank (n : Nat) : Table α :=
  ⟨n, Array.replicate (n * n) Pool.empty, Array.size_replicate⟩

/-- A coordinate, or a sum of coordinates, that is asked of a table for `n` symbols.  A table has no more rows
and columns than there are words, so what lies inside it is a word; what lies outside may be too great for
one. -/
def coordinate (n x : Nat) : Except Fault Nat :=
  if n ≤ x ∧ wordCount ≤ x then .error .overflow else .ok x

/-- The place of a cell in a table for `n` symbols.  The sum of its coordinates is taken where the row is one
of the table, and tells whether the column is one of the row. -/
def place (n row col : Nat) : Except Fault Nat :=
  if row < n then do
    let sum ← coordinate n (row + col)
    if sum < n then pure (row * n + col) else throw (.outOfBounds row col n)
  else throw (.outOfBounds row col n)

/-- The pool of a cell. -/
def cell (t : Table α) (row col : Nat) : Except Fault (Pool α) := do
  let i ← place t.length row col
  pure (t.cells.getD i Pool.empty)

/-- The table with another pool in a cell. -/
def write (t : Table α) (row col : Nat) (pool : Pool α) : Except Fault (Table α) := do
  let i ← place t.length row col
  pure ⟨t.length, t.cells.setIfInBounds i pool, Array.size_setIfInBounds.trans t.size_cells⟩

/-! ## Cells read after cells written -/

/-- The place of a cell counts the cells of the rows before it, and a row has as many as the table. -/
theorem place_lt {n row col : Nat} (hrow : row < n) (hcol : col < n) : row * n + col < n * n := by
  have hn : (row + 1) * n ≤ n * n := Nat.mul_le_mul_right n hrow
  rw [Nat.add_mul, Nat.one_mul] at hn
  omega

theorem lt_of_inside {n row col : Nat} (h : row + col < n) : row * n + col < n * n :=
  place_lt (by omega) (by omega)

theorem coordinate_of_inside {n x : Nat} (h : x < n) : coordinate n x = .ok x := by
  rw [coordinate, if_neg (by omega)]

/-- A cell of the triangle has a place, row after row. -/
theorem place_of_inside {n row col : Nat} (h : row + col < n) :
    place n row col = .ok (row * n + col) := by
  have hrow : row < n := by omega
  rw [place, if_pos hrow, coordinate_of_inside h]
  exact if_pos h

/-- Different cells have different places, also where the triangle ends. -/
theorem place_injective {n row col row' col' : Nat} (hcol : col < n) (hcol' : col' < n)
    (heq : row * n + col = row' * n + col') : row = row' ∧ col = col' := by
  have hn : 0 < n := by omega
  have hdiv := congrArg (· / n) heq
  have hmod := congrArg (· % n) heq
  simp only [Nat.mul_comm _ n, Nat.mul_add_div hn, Nat.mul_add_mod, Nat.div_eq_of_lt hcol,
    Nat.div_eq_of_lt hcol', Nat.mod_eq_of_lt hcol, Nat.mod_eq_of_lt hcol'] at hdiv hmod
  exact ⟨by omega, hmod⟩

theorem cell_of_place {t : Table α} {row col i : Nat} (h : place t.length row col = .ok i) :
    t.cell row col = .ok (t.cells.getD i Pool.empty) := by
  rw [cell, h]
  rfl

theorem cell_of_inside {t : Table α} {row col : Nat} (h : row + col < t.length) :
    t.cell row col = .ok (t.cells.getD (row * t.length + col) Pool.empty) :=
  cell_of_place (place_of_inside h)

/-- What is written at a place is read back from there, and from nowhere else. -/
theorem exists_write_of_place {t : Table α} {row col i : Nat}
    (h : place t.length row col = .ok i) (hi : i < t.length * t.length) (pool : Pool α) :
    ∃ u, t.write row col pool = .ok u ∧ u.length = t.length
      ∧ ∀ row' col' j, place t.length row' col' = .ok j →
        u.cell row' col' = if j = i then .ok pool else t.cell row' col' := by
  have hsize : i < t.cells.size := t.size_cells ▸ hi
  let u : Table α :=
    ⟨t.length, t.cells.setIfInBounds i pool, Array.size_setIfInBounds.trans t.size_cells⟩
  refine ⟨u, by rw [write, h]; rfl, rfl, fun row' col' j hj => ?_⟩
  rw [cell_of_place hj, cell_of_place (t := u) hj]
  by_cases hji : j = i
  · subst hji
    simp [u, Array.getD_eq_getD_getElem?, Array.getElem?_setIfInBounds_self_of_lt hsize]
  · simp [u, Array.getD_eq_getD_getElem?, Array.getElem?_setIfInBounds_ne (Ne.symm hji), hji]

/-- A cell of the triangle can be written: it reads back, and the other cells and the length stay as they
were. -/
theorem exists_write {t : Table α} {row col : Nat} (h : row + col < t.length) (pool : Pool α) :
    ∃ u, t.write row col pool = .ok u ∧ u.length = t.length ∧ u.cell row col = .ok pool
      ∧ ∀ row' col', row' + col' < t.length → (row', col') ≠ (row, col) →
        u.cell row' col' = t.cell row' col' := by
  obtain ⟨u, hu, hlength, hcells⟩ := exists_write_of_place (place_of_inside h) (lt_of_inside h) pool
  refine ⟨u, hu, hlength, ?_, fun row' col' h' hne => ?_⟩
  · rw [hcells row col _ (place_of_inside h), if_pos rfl]
  · rw [hcells row' col' _ (place_of_inside h'), if_neg]
    intro heq
    obtain ⟨hrow, hcol⟩ := place_injective (by omega) (by omega) heq
    exact hne (by rw [hrow, hcol])

/-- The cell of the whole sentence, unless it is empty. -/
def top? (t : Table α) : Option (Pool α) :=
  if t.length = 0 then none else (t.cell (t.length - 1) 0).toOption

/-- The cells on the left and on the right of a split. -/
def children (t : Table α) : Detector → Except Fault (Option ((Nat × Nat) × (Nat × Nat)))
  | .leaf .. => pure none
  | .split row col shift _ _ =>
    if row ≤ shift then throw .overflow
    else do
      let rightCol ← coordinate t.length (col + shift + 1)
      pure (some ((shift, col), (row - shift - 1, rightCol)))

/-- The parts of a split of a cell of the triangle lie side by side. -/
theorem children_split {t : Table α} {row col shift : Nat} (hshift : shift < row)
    (inside : row + col < t.length) (left right : Symbol) :
    t.children (.split row col shift left right)
      = .ok (some ((shift, col), (row - shift - 1, col + shift + 1))) := by
  rw [children, if_neg (by omega), coordinate_of_inside (by omega)]
  rfl

/-- The coordinates of all cells, row after row. -/
def coordinates (n : Nat) : List (Nat × Nat) :=
  (List.range n).flatMap fun row => (List.range (n - row)).map fun col => (row, col)

/-- The table after the listed cells have been filled in turn, each from the table before it. -/
def fillCells {m : Type → Type} [Monad m] [MonadLiftT (Except Fault) m]
    (pool : Table α → Nat → Nat → m (Pool α)) : List (Nat × Nat) → Table α → m (Table α)
  | [], t => pure t
  | (row, col) :: rest, t => do
    let p ← pool t row col
    let t ← (t.write row col p : Except Fault (Table α))
    fillCells pool rest t

/-- The table for `n` symbols, filled row after row. -/
def fill {m : Type → Type} [Monad m] [MonadLiftT (Except Fault) m]
    (pool : Table α → Nat → Nat → m (Pool α)) (n : Nat) : m (Table α) :=
  fillCells pool (coordinates n) (blank n)

end Table

end GrammarInduction
