import GrammarInduction.Chart.Table

/-!
# The cells that words address

Any two words can be given for a row and a column.  In a row of the table their sum tells whether there is a
cell for them.  So the cells of the triangle are addressed by their own coordinates, each apart from the
others, and what lies outside is refused with the coordinates that were given; but for a column so great that
its sum with a row of the table is no word.  Of such coordinates not even the refusal is found.

* `Table.Overflows` — coordinates without a sum;
* `Table.Exact` — what is wanted of coordinates;
* `Table.addressing_of_words` — what is wanted holds of any two words that have a sum.
-/

namespace GrammarInduction.Table

variable {α : Type} {n row col : Nat}

/-! ## Places of coordinates -/

/-- A row of the table with a column so great that the sum of both is no word. -/
def Overflows (n row col : Nat) : Prop := row < n ∧ wordCount ≤ row + col

/-- Coordinates without a sum have no place, and no refusal either. -/
theorem place_of_overflows (houtside : n ≤ row + col) (h : Overflows n row col) :
    place n row col = .error .overflow := by
  rw [place, if_pos h.1, coordinate, if_pos ⟨houtside, h.2⟩]
  rfl

/-- Other coordinates outside of the triangle are refused. -/
theorem place_of_outside (houtside : n ≤ row + col) (h : ¬ Overflows n row col) :
    place n row col = .error (.outOfBounds row col n) := by
  rw [place]
  split
  · rename_i hrow
    have hword : ¬ wordCount ≤ row + col := fun hle => h ⟨hrow, hle⟩
    rw [coordinate, if_neg (fun hboth => hword hboth.2)]
    exact if_neg (Nat.not_lt.mpr houtside)
  · rfl

/-- A place that is found for coordinates is one of the table's. -/
theorem lt_of_place {i : Nat} (hi : place n row col = .ok i) : i < n * n := by
  rcases Nat.lt_or_ge (row + col) n with hinside | houtside
  · cases hi.symm.trans (place_of_inside hinside)
    exact lt_of_inside hinside
  · by_cases h : Overflows n row col
    · cases hi.symm.trans (place_of_overflows houtside h)
    · cases hi.symm.trans (place_of_outside houtside h)

/-! ## Cells that are addressed -/

/-- The coordinates address a cell of their own if they are inside of the triangle, and are refused if they
are not.  A cell is read and written at its place alone, and keeps apart from the others. -/
structure Exact (t : Table α) (row col : Nat) : Prop where
  read : row + col < t.length → ∃ pool, t.cell row col = .ok pool
  written : row + col < t.length → ∀ pool, ∃ u, t.write row col pool = .ok u
    ∧ u.length = t.length ∧ u.cell row col = .ok pool
    ∧ ∀ row' col', row' + col' < t.length → (row', col') ≠ (row, col) →
      u.cell row' col' = t.cell row' col'
  apart : row + col < t.length → ∀ row' col', row' + col' < t.length →
    place t.length row' col' = place t.length row col → (row', col') = (row, col)
  refused : t.length ≤ row + col → t.cell row col = .error (.outOfBounds row col t.length)
    ∧ ∀ pool, t.write row col pool = .error (.outOfBounds row col t.length)

variable {t : Table α}

/-- Coordinates without a place address no cell. -/
theorem fails_of_place {fault : Fault} (h : place t.length row col = .error fault) :
    t.cell row col = .error fault ∧ ∀ pool, t.write row col pool = .error fault := by
  constructor
  · rw [cell, h]
    rfl
  · intro pool
    rw [write, h]
    rfl

theorem exact_of_inside (h : row + col < t.length) : t.Exact row col where
  read _ := ⟨_, cell_of_inside h⟩
  written _ := exists_write h
  apart _ row' col' h' heq := by
    rw [place_of_inside h', place_of_inside h, Except.ok.injEq] at heq
    obtain ⟨hrow, hcol⟩ := place_injective (by omega) (by omega) heq
    rw [hrow, hcol]
  refused houtside := absurd h (Nat.not_lt.mpr houtside)

theorem exact_of_outside (houtside : t.length ≤ row + col) (h : ¬ Overflows t.length row col) :
    t.Exact row col where
  read h := absurd h (Nat.not_lt.mpr houtside)
  written h := absurd h (Nat.not_lt.mpr houtside)
  apart h := absurd h (Nat.not_lt.mpr houtside)
  refused _ := fails_of_place (place_of_outside houtside h)

/-- **Addressing is exact where coordinates have a sum.**  Whatever words are given, the cell is read and
written that they are the coordinates of, apart from all others, or they are refused if there is none; unless
the row is one of the table and the sum no word, and then there is neither a cell nor a refusal.  In any case
a place that is found for them is one of the table's. -/
theorem addressing_of_words (hcount : t.length * t.length < wordCount) (row col : Nat) :
    (¬ Overflows t.length row col → t.Exact row col)
      ∧ (Overflows t.length row col → t.cell row col = .error .overflow
        ∧ ∀ pool, t.write row col pool = .error .overflow)
      ∧ ∀ i, place t.length row col = .ok i → i < t.cells.size := by
  refine ⟨fun h => ?_, fun h => ?_, fun i hi => ?_⟩
  · rcases Nat.lt_or_ge (row + col) t.length with hinside | houtside
    · exact exact_of_inside hinside
    · exact exact_of_outside houtside h
  · have hlength : t.length ≤ t.length * t.length := Nat.le_mul_self _
    have hgreat := h.2
    exact fails_of_place (place_of_overflows (by omega) h)
  · rw [t.size_cells]
    exact lt_of_place hi

/-- A table of three columns has a cell `(1, 1)` and none at `(2, 1)`, and its second row has no sum with the
greatest word. -/
theorem addressing_of_words_three :
    (blank 3 : Table Float).length * (blank 3 : Table Float).length < wordCount
      ∧ (blank 3 : Table Float).Exact 1 1 ∧ (blank 3 : Table Float).Exact 2 1
      ∧ Overflows 3 1 0xFFFFFFFFFFFFFFFF
      ∧ (blank 3 : Table Float).cell 1 0xFFFFFFFFFFFFFFFF = .error .overflow := by
  have hcount : (blank 3 : Table Float).length * (blank 3 : Table Float).length < wordCount := by
    decide
  have hsmall : ∀ row col, row + col < 4 → ¬ Overflows 3 row col := by
    intro row col hsum hover
    have hgreat : 0x10000000000000000 ≤ row + col := hover.2
    omega
  have hgreat : Overflows 3 1 0xFFFFFFFFFFFFFFFF := ⟨by decide, by decide⟩
  exact ⟨hcount, (addressing_of_words hcount 1 1).1 (hsmall 1 1 (by decide)),
    (addressing_of_words hcount 2 1).1 (hsmall 2 1 (by decide)), hgreat,
    ((addressing_of_words hcount 1 0xFFFFFFFFFFFFFFFF).2.1 hgreat).1⟩

/-- The second row of a table of two columns and the greatest word are not refused as they should be. -/
theorem not_exact_of_words :
    ¬ ∀ (t : Table Float) (row col : Nat), t.length * t.length < wordCount → row < wordCount →
      col < wordCount → t.Exact row col := by
  intro h
  have hexact := h (blank 2) 1 0xFFFFFFFFFFFFFFFF (by decide) (by decide) (by decide)
  have hread := (hexact.refused (by decide)).1
  have hgreat : Overflows 2 1 0xFFFFFFFFFFFFFFFF := ⟨by decide, by decide⟩
  rw [(fails_of_place (t := blank 2) (place_of_overflows (by decide) hgreat)).1] at hread
  cases hread

end GrammarInduction.Table
