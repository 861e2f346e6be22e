import GrammarInduction.Chart.Table
import GrammarInduction.Proofs.Attempt

/-!
# Filling a table cell by cell

Cells are filled row after row, so when it is the turn of a cell all shorter stretches have been
filled.  What holds of the blank table and is kept by the filling of each cell at its turn holds of
the completed table.

* `Table.Turn.mem_done_iff` — which cells come before a cell;
* `Table.fillCells_append` — cells are filled in parts;
* `Table.fillCells_ensures`, `Table.fill_ensures` — the induction over the cells, for a filling that changes
  a state;
* `Table.moves_fill` — a filling moves the state as far as the fillings of its cells do;
* `Table.fill_faults` — it fails only where the pool of a cell does;
* `Table.fill_ok` — the same for a filling without a state, which it shows to have a result;
* `Table.fill_agree` — a filling that leaves the state alone is one without a state.
-/

namespace GrammarInduction.Table

open Attempt

variable {α σ : Type} {n row col : Nat} {done : List (Nat × Nat)}

/-! ## The order of the cells -/

/-- Rows come one after the other, and columns in each row. -/
def Before (a b : Nat × Nat) : Prop := a.1 < b.1 ∨ a.1 = b.1 ∧ a.2 < b.2

theorem mem_coordinates : (row, col) ∈ coordinates n ↔ row + col < n := by
  simp only [coordinates, List.mem_flatMap, List.mem_map, List.mem_range, Prod.mk.injEq]
  constructor
  · intro hcell
    obtain ⟨row', hrow, col', hcol, rfl, rfl⟩ := hcell
    omega
  · intro h
    exact ⟨row, by omega, col, by omega, rfl, rfl⟩

theorem coordinates_pairwise (n : Nat) : (coordinates n).Pairwise Before := by
  refine List.pairwise_flatMap.mpr ⟨fun row _ => ?_, ?_⟩
  · refine List.pairwise_map.mpr (List.pairwise_lt_range.imp fun h => ?_)
    exact Or.inr ⟨rfl, h⟩
  · refine List.pairwise_lt_range.imp fun hrow a ha b hb => ?_
    obtain ⟨_, _, rfl⟩ := List.mem_map.mp ha
    obtain ⟨_, _, rfl⟩ := List.mem_map.mp hb
    exact Or.inl hrow

/-- A triangle of `n` rows has half of `n (n + 1)` cells. -/
theorem length_coordinates (n : Nat) : (coordinates n).length = n * (n + 1) / 2 := by
  -- The first `k` rows have `n + (n - 1) + …` cells; doubled, to stay clear of division.
  have hrows : ∀ k ≤ n, 2 * ((List.range k).map fun row => n - row).sum + k * k
      = 2 * (n * k) + k := by
    intro k
    induction k with
    | zero => simp
    | succ k ih =>
        intro hk
        have hprev := ih (by omega)
        rw [List.range_succ, List.map_append, List.sum_append, List.map_singleton,
          List.sum_singleton, Nat.mul_add n k 1, Nat.add_mul k 1 (k + 1), Nat.mul_add k k 1]
        omega
  have hlength : (coordinates n).length = ((List.range n).map fun row => n - row).sum := by
    simp [coordinates, List.length_flatMap]
  have hall := hrows n (Nat.le_refl n)
  rw [hlength, Nat.mul_succ]
  omega

/-- It is the turn of cell `(row, col)`, and the cells of `done` have been filled. -/
def Turn (n : Nat) (done : List (Nat × Nat)) (row col : Nat) : Prop :=
  ∃ rest, coordinates n = done ++ (row, col) :: rest

namespace Turn

theorem inside (h : Turn n done row col) : row + col < n := by
  obtain ⟨rest, hsplit⟩ := h
  exact mem_coordinates.mp (hsplit ▸ List.mem_append_right _ List.mem_cons_self)

/-- The cells filled before are those that come before. -/
theorem mem_done_iff (h : Turn n done row col) {row' col' : Nat} :
    (row', col') ∈ done ↔ row' + col' < n ∧ (row' < row ∨ row' = row ∧ col' < col) := by
  obtain ⟨rest, hsplit⟩ := h
  have horder := coordinates_pairwise n
  rw [hsplit, List.pairwise_append, List.pairwise_cons] at horder
  obtain ⟨-, ⟨hrest, -⟩, hdone⟩ := horder
  constructor
  · intro hmem
    refine ⟨mem_coordinates.mp (hsplit ▸ List.mem_append_left _ hmem), ?_⟩
    exact hdone _ hmem _ List.mem_cons_self
  · intro hcell
    obtain ⟨hinside, hbefore⟩ := hcell
    have hmem : (row', col') ∈ done ++ (row, col) :: rest := hsplit ▸ mem_coordinates.mpr hinside
    rcases List.mem_append.mp hmem with hd | hd
    · exact hd
    rcases List.mem_cons.mp hd with heq | hlater
    · cases heq
      omega
    · have hafter := hrest _ hlater
      simp only [Before] at hafter
      omega

theorem mem_done_of_lt (h : Turn n done row col) {row' col' : Nat} (hrow : row' < row)
    (hinside : row' + col' < n) : (row', col') ∈ done :=
  h.mem_done_iff.mpr ⟨hinside, Or.inl hrow⟩

/-- The last cell is filled last. -/
theorem last_not_mem_done (h : Turn n done row col) : (n - 1, 0) ∉ done := by
  intro hmem
  have hbefore := (h.mem_done_iff.mp hmem).2
  have hinside := h.inside
  omega

/-- There is a cell yet to be filled. -/
theorem length_lt (h : Turn n done row col) : done.length + 1 ≤ n * (n + 1) / 2 := by
  obtain ⟨rest, hsplit⟩ := h
  have hlength := congrArg List.length hsplit
  rw [length_coordinates, List.length_append, List.length_cons] at hlength
  omega

end Turn

/-! ## One cell written -/

/-- The pool of a cell of the triangle. -/
def poolAt (t : Table α) (row col : Nat) : Pool α :=
  t.cells.getD (row * t.length + col) Pool.empty

theorem cell_eq_poolAt {t : Table α} (h : row + col < t.length) :
    t.cell row col = .ok (t.poolAt row col) :=
  cell_of_inside h

/-- The cell of the whole sentence, if there is a sentence. -/
theorem top?_eq_poolAt {t : Table α} (h : t.length ≠ 0) :
    t.top? = some (t.poolAt (t.length - 1) 0) := by
  rw [top?, if_neg h, cell_eq_poolAt (by omega)]
  rfl

/-- One cell of `t` has been given the pool `p`, and `u` is the outcome. -/
structure Written (t : Table α) (row col : Nat) (p : Pool α) (u : Table α) : Prop where
  length : u.length = t.length
  self : u.poolAt row col = p
  other : ∀ {row' col'}, row' + col' < t.length → (row', col') ≠ (row, col) →
    u.poolAt row' col' = t.poolAt row' col'

/-- A cell of the triangle can be written. -/
theorem exists_written {t : Table α} (h : row + col < t.length) (p : Pool α) :
    ∃ u, t.write row col p = .ok u ∧ Written t row col p u := by
  obtain ⟨u, hu, hlength, hself, hother⟩ := exists_write h p
  refine ⟨u, hu, hlength, ?_, ?_⟩
  · rw [cell_eq_poolAt (hlength ▸ h)] at hself
    exact Except.ok.inj hself
  · intro row' col' hinside hne
    have hcell := hother row' col' hinside hne
    rw [cell_eq_poolAt (hlength ▸ hinside), cell_eq_poolAt hinside] at hcell
    exact Except.ok.inj hcell

/-- The cells filled before keep their pools. -/
theorem Turn.poolAt_of_mem_done (h : Turn n done row col) {t u : Table α} {p : Pool α}
    (hlength : t.length = n) (hu : Written t row col p u) {row' col' : Nat}
    (hmem : (row', col') ∈ done) : u.poolAt row' col' = t.poolAt row' col' := by
  have hbefore := h.mem_done_iff.mp hmem
  refine hu.other (hlength ▸ hbefore.1) fun heq => ?_
  cases heq
  omega

/-- What holds of all cells filled before and of the pool written holds of all cells filled. -/
theorem Turn.forall_written (h : Turn n done row col) {t u : Table α} {p : Pool α}
    (hlength : t.length = n) (hu : Written t row col p u) {P : Nat → Nat → Pool α → Prop}
    (hdone : ∀ {row' col'}, (row', col') ∈ done → P row' col' (t.poolAt row' col'))
    (hp : P row col p) {row' col' : Nat} (hmem : (row', col') ∈ done ++ [(row, col)]) :
    P row' col' (u.poolAt row' col') := by
  rcases List.mem_append.mp hmem with hd | hd
  · rw [h.poolAt_of_mem_done hlength hu hd]
    exact hdone hd
  · cases List.mem_singleton.mp hd
    rw [hu.self]
    exact hp

/-! ## All cells filled -/

section Filling

variable {pool : Table α → Nat → Nat → Attempt σ (Pool α)} {cells rest : List (Nat × Nat)}
  {t u : Table α} {s s' start : σ} {fault : Fault → σ → Prop}

/-- Once a cell is filled and written the rest of the cells are. -/
theorem fillCells_cons {p : Pool α} (hp : pool t row col s = (.ok p, s'))
    (hu : t.write row col p = .ok u) :
    fillCells pool ((row, col) :: cells) t s = fillCells pool cells u s' := by
  rw [fillCells, bind_apply, hp]
  show ((liftM (t.write row col p) : Attempt σ (Table α)) >>= fun t => fillCells pool cells t) s' = _
  rw [hu, bind_apply]
  rfl

/-- Cells are filled in two parts, the second from where the first has come to. -/
theorem fillCells_append (pool : Table α → Nat → Nat → Attempt σ (Pool α))
    (done cells : List (Nat × Nat)) (t : Table α) :
    fillCells pool (done ++ cells) t = fillCells pool done t >>= fillCells pool cells := by
  induction done generalizing t with
  | nil => exact (pure_bind t (fillCells pool cells)).symm
  | cons cell done ih =>
      rw [List.cons_append, fillCells, fillCells]
      simp only [ih, bind_assoc]

/-- A filling has come one cell further. -/
theorem fillCells_concat {p : Pool α} (hdone : fillCells pool done t s = (.ok u, s'))
    {v : Table α} {s'' : σ} (hp : pool u row col s' = (.ok p, s''))
    (hv : u.write row col p = .ok v) :
    fillCells pool (done ++ [(row, col)]) t s = (.ok v, s'') := by
  rw [fillCells_append, bind_apply, hdone]
  exact fillCells_cons hp hv

/-- What is kept at the turn of every cell is kept while some of the cells are filled in turn.  At the turn
of a cell the filling of those before it is known. -/
theorem fillCells_ensures (inv : List (Nat × Nat) → Table α → σ → Prop)
    (hturn : ∀ {done row col t s}, Turn n done row col → t.length = n →
      fillCells pool done (blank n) start = (.ok t, s) → inv done t s →
      Ensures (pool t row col) s fault fun p s' =>
        ∀ u, Written t row col p u → inv (done ++ [(row, col)]) u s')
    (hsplit : coordinates n = done ++ (cells ++ rest)) (hlength : t.length = n)
    (hrun : fillCells pool done (blank n) start = (.ok t, s)) (hinv : inv done t s) :
    Ensures (fillCells pool cells t) s fault fun t s' => t.length = n ∧ inv (done ++ cells) t s' := by
  induction cells generalizing done t s with
  | nil =>
      rw [List.append_nil]
      exact ensures_pure.mpr ⟨hlength, hinv⟩
  | cons cell cells ih =>
      obtain ⟨row, col⟩ := cell
      have hnow : Turn n done row col := ⟨cells ++ rest, hsplit⟩
      have hcell := (hturn hnow hlength hrun hinv).and (ensures_self (pool t row col) s)
      refine ensures_bind.mpr (hcell.mono (fun _ _ h => h.1) fun p s' hp => ?_)
      obtain ⟨hkept, hp⟩ := hp
      obtain ⟨u, hu, hwritten⟩ := exists_written (hlength ▸ hnow.inside) p
      refine ensures_bind.mpr (ensures_except.mpr ?_)
      rw [hu, List.append_cons done]
      refine ih ?_ (hwritten.length.trans hlength) (fillCells_concat hrun hp hu) (hkept u hwritten)
      rw [hsplit, List.cons_append, List.append_cons done]

/-- What holds of the blank table and is kept at the turn of every cell, where the filling of those before
it is known, holds of the completed table. -/
theorem fill_ensures_of_run (inv : List (Nat × Nat) → Table α → σ → Prop)
    (hblank : inv [] (blank n) s)
    (hturn : ∀ {done row col t s'}, Turn n done row col → t.length = n →
      fillCells pool done (blank n) s = (.ok t, s') → inv done t s' →
      Ensures (pool t row col) s' fault fun p s'' =>
        ∀ u, Written t row col p u → inv (done ++ [(row, col)]) u s'') :
    Ensures (fill pool n) s fault fun t s' => t.length = n ∧ inv (coordinates n) t s' := by
  have hsplit : coordinates n = [] ++ (coordinates n ++ []) := (List.append_nil _).symm
  exact fillCells_ensures inv hturn hsplit rfl rfl hblank

/-- What holds of the blank table and is kept at the turn of every cell holds of the completed
table. -/
theorem fill_ensures (inv : List (Nat × Nat) → Table α → σ → Prop) (hblank : inv [] (blank n) s)
    (hturn : ∀ {done row col t s}, Turn n done row col → t.length = n → inv done t s →
      Ensures (pool t row col) s fault fun p s' =>
        ∀ u, Written t row col p u → inv (done ++ [(row, col)]) u s') :
    Ensures (fill pool n) s fault fun t s' => t.length = n ∧ inv (coordinates n) t s' :=
  fill_ensures_of_run inv hblank fun hnow hlength _ hinv => hturn hnow hlength hinv

end Filling

/-- Cells are filled by the steps that fill each of them. -/
theorem moves_fillCells {R : σ → σ → Prop} {pool : Table α → Nat → Nat → Attempt σ (Pool α)}
    (h : ∀ t row col, Moves R (pool t row col)) (cells : List (Nat × Nat)) (t : Table α) :
    Moves R (fillCells pool cells t) := by
  induction cells generalizing t with
  | nil => exact moves_pure t
  | cons cell cells ih =>
      apply (h t cell.1 cell.2).bind
      intro p
      apply (moves_except _).bind
      intro u
      exact ih u

theorem moves_fill {R : σ → σ → Prop} {pool : Table α → Nat → Nat → Attempt σ (Pool α)}
    (h : ∀ t row col, Moves R (pool t row col)) (n : Nat) : Moves R (fill pool n) :=
  moves_fillCells h _ _

/-! ## A filling that fails -/

section Failing

variable {pool : Table α → Nat → Nat → Attempt σ (Pool α)} {cells : List (Nat × Nat)}
  {t u : Table α} {s s' : σ} {e : Fault}

/-- Writing does not fail, so cells that are not all filled are filled up to one whose pool fails. -/
theorem exists_failing_cell (hinside : ∀ cell ∈ cells, cell.1 + cell.2 < t.length)
    (h : fillCells pool cells t s = (.error e, s')) :
    ∃ done row col rest u s₁, cells = done ++ (row, col) :: rest ∧ u.length = t.length
      ∧ fillCells pool done t s = (.ok u, s₁) ∧ pool u row col s₁ = (.error e, s') := by
  induction cells generalizing t s with
  | nil => cases h
  | cons cell cells ih =>
      obtain ⟨row, col⟩ := cell
      have hhere : row + col < t.length := hinside _ List.mem_cons_self
      rcases hp : pool t row col s with ⟨ending, s₁⟩
      cases ending with
      | error e' =>
          rw [fillCells, bind_apply, hp] at h
          cases h
          exact ⟨[], row, col, cells, t, s, rfl, rfl, rfl, hp⟩
      | ok p =>
          obtain ⟨u, hu, hwritten⟩ := exists_written hhere p
          rw [fillCells_cons hp hu] at h
          have hrest : ∀ cell ∈ cells, cell.1 + cell.2 < u.length := by
            intro cell hcell
            rw [hwritten.length]
            exact hinside cell (List.mem_cons_of_mem _ hcell)
          obtain ⟨done, row', col', rest, u', s₂, rfl, hlength, hdone, hfail⟩ := ih hrest h
          refine ⟨(row, col) :: done, row', col', rest, u', s₂, rfl, ?_, ?_, hfail⟩
          · exact hlength.trans hwritten.length
          · rw [fillCells_cons hp hu]
            exact hdone

/-- The fault of a filling is that of a pool at the turn of its cell. -/
theorem fill_faults : Ensures (fill pool n) s
    (fun e s' => ∃ done row col t s₁, Turn n done row col ∧ t.length = n
      ∧ fillCells pool done (blank n) s = (.ok t, s₁) ∧ pool t row col s₁ = (.error e, s'))
    fun _ _ => True := by
  unfold Ensures
  split
  · trivial
  · rename_i e s' hfill
    have hinside : ∀ cell ∈ coordinates n, cell.1 + cell.2 < (blank n : Table α).length :=
      fun cell hcell => mem_coordinates.mp hcell
    obtain ⟨done, row, col, rest, t, s₁, hsplit, hrest⟩ := exists_failing_cell hinside hfill
    exact ⟨done, row, col, t, s₁, ⟨rest, hsplit⟩, hrest⟩

end Failing

/-! ## Fillings without a state -/

/-- A filling that leaves the state alone at the turn of every cell does what one without a state
does. -/
theorem fill_agree {pool : Table α → Nat → Nat → Attempt σ (Pool α)}
    {plain : Table α → Nat → Nat → Except Fault (Pool α)}
    (inv : List (Nat × Nat) → Table α → Prop) {s : σ} (hblank : inv [] (blank n))
    (hturn : ∀ {done row col t}, Turn n done row col → t.length = n → inv done t →
      pool t row col s = (plain t row col, s) ∧ ∀ p, plain t row col = .ok p →
        ∀ u, Written t row col p u → inv (done ++ [(row, col)]) u) :
    fill pool n s = (fill plain n, s) := by
  have hcells : ∀ (rest done : List (Nat × Nat)) (t : Table α),
      coordinates n = done ++ rest → t.length = n → inv done t →
      fillCells pool rest t s = (fillCells plain rest t, s) := by
    intro rest
    induction rest with
    | nil => exact fun _ _ _ _ _ => rfl
    | cons cell rest ih =>
        intro done t hsplit hlength hinv
        obtain ⟨row, col⟩ := cell
        have hnow : Turn n done row col := ⟨rest, hsplit⟩
        obtain ⟨hpool, hkeep⟩ := hturn hnow hlength hinv
        rw [fillCells, fillCells, bind_apply, hpool]
        cases hp : plain t row col with
        | error e => rfl
        | ok p =>
            obtain ⟨u, hu, hwritten⟩ := exists_written (hlength ▸ hnow.inside) p
            have hrest := ih (done ++ [(row, col)]) u (by rw [hsplit, List.append_assoc]; rfl)
              (hwritten.length.trans hlength) (hkeep p hp u hwritten)
            show ((liftM (t.write row col p) : Attempt σ (Table α)) >>= fun t =>
                fillCells pool rest t) s
              = (t.write row col p >>= fun t => fillCells plain rest t, s)
            rw [hu, bind_apply]
            exact hrest
  exact hcells (coordinates n) [] (blank n) rfl rfl hblank

/-- A filling whose every cell has a pool at its turn has a result, of which holds what holds of the
blank table and is kept. -/
theorem fill_ok {plain : Table α → Nat → Nat → Except Fault (Pool α)}
    (inv : List (Nat × Nat) → Table α → Prop) (hblank : inv [] (blank n))
    (hturn : ∀ {done row col t}, Turn n done row col → t.length = n → inv done t →
      ∃ p, plain t row col = .ok p ∧
        ∀ u, Written t row col p u → inv (done ++ [(row, col)]) u) :
    ∃ t, fill plain n = .ok t ∧ t.length = n ∧ inv (coordinates n) t := by
  -- The filling without a state is run over a state that says nothing.
  have hagree : fill (fun t row col => (liftM (plain t row col) : Attempt Unit (Pool α))) n ()
      = (fill plain n, ()) :=
    fill_agree (fun _ _ => True) trivial fun _ _ _ => ⟨rfl, fun _ _ _ _ => trivial⟩
  have hfill : Ensures (fill (fun t row col => (liftM (plain t row col) : Attempt Unit (Pool α))) n)
      () (fun _ _ => False) fun t _ => t.length = n ∧ inv (coordinates n) t := by
    refine fill_ensures (fun done t _ => inv done t) hblank fun hnow hlength hinv => ?_
    obtain ⟨p, hp, hkeep⟩ := hturn hnow hlength hinv
    rw [hp]
    exact hkeep
  obtain ⟨t, s, hrun, hlength, hinv⟩ := hfill.exists_ok
  rw [hagree] at hrun
  exact ⟨t, (Prod.mk.inj hrun).1, hlength, hinv⟩

end GrammarInduction.Table
