import GrammarInduction.Proofs.Chart.Exactness

/-!
# Linked tables

A table need not come from one grammar: while coverage makes up rules its cells are filled from one
grammar after another.  What can be said of it is that its productions are linked.  Each looks at what
the parts of its cell derive, and its rule, if it has one, has the body that it looks at.

* `Pool.Linked` — the productions of one cell;
* `Table.Linked` — all cells of the table of a sentence are linked;
* `Table.LinkedOn.written` — filling one more cell keeps what is linked;
* `Table.derives_of_linked` — as long as the rules of linked productions are stored, what the cells
  derive is derived by the grammar, whichever grammars the cells were filled from.
-/

namespace GrammarInduction

variable {α : Type} {w : List Symbol} {t u : Table α} {row col n : Nat}

/-- What sees a cell still does when a later cell is written. -/
theorem Table.Sees.written {row' col' : Nat} {p : Pool α} {d : Detector}
    (h : t.Sees w row' col' d) (hu : Written t row col p u) (hrow : row' ≤ row)
    (inside : row' + col' < t.length) : u.Sees w row' col' d := by
  cases h with
  | leaf here => exact .leaf here
  | @split _ _ shift l r hshift left right =>
      refine .split hshift ?_ ?_
      · rwa [hu.other (by omega) (by simp; omega)]
      · rwa [hu.other (by omega) (by simp; omega)]

/-- A later cell does not let a detector see more. -/
theorem Table.Sees.of_written {row' col' : Nat} {p : Pool α} {d : Detector}
    (h : u.Sees w row' col' d) (hu : Written t row col p u) (hrow : row' ≤ row)
    (inside : row' + col' < t.length) : t.Sees w row' col' d := by
  cases h with
  | leaf here => exact .leaf here
  | @split _ _ shift l r hshift left right =>
      rw [hu.other (by omega) (by simp; omega)] at left
      rw [hu.other (by omega) (by simp; omega)] at right
      exact .split hshift left right

/-- A production of the pool has the rule `r`. -/
def Pool.Uses (pool : Pool α) (r : Rule) : Prop := ∃ q ∈ pool.productions, q.rule? = some r

/-- The productions of a cell look at what the parts of the cell derive, and their rules have the
bodies that they look at. -/
structure Pool.Linked (w : List Symbol) (t : Table α) (row col : Nat) (pool : Pool α) : Prop where
  coherent : pool.Coherent
  sees : ∀ q ∈ pool.productions, t.Sees w row col q.detector
  body : ∀ q ∈ pool.productions, ∀ r, q.rule? = some r → r.body = q.detector.body

theorem Population.Fills.linked {p : Population α} {pool : Pool α}
    (h : p.Fills w t row col pool) : pool.Linked w t row col where
  coherent := h.coherent
  sees := h.sees
  body q hq r hr := by
    rw [h.rule q hq] at hr
    exact (RuleSet.ruleOf?_eq_some_iff.mp hr).1

/-- The rules of a pool that a population fills are stored. -/
theorem Population.Fills.stored {p : Population α} {pool : Pool α} {r : Rule}
    (h : p.Fills w t row col pool) (hr : pool.Uses r) : p.rules.contains r = true := by
  obtain ⟨q, hq, hrule⟩ := hr
  rw [h.rule q hq] at hrule
  obtain ⟨hbody, howner⟩ := RuleSet.ruleOf?_eq_some_iff.mp hrule
  rw [RuleSet.contains_iff, hbody]
  exact howner

namespace Pool.Linked

variable {pool : Pool α}

/-- A symbol that a linked cell derives is the parent of a rule whose body the cell sees. -/
theorem exists_of_derives (h : pool.Linked w t row col) {x : Symbol}
    (hx : pool.derives x = true) :
    ∃ d r, t.Sees w row col d ∧ pool.Uses r ∧ r.parent = x ∧ r.body = d.body := by
  obtain ⟨q, hq, hparent⟩ := (h.coherent.derives_iff x).mp hx
  rw [Production.parent?, Option.map_eq_some_iff] at hparent
  obtain ⟨r, hr, rfl⟩ := hparent
  exact ⟨q.detector, r, h.sees q hq, ⟨q, hq, hr⟩, rfl, h.body q hq r hr⟩

theorem written {row' col' : Nat} {p : Pool α} (h : pool.Linked w t row' col')
    (hu : Table.Written t row col p u) (hrow : row' ≤ row) (inside : row' + col' < t.length) :
    pool.Linked w u row' col' :=
  ⟨h.coherent, fun q hq => (h.sees q hq).written hu hrow inside, h.body⟩

variable [Scalar α]

/-- A cell stays linked when a production is added that sees it. -/
theorem add (h : pool.Linked w t row col) {d : Detector} {r : Rule} {probability : α}
    (hsees : t.Sees w row col d) (hbody : r.body = d.body) :
    (pool.add ⟨d, some r, probability⟩).Linked w t row col := by
  have hmem : ∀ {q : Production α}, q ∈ (pool.add ⟨d, some r, probability⟩).productions →
      q ∈ pool.productions ∨ q = ⟨d, some r, probability⟩ := by
    intro q hq
    rw [Pool.productions_add] at hq
    exact Array.mem_push.mp hq
  refine ⟨h.coherent.add _, ?_, ?_⟩
  · intro q hq
    rcases hmem hq with hold | rfl
    · exact h.sees q hold
    · exact hsees
  · intro q hq x hx
    rcases hmem hq with hold | rfl
    · exact h.body q hold x hx
    · cases hx
      exact hbody

end Pool.Linked

theorem Pool.uses_add [Scalar α] {pool : Pool α} {d : Detector} {r x : Rule} {probability : α} :
    (pool.add ⟨d, some r, probability⟩).Uses x ↔ pool.Uses x ∨ r = x := by
  simp only [Pool.Uses, Pool.productions_add, Array.mem_push, or_and_right, exists_or,
    exists_eq_left, Option.some.injEq]

/-! ## Linked tables -/

namespace Table

/-- The listed cells are linked. -/
def LinkedOn (w : List Symbol) (t : Table α) (cells : List (Nat × Nat)) : Prop :=
  ∀ {row col}, (row, col) ∈ cells → (t.poolAt row col).Linked w t row col

/-- Filling one more cell with linked productions keeps those before linked. -/
theorem LinkedOn.written {pool : Pool α} {done : List (Nat × Nat)} (h : t.LinkedOn w done)
    (hnow : Turn w.length done row col) (hlength : t.length = w.length)
    (hpool : pool.Linked w t row col) (hu : Written t row col pool u) :
    u.LinkedOn w (done ++ [(row, col)]) := by
  intro row' col' hmem
  refine hnow.forall_written hlength hu
    (P := fun row' col' pool => pool.Linked w u row' col') ?_ ?_ hmem
  · intro row' col' hmem
    have hbefore := hnow.mem_done_iff.mp hmem
    exact (h hmem).written hu (by omega) (hlength ▸ hbefore.1)
  · exact hpool.written hu (Nat.le_refl row) (hlength ▸ hnow.inside)

/-- All cells of the table of a sentence are linked. -/
structure Linked (w : List Symbol) (t : Table α) : Prop where
  length : t.length = w.length
  linkedOn : t.LinkedOn w (coordinates w.length)

theorem Linked.cell (h : t.Linked w) (inside : row + col < w.length) :
    (t.poolAt row col).Linked w t row col :=
  h.linkedOn (mem_coordinates.mpr inside)

end Table

/-! ## Linked derivations -/

/-- **Linked derivations are derivations.**  As long as the rules used in the first rows of a table are
stored, what these rows derive is derived by the stored rules. -/
theorem Table.derives_of_linked {s : RuleSet} {k : Nat}
    (hlinked : ∀ {row col}, row < k → row + col < n → (t.poolAt row col).Linked w t row col)
    (hstored : ∀ {row col}, row < k → row + col < n →
      ∀ r, (t.poolAt row col).Uses r → s.contains r = true)
    (hrow : row < k) (inside : row + col < n) {x : Symbol}
    (hx : (t.poolAt row col).derives x = true) : s.Derives x (stretch w row col) := by
  -- The parts of a split are shorter stretches, but not those of the row just before.
  induction row using Nat.strongRecOn generalizing col x with
  | ind row ih =>
      obtain ⟨d, r, hsees, huses, rfl, hbody⟩ := (hlinked hrow inside).exists_of_derives hx
      have howner := RuleSet.contains_iff.mp (hstored hrow inside r huses)
      rw [hbody] at howner
      refine hsees.derives (fun hlt hle y hy => ?_) howner
      exact ih _ hlt (by omega) (by omega) hy

end GrammarInduction
