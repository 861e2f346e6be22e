import GrammarInduction.Chart.Recognition
import GrammarInduction.Proofs.Chart.Filling

/-!
# The pool of one cell

A detector sees a cell when it looks at the cell's only terminal, or at a symbol derived on each side
of one of its splits.  A population gives a cell the productions of the detectors that see it, each
with the rule that owns the detector's body.

* `Pool.Coherent` — the views of a pool agree with its list of productions;
* `Table.Sees` — the detectors of a cell;
* `Population.Fills` — what the pool of a cell consists of;
* `Population.cellPool_ok` — a population has such a pool for every cell of the triangle.
-/

namespace GrammarInduction

variable {α : Type}

/-! ## The views of a pool -/

/-- The symbols that a pool derives are the parents of its productions, the best production of a symbol
is one of them, and the unsatisfied detectors are those of the productions without a rule, in turn. -/
structure Pool.Coherent (pool : Pool α) : Prop where
  derives_iff : ∀ x, pool.derives x = true ↔ ∃ q ∈ pool.productions, q.parent? = some x
  of_best : ∀ x q, pool.best? x = some q → q ∈ pool.productions ∧ q.parent? = some x
  unsatisfied_eq : pool.unsatisfied.toList
    = (pool.productions.toList.filter fun q => q.rule?.isNone).map (·.detector)

namespace Pool

theorem coherent_empty : (empty : Pool α).Coherent where
  derives_iff x := by simp [empty, derives]
  of_best x q hq := by simp at hq
  unsatisfied_eq := rfl

theorem Coherent.mem_unsatisfied {pool : Pool α} (h : pool.Coherent) (d : Detector) :
    d ∈ pool.unsatisfied ↔ ∃ q ∈ pool.productions, q.rule? = none ∧ q.detector = d := by
  rw [← Array.mem_toList_iff, h.unsatisfied_eq]
  simp only [List.mem_map, List.mem_filter, Array.mem_toList_iff, Option.isNone_iff_eq_none, and_assoc]

/-- A coherent pool is barren exactly if none of its productions has a rule. -/
theorem Coherent.isBarren_iff {pool : Pool α} (h : pool.Coherent) :
    pool.isBarren = true ↔ ∀ q ∈ pool.productions, q.rule? = none := by
  rw [Pool.isBarren_iff]
  constructor
  · intro hbarren q hq
    cases hr : q.rule? with
    | none => rfl
    | some r =>
        have hx := (h.derives_iff r.parent).mpr ⟨q, hq, by rw [Production.parent?, hr]; rfl⟩
        rw [hbarren] at hx
        cases hx
  · intro hnone x
    refine Bool.eq_false_iff.mpr fun hx => ?_
    obtain ⟨q, hq, hparent⟩ := (h.derives_iff x).mp hx
    rw [Production.parent?, hnone q hq] at hparent
    cases hparent

/-- The parent of a production has a best production. -/
theorem Coherent.exists_best? {pool : Pool α} (h : pool.Coherent) {q : Production α} {x : Symbol}
    (hq : q ∈ pool.productions) (hx : q.parent? = some x) : ∃ b, pool.best? x = some b :=
  Option.isSome_iff_exists.mp (Pool.derives_iff.mp ((h.derives_iff x).mpr ⟨q, hq, hx⟩))

variable [Scalar α]

theorem Coherent.add {pool : Pool α} (h : pool.Coherent) (p : Production α) :
    (pool.add p).Coherent where
  derives_iff x := by
    rw [derives_add, h.derives_iff, productions_add]
    simp only [Array.mem_push, or_and_right, exists_or, exists_eq_left]
  of_best x q hq := by
    rw [best?_add] at hq
    rw [productions_add, Array.mem_push]
    split at hq
    · rename_i htakes
      cases hq
      exact ⟨Or.inr rfl, htakes.1⟩
    · exact (h.of_best x q hq).imp_left Or.inl
  unsatisfied_eq := by
    rw [unsatisfied_add, productions_add, Array.toList_push, List.filter_append, List.map_append,
      ← h.unsatisfied_eq, Production.parent?]
    cases hr : p.rule? with
    | none => simp [hr]
    | some r => simp [hr]

/-- Adding productions in turn keeps the views in step and appends the productions. -/
theorem foldl_add (ps : List (Production α)) {pool : Pool α} (h : pool.Coherent) :
    (ps.foldl Pool.add pool).Coherent
      ∧ (ps.foldl Pool.add pool).productions = pool.productions ++ ps := by
  induction ps generalizing pool with
  | nil => exact ⟨h, by simp⟩
  | cons p ps ih =>
      obtain ⟨hcoherent, hproductions⟩ := ih (h.add p)
      refine ⟨hcoherent, ?_⟩
      rw [List.foldl_cons, hproductions, productions_add]
      simp

theorem coherent_ofList (ps : List (Production α)) : (ofList ps).Coherent :=
  (foldl_add ps coherent_empty).1

theorem productions_ofList (ps : List (Production α)) : (ofList ps).productions.toList = ps := by
  rw [ofList, (foldl_add ps coherent_empty).2]
  simp [empty]

theorem mem_productions_ofList {ps : List (Production α)} {q : Production α} :
    q ∈ (ofList ps).productions ↔ q ∈ ps := by
  rw [← Array.mem_toList_iff, productions_ofList]

end Pool

/-! ## The detectors of a cell -/

/-- A detector looks at the terminal of a cell, or at symbols derived on the two sides of a split. -/
inductive Table.Sees (w : List Symbol) (t : Table α) : Nat → Nat → Detector → Prop
  | leaf {col : Nat} {terminal : Symbol} (here : w[col]? = some terminal) :
      Sees w t 0 col (.leaf col terminal)
  | split {row col shift : Nat} {l r : Symbol} (inside : shift < row)
      (left : (t.poolAt shift col).derives l = true)
      (right : (t.poolAt (row - shift - 1) (col + shift + 1)).derives r = true) :
      Sees w t row col (.split row col shift l r)

/-- What the pool of a cell consists of: productions of detectors that see the cell, each with the rule
that owns the detector's body; none is left out, but for a terminal without a rule. -/
structure Population.Fills (p : Population α) (w : List Symbol) (t : Table α) (row col : Nat)
    (pool : Pool α) : Prop where
  coherent : pool.Coherent
  sees : ∀ q ∈ pool.productions, t.Sees w row col q.detector
  rule : ∀ q ∈ pool.productions, q.rule? = p.rules.ruleOf? q.detector.body
  complete : ∀ d, t.Sees w row col d → 0 < row ∨ (p.rules.owner? d.body).isSome = true →
    ∃ q ∈ pool.productions, q.detector = d

namespace Population

variable {p : Population α} {w : List Symbol} {t : Table α} {row col : Nat} {pool : Pool α}

/-- The rule of a detector has the detector's body and the owner of it for its parent. -/
theorem Fills.parent?_eq (h : p.Fills w t row col pool) {q : Production α}
    (hq : q ∈ pool.productions) : q.parent? = p.rules.owner? q.detector.body := by
  rw [Production.parent?, h.rule q hq, RuleSet.ruleOf?, Option.map_map]
  exact Option.map_id'

/-- A cell derives the owners of the bodies that its detectors see. -/
theorem Fills.derives_iff (h : p.Fills w t row col pool) (x : Symbol) :
    pool.derives x = true ↔ ∃ d, t.Sees w row col d ∧ p.rules.owner? d.body = some x := by
  rw [h.coherent.derives_iff]
  constructor
  · intro hproduced
    obtain ⟨q, hq, hparent⟩ := hproduced
    exact ⟨q.detector, h.sees q hq, (h.parent?_eq hq).symm.trans hparent⟩
  · intro hseen
    obtain ⟨d, hsees, howner⟩ := hseen
    obtain ⟨q, hq, rfl⟩ := h.complete d hsees (Or.inr (by rw [howner]; rfl))
    exact ⟨q, hq, (h.parent?_eq hq).trans howner⟩

/-- No rule has a body that is seen in a barren cell. -/
theorem Fills.owner?_eq_none (h : p.Fills w t row col pool) (hbarren : pool.isBarren = true)
    {d : Detector} (hd : t.Sees w row col d) : p.rules.owner? d.body = none := by
  cases howner : p.rules.owner? d.body with
  | none => rfl
  | some x =>
      have hx := (h.derives_iff x).mpr ⟨d, hd, howner⟩
      rw [Pool.isBarren_iff.mp hbarren x] at hx
      cases hx

theorem Fills.sees_of_mem_detectors (h : p.Fills w t row col pool) {d : Detector}
    (hd : d ∈ pool.detectors) : t.Sees w row col d := by
  obtain ⟨q, hq, rfl⟩ := List.mem_map.mp hd
  exact h.sees q (Array.mem_toList_iff.mp hq)

/-- What is left unsatisfied is seen in the cell, and no rule has its body. -/
theorem Fills.of_mem_unsatisfied (h : p.Fills w t row col pool) {d : Detector}
    (hd : d ∈ pool.unsatisfied) : t.Sees w row col d ∧ p.rules.owner? d.body = none := by
  obtain ⟨q, hq, hrule, rfl⟩ := (h.coherent.mem_unsatisfied d).mp hd
  refine ⟨h.sees q hq, ?_⟩
  rw [← h.parent?_eq hq, Production.parent?, hrule]
  rfl

variable [Scalar α]

/-- The pool of a terminal has the production of its rule. -/
theorem fills_leafPool {terminal : Symbol} (here : w[col]? = some terminal) :
    p.Fills w t 0 col (p.leafPool col terminal) := by
  have hsees : ∀ d, t.Sees w 0 col d → d = .leaf col terminal := by
    intro d hd
    cases hd with
    | leaf there => rw [Option.some.inj (there.symm.trans here)]
    | split inside => omega
  unfold leafPool
  cases hr : p.rules.ruleOf? (.terminal terminal) with
  | none =>
      refine ⟨Pool.coherent_empty, by simp [Pool.empty], by simp [Pool.empty], ?_⟩
      intro d hd howned
      rw [hsees d hd] at howned
      rw [RuleSet.ruleOf?, Option.map_eq_none_iff] at hr
      simp [Detector.body, hr] at howned
  | some r =>
      have hmem : ∀ q : Production α, q ∈ (Pool.empty.add
          (⟨.leaf col terminal, some r, p.probability r⟩ : Production α)).productions
          ↔ q = ⟨.leaf col terminal, some r, p.probability r⟩ := by
        simp [Pool.empty]
      refine ⟨Pool.coherent_empty.add _, ?_, ?_, ?_⟩
      · intro q hq
        rw [(hmem q).mp hq]
        exact .leaf here
      · intro q hq
        rw [(hmem q).mp hq]
        exact hr.symm
      · intro d hd _
        exact ⟨_, (hmem _).mpr rfl, (hsees d hd).symm⟩

theorem mem_splitProductions {shift : Nat} {left right : Pool α} {q : Production α} :
    q ∈ p.splitProductions row col shift left right ↔
      ∃ l r, left.derives l = true ∧ right.derives r = true
        ∧ q = p.splitProduction row col shift left right l r := by
  simp only [splitProductions, List.mem_flatMap, List.mem_map, Pool.mem_effectors]
  constructor
  · intro hpair
    obtain ⟨l, hl, r, hr, rfl⟩ := hpair
    exact ⟨l, r, hl, hr, rfl⟩
  · intro hpair
    obtain ⟨l, r, hl, hr, rfl⟩ := hpair
    exact ⟨l, hl, r, hr, rfl⟩

theorem splitProduction_parts (p : Population α) (row col shift : Nat) (left right : Pool α)
    (l r : Symbol) :
    (p.splitProduction row col shift left right l r).detector = .split row col shift l r
      ∧ (p.splitProduction row col shift left right l r).rule? = p.rules.ruleOf? (.pair l r) := by
  unfold splitProduction
  cases p.rules.ruleOf? (.pair l r) <;> exact ⟨rfl, rfl⟩

/-- The productions of one split of a cell. -/
def productionsAt (p : Population α) (t : Table α) (row col shift : Nat) : List (Production α) :=
  p.splitProductions row col shift (t.poolAt shift col)
    (t.poolAt (row - shift - 1) (col + shift + 1))

/-- The pool of a stretch of several symbols lists the productions of its splits in turn. -/
theorem splitPool_eq (h : row + col < t.length) : p.splitPool t row col
    = .ok (Pool.ofList ((List.range row).flatMap (p.productionsAt t row col))) := by
  have hparts : (List.range row).mapM (fun shift => do
        let left ← t.cell shift col
        let right ← t.cell (row - shift - 1) (col + shift + 1)
        pure (p.splitProductions row col shift left right))
      = .ok ((List.range row).map (p.productionsAt t row col)) := by
    refine Fault.mapM_eq_ok fun shift hshift => ?_
    have hlt := List.mem_range.mp hshift
    rw [Table.cell_eq_poolAt (by omega), Table.cell_eq_poolAt (by omega)]
    rfl
  rw [splitPool, hparts]
  rfl

theorem fills_splitPool (p : Population α) (w : List Symbol) (t : Table α) (row col : Nat) :
    p.Fills w t (row + 1) col
      (Pool.ofList ((List.range (row + 1)).flatMap (p.productionsAt t (row + 1) col))) := by
  have hmem : ∀ q, q ∈ (Pool.ofList
        ((List.range (row + 1)).flatMap (p.productionsAt t (row + 1) col))).productions ↔
      ∃ shift < row + 1, ∃ l r, (t.poolAt shift col).derives l = true
        ∧ (t.poolAt (row + 1 - shift - 1) (col + shift + 1)).derives r = true
        ∧ q = p.splitProduction (row + 1) col shift (t.poolAt shift col)
            (t.poolAt (row + 1 - shift - 1) (col + shift + 1)) l r := by
    intro q
    simp only [Pool.mem_productions_ofList, List.mem_flatMap, List.mem_range, productionsAt,
      mem_splitProductions]
  refine ⟨Pool.coherent_ofList _, ?_, ?_, ?_⟩
  · intro q hq
    obtain ⟨shift, inside, l, r, left, right, rfl⟩ := (hmem q).mp hq
    rw [(splitProduction_parts ..).1]
    exact .split inside left right
  · intro q hq
    obtain ⟨shift, inside, l, r, left, right, rfl⟩ := (hmem q).mp hq
    rw [(splitProduction_parts ..).1, (splitProduction_parts ..).2]
    rfl
  · intro d hd _
    cases hd with
    | @split _ _ shift l r inside left right =>
        refine ⟨_, (hmem _).mpr ⟨shift, inside, l, r, left, right, rfl⟩, ?_⟩
        exact (splitProduction_parts ..).1

/-- A population has a pool for every cell of the triangle. -/
theorem cellPool_ok (hlength : t.length = w.length) (h : row + col < t.length) :
    ∃ pool, p.cellPool w t row col = .ok pool ∧ p.Fills w t row col pool := by
  cases row with
  | zero =>
      obtain ⟨terminal, here⟩ : ∃ a, w[col]? = some a := ⟨_, List.getElem?_eq_getElem (by omega)⟩
      refine ⟨_, ?_, fills_leafPool here⟩
      simp only [cellPool, here]
  | succ row => exact ⟨_, splitPool_eq h, fills_splitPool p w t row col⟩

end Population

end GrammarInduction
