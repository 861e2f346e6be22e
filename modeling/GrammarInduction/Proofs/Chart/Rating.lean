import GrammarInduction.Proofs.Chart.Trace
import GrammarInduction.Proofs.Scalar.Order

/-!
# What the productions of a cell are worth

A cell keeps one production for each symbol, the best, and the productions of longer stretches are worth
what the best ones of their parts allow.  So a cell is rated by itself: its productions have a worth that
is given by the cells of its parts, and none of a symbol is worth more than the best one.

* `MonotoneProduct` — scalars with a product that grows with its factors;
* `Pool.Ranked` — no production of a symbol is more probable than its best one;
* `Population.Rates` — the productions of a cell are worth what the best ones of its parts allow;
* `Population.exists_rated_chart` — a completed chart is rated in every cell.
-/

namespace GrammarInduction

open Scalar

/-- Ordered scalars in which a product of values that are not negative grows with each of them. -/
class MonotoneProduct (α : Type) [Scalar α] : Prop extends OrderedScalar α where
  mul_nonneg : ∀ {x y : α}, 0 ≤ x → 0 ≤ y → 0 ≤ x * y
  mul_le_mul_left : ∀ {x y z : α}, 0 ≤ z → 0 ≤ x → x ≤ y → z * x ≤ z * y
  mul_le_mul_right : ∀ {x y z : α}, 0 ≤ z → 0 ≤ x → x ≤ y → x * z ≤ y * z

instance : MonotoneProduct Rat where
  mul_nonneg := Rat.mul_nonneg
  mul_le_mul_left hz _ hxy := Rat.mul_le_mul_of_nonneg_left hxy hz
  mul_le_mul_right hz _ hxy := Rat.mul_le_mul_of_nonneg_right hxy hz

/-- Products of values that are not negative grow with both factors. -/
theorem MonotoneProduct.mul_le_mul {α : Type} [Scalar α] [MonotoneProduct α] {x x' y y' : α}
    (hx : 0 ≤ x) (hy : 0 ≤ y) (hxx' : x ≤ x') (hyy' : y ≤ y') : x * y ≤ x' * y' :=
  OrderedScalar.le_trans (mul_le_mul_right hy hx hxx')
    (mul_le_mul_left (OrderedScalar.le_trans hx hxx') hy hyy')

variable {α : Type} [Scalar α]

/-! ## Best productions -/

/-- The probabilities of a pool's rules are numbers, and no production of a symbol is more probable than
its best one. -/
structure Pool.Ranked (pool : Pool α) : Prop extends pool.Coherent where
  isNumber : ∀ q ∈ pool.productions, ∀ x, q.parent? = some x → IsNumber q.probability
  le_best : ∀ x b, pool.best? x = some b → ∀ q ∈ pool.productions, q.parent? = some x →
    q.probability ≤ b.probability

namespace Pool

theorem ranked_empty : (empty : Pool α).Ranked where
  toCoherent := coherent_empty
  isNumber q hq := by simp [empty] at hq
  le_best x b _ q hq := by simp [empty] at hq

/-- The best production of a symbol has the probability of the symbol. -/
theorem bestProbability_eq {pool : Pool α} {x : Symbol} {b : Production α}
    (h : pool.best? x = some b) : pool.bestProbability x = b.probability := by
  rw [bestProbability, h]

variable [OrderedScalar α] {pool : Pool α}

/-- A production that is added takes over exactly if it beats the best one, so there is a best one
still. -/
theorem Ranked.add (h : pool.Ranked) (p : Production α)
    (hp : ∀ x, p.parent? = some x → IsNumber p.probability) : (pool.add p).Ranked where
  toCoherent := h.toCoherent.add p
  isNumber q hq x hx := by
    rw [productions_add, Array.mem_push] at hq
    rcases hq with hold | rfl
    · exact h.isNumber q hold x hx
    · exact hp x hx
  le_best x b hb q hq hx := by
    rw [best?_add] at hb
    rw [productions_add, Array.mem_push] at hq
    split at hb
    · rename_i htakes
      cases hb
      rcases hq with hold | rfl
      · -- There was a best production before, and the new one beats it.
        obtain ⟨b, hb⟩ := h.exists_best? hold hx
        have hbeats := (improves_iff hb).mp htakes.2
        exact OrderedScalar.le_trans (h.le_best x b hb q hold hx) (OrderedScalar.le_of_lt hbeats)
      · exact hp x hx
    · rename_i hkeeps
      rcases hq with hold | rfl
      · exact h.le_best x b hb q hold hx
      · have hstays : ¬ b.probability < q.probability := fun hbeats =>
          hkeeps ⟨hx, (improves_iff hb).mpr hbeats⟩
        obtain ⟨hmem, hparent⟩ := h.of_best x b hb
        exact le_of_not_lt (h.isNumber b hmem x hparent) (hp x hx) hstays

theorem Ranked.foldl_add (ps : List (Production α)) (h : pool.Ranked)
    (hps : ∀ p ∈ ps, ∀ x, p.parent? = some x → IsNumber p.probability) :
    (ps.foldl Pool.add pool).Ranked := by
  induction ps generalizing pool with
  | nil => exact h
  | cons p ps ih =>
      rw [List.forall_mem_cons] at hps
      exact ih (h.add p hps.1) hps.2

end Pool

/-! ## What productions are worth -/

namespace Population

/-- What a production with a rule is worth, given the best productions of the parts of its cell. -/
def rating (p : Population α) (t : Table α) (r : Rule) : Detector → α
  | .leaf .. => p.probability r
  | .split row col shift y z => p.probability r * ((t.poolAt shift col).bestProbability y
      * (t.poolAt (row - shift - 1) (col + shift + 1)).bestProbability z)

/-- A cell that the population fills, with productions that are worth what the best ones of its parts
allow, and that is not less than nothing. -/
structure Rates (p : Population α) (w : List Symbol) (t : Table α) (row col : Nat)
    (pool : Pool α) : Prop where
  fills : p.Fills w t row col pool
  ranked : pool.Ranked
  nonneg : ∀ q ∈ pool.productions, ∀ r, q.rule? = some r → 0 ≤ q.probability
  rated : ∀ q ∈ pool.productions, ∀ r, q.rule? = some r → q.probability = p.rating t r q.detector

variable {p : Population α} {w : List Symbol} {t u : Table α} {row col : Nat} {pool : Pool α}
  {done : List (Nat × Nat)}

/-- The probabilities of the stored rules are not negative. -/
def Nonnegative (p : Population α) : Prop := ∀ r, p.contains r = true → 0 ≤ p.probability r

/-- What a symbol is worth that a cell derives is not less than nothing. -/
theorem Rates.bestProbability_nonneg (h : p.Rates w t row col pool) {x : Symbol}
    (hx : pool.derives x = true) : 0 ≤ pool.bestProbability x := by
  obtain ⟨b, hb⟩ := Option.isSome_iff_exists.mp (Pool.derives_iff.mp hx)
  obtain ⟨hmem, hparent⟩ := h.ranked.of_best x b hb
  obtain ⟨r, hr, -⟩ := Option.map_eq_some_iff.mp hparent
  rw [Pool.bestProbability_eq hb]
  exact h.nonneg b hmem r hr

/-- What a production is worth does not change when a later cell is written. -/
theorem Rates.written {written : Pool α} {row' col' : Nat} (h : p.Rates w t row' col' pool)
    (hu : Table.Written t row col written u) (hrow : row' ≤ row)
    (inside : row' + col' < t.length) : p.Rates w u row' col' pool where
  fills := h.fills.written hu hrow inside
  ranked := h.ranked
  nonneg := h.nonneg
  rated q hq r hr := by
    rw [h.rated q hq r hr]
    have hsees := h.fills.sees q hq
    generalize q.detector = d at hsees
    cases hsees with
    | leaf here => rfl
    | split hshift left right =>
        rw [rating, rating, hu.other (by omega) (by simp; omega), hu.other (by omega) (by simp; omega)]

/-! ## Every cell is rated -/

/-- The listed cells are rated. -/
def RatesOn (p : Population α) (w : List Symbol) (t : Table α) (cells : List (Nat × Nat)) : Prop :=
  ∀ {row col}, (row, col) ∈ cells → p.Rates w t row col (t.poolAt row col)

/-- Filling one more cell leaves the cells rated before. -/
theorem RatesOn.written (h : p.RatesOn w t done) (hnow : Table.Turn w.length done row col)
    (hlength : t.length = w.length) (hpool : p.Rates w t row col pool)
    (hu : Table.Written t row col pool u) : p.RatesOn w u (done ++ [(row, col)]) := by
  intro row' col' hmem
  refine hnow.forall_written hlength hu
    (P := fun row' col' pool => p.Rates w u row' col' pool) ?_ ?_ hmem
  · intro row' col' hmem
    have hbefore := hnow.mem_done_iff.mp hmem
    exact (h hmem).written hu (by omega) (hlength ▸ hbefore.1)
  · exact hpool.written hu (Nat.le_refl row) (hlength ▸ hnow.inside)

/-- The pool of a terminal lists the production of its rule, if there is one. -/
theorem leafPool_eq (p : Population α) (col : Nat) (a : Symbol) :
    p.leafPool col a = Pool.ofList ((p.rules.ruleOf? (.terminal a)).toList.map
      fun r => ⟨.leaf col a, some r, p.probability r⟩) := by
  unfold leafPool
  cases p.rules.ruleOf? (.terminal a) <;> rfl

/-- The productions of a split are worth what the best productions of its parts allow. -/
theorem rated_of_mem_productionsAt {shift : Nat} {q : Production α}
    (hq : q ∈ p.productionsAt t row col shift) {r : Rule} (hr : q.rule? = some r) :
    q.probability = p.rating t r q.detector := by
  obtain ⟨y, z, -, -, rfl⟩ := mem_splitProductions.mp hq
  unfold splitProduction at hr ⊢
  cases hrule : p.rules.ruleOf? (.pair y z) with
  | none =>
      rw [hrule] at hr
      cases hr
  | some rule =>
      rw [hrule] at hr
      cases hr
      rfl

section Filling

variable [MonotoneProduct α]

/-- What a detector sees is worth something that is not less than nothing, if the parts of the cell are. -/
theorem rating_nonneg {r : Rule} {d : Detector} (hr : 0 ≤ p.probability r)
    (hsees : t.Sees w row col d) (hparts : ∀ {row' col'}, row' < row → row' + col' ≤ row + col →
      ∀ x, (t.poolAt row' col').derives x = true → 0 ≤ (t.poolAt row' col').bestProbability x) :
    0 ≤ p.rating t r d := by
  cases hsees with
  | leaf here => exact hr
  | split hshift left right =>
      have hleft := hparts hshift (by omega) _ left
      have hright := hparts (by omega) (by omega) _ right
      exact MonotoneProduct.mul_nonneg hr (MonotoneProduct.mul_nonneg hleft hright)

/-- A cell is rated if the productions listed for it are worth what the parts of the cell allow. -/
theorem rates_ofList (hp : p.Nonnegative) {ps : List (Production α)}
    (hfills : p.Fills w t row col (Pool.ofList ps))
    (hparts : ∀ {row' col'}, row' < row → row' + col' ≤ row + col →
      ∀ x, (t.poolAt row' col').derives x = true → 0 ≤ (t.poolAt row' col').bestProbability x)
    (hrated : ∀ q ∈ ps, ∀ r, q.rule? = some r → q.probability = p.rating t r q.detector) :
    p.Rates w t row col (Pool.ofList ps) := by
  have hnonneg : ∀ q ∈ ps, ∀ r, q.rule? = some r → 0 ≤ q.probability := by
    intro q hq r hr
    have hmem := Pool.mem_productions_ofList.mpr hq
    rw [hrated q hq r hr]
    exact rating_nonneg (hp r (hfills.stored ⟨q, hmem, hr⟩)) (hfills.sees q hmem) hparts
  refine ⟨hfills, Pool.ranked_empty.foldl_add ps ?_, ?_, ?_⟩
  · intro q hq x hx
    obtain ⟨r, hr, -⟩ := Option.map_eq_some_iff.mp hx
    exact OrderedScalar.isNumber_right (hnonneg q hq r hr)
  · exact fun q hq => hnonneg q (Pool.mem_productions_ofList.mp hq)
  · exact fun q hq => hrated q (Pool.mem_productions_ofList.mp hq)

/-- When the cells of shorter stretches are rated, so is the pool that a cell gets at its turn. -/
theorem cellPool_rates (hp : p.Nonnegative) (hnow : Table.Turn w.length done row col)
    (hlength : t.length = w.length) (h : p.RatesOn w t done) :
    ∃ pool, p.cellPool w t row col = .ok pool ∧ p.Rates w t row col pool := by
  have inside := hnow.inside
  have hparts : ∀ {row' col'}, row' < row → row' + col' ≤ row + col → ∀ x,
      (t.poolAt row' col').derives x = true → 0 ≤ (t.poolAt row' col').bestProbability x := by
    intro row' col' hrow hle x hx
    exact (h (hnow.mem_done_of_lt hrow (by omega))).bestProbability_nonneg hx
  cases row with
  | zero =>
      obtain ⟨a, here⟩ : ∃ a, w[col]? = some a := ⟨_, List.getElem?_eq_getElem (by omega)⟩
      have hfills : p.Fills w t 0 col (p.leafPool col a) := fills_leafPool here
      refine ⟨p.leafPool col a, by simp only [cellPool, here], ?_⟩
      rw [leafPool_eq] at hfills ⊢
      refine rates_ofList hp hfills hparts fun q hq r hr => ?_
      obtain ⟨rule, -, rfl⟩ := List.mem_map.mp hq
      cases hr
      rfl
  | succ row =>
      refine ⟨_, splitPool_eq (hlength ▸ inside), ?_⟩
      refine rates_ofList hp (fills_splitPool p w t row col) hparts fun q hq r hr => ?_
      obtain ⟨shift, -, hq⟩ := List.mem_flatMap.mp hq
      exact rated_of_mem_productionsAt hq hr

/-- All cells of a completed chart are rated. -/
theorem exists_rated_chart (hp : p.Nonnegative) (w : List Symbol) :
    ∃ t, Table.fill (p.cellPool w) w.length = .ok t ∧ p.Charts w t
      ∧ p.RatesOn w t (Table.coordinates w.length) := by
  obtain ⟨t, hfill, -, hrated⟩ : ∃ t, Table.fill (p.cellPool w) w.length = .ok t
      ∧ t.length = w.length ∧ p.RatesOn w t (Table.coordinates w.length) := by
    apply Table.fill_ok fun done t => p.RatesOn w t done
    · intro row col hcell
      cases hcell
    · intro done row col t hnow hlength hdone
      obtain ⟨pool, hpool, hrates⟩ := cellPool_rates hp hnow hlength hdone
      exact ⟨pool, hpool, fun u hu => hdone.written hnow hlength hrates hu⟩
  obtain ⟨t', hfill', hcharts⟩ := p.exists_charts w
  cases Except.ok.inj (hfill.symm.trans hfill')
  exact ⟨t, hfill, hcharts, hrated⟩

end Filling

end Population

end GrammarInduction
