import GrammarInduction.Proofs.Chart.Rating
import GrammarInduction.Proofs.Scalar.Sum

/-!
# The views of a pool

A pool keeps four views of its list of productions beside it, each of them moved on by every production that
is added: the symbols that are derived, for each of them the place of its best production, and the detectors
that no rule fits.  A place is remembered while the list grows, and is given up only for a production that is
more probable.  So the views say at any time what a search of the whole list would.

* `Pool.Led` — before the best production of a symbol there is none as probable;
* `Pool.Led.add` — one more production keeps it;
* `Pool.IsFirstBest`, `Pool.Agrees` — what a search of a list would find, and that a pool says the same;
* `Pool.agrees_ofList` — so it does, whatever list of productions has been added.
-/

namespace GrammarInduction.Pool

open Scalar

variable {α : Type} [Scalar α]

/-! ## The place of the best production -/

/-- Besides, the productions of a symbol that stand before its best one are less probable. -/
structure Led (pool : Pool α) : Prop extends pool.Ranked where
  lt_best : ∀ x i b, pool.best[x]? = some i → pool.best? x = some b →
    ∀ j < i, ∀ q, pool.productions[j]? = some q → q.parent? = some x → q.probability < b.probability

theorem led_empty : (empty : Pool α).Led where
  toRanked := ranked_empty
  lt_best x i b _ hb := by simp at hb

section Adding

variable [StrictScalar α] {pool : Pool α}

/-- A production that takes over beats all that stand before it, and one that does not stands behind the best
one. -/
theorem Led.add (h : pool.Led) (p : Production α)
    (hp : ∀ x, p.parent? = some x → IsNumber p.probability) : (pool.add p).Led where
  toRanked := h.toRanked.add p hp
  lt_best x i b hi hb j hj q hq hx := by
    have hbefore : ∀ {i}, i ≤ pool.productions.size → j < i → pool.productions[j]? = some q := by
      intro i hle hlt
      have hsize : j < pool.productions.size := Nat.lt_of_lt_of_le hlt hle
      rw [productions_add, Array.getElem?_push_lt hsize] at hq
      rw [Array.getElem?_eq_getElem hsize, hq]
    rw [getElem?_best_add] at hi
    rw [best?_add] at hb
    by_cases htakes : p.parent? = some x ∧ pool.improves x p = true
    · rw [if_pos htakes] at hi hb
      cases hi
      cases hb
      have hmem := Array.mem_of_getElem? (hbefore (Nat.le_refl _) hj)
      -- Whatever stands before is no more probable than the best one so far, and this is beaten.
      obtain ⟨b, hb⟩ := h.exists_best? hmem hx
      have hbeats := (improves_iff hb).mp htakes.2
      exact lt_of_le_of_lt (h.le_best x b hb q hmem hx) hbeats
    · rw [if_neg htakes] at hi hb
      have hlt := pool.lt_size hi
      exact h.lt_best x i b hi hb j hj q (hbefore (Nat.le_of_lt hlt) hj) hx

theorem Led.foldl_add (ps : List (Production α)) (h : pool.Led)
    (hps : ∀ p ∈ ps, IsNumber p.probability) : (ps.foldl Pool.add pool).Led := by
  induction ps generalizing pool with
  | nil => exact h
  | cons p ps ih =>
      rw [List.forall_mem_cons] at hps
      exact ih (h.add p fun _ _ => hps.1) hps.2

end Adding

/-! ## What a search would find -/

/-- At the place there is a production of the symbol, none of the symbol is more probable, and those of the
symbol that stand before it are less so. -/
structure IsFirstBest (ps : List (Production α)) (x : Symbol) (i : Nat) (b : Production α) : Prop where
  getElem?_eq : ps[i]? = some b
  parent : b.parent? = some x
  le_best : ∀ q ∈ ps, q.parent? = some x → q.probability ≤ b.probability
  lt_best : ∀ j < i, ∀ q, ps[j]? = some q → q.parent? = some x → q.probability < b.probability

/-- The views of the pool say of a list of productions what a search of it would. -/
structure Agrees (pool : Pool α) (ps : List (Production α)) : Prop where
  productions : pool.productions.toList = ps
  effectors : ∀ x, x ∈ pool.effectors ↔ ∃ q ∈ ps, q.parent? = some x
  ascending : pool.effectors.Pairwise (· < ·)
  best : ∀ x, x ∈ pool.best ↔ ∃ q ∈ ps, q.parent? = some x
  isFirstBest : ∀ x i, pool.best[x]? = some i → ∃ b, pool.best? x = some b ∧ IsFirstBest ps x i b
  unsatisfied : pool.unsatisfied.toList = (ps.filter fun q => q.rule?.isNone).map (·.detector)
  detectors : pool.detectors = ps.map (·.detector)

omit [Scalar α] in
theorem effectors_pairwise (pool : Pool α) : pool.effectors.Pairwise (· < ·) :=
  Std.TreeSet.ordered_toList.imp Int.compare_eq_lt.mp

/-- The place that is remembered for a symbol is that of the first of its most probable productions. -/
theorem Led.isFirstBest {pool : Pool α} (h : pool.Led) {x : Symbol} {i : Nat}
    (hi : pool.best[x]? = some i) :
    ∃ b, pool.best? x = some b ∧ IsFirstBest pool.productions.toList x i b := by
  obtain ⟨b, hb⟩ := Option.isSome_iff_exists.mp
    (isSome_best?.mpr (Std.TreeMap.isSome_getElem?_iff_mem.mp (by rw [hi]; rfl)))
  have hplace : pool.productions[i]? = some b := by
    rw [best?_eq, hi] at hb
    exact hb
  refine ⟨b, hb, ?_, (h.of_best x b hb).2, ?_, ?_⟩
  · rw [Array.getElem?_toList, hplace]
  · exact fun q hq => h.le_best x b hb q (Array.mem_toList_iff.mp hq)
  · intro j hj q hq
    rw [Array.getElem?_toList] at hq
    exact h.lt_best x i b hi hb j hj q hq

/-- **The views of a pool agree with its productions.**  Whatever productions have been added in turn, with
probabilities that are numbers: the effectors are the parents of those with a rule, each of them has a best
production and nothing else has, and this is the first of those that no other of the same parent exceeds; and
the unsatisfied detectors are those of the productions without a rule, as often and in the order they came. -/
theorem agrees_ofList [StrictScalar α] {ps : List (Production α)}
    (hps : ∀ q ∈ ps, IsNumber q.probability) : (ofList ps).Agrees ps := by
  have hproductions := productions_ofList ps
  have hled : (ofList ps).Led := led_empty.foldl_add ps hps
  have hderives : ∀ x, (ofList ps).derives x = true ↔ ∃ q ∈ ps, q.parent? = some x := by
    intro x
    rw [hled.derives_iff]
    simp only [mem_productions_ofList]
  refine ⟨hproductions, fun x => ?_, effectors_pairwise _, fun x => ?_, ?_, ?_, ?_⟩
  · rw [mem_effectors, hderives]
  · rw [← isSome_best?, ← derives_iff, hderives]
  · intro x i hi
    obtain ⟨b, hb, hfirst⟩ := hled.isFirstBest hi
    rw [hproductions] at hfirst
    exact ⟨b, hb, hfirst⟩
  · rw [hled.unsatisfied_eq, hproductions]
  · rw [detectors, hproductions]

/-- Two of three productions of a symbol are as probable as each other and more so than the third, which was
added before them, and there are one of another symbol and one without a rule in between. -/
theorem agrees_ofList_tied :
    let ps : List (Production Float) :=
      [⟨.split 1 0 0 2 3, some (.pair 1 2 3), 0.2⟩, .empty (.split 1 0 0 2 2),
        ⟨.split 1 0 0 3 2, some (.pair 1 3 2), 0.7⟩, ⟨.split 1 0 0 3 3, some (.pair 4 3 3), 0.9⟩,
        ⟨.split 1 0 0 4 4, some (.pair 1 4 4), 0.7⟩]
    (∀ q ∈ ps, IsNumber q.probability) ∧ (ofList ps).best[(1 : Symbol)]? = some 2
      ∧ (∃ b, (ofList ps).best? 1 = some b ∧ IsFirstBest ps 1 2 b) ∧ (ofList ps).Agrees ps := by
  intro ps
  have hnumbers : ∀ q ∈ ps, IsNumber q.probability := by decide +kernel
  have hplace : (ofList ps).best[(1 : Symbol)]? = some 2 := by decide +kernel
  have hagrees := agrees_ofList hnumbers
  exact ⟨hnumbers, hplace, hagrees.isFirstBest 1 2 hplace, hagrees⟩

end GrammarInduction.Pool
