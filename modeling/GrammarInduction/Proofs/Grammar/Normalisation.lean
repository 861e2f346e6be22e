import Mathlib.Algebra.BigOperators.Group.List.Basic
import Mathlib.Algebra.BigOperators.Ring.List
import Mathlib.Algebra.Order.Field.Rat
import GrammarInduction.Grammar.Population
import GrammarInduction.Proofs.Grammar.Weighting

/-!
# Weighted populations are normalised

A weighted population weighs the rules that it stores, and its weighting is normal.  Adding a rule keeps
both, although it may touch two groups, that of the newcomer and that of the rule that makes way for it;
so do removing a rule and giving rules new weights.  Over the rationals the probabilities of each parent's
rules are shares of a whole: they are not negative, and they sum to one.

* `Population.Weighed` — the invariant;
* `Population.Update` — what may be done with a weighted population;
* `Population.Weighed.parentSum_eq_one` — the shares of a group sum to one;
* `Population.normalised_of_updates` — probabilities after any sequence of updates.
-/

namespace GrammarInduction

/-! ## Shares of a group -/

namespace Weighting

open RuleMap

theorem sum_rat (xs : List Rat) : Scalar.sum xs = xs.sum := List.sum_eq_foldl.symm

theorem share_rat (total : Rat) (size : Nat) (x : Rat) :
    share total size x = if 0 < total then x / total else 1 / ((max size 1 : Nat) : Rat) := rfl

/-- The shares of weights that are not all zero sum to one, and so do equal shares. -/
theorem sum_share (xs : List Rat) (hsome : xs ≠ []) :
    (xs.map (share xs.sum xs.length)).sum = 1 := by
  by_cases htotal : 0 < xs.sum
  · have hshare : share xs.sum xs.length = fun x => x * xs.sum⁻¹ := by
      funext x
      rw [share_rat, if_pos htotal, div_eq_mul_inv]
    rw [hshare, List.sum_map_mul_right, List.map_id', mul_inv_cancel₀ htotal.ne']
  · have hlength : 1 ≤ xs.length := List.length_pos_iff.mpr hsome
    have hshare : share xs.sum xs.length = fun _ => 1 / (xs.length : Rat) := by
      funext x
      rw [share_rat, if_neg htotal, max_eq_left hlength]
    have hne : (xs.length : Rat) ≠ 0 := by exact_mod_cast Nat.pos_iff_ne_zero.mp hlength
    rw [hshare, List.map_const', List.sum_replicate, nsmul_eq_mul, mul_one_div_cancel hne]

theorem share_nonneg (total : Rat) (size : Nat) {x : Rat} (hx : 0 ≤ x) :
    0 ≤ share total size x := by
  rw [share_rat]
  split
  · rename_i htotal
    exact div_nonneg hx htotal.le
  · exact div_nonneg zero_le_one (Nat.cast_nonneg _)

/-- Weights are not negative. -/
theorem Raised.nonneg {w : Weighting Rat} (h : w.Raised) {r : Rule} {x : Rat}
    (hx : w.weights[r]? = some x) : 0 ≤ x := by
  rcases h r x hx with rfl | ⟨y, rfl⟩
  · exact zero_le_one
  · unfold Scalar.nonNegative
    split
    · rename_i hpos
      exact le_of_lt hpos
    · exact le_refl _

/-- The probabilities of a parent's rules are the shares of their weights. -/
theorem Normal.entries_eq {α : Type} [Scalar α] {w : Weighting α} (h : w.Normal)
    (parent : Symbol) : entries w.probabilities parent = (w.group parent).map
      fun entry => (entry.1, share (w.total parent) (w.group parent).length entry.2) := by
  apply entries_eq_map
  rintro r rfl
  exact h r

/-- **The probabilities of a parent that has a rule sum to one.** -/
theorem Normal.parentSum_eq_one {w : Weighting Rat} (h : w.Normal) {parent : Symbol}
    (hsome : w.group parent ≠ []) : w.parentSum parent = 1 := by
  have hsum : w.parentSum parent = Scalar.sum ((entries w.probabilities parent).map (·.2)) := rfl
  have hlength : (w.group parent).length = ((w.group parent).map (·.2)).length := by simp
  rw [hsum, h.entries_eq, List.map_map, total, sum_rat, sum_rat, hlength]
  have hshares := sum_share ((w.group parent).map (·.2)) (by simpa using hsome)
  rw [List.map_map] at hshares
  exact hshares

end Weighting

namespace Population

variable {α : Type} [Scalar α] {p : Population α} {w : Weighting α}

/-! ## The invariant -/

/-- The weighting of a population is normal, and weighs the rules that are stored. -/
structure Weighed (p : Population α) (w : Weighting α) : Prop where
  weighting : p.weighting? = some w
  normal : w.Normal
  raised : w.Raised
  mem_weights : ∀ r, r ∈ w.weights ↔ p.contains r = true

theorem weighed_withUniformWeights (p : Population α) :
    p.withUniformWeights.Weighed (Weighting.uniform p.rules.rules) where
  weighting := rfl
  normal := Weighting.normal_uniform _
  raised := Weighting.raised_uniform _
  mem_weights r := by
    rw [Std.TreeMap.mem_iff_isSome_getElem?, Weighting.getElem?_weights_uniform]
    show _ ↔ p.rules.contains r = true
    rw [RuleSet.contains_iff, ← RuleSet.mem_rules]
    split <;> simp_all

/-- A rule that is erased leaves its weight behind on neither side. -/
theorem Weighed.erase (h : p.Weighed w) (r : Rule) : ∃ w', (p.erase r).Weighed w' := by
  by_cases hstored : p.contains r = true
  · refine ⟨w.remove r, ?_, h.normal.remove r, h.raised.remove r, ?_⟩
    · rw [weighting?_erase hstored, h.weighting]
      rfl
    · intro q
      rw [contains_erase, ← h.mem_weights, Std.TreeMap.mem_iff_isSome_getElem?,
        Weighting.getElem?_weights_remove, Std.TreeMap.mem_iff_isSome_getElem?]
      split <;> simp_all
  · rw [erase_of_not_contains (Bool.eq_false_iff.mpr hstored)]
    exact ⟨w, h⟩

/-- Room is made in the weighting as it is in the rule set. -/
theorem Weighed.makeRoom (h : p.Weighed w) (r : Rule) : ∃ w', (p.makeRoom r).Weighed w' := by
  unfold Population.makeRoom
  split
  · exact h.erase _
  · exact ⟨w, h⟩

/-- Once there is room, a newcomer gets its weight and no other rule loses its own. -/
theorem Weighed.insertWithWeight (h : p.Weighed w) (r : Rule) (x : α) :
    ∃ w', (p.insertWithWeight r x).Weighed w' := by
  obtain ⟨w', h'⟩ := h.makeRoom r
  refine ⟨w'.set r x, ?_, h'.normal.set r x, h'.raised.set r x, ?_⟩
  · show (p.makeRoom r).weighting?.map _ = _
    rw [h'.weighting]
    rfl
  · intro q
    show _ ↔ ((p.makeRoom r).rules.insert r).contains q = true
    have hmem : q ∈ w'.weights ↔ (p.makeRoom r).rules.contains q = true := h'.mem_weights q
    rw [RuleSet.contains_insert_of_free (displaced?_makeRoom h.weighting r), ← hmem,
      Std.TreeMap.mem_iff_isSome_getElem?, Weighting.getElem?_weights_set,
      Std.TreeMap.mem_iff_isSome_getElem?]
    split <;> simp_all

theorem Weighed.reweigh (h : p.Weighed w) (changes : List (Rule × α)) :
    ∃ w', (p.reweigh changes).Weighed w' := by
  refine ⟨w.reweigh changes, ?_, h.normal.reweigh changes, h.raised.reweigh changes, ?_⟩
  · show p.weighting?.map _ = _
    rw [h.weighting]
    rfl
  · intro r
    exact (Weighting.mem_weights_reweigh changes).trans (h.mem_weights r)

/-! ## Any sequence of updates -/

/-- What may be done with a weighted population. -/
inductive Update (α : Type) where
  | add (r : Rule)
  | addWithWeight (r : Rule) (weight : α)
  | remove (r : Rule)
  | reweigh (changes : List (Rule × α))

/-- The population after an update. -/
def Update.run : Update α → Population α → Population α
  | add r, p => (p.add r).2
  | addWithWeight r weight, p => (p.addWithWeight r weight).2
  | remove r, p => (p.remove r).2
  | reweigh changes, p => p.reweigh changes

theorem Weighed.update (h : p.Weighed w) (u : Update α) : ∃ w', (u.run p).Weighed w' := by
  cases u with
  | add r => exact h.insertWithWeight r (p.newcomerWeight r)
  | addWithWeight r weight => exact h.insertWithWeight r weight
  | reweigh changes => exact h.reweigh changes
  | remove r => exact h.erase r

/-- The population after updates in turn. -/
def Update.runAll (updates : List (Update α)) (p : Population α) : Population α :=
  updates.foldl (fun p u => u.run p) p

theorem Weighed.updates (h : p.Weighed w) (updates : List (Update α)) :
    ∃ w', (Update.runAll updates p).Weighed w' := by
  induction updates generalizing p w with
  | nil => exact ⟨w, h⟩
  | cons u updates ih =>
      obtain ⟨w', h'⟩ := h.update u
      exact ih h'

/-! ## What the invariant says of probabilities -/

/-- Every stored rule has a weight and the probability that a renormalisation of its group from scratch
gives it; no other rule has either. -/
structure Normalised (p : Population α) (w : Weighting α) : Prop where
  weighting : p.weighting? = some w
  mem_weights : ∀ r, r ∈ w.weights ↔ p.contains r = true
  mem_probabilities : ∀ r, r ∈ w.probabilities ↔ p.contains r = true
  probability : ∀ r x, w.weights[r]? = some x → p.probability r
    = if 0 < w.total r.parent then x / w.total r.parent
      else 1 / Scalar.ofCount (w.group r.parent).length
  absent : ∀ r, p.contains r = false → p.probability r = 0

theorem Weighed.probability_eq (h : p.Weighed w) (r : Rule) :
    p.probability r = (w.fresh? r).getD 0 := by
  rw [probability, h.weighting]
  exact congrArg (·.getD 0) (h.normal r)

theorem Weighed.normalised (h : p.Weighed w) : p.Normalised w where
  weighting := h.weighting
  mem_weights := h.mem_weights
  mem_probabilities r := by
    rw [← h.mem_weights, Std.TreeMap.mem_iff_isSome_getElem?, Std.TreeMap.mem_iff_isSome_getElem?,
      h.normal r, Weighting.fresh?, Option.isSome_map]
  probability r x hx := by
    -- The rule itself is in its group, so the group is not empty.
    have hgroup : 1 ≤ (w.group r.parent).length :=
      List.length_pos_of_mem (Weighting.mem_group.mpr ⟨hx, rfl⟩)
    rw [h.probability_eq, Weighting.fresh?, hx, Option.map_some, Option.getD_some, Weighting.share,
      max_eq_left hgroup]
  absent r hr := by
    have hnone : w.weights[r]? = none := by
      apply Std.TreeMap.getElem?_eq_none
      intro hmem
      rw [(h.mem_weights r).mp hmem] at hr
      cases hr
    rw [h.probability_eq, Weighting.fresh?_eq_none_iff.mpr hnone]
    rfl

section Rational

variable {p : Population Rat} {w : Weighting Rat}

theorem Weighed.probability_nonneg (h : p.Weighed w) (r : Rule) : 0 ≤ p.probability r := by
  rw [h.probability_eq, Weighting.fresh?]
  cases hx : w.weights[r]? with
  | none => exact le_refl _
  | some x => exact Weighting.share_nonneg _ _ (h.raised.nonneg hx)

theorem Weighed.parentSum_eq_one (h : p.Weighed w) {r : Rule} (hr : p.contains r = true) :
    w.parentSum r.parent = 1 := by
  have hmem := (h.mem_weights r).mpr hr
  obtain ⟨x, hx⟩ := Option.isSome_iff_exists.mp (Std.TreeMap.mem_iff_isSome_getElem?.mp hmem)
  exact h.normal.parentSum_eq_one (List.ne_nil_of_mem (Weighting.mem_group.mpr ⟨hx, rfl⟩))

end Rational

/-- **Probabilities are normalised after every update.**  Whatever has been done with a weighted
population, its rules have the probabilities that a renormalisation of every group from scratch gives
them; and over the rationals the probabilities of each parent that has a rule are not negative and sum to
one. -/
theorem normalised_of_updates :
    (∀ {α : Type} [Scalar α] (p : Population α) (updates : List (Update α)),
      ∃ w, (Update.runAll updates p.withUniformWeights).Normalised w)
      ∧ ∀ (p : Population Rat) (updates : List (Update Rat)),
        ∃ w, (Update.runAll updates p.withUniformWeights).weighting? = some w
          ∧ ∀ r, (Update.runAll updates p.withUniformWeights).contains r = true →
            0 ≤ (Update.runAll updates p.withUniformWeights).probability r
              ∧ w.parentSum r.parent = 1 := by
  constructor
  · intro α _ p updates
    obtain ⟨w, h⟩ := (weighed_withUniformWeights p).updates updates
    exact ⟨w, h.normalised⟩
  · intro p updates
    obtain ⟨w, h⟩ := (weighed_withUniformWeights p).updates updates
    exact ⟨w, h.weighting, fun r hr => ⟨h.probability_nonneg r, h.parentSum_eq_one hr⟩⟩

/-- A rule that takes the body of another leaves no gap in the group of that one. -/
theorem parentSum_after_overwrite :
    ∃ (p : Population Rat) (w : Weighting Rat),
      p.rules.rules = [.pair 1 1 1, .pair 2 2 2] ∧ p.weighting? = some w
        ∧ w.parentSum 1 = 1 ∧ w.parentSum 2 = 1 := by
  obtain ⟨w, hweighting, hgroups⟩ := normalised_of_updates.2
    (ofRules .standard [.pair 1 1 1, .pair 1 2 2]) [.addWithWeight (.pair 2 2 2) 3]
  have hfirst := (hgroups (.pair 1 1 1) (by decide +kernel)).2
  have hsecond := (hgroups (.pair 2 2 2) (by decide +kernel)).2
  exact ⟨_, w, by decide +kernel, hweighting, hfirst, hsecond⟩

end Population

end GrammarInduction
