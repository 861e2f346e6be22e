import Mathlib.Algebra.Order.BigOperators.Group.List
import Mathlib.Tactic.FieldSimp
import Mathlib.Tactic.Linarith
import GrammarInduction.Proofs.Grammar.Ownership

/-!
# Adding a rule that is stored

A rule that a population already holds is not new, and adding it leaves all rules and their counts as they
are.  In a plain population that is all there is.  In a weighted one the rule overwrites itself, and its
weight with it: it gets the typical weight of its parent's rules, as any rule does that comes without a
weight of its own, and the group is renormalised.  Nothing changes if it had that weight before; over the
rationals there is only one other case, a rule that is certain to begin with.

* `Population.SameRules` — the same rules are listed and counted;
* `Weighting.Normal.probability_set_standing` — a weight that a rule has already changes nothing;
* `Weighting.Normal.probability_set_iff` — when a new weight changes nothing;
* `Population.Reachable`, `Population.add_of_contains` — populations of both kinds, after any sequence
  of updates;
* `Population.not_probability_add_of_contains` — probabilities may change.
-/

namespace GrammarInduction

/-! ## The rules -/

/-- A stored rule takes the place of itself. -/
theorem RuleSet.displaced?_of_contains {s : RuleSet} {r : Rule} (h : s.contains r = true) :
    s.displaced? r = none := by
  rw [displaced?, contains_iff.mp h]
  exact if_pos rfl

namespace Population

variable {α : Type}

/-- The same rules are listed and counted. -/
structure SameRules (p q : Population α) : Prop where
  rules : q.rules.rules = p.rules.rules
  pairCount : q.rules.pairCount = p.rules.pairCount
  terminalCount : q.rules.terminalCount = p.rules.terminalCount

/-- The owners of bodies settle what is listed and counted. -/
theorem sameRules_of_owner? {p q : Population α} (h : ∀ b, q.rules.owner? b = p.rules.owner? b) :
    p.SameRules q := by
  have hrules : q.rules.rules = p.rules.rules := RuleSet.rules_congr h
  have hpairs : q.rules.pairCount = p.rules.pairCount := by
    rw [← RuleSet.length_pairRules, ← RuleSet.length_pairRules, RuleSet.pairRules_eq,
      RuleSet.pairRules_eq, hrules]
  have hsize : q.rules.size = p.rules.size := by
    rw [← RuleSet.length_rules, ← RuleSet.length_rules, hrules]
  refine ⟨hrules, hpairs, ?_⟩
  rw [RuleSet.size, RuleSet.size, hpairs] at hsize
  exact Nat.add_left_cancel hsize

variable [Scalar α] {p : Population α} {r : Rule}

theorem sameRules_add (h : p.contains r = true) : p.SameRules (p.add r).2 := by
  apply sameRules_of_owner?
  intro b
  have hadded : (p.add r).2.rules.owner? b = if b = r.body then some r.parent else p.rules.owner? b :=
    owner?_insert p r b
  rw [hadded]
  split
  · rename_i hb
    rw [hb, RuleSet.contains_iff.mp h]
  · rfl

/-- A stored rule is not new. -/
theorem add_fst_of_contains (h : p.contains r = true) : (p.add r).1 = false := by
  rw [add, addWithWeight_fst, RuleSet.contains_iff.mp h]
  exact decide_eq_false (not_not_intro rfl)

/-- A stored rule makes room for nothing but its own weight. -/
theorem weighting?_add (h : p.contains r = true) :
    (p.add r).2.weighting? = p.weighting?.map (·.set r (p.newcomerWeight r)) := by
  have hroom : p.makeRoom r = p := by
    rw [makeRoom, RuleSet.displaced?_of_contains h]
    cases p.weighting? <;> rfl
  rw [add, addWithWeight, hroom]

end Population

/-! ## The weight that is overwritten -/

namespace Weighting

open RuleMap

/-- A weight that a rule has already changes no probability. -/
theorem Normal.probability_set_standing {α : Type} [Scalar α] {w : Weighting α} {r : Rule} {x : α}
    (h : w.Normal) (hx : w.weights[r]? = some (Scalar.nonNegative x)) (q : Rule) :
    (w.set r x).probability q = w.probability q := by
  have hweights : ∀ q : Rule, (w.set r x).weights[q]? = w.weights[q]? := by
    intro q
    rw [getElem?_weights_set]
    split
    · rename_i hq
      rw [hq, hx]
    · rfl
  rw [probability, probability, h.set r x q, h q, fresh?_congr fun q _ => hweights q]

/-! ### Over the rationals -/

section Siblings

variable {m : Std.TreeMap Rule Rat} {r q : Rule} {x y : Rat}

/-- The sum of what a map gives to the other rules of a rule's parent. -/
def siblingSum (m : Std.TreeMap Rule Rat) (r : Rule) : Rat :=
  ((entries (m.erase r) r.parent).map (·.2)).sum

theorem sum_entries (hx : m[r]? = some x) :
    ((entries m r.parent).map (·.2)).sum = x + siblingSum m r := by
  rw [((entries_perm_erase hx).map _).sum_eq, List.map_cons, List.sum_cons, siblingSum]

variable (h : ∀ (q : Rule) (y : Rat), m[q]? = some y → 0 ≤ y)

include h

theorem nonneg_of_mem_siblings :
    ∀ z ∈ (entries (m.erase r) r.parent).map (·.2), 0 ≤ z := by
  intro z hz
  obtain ⟨⟨q, z⟩, hmem, rfl⟩ := List.mem_map.mp hz
  have hq := (mem_entries.mp hmem).1
  rw [getElem?_erase_eq] at hq
  split at hq
  · cases hq
  · exact h q z hq

theorem siblingSum_nonneg : 0 ≤ siblingSum m r :=
  List.sum_nonneg (nonneg_of_mem_siblings h)

/-- Of values that are not negative, none exceeds their sum. -/
theorem le_siblingSum (hq : m[q]? = some y) (hne : q ≠ r)
    (hparent : q.parent = r.parent) : y ≤ siblingSum m r := by
  have hmem : (q, y) ∈ entries (m.erase r) r.parent := by
    rw [mem_entries, getElem?_erase_eq, if_neg hne]
    exact ⟨hq, hparent⟩
  exact List.single_le_sum (nonneg_of_mem_siblings h) y (List.mem_map.mpr ⟨_, hmem, rfl⟩)

end Siblings

variable {w : Weighting Rat} {r q : Rule} {x y : Rat}

theorem total_eq (hx : w.weights[r]? = some x) :
    w.total r.parent = x + siblingSum w.weights r := by
  rw [total, sum_rat]
  exact sum_entries hx

theorem total_set (w : Weighting Rat) (r : Rule) (hy : 0 < y) :
    (w.set r y).total r.parent = y + siblingSum w.weights r := by
  have hperm : ((w.set r y).group r.parent).Perm _ :=
    entries_perm_insert w.weights r (Scalar.nonNegative y)
  rw [total, sum_rat, (hperm.map _).sum_eq, List.map_cons, List.sum_cons, siblingSum,
    Scalar.nonNegative, if_pos hy]

theorem typical_pos (w : Weighting Rat) (parent : Symbol) : 0 < w.typical parent := by
  unfold typical
  dsimp only
  split
  · exact zero_lt_one
  · rename_i hsome
    obtain ⟨hmembers, htotal⟩ := not_or.mp hsome
    have hlength : 0 < (w.group parent).length := by
      rw [List.isEmpty_iff] at hmembers
      exact List.length_pos_iff.mpr hmembers
    exact div_pos (not_le.mp htotal) (Nat.cast_pos.mpr hlength)

theorem Normal.probability_eq (h : w.Normal) (hx : w.weights[r]? = some x) :
    w.probability r = share (w.total r.parent) (w.group r.parent).length x := by
  rw [probability, h r, fresh?, hx]
  rfl

theorem Normal.probabilities_nonneg (h : w.Normal) (hraised : w.Raised) (q : Rule) (y : Rat)
    (hy : w.probabilities[q]? = some y) : 0 ≤ y := by
  rw [h q, fresh?, Option.map_eq_some_iff] at hy
  obtain ⟨x, hx, rfl⟩ := hy
  exact share_nonneg _ _ (hraised.nonneg hx)

/-- Beside a rule that is certain, its siblings have no chance. -/
theorem Normal.probability_eq_zero (h : w.Normal) (hraised : w.Raised)
    (hx : w.weights[r]? = some x) (hcertain : w.probability r = 1) (hne : q ≠ r)
    (hparent : q.parent = r.parent) : w.probability q = 0 := by
  have hnonneg := h.probabilities_nonneg hraised
  have hone : w.probabilities[r]? = some 1 := by
    rw [probability, h r, fresh?, hx] at hcertain
    rw [h r, fresh?, hx]
    exact congrArg some hcertain
  have hsum : w.parentSum r.parent = 1 + siblingSum w.probabilities r := by
    rw [parentSum, sum_rat]
    exact sum_entries hone
  have hgroup : w.group r.parent ≠ [] := List.ne_nil_of_mem (mem_group.mpr ⟨hx, rfl⟩)
  have hrest : siblingSum w.probabilities r = 0 := by
    rw [h.parentSum_eq_one hgroup] at hsum
    linarith
  rw [probability]
  cases hq : w.probabilities[q]? with
  | none => rfl
  | some y =>
      have hle := le_siblingSum hnonneg hq hne hparent
      rw [hrest] at hle
      exact le_antisymm hle (hnonneg q y hq)

/-- The siblings of a rule that is certain weigh nothing. -/
theorem Normal.siblingSum_eq_zero (h : w.Normal) (hraised : w.Raised)
    (hx : w.weights[r]? = some x) (hcertain : w.probability r = 1) :
    siblingSum w.weights r = 0 := by
  have hself : 0 ≤ x := hraised.nonneg hx
  have hrest : 0 ≤ siblingSum w.weights r := siblingSum_nonneg fun _ _ => hraised.nonneg
  rw [h.probability_eq hx, share_rat, total_eq hx] at hcertain
  split at hcertain
  · rename_i hpos
    rw [div_eq_one_iff_eq hpos.ne'] at hcertain
    linarith
  · linarith

/-- A rule that is given a weight above zero has the share that the siblings leave it. -/
theorem Normal.probability_set_self (h : w.Normal) (hraised : w.Raised) (hy : 0 < y) :
    (w.set r y).probability r = y / (y + siblingSum w.weights r) := by
  have hweight : (w.set r y).weights[r]? = some y := by
    rw [getElem?_weights_set, if_pos rfl, Scalar.nonNegative, if_pos hy]
  have hrest : 0 ≤ siblingSum w.weights r := siblingSum_nonneg fun _ _ => hraised.nonneg
  rw [(h.set r y).probability_eq hweight, total_set w r hy, share_rat,
    if_pos (add_pos_of_pos_of_nonneg hy hrest)]

/-- **When a new weight changes nothing.**  A weight above zero leaves all probabilities as they are if
the rule has it already, or is certain, and otherwise changes that of the rule itself. -/
theorem Normal.probability_set_iff (h : w.Normal) (hraised : w.Raised)
    (hx : w.weights[r]? = some x) (hy : 0 < y) :
    (∀ q, (w.set r y).probability q = w.probability q) ↔ x = y ∨ w.probability r = 1 := by
  have hset := h.probability_set_self (r := r) hraised hy
  constructor
  · intro hsame
    have hself := hsame r
    have hrest : 0 ≤ siblingSum w.weights r := siblingSum_nonneg fun _ _ => hraised.nonneg
    have hx' : 0 ≤ x := hraised.nonneg hx
    rw [hset] at hself
    by_cases hpos : 0 < x + siblingSum w.weights r
    · rw [h.probability_eq hx, share_rat, total_eq hx, if_pos hpos] at hself ⊢
      have hcross : y * (x + siblingSum w.weights r) = x * (y + siblingSum w.weights r) :=
        (div_eq_div_iff (add_pos_of_pos_of_nonneg hy hrest).ne' hpos.ne').mp hself
      -- Cross-multiplied, the two shares differ by the difference of the weights times the siblings' sum.
      have hproduct : (y - x) * siblingSum w.weights r = 0 := by linarith
      rcases mul_eq_zero.mp hproduct with hweight | hsum
      · exact Or.inl (sub_eq_zero.mp hweight).symm
      · rw [hsum, add_zero] at hpos ⊢
        exact Or.inr (div_self hpos.ne')
    · have hsum : siblingSum w.weights r = 0 := by linarith
      rw [hsum, add_zero, div_self hy.ne'] at hself
      exact Or.inr hself.symm
  · rintro (rfl | hcertain)
    · apply h.probability_set_standing
      rw [hx, Scalar.nonNegative, if_pos hy]
    · have hcertain' : (w.set r y).probability r = 1 := by
        rw [hset, h.siblingSum_eq_zero hraised hx hcertain, add_zero, div_self hy.ne']
      have hx' : (w.set r y).weights[r]? = some (Scalar.nonNegative y) := by
        rw [getElem?_weights_set, if_pos rfl]
      intro q
      by_cases hparent : q.parent = r.parent
      · by_cases hq : q = r
        · rw [hq, hcertain, hcertain']
        · rw [h.probability_eq_zero hraised hx hcertain hq hparent,
            (h.set r y).probability_eq_zero (hraised.set r y) hx' hcertain' hq hparent]
      · exact probability_set hparent w y

end Weighting

/-! ## Populations of both kinds -/

namespace Population

/-- The populations that there are: plain ones, and weighted ones after any sequence of updates. -/
inductive Reachable {α : Type} [Scalar α] : Population α → Prop where
  | plain {p : Population α} (h : p.weighting? = none) : p.Reachable
  | weighted (p : Population α) (updates : List (Update α)) :
      (Update.runAll updates p.withUniformWeights).Reachable

section Overwriting

variable {α : Type} [Scalar α] {p : Population α} {w w' : Weighting α} {r : Rule}

theorem Reachable.weighed (hp : p.Reachable) (hw : p.weighting? = some w) : p.Weighed w := by
  cases hp with
  | plain h => cases h.symm.trans hw
  | weighted p updates =>
      obtain ⟨w', h⟩ := (weighed_withUniformWeights p).updates updates
      obtain rfl : w' = w := Option.some.inj (h.weighting.symm.trans hw)
      exact h

/-- In a plain population a stored rule overwrites itself to no effect. -/
theorem probability_add_of_plain (hp : p.weighting? = none) (hr : p.contains r = true) (q : Rule) :
    (p.add r).2.probability q = p.probability q := by
  rw [probability, probability, weighting?_add hr, hp]
  rfl

/-- A weighted population before and after a stored rule is added.  The rule gives up its weight for the
typical one and its group is renormalised; no other weight changes, and no probability beyond the group,
nor within it if the typical weight is the one that the rule had. -/
structure Overwrites (p : Population α) (r : Rule) (w w' : Weighting α) : Prop where
  after : (p.add r).2.Normalised w'
  weights : ∀ q : Rule, w'.weights[q]?
    = if q = r then some (Scalar.nonNegative (w.typical r.parent)) else w.weights[q]?
  beyond : ∀ q : Rule, q.parent ≠ r.parent → (p.add r).2.probability q = p.probability q
  standing : w.weights[r]? = some (Scalar.nonNegative (w.typical r.parent)) →
    ∀ q, (p.add r).2.probability q = p.probability q

theorem Weighed.weighting?_add (h : p.Weighed w) (hr : p.contains r = true) :
    (p.add r).2.weighting? = some (w.set r (w.typical r.parent)) := by
  rw [Population.weighting?_add hr, newcomerWeight, h.weighting]
  rfl

theorem Weighed.probability_add (h : p.Weighed w) (hr : p.contains r = true) (q : Rule) :
    (p.add r).2.probability q = (w.set r (w.typical r.parent)).probability q := by
  rw [probability, h.weighting?_add hr]

theorem Weighed.overwrites (h : p.Weighed w) (hr : p.contains r = true) :
    p.Overwrites r w (w.set r (w.typical r.parent)) where
  after := by
    obtain ⟨w', hafter⟩ := h.insertWithWeight r (p.newcomerWeight r)
    have hw' : w.set r (w.typical r.parent) = w' :=
      Option.some.inj ((h.weighting?_add hr).symm.trans hafter.weighting)
    rw [hw']
    exact hafter.normalised
  weights := Weighting.getElem?_weights_set w r _
  beyond q hq := by
    rw [h.probability_add hr, Weighting.probability_set hq, probability, h.weighting]
  standing hx q := by
    rw [h.probability_add hr, h.normal.probability_set_standing hx, probability, h.weighting]

end Overwriting

/-- Over the rationals the typical weight makes no difference to a rule that has it, nor to one that is
certain, and a difference to any other. -/
theorem Weighed.probability_add_iff {p : Population Rat} {w : Weighting Rat} {r : Rule}
    (h : p.Weighed w) (hr : p.contains r = true) :
    (∀ q, (p.add r).2.probability q = p.probability q)
      ↔ w.weights[r]? = some (w.typical r.parent) ∨ p.probability r = 1 := by
  have hbefore : ∀ q, p.probability q = w.probability q := by
    intro q
    rw [probability, h.weighting]
  have hmem := Std.TreeMap.mem_iff_isSome_getElem?.mp ((h.mem_weights r).mpr hr)
  obtain ⟨x, hx⟩ := Option.isSome_iff_exists.mp hmem
  simp only [h.probability_add hr, hbefore]
  rw [h.normal.probability_set_iff h.raised hx (Weighting.typical_pos w r.parent), hx,
    Option.some.injEq]

/-- **Adding a stored rule.**  It is not new, and the rules and their counts stay.  In a plain population
so do all probabilities.  In a weighted one the rule gives up its weight for the typical one of its
parent's rules; over the rationals that leaves all probabilities as they are only if it had this weight
or is certain. -/
theorem add_of_contains :
    (∀ {α : Type} [Scalar α] (p : Population α) (r : Rule), p.Reachable → p.contains r = true →
      (p.add r).1 = false ∧ p.SameRules (p.add r).2
        ∧ (p.weighting? = none → ∀ q, (p.add r).2.probability q = p.probability q)
        ∧ ∀ w, p.weighting? = some w → ∃ w', p.Overwrites r w w')
      ∧ ∀ (p : Population Rat) (w : Weighting Rat) (r : Rule), p.Reachable → p.contains r = true →
        p.weighting? = some w →
          ((∀ q, (p.add r).2.probability q = p.probability q)
            ↔ w.weights[r]? = some (w.typical r.parent) ∨ p.probability r = 1) := by
  constructor
  · intro α _ p r hp hr
    refine ⟨add_fst_of_contains hr, sameRules_add hr, fun h => probability_add_of_plain h hr, ?_⟩
    intro w hw
    exact ⟨_, (hp.weighed hw).overwrites hr⟩
  · intro p w r hp hr hw
    exact (hp.weighed hw).probability_add_iff hr

/-- Two rules of one parent, the first three times as likely as the second. -/
def uneven (α : Type) [Scalar α] : Population α :=
  Update.runAll [.addWithWeight (.pair 1 2 3) (Scalar.ofCount 3), .addWithWeight (.pair 1 3 2) 1]
    (ofRules .standard []).withUniformWeights

theorem reachable_uneven (α : Type) [Scalar α] : (uneven α).Reachable := .weighted _ _

/-- The likelier rule is added: it is not new, but its weight is another one. -/
theorem add_to_uneven :
    ((uneven Rat).add (.pair 1 2 3)).1 = false
      ∧ (uneven Rat).SameRules ((uneven Rat).add (.pair 1 2 3)).2
      ∧ ∃ w w', (uneven Rat).weighting? = some w ∧ (uneven Rat).Overwrites (.pair 1 2 3) w w'
        ∧ w'.weights[Rule.pair 1 2 3]? = some 2
        ∧ ¬ ∀ q, ((uneven Rat).add (.pair 1 2 3)).2.probability q = (uneven Rat).probability q := by
  have hr : (uneven Rat).contains (.pair 1 2 3) = true := by decide +kernel
  obtain ⟨hnew, hrules, -, hweighted⟩ :=
    add_of_contains.1 (uneven Rat) (.pair 1 2 3) (reachable_uneven Rat) hr
  obtain ⟨w, hw⟩ : ∃ w, (uneven Rat).weighting? = some w := ⟨_, rfl⟩
  obtain ⟨w', hoverwrites⟩ := hweighted w hw
  have hiff := add_of_contains.2 (uneven Rat) w (.pair 1 2 3) (reachable_uneven Rat) hr hw
  have htypical : (uneven Rat).weighting?.map (·.typical 1) = some 2 := by decide +kernel
  have hweight : (uneven Rat).weighting?.map (·.weights[Rule.pair 1 2 3]?) = some (some 3) := by
    decide +kernel
  have hcertain : (uneven Rat).probability (.pair 1 2 3) ≠ 1 := by decide +kernel
  rw [hw] at htypical hweight
  have htypical : w.typical (Rule.pair 1 2 3).parent = 2 := Option.some.inj htypical
  have hweight : w.weights[Rule.pair 1 2 3]? = some 3 := Option.some.inj hweight
  refine ⟨hnew, hrules, w, w', hw, hoverwrites, ?_, ?_⟩
  · rw [hoverwrites.weights, if_pos rfl, htypical]
    decide +kernel
  · rw [hiff, hweight, htypical]
    exact not_or.mpr ⟨by decide +kernel, hcertain⟩

/-- Adding a stored rule may change probabilities. -/
theorem not_probability_add_of_contains :
    ¬ ∀ (p : Population Float) (r : Rule), p.Reachable → p.contains r = true →
      (p.add r).1 = false ∧ p.SameRules (p.add r).2
        ∧ ∀ q, (p.add r).2.probability q = p.probability q := by
  intro h
  have hstored : (uneven Float).contains (.pair 1 2 3) = true := by decide +kernel
  have hsame := (h (uneven Float) (.pair 1 2 3) (reachable_uneven Float) hstored).2.2 (.pair 1 2 3)
  have hafter : ((uneven Float).add (.pair 1 2 3)).2.probability (.pair 1 2 3)
      ≠ (uneven Float).probability (.pair 1 2 3) := by decide +kernel
  exact hafter hsame

end Population

end GrammarInduction
