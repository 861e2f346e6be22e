import GrammarInduction.Grammar.Weighting
import GrammarInduction.Proofs.Grammar.RuleMap

/-!
# Weightings are normal

A weighting is normal if every probability is what a renormalisation of its group from scratch would give
and no other rule has a probability.  An operation renormalises only the groups that it has touched.  That
is enough, because the probabilities of a group depend on the weights of this group alone.

* `Weighting.Normal` — no probability is stale, and none is missing;
* `Weighting.fresh?_congr` — a group depends on its own weights;
* `Weighting.Normal.renormalised` — renormalising the touched groups makes a weighting normal again;
* `Weighting.normal_uniform`, `Weighting.Normal.set`, `Weighting.Normal.remove`,
  `Weighting.Normal.reweigh` — the operations.
-/

namespace GrammarInduction.Weighting

open RuleMap

/-! ## Groups -/

variable {α : Type} {w w' : Weighting α} {r : Rule}

theorem mem_group {parent : Symbol} {x : α} :
    (r, x) ∈ w.group parent ↔ w.weights[r]? = some x ∧ r.parent = parent :=
  mem_entries

/-- A group depends on the weights of its own rules. -/
theorem group_congr {parent : Symbol}
    (h : ∀ q : Rule, q.parent = parent → w'.weights[q]? = w.weights[q]?) :
    w'.group parent = w.group parent :=
  entries_congr h

variable [Scalar α]

/-- The probability that a renormalisation of its group from scratch gives a rule, none without
weight. -/
def fresh? (w : Weighting α) (r : Rule) : Option α :=
  w.weights[r]?.map (share (w.total r.parent) (w.group r.parent).length)

/-- Every probability is fresh, and no rule without weight has one. -/
def Normal (w : Weighting α) : Prop := ∀ r : Rule, w.probabilities[r]? = w.fresh? r

theorem fresh?_congr (h : ∀ q : Rule, q.parent = r.parent → w'.weights[q]? = w.weights[q]?) :
    w'.fresh? r = w.fresh? r := by
  rw [fresh?, fresh?, total, total, group_congr h, h r rfl]

theorem fresh?_eq_none_iff : w.fresh? r = none ↔ w.weights[r]? = none := Option.map_eq_none_iff

theorem Normal.probabilities_eq_none (h : w.Normal) (hr : w.weights[r]? = none) :
    w.probabilities[r]? = none := by
  rw [h r, fresh?_eq_none_iff]
  exact hr

/-! ## Groups renormalised -/

/-- A renormalisation makes the probabilities of its group fresh and leaves all others. -/
theorem probabilities_renormalise (w : Weighting α) (parent : Symbol) (r : Rule) :
    (w.renormalise parent).probabilities[r]?
      = if r.parent = parent ∧ r ∈ w.weights then w.fresh? r else w.probabilities[r]? := by
  have hinsert := getElem?_foldl_insert Prod.fst
    (fun entry : Rule × α => share (w.total parent) (w.group parent).length entry.2)
    (w.group parent) w.probabilities r
  rcases hinsert with ⟨entry, hentry, rfl, hvalue⟩ | ⟨hnone, hvalue⟩
  · obtain ⟨hweight, hparent⟩ := mem_group.mp hentry
    have hmem : entry.1 ∈ w.weights := Std.TreeMap.mem_iff_isSome_getElem?.mpr (by rw [hweight]; rfl)
    rw [if_pos ⟨hparent, hmem⟩, fresh?, hweight, hparent]
    exact hvalue
  · rw [if_neg]
    · exact hvalue
    · intro hand
      obtain ⟨hparent, hmem⟩ := hand
      obtain ⟨x, hx⟩ := Option.isSome_iff_exists.mp (Std.TreeMap.mem_iff_isSome_getElem?.mp hmem)
      exact hnone (r, x) (mem_group.mpr ⟨hx, hparent⟩) rfl

theorem weights_foldl_renormalise (parents : List Symbol) (w : Weighting α) :
    (parents.foldl renormalise w).weights = w.weights := by
  induction parents generalizing w with
  | nil => rfl
  | cons parent parents ih => exact ih (w.renormalise parent)

/-- Renormalising several groups makes all of their probabilities fresh. -/
theorem probabilities_foldl_renormalise (parents : List Symbol) (w : Weighting α) (r : Rule) :
    (parents.foldl renormalise w).probabilities[r]?
      = if r.parent ∈ parents ∧ r ∈ w.weights then w.fresh? r else w.probabilities[r]? := by
  induction parents generalizing w with
  | nil => simp
  | cons parent parents ih =>
      have hfresh : (w.renormalise parent).fresh? r = w.fresh? r := fresh?_congr fun _ _ => rfl
      have hweights : (w.renormalise parent).weights = w.weights := rfl
      rw [List.foldl_cons, ih, hfresh, hweights, probabilities_renormalise]
      by_cases hmem : r ∈ w.weights
      · by_cases hparent : r.parent = parent
        · simp [hmem, hparent]
        · simp [hmem, hparent]
      · simp [hmem]

/-- Renormalising the groups that are not fresh makes a weighting normal, if no rule without weight has a
probability. -/
theorem normal_foldl_renormalise {parents : List Symbol}
    (hnone : ∀ r : Rule, w.weights[r]? = none → w.probabilities[r]? = none)
    (hother : ∀ r : Rule, r.parent ∉ parents → w.probabilities[r]? = w.fresh? r) :
    (parents.foldl renormalise w).Normal := by
  intro r
  have hfresh : (parents.foldl renormalise w).fresh? r = w.fresh? r :=
    fresh?_congr fun _ _ => by rw [weights_foldl_renormalise]
  rw [hfresh, probabilities_foldl_renormalise]
  split
  · rfl
  · rename_i hnot
    by_cases hparent : r.parent ∈ parents
    · have hweight : w.weights[r]? = none :=
        Std.TreeMap.getElem?_eq_none fun hmem => hnot ⟨hparent, hmem⟩
      rw [hnone r hweight, fresh?_eq_none_iff.mpr hweight]
    · exact hother r hparent

/-- **Renormalising the touched groups is enough.**  Where a normal weighting has been changed in some
groups alone, it is normal again once these are renormalised. -/
theorem Normal.renormalised (h : w.Normal) (parents : List Symbol)
    (hweights : ∀ r : Rule, r.parent ∉ parents → w'.weights[r]? = w.weights[r]?)
    (hprobabilities : ∀ r : Rule, r.parent ∉ parents → w'.probabilities[r]? = w.probabilities[r]?)
    (hnone : ∀ r : Rule, w'.weights[r]? = none → w'.probabilities[r]? = none) :
    (parents.foldl renormalise w').Normal := by
  apply normal_foldl_renormalise hnone
  intro r hparent
  have hfresh : w'.fresh? r = w.fresh? r := by
    apply fresh?_congr
    intro q hq
    exact hweights q (hq ▸ hparent)
  rw [hprobabilities r hparent, hfresh]
  exact h r

/-! ## The operations -/

/-- Every weight is one, or a number that has been raised to zero. -/
def Raised (w : Weighting α) : Prop :=
  ∀ (r : Rule) (x : α), w.weights[r]? = some x → x = 1 ∨ ∃ y, x = Scalar.nonNegative y

section Uniform

variable (rules : List Rule)

theorem weights_uniform :
    (uniform (α := α) rules).weights = rules.foldl (fun ws r => ws.insert r (1 : α)) ∅ :=
  weights_foldl_renormalise _ _

theorem getElem?_weights_uniform (r : Rule) :
    (uniform (α := α) rules).weights[r]? = if r ∈ rules then some 1 else none := by
  have hinsert := getElem?_foldl_insert (fun r : Rule => r) (fun _ => (1 : α)) rules ∅ r
  rw [weights_uniform]
  rcases hinsert with ⟨q, hq, rfl, hvalue⟩ | ⟨hnone, hvalue⟩
  · rw [if_pos hq]
    exact hvalue
  · rw [if_neg fun hmem => hnone r hmem rfl]
    exact hvalue.trans Std.TreeMap.getElem?_emptyc

theorem normal_uniform : (uniform (α := α) rules).Normal := by
  apply normal_foldl_renormalise
  · intro r _
    exact Std.TreeMap.getElem?_emptyc
  · intro r hparent
    have hmem : r ∉ rules := by
      intro hmem
      exact hparent (List.mem_eraseDups.mpr (List.mem_map_of_mem hmem))
    have hweight := getElem?_weights_uniform (α := α) rules r
    rw [if_neg hmem, weights_uniform] at hweight
    rw [fresh?_eq_none_iff.mpr hweight]
    exact Std.TreeMap.getElem?_emptyc

theorem raised_uniform : (uniform (α := α) rules).Raised := by
  intro r x hx
  rw [getElem?_weights_uniform] at hx
  split at hx
  · exact Or.inl (Option.some.inj hx).symm
  · cases hx

end Uniform

theorem getElem?_weights_set (w : Weighting α) (r : Rule) (x : α) (q : Rule) :
    (w.set r x).weights[q]? = if q = r then some (Scalar.nonNegative x) else w.weights[q]? :=
  getElem?_insert_eq w.weights r q (Scalar.nonNegative x)

/-- A new weight is of no account to the probabilities of other groups. -/
theorem probability_set {r q : Rule} (h : q.parent ≠ r.parent) (w : Weighting α) (x : α) :
    (w.set r x).probability q = w.probability q := by
  unfold probability set
  rw [probabilities_renormalise, if_neg fun hand => h hand.1]

theorem Normal.set (h : w.Normal) (r : Rule) (x : α) : (w.set r x).Normal := by
  apply h.renormalised [r.parent]
  · intro q hparent
    have hne : q ≠ r := fun heq => hparent (heq ▸ List.mem_singleton_self _)
    exact (getElem?_weights_set w r x q).trans (if_neg hne)
  · intro q _
    rfl
  · intro q hnone
    have hweight := (getElem?_weights_set w r x q).symm.trans hnone
    split at hweight
    · cases hweight
    · exact h.probabilities_eq_none hweight

theorem Raised.set (h : w.Raised) (r : Rule) (x : α) : (w.set r x).Raised := by
  intro q y hy
  rw [getElem?_weights_set] at hy
  split at hy
  · exact Or.inr ⟨x, (Option.some.inj hy).symm⟩
  · exact h q y hy

theorem getElem?_weights_remove (w : Weighting α) (r q : Rule) :
    (w.remove r).weights[q]? = if q = r then none else w.weights[q]? :=
  getElem?_erase_eq w.weights r q

/-- Nor is a weight that is forgotten. -/
theorem probability_remove {r q : Rule} (h : q.parent ≠ r.parent) (w : Weighting α) :
    (w.remove r).probability q = w.probability q := by
  have hne : q ≠ r := fun heq => h (congrArg Rule.parent heq)
  unfold probability remove
  rw [probabilities_renormalise, if_neg fun hand => h hand.1, getElem?_erase_eq, if_neg hne]

theorem Normal.remove (h : w.Normal) (r : Rule) : (w.remove r).Normal := by
  apply h.renormalised [r.parent]
  · intro q hparent
    have hne : q ≠ r := fun heq => hparent (heq ▸ List.mem_singleton_self _)
    exact (getElem?_erase_eq w.weights r q).trans (if_neg hne)
  · intro q hparent
    have hne : q ≠ r := fun heq => hparent (heq ▸ List.mem_singleton_self _)
    exact (getElem?_erase_eq w.probabilities r q).trans (if_neg hne)
  · intro q hnone
    rw [getElem?_erase_eq] at hnone ⊢
    split
    · rfl
    · rename_i hne
      rw [if_neg hne] at hnone
      exact h.probabilities_eq_none hnone

theorem Raised.remove (h : w.Raised) (r : Rule) : (w.remove r).Raised := by
  intro q y hy
  rw [getElem?_weights_remove] at hy
  split at hy
  · cases hy
  · exact h q y hy

section Reweigh

variable (changes : List (Rule × α))

/-- New weights are those of listed rules that had a weight before; all others stay. -/
theorem getElem?_weights_reweigh (w : Weighting α) (q : Rule) :
    (∃ change ∈ changes.filter fun change => w.weights.contains change.1, change.1 = q
        ∧ (w.reweigh changes).weights[q]? = some (Scalar.nonNegative change.2))
      ∨ (∀ change ∈ changes.filter fun change => w.weights.contains change.1, change.1 ≠ q)
        ∧ (w.reweigh changes).weights[q]? = w.weights[q]? := by
  have hweights : (w.reweigh changes).weights
      = (changes.filter fun change => w.weights.contains change.1).foldl
        (fun ws change => ws.insert change.1 (Scalar.nonNegative change.2)) w.weights :=
    weights_foldl_renormalise _ _
  rw [hweights]
  exact getElem?_foldl_insert Prod.fst (fun change => Scalar.nonNegative change.2) _ _ q

/-- New weights of rules with other parents leave a rule its weight and its probability. -/
theorem reweigh_apart {q : Rule} (h : ∀ change ∈ changes, change.1.parent ≠ q.parent)
    (w : Weighting α) : (w.reweigh changes).weights[q]? = w.weights[q]?
      ∧ (w.reweigh changes).probabilities[q]? = w.probabilities[q]? := by
  constructor
  · rcases getElem?_weights_reweigh changes w q with ⟨change, hchange, rfl, -⟩ | ⟨-, hvalue⟩
    · exact absurd rfl (h change (List.mem_filter.mp hchange).1)
    · exact hvalue
  · rw [reweigh, probabilities_foldl_renormalise, if_neg]
    intro hand
    obtain ⟨change, hchange, hparent⟩ := List.mem_map.mp (List.mem_eraseDups.mp hand.1)
    exact h change (List.mem_filter.mp hchange).1 hparent

/-- No rule gets a weight that had none, and no rule loses its weight. -/
theorem mem_weights_reweigh {q : Rule} : q ∈ (w.reweigh changes).weights ↔ q ∈ w.weights := by
  rcases getElem?_weights_reweigh changes w q with ⟨change, hchange, rfl, hvalue⟩ | ⟨-, hvalue⟩
  · have hknown := Std.TreeMap.mem_iff_contains.mpr (List.mem_filter.mp hchange).2
    have hkept := Std.TreeMap.mem_iff_isSome_getElem?.mpr (Option.isSome_of_eq_some hvalue)
    exact ⟨fun _ => hknown, fun _ => hkept⟩
  · rw [Std.TreeMap.mem_iff_isSome_getElem?, hvalue, ← Std.TreeMap.mem_iff_isSome_getElem?]

theorem Normal.reweigh (h : w.Normal) : (w.reweigh changes).Normal := by
  have hchanged := getElem?_weights_reweigh changes w
  rw [Weighting.reweigh, weights_foldl_renormalise] at hchanged
  apply h.renormalised
  · intro q hparent
    rcases hchanged q with ⟨change, hchange, rfl, -⟩ | ⟨-, hvalue⟩
    · exact absurd (List.mem_eraseDups.mpr (List.mem_map.mpr ⟨change, hchange, rfl⟩)) hparent
    · exact hvalue
  · intro q _
    rfl
  · intro q hnone
    rcases hchanged q with ⟨change, -, -, hvalue⟩ | ⟨-, hvalue⟩
    · cases hnone.symm.trans hvalue
    · exact h.probabilities_eq_none (hvalue.symm.trans hnone)

theorem Raised.reweigh (h : w.Raised) : (w.reweigh changes).Raised := by
  intro q y hy
  rcases getElem?_weights_reweigh changes w q with ⟨change, -, -, hvalue⟩ | ⟨-, hvalue⟩
  · exact Or.inr ⟨change.2, Option.some.inj (hy.symm.trans hvalue)⟩
  · exact h q y (hvalue.symm.trans hy)

end Reweigh

end GrammarInduction.Weighting
