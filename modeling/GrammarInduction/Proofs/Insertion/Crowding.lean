import Mathlib.Data.List.Perm.Subperm
import GrammarInduction.Insertion.Crowding
import GrammarInduction.Proofs.Random.Arrangement

/-!
# Crowding finds a victim

Crowding draws several samples of the candidates, and of the weakest rules of these samples it removes the
one that is most like the newcomer.  As long as there is a round at all, with something in its sample, a
rule is found unless there is no candidate.

* `Crowding.weakOf_always` — a round gives the weakest rule of a sample of the candidates;
* `Crowding.victim_mem`, `Crowding.victim_always` — whatever is drawn, one of the candidates makes way if
  there is one.
-/

namespace GrammarInduction

open Draw

variable {α : Type} [Scalar α] {fitness : Rule → α} {r : Rule} {rules candidates : List Rule}

/-- A list that is not empty has a weakest rule. -/
theorem exists_weakest? (h : rules ≠ []) : ∃ weak, weakest? fitness rules = some weak := by
  cases rules with
  | nil => exact absurd rfl h
  | cons x rest => exact ⟨_, rfl⟩

/-- Rules of one arity can be compared place by place. -/
theorem Rule.isSome_affinity? {r s : Rule} (h : s.isTerminal = r.isTerminal) :
    (r.affinity? s).isSome = true := by
  obtain ⟨x, _ | _⟩ := r <;> obtain ⟨y, _ | _⟩ := s <;> first | rfl | cases h

/-- A fold that makes something of every element ends with something. -/
theorem isSome_foldl {β γ : Type} {f : Option β → γ → Option β} {xs : List γ} (hsome : xs ≠ [])
    (h : ∀ x ∈ xs, ∀ best, (f best x).isSome = true) (best : Option β) :
    (xs.foldl f best).isSome = true := by
  induction xs generalizing best with
  | nil => exact absurd rfl hsome
  | cons x rest ih =>
      rw [List.forall_mem_cons] at h
      by_cases hrest : rest = []
      · subst hrest
        exact h.1 best
      · exact ih hrest h.2 _

/-- A list of rules of the newcomer's arity that is not empty has one that is most like it. -/
theorem exists_mostAkin? (hsome : rules ≠ []) (harity : ∀ x ∈ rules, x.isTerminal = r.isTerminal) :
    ∃ old, mostAkin? r rules = some old := by
  rw [← Option.isSome_iff_exists, mostAkin?, Option.isSome_map]
  -- Every rule of the list can be compared with the newcomer, so it is either the best or there is one.
  refine isSome_foldl hsome (fun x hx best => ?_) none
  obtain ⟨places, hplaces⟩ := Option.isSome_iff_exists.mp (Rule.isSome_affinity? (harity x hx))
  rw [hplaces]
  cases best with
  | none => rfl
  | some b =>
      dsimp only
      split <;> rfl

namespace Crowding

/-- All places of a list hold its elements in their order. -/
theorem filterMap_range (xs : List Rule) :
    (List.range xs.length).filterMap (fun i => xs[i]?) = xs := by
  induction xs with
  | nil => rfl
  | cons x xs ih =>
      rw [List.length_cons, List.range_succ_eq_map, List.filterMap_cons_some List.getElem?_cons_zero,
        List.filterMap_map]
      exact congrArg (x :: ·) ih

/-- The elements at different places of a list are some of its elements. -/
theorem subperm_filterMap {indices : List Nat} (hnodup : indices.Nodup)
    (hbelow : ∀ i ∈ indices, i < candidates.length) :
    (indices.filterMap fun i => candidates[i]?).Subperm candidates
      ∧ (indices.filterMap fun i => candidates[i]?).length = indices.length := by
  constructor
  · obtain ⟨ordered, hperm, hsublist⟩ := List.subperm_of_subset hnodup
      (fun i hi => List.mem_range.mpr (hbelow i hi))
    refine ⟨_, hperm.filterMap _, ?_⟩
    have hfound := hsublist.filterMap (fun i => candidates[i]?)
    rwa [filterMap_range] at hfound
  · rw [List.length_filterMap_eq_countP]
    refine List.countP_eq_length.mpr fun i hi => ?_
    simp [hbelow i hi]

/-- **A round gives the weakest rule of a sample of the candidates**, as large as asked for if there are so
many. -/
theorem weakOf_always (size : Nat) (fitness : Rule → α) (candidates : List Rule) :
    (weakOf size fitness candidates).Always fun weak? =>
      ∃ sample : List Rule, sample.Subperm candidates
        ∧ sample.length = min size candidates.length ∧ weak? = weakest? fitness sample := by
  refine (sample_always candidates.length size).bind fun indices hindices => ?_
  obtain ⟨hnodup, hlength, hbelow⟩ := hindices
  obtain ⟨hsubperm, hsize⟩ := subperm_filterMap hnodup hbelow
  refine (shuffle_always _).bind fun shuffled hshuffled => always_pure ?_
  exact ⟨shuffled, (hshuffled.subperm).trans hsubperm,
    hshuffled.length_eq.trans (hsize.trans hlength), rfl⟩

/-- The rules of several rounds are candidates, and if a round has anything in its sample there is one for
each. -/
theorem weakRules_always (size : Nat) (fitness : Rule → α) (candidates : List Rule) (rounds : Nat) :
    (weakRules size fitness candidates rounds).Always fun weak =>
      (∀ x ∈ weak, x ∈ candidates) ∧ (1 ≤ size → candidates ≠ [] → weak.length = rounds) := by
  induction rounds with
  | zero => exact always_pure ⟨by simp, fun _ _ => rfl⟩
  | succ rounds ih =>
      refine (weakOf_always size fitness candidates).bind fun weak? hweak => ?_
      obtain ⟨sample, hsubperm, hlength, rfl⟩ := hweak
      refine ih.bind fun more hmore => always_pure ?_
      obtain ⟨hmem, hcount⟩ := hmore
      cases hweak : weakest? fitness sample with
      | none =>
          refine ⟨by simpa using hmem, ?_⟩
          intro hsize hsome
          have hpos := List.length_pos_iff.mpr hsome
          have hne : sample ≠ [] := List.length_pos_iff.mp (by omega)
          obtain ⟨weak, hfound⟩ : ∃ weak, weakest? fitness sample = some weak := exists_weakest? hne
          rw [hweak] at hfound
          cases hfound
      | some weak =>
          rw [Option.toList_some, List.singleton_append, List.length_cons]
          refine ⟨List.forall_mem_cons.mpr ⟨?_, hmem⟩, ?_⟩
          · exact hsubperm.subset (mem_of_weakest? hweak)
          · exact fun hsize hsome => congrArg (· + 1) (hcount hsize hsome)

/-- Only a candidate makes way, whatever is drawn. -/
theorem victim_mem (c : Crowding) (fitness : Rule → α) (candidates : List Rule) (r : Rule) :
    (c.victim fitness candidates r).Always fun old? => ∀ old, old? = some old → old ∈ candidates := by
  unfold victim
  split
  · exact always_pure nofun
  · refine (weakRules_always c.size fitness candidates c.factor).bind fun weak hweak => always_pure ?_
    intro old hold
    exact hweak.1 old (mem_of_mostAkin? hold).1

/-- **One of the candidates makes way if there is one**, whatever is drawn. -/
theorem victim_always {c : Crowding} (hfactor : 1 ≤ c.factor) (hsize : 1 ≤ c.size)
    (fitness : Rule → α) (harity : ∀ x ∈ candidates, x.isTerminal = r.isTerminal) :
    (c.victim fitness candidates r).Always fun old? => old? = none ↔ candidates = [] := by
  unfold victim
  split
  · rename_i hempty
    apply always_pure
    simpa using hempty
  · rename_i hsome
    have hsome : candidates ≠ [] := by simpa using hsome
    refine (weakRules_always c.size fitness candidates c.factor).bind fun weak hweak => ?_
    obtain ⟨hmem, hlength⟩ := hweak
    have hcount := hlength hsize hsome
    have hne : weak ≠ [] := List.length_pos_iff.mp (by omega)
    obtain ⟨old, hold⟩ := exists_mostAkin? hne fun x hx => harity x (hmem x hx)
    apply always_pure
    rw [hold]
    exact ⟨nofun, fun hnone => absurd hnone hsome⟩

end Crowding

end GrammarInduction
