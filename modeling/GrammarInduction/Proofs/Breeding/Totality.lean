import GrammarInduction.Proofs.Breeding.Offspring
import GrammarInduction.Proofs.Random.Chance
import GrammarInduction.Proofs.Scalar.Sum

/-!
# How breeding can fail

A selector fails only where it would have to draw a number from no range, as the fitness of its candidates has
no finite sum, or where it would have to rank candidates of which one has no number for its fitness.  Of one
candidate or more it picks one otherwise.  A genetic operator fails only for a chance that is no number, and
makes pair rules of pair rules.

* `Selector.CanDraw`, `Selector.Unranked` — the two ways in which a selector fails;
* `Selector.select_picks` — otherwise it picks one of its candidates;
* `Learner.selectAll_picks` — several selectors pick as many rules;
* `GeneticOperator.mutate_isTerminal`, `GeneticOperator.crossover_isTerminal` — one rule, and two;
* `Learner.applyStages_pairs` — the offspring of pair rules.
-/

namespace GrammarInduction

open Attempt Draw Scalar

variable {α : Type} [Scalar α] {g : Generator}

/-! ## Draws -/

/-- There is a choice where there is something to choose from. -/
theorem Draw.choose_isSome {β : Type} {xs : List β} (h : xs ≠ []) :
    (choose xs).Always fun chosen => chosen.isSome = true := by
  intro g
  obtain ⟨x, -, hchosen⟩ := exists_choose h g
  rw [hchosen]
  rfl

/-- A scalar is drawn below every finite positive bound, and below no other. -/
theorem Draw.real_ensures (bound : α) :
    Ensures (real bound) g
      (fun e _ => e = .undefinedDraw ∧ ¬ (0 < bound ∧ (value? bound).isSome = true)) fun _ _ => True := by
  unfold real
  split
  · exact ensures_bind.mpr (ensures_state.mpr trivial)
  · rename_i hrange
    exact ensures_throw.mpr ⟨rfl, hrange⟩

namespace Selector

variable {fitness : Rule → α} {candidates : List Rule}

/-! ## Rankings -/

/-- There are more than twenty candidates, and the fitness of one is no number. -/
def Unranked (fitness : Rule → α) (candidates : List Rule) : Prop :=
  20 < candidates.length ∧ ∃ r ∈ candidates, ¬ IsNumber (fitness r)

omit [Scalar α] in
/-- Candidates are noted with their places, which tell equally fit ones apart. -/
theorem places_pairwise (fitness : Rule → α) (candidates : List Rule) :
    (candidates.zipIdx.map fun p => (p, fitness p.1)).Pairwise fun p q => p.1.2 < q.1.2 := by
  have hplaces : (candidates.zipIdx.map Prod.snd).Pairwise (· < ·) := by
    rw [List.zipIdx_map_snd]
    exact List.pairwise_lt_range'
  exact List.pairwise_map.mpr (List.pairwise_map.mp hplaces)

/-- Candidates cannot be ranked only if one has no number for its fitness. -/
theorem unranked_of_ranking [StrictScalar α] {e : Fault} (h : ranking fitness candidates = .error e) :
    e = .disorder ∧ Unranked fitness candidates := by
  have hstrict : Ranking.Strict fun p q : (Rule × Nat) × α => p.1.2 < q.1.2 :=
    ⟨fun hpq => Nat.not_lt_of_gt hpq, fun hpq hqr => Nat.lt_trans hpq hqr⟩
  cases hranked : Ranking.descending 16 (fun (p : (Rule × Nat) × α) => p.2)
      (candidates.zipIdx.map fun p => (p, fitness p.1)) with
  | ok ranked =>
      rw [ranking, hranked] at h
      cases h
  | error e' =>
      rw [ranking, hranked] at h
      cases h
      obtain ⟨rfl, hlength, p, hp, hnumber⟩ :=
        Ranking.disorder_of_descending hstrict (places_pairwise fitness candidates) hranked
      rw [List.length_map, List.length_zipIdx] at hlength
      obtain ⟨entry, hentry, rfl⟩ := List.mem_map.mp hp
      exact ⟨rfl, hlength, entry.1, List.fst_mem_of_mem_zipIdx hentry, hnumber⟩

/-! ## Picks -/

/-- What a selector draws from is a range: the fitness of the candidates has a finite sum, where what is below
zero counts as nothing; or there are no more candidates than fit into memory.  Other selectors draw places
alone. -/
def CanDraw (fitness : Rule → α) (candidates : List Rule) : Selector → Prop
  | random => True
  | tournament _ => True
  | roulette => (value? (Scalar.sum (candidates.map fun r => nonNegative (fitness r)))).isSome = true
  | rank => candidates.length < 2 ^ 63

instance (fitness : Rule → α) (candidates : List Rule) (s : Selector) :
    Decidable (s.CanDraw fitness candidates) :=
  match s with
  | random => isTrue trivial
  | tournament _ => isTrue trivial
  | roulette => inferInstanceAs (Decidable (_ = true))
  | rank => inferInstanceAs (Decidable (_ < _))

/-- A selector has failed to draw, or to rank its candidates. -/
def Fails (s : Selector) (fitness : Rule → α) (candidates : List Rule) (e : Fault) : Prop :=
  e = .undefinedDraw ∧ ¬ s.CanDraw fitness candidates ∨ e = .disorder ∧ Unranked fitness candidates

/-- A contest that has a winner goes on to have one. -/
theorem contest_isSome (hne : candidates ≠ []) {best : Option Rule} (hbest : best.isSome = true)
    (rounds : Nat) :
    (contest fitness candidates best rounds).Always fun winner => winner.isSome = true := by
  induction rounds generalizing best with
  | zero => exact always_pure hbest
  | succ rounds ih =>
      refine (choose_isSome hne).bind fun challenger hchallenger => ih ?_
      obtain ⟨b, rfl⟩ := Option.isSome_iff_exists.mp hbest
      obtain ⟨c, rfl⟩ := Option.isSome_iff_exists.mp hchallenger
      dsimp only
      split <;> rfl

/-- A pick in proportion to weights comes to something if the fallback does. -/
theorem proportional_isSome (total : α) (weighted : List (Rule × α)) {fallback : Draw (Option Rule)}
    (hfallback : fallback.Always fun picked => picked.isSome = true) :
    Ensures (proportional total weighted fallback) g
      (fun e _ => e = .undefinedDraw ∧ ¬ (0 < total ∧ (value? total).isSome = true))
      fun picked _ => picked.isSome = true := by
  refine ensures_bind.mpr ((real_ensures total).imp fun threshold g' _ => ?_)
  split
  · exact ensures_pure.mpr rfl
  · exact hfallback.ensures

variable [HalvingScalar α] [StrictScalar α]

omit [StrictScalar α] in
theorem byFitness_isSome (hne : candidates ≠ []) :
    Ensures (byFitness fitness candidates) g (fun e _ => Fails .roulette fitness candidates e)
      fun picked _ => picked.isSome = true := by
  have hsum : (candidates.map fun r => (r, nonNegative (fitness r))).map (·.2)
      = candidates.map fun r => nonNegative (fitness r) := List.map_map
  unfold byFitness
  dsimp only
  rw [hsum]
  split
  · exact (choose_isSome hne).ensures
  · rename_i hzero
    refine (proportional_isSome _ _ (always_pure ?_)).mono (fun e _ h => Or.inl ⟨h.1, ?_⟩) fun _ _ h => h
    · rw [List.getLast?_eq_some_getLast hne]
      rfl
    · exact fun hdraw => h.2 ⟨pos_of_not_le_zero hdraw hzero, hdraw⟩

theorem byRank_isSome (hne : candidates ≠ []) :
    Ensures (byRank fitness candidates) g (fun e _ => Fails .rank fitness candidates e)
      fun picked _ => picked.isSome = true := by
  have hlength : 0 < candidates.length := List.length_pos_iff.mpr hne
  refine ensures_bind.mpr (ensures_of_except (fun e h => Or.inr (unranked_of_ranking h)) fun ranked h => ?_)
  have hranked : ranked ≠ [] := by
    rw [← List.length_pos_iff, (ranking_perm h).length_eq]
    exact hlength
  refine (proportional_isSome _ _ (choose_isSome hranked)).mono (fun e _ h => Or.inl ⟨h.1, ?_⟩)
    fun _ _ h => h
  exact fun hdraw => h.2 (HalvingScalar.half_count (mod_wordCount_ne_zero hlength hdraw)
    (Nat.mod_lt _ (by decide)))

/-- **A selector picks one of its candidates**, unless it has no range to draw from or cannot rank them. -/
theorem select_picks (s : Selector) (hne : candidates ≠ []) :
    Ensures (s.select fitness candidates) g (fun e _ => s.Fails fitness candidates e) fun picked _ =>
      ∃ r ∈ candidates, picked = some r := by
  have hsome : Ensures (s.select fitness candidates) g (fun e _ => s.Fails fitness candidates e)
      fun picked _ => picked.isSome = true := by
    unfold select
    split
    · exact ensures_pure.mpr (List.isSome_head?.mpr hne)
    · cases s with
      | random => exact (choose_isSome hne).ensures
      | tournament size =>
          refine ensures_bind.mpr ((choose_isSome hne).ensures.imp fun first g' hfirst => ?_)
          exact (contest_isSome hne hfirst (size - 1)).ensures
      | roulette => exact byFitness_isSome hne
      | rank => exact byRank_isSome hne
  refine (hsome.and (s.select_ensures fitness candidates)).mono (fun _ _ => And.left) ?_
  rintro picked g' ⟨hpicked, hmem⟩
  obtain ⟨r, rfl⟩ := Option.isSome_iff_exists.mp hpicked
  exact ⟨r, hmem r rfl, rfl⟩

end Selector

/-- **Selectors pick one rule each**, unless one of them fails. -/
theorem Learner.selectAll_picks [HalvingScalar α] [StrictScalar α] {fitness : Rule → α}
    {candidates : List Rule} (hne : candidates ≠ []) (selectors : List Selector) :
    Ensures (selectAll fitness candidates selectors) g
      (fun e _ => ∃ s ∈ selectors, s.Fails fitness candidates e) fun selected _ =>
      selected.length = selectors.length ∧ ∀ r ∈ selected, r ∈ candidates := by
  induction selectors generalizing g with
  | nil => exact ensures_pure.mpr ⟨rfl, fun r hr => nomatch hr⟩
  | cons s rest ih =>
      refine ensures_bind.mpr ((s.select_picks hne).mono (fun e _ h => ⟨s, List.mem_cons_self, h⟩) ?_)
      rintro picked g' ⟨r, hr, rfl⟩
      refine ensures_bind.mpr (ih.mono ?_ fun more g'' hmore => ensures_pure.mpr ?_)
      · exact fun e _ ⟨s', hs', hfails⟩ => ⟨s', List.mem_cons_of_mem _ hs', hfails⟩
      · exact ⟨congrArg Nat.succ hmore.1, List.forall_mem_cons.mpr ⟨hr, hmore.2⟩⟩

/-! ## Operators -/

namespace GeneticOperator

theorem mutate_isTerminal (l : Limits) (kind : GeneticKind) (r : Rule) :
    (mutate l kind r).Always fun changed => changed.isTerminal = r.isTerminal := by
  obtain ⟨parent, body⟩ := r
  cases body with
  | terminal a => exact always_pure rfl
  | pair left right =>
      cases kind with
      | inversion => exact always_pure rfl
      | parentMutation => exact (always_true _).bind fun x _ => always_pure rfl
      | leftChildMutation => exact (always_true _).bind fun x _ => always_pure rfl
      | rightChildMutation => exact (always_true _).bind fun x _ => always_pure rfl
      | crossover => exact always_pure rfl

/-- Only pair rules exchange their bodies. -/
theorem crossover_isTerminal (r q : Rule) :
    (crossover r q).1.isTerminal = r.isTerminal ∧ (crossover r q).2.isTerminal = q.isTerminal := by
  unfold crossover
  split
  · exact ⟨rfl, rfl⟩
  · rename_i hpairs
    rw [not_or, Bool.not_eq_true, Bool.not_eq_true] at hpairs
    exact ⟨hpairs.2.trans hpairs.1.symm, hpairs.1.trans hpairs.2.symm⟩

/-- What is made of pair rules are pair rules. -/
theorem keeps_pairs (l : Limits) : Keeps l fun r => r.isTerminal = false where
  mutated kind {r} hr := (mutate_isTerminal l kind r).imp fun _ hsame => hsame.trans hr
  crossed {r q} hr hq :=
    ⟨(crossover_isTerminal r q).1.trans hr, (crossover_isTerminal r q).2.trans hq⟩

end GeneticOperator

/-- **The offspring of pair rules are as many pair rules**, if all chances are numbers. -/
theorem Learner.applyStages_pairs [LawfulScalar α] {l : Limits} {ops : List (GeneticOperator α)}
    (hchances : ∀ op ∈ ops, IsNumber op.chance) {rules : List Rule}
    (h : ∀ r ∈ rules, r.isTerminal = false) :
    Ensures (applyStages l ops rules) g (fun _ _ => False) fun offspring _ =>
      offspring.length = rules.length ∧ ∀ r ∈ offspring, r.isTerminal = false := by
  have hdrawn : ∀ op ∈ ops, ∀ g, Ensures (Draw.chance op.chance) g (fun _ _ => False) fun _ _ => True :=
    fun op hop g => (chance_ensures (Or.inl (hchances op hop))).imp fun _ _ _ => trivial
  exact applyStages_keeps (GeneticOperator.keeps_pairs l) hdrawn h

end GrammarInduction
