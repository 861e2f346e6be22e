import GrammarInduction.Learning.Breeding
import GrammarInduction.Proofs.Attempt
import GrammarInduction.Proofs.Ranking
import GrammarInduction.Proofs.Grammar.Confinement

/-!
# What breeding makes of the rules that it picks

Selectors pick stored rules and nothing else.  Genetic operators put symbols in range into the place of
others and exchange bodies, so they never leave the symbols of the grammar and those in range; terminal
rules pass through as they are.

* `Selector.select_ensures` — every selector picks one of its candidates;
* `GeneticOperator.mutate_always`, `GeneticOperator.crossover_admits` — what becomes of one rule, and of
  two;
* `GeneticOperator.Keeps`, `Learner.applyStages_keeps` — what operators keep rule by rule, the offspring
  has;
* `Learner.applyStages_ensures` — the offspring of admitted rules is admitted.
-/

namespace GrammarInduction

open Attempt Draw

variable {α : Type} [Scalar α] {g : Generator}

/-- What holds whatever is drawn is ensured of a draw that is part of an attempt. -/
theorem Draw.Always.ensures {β : Type} {d : Draw β} {post : β → Prop} (h : d.Always post)
    {fault : Fault → Generator → Prop} :
    Ensures (liftM d : Attempt Generator β) g fault fun b _ => post b :=
  ensures_state.mpr (h g)

/-- A choice is one of the elements. -/
theorem Draw.choose_always {β : Type} (xs : List β) :
    (choose xs).Always fun chosen => ∀ x ∈ chosen, x ∈ xs := by
  intro g x hx
  by_cases hempty : xs = []
  · subst hempty
    cases hx
  · obtain ⟨y, hy, hchosen⟩ := exists_choose hempty g
    rw [hchosen, Option.mem_some_iff] at hx
    exact hx ▸ hy

namespace Selector

variable {fitness : Rule → α} {candidates : List Rule}

/-! ## Picks -/

/-- The winner of a contest is the best rule before, or one of the candidates. -/
theorem contest_always {best : Option Rule} (hbest : ∀ r ∈ best, r ∈ candidates) (rounds : Nat) :
    (contest fitness candidates best rounds).Always fun winner => ∀ r ∈ winner, r ∈ candidates := by
  induction rounds generalizing best with
  | zero => exact always_pure hbest
  | succ rounds ih =>
      refine (choose_always candidates).bind fun challenger hchallenger => ih ?_
      intro r hr
      cases best with
      | none => exact hchallenger r hr
      | some b =>
          cases challenger with
          | none => exact hchallenger r hr
          | some c =>
              dsimp only at hr
              split at hr
              · exact hchallenger r hr
              · exact hbest r hr

/-- What passes the threshold is an element of the list. -/
theorem mem_of_firstAbove {β : Type} {threshold running : α} {weighted : List (β × α)} {x : β}
    (h : firstAbove threshold running weighted = some x) : x ∈ weighted.map (·.1) := by
  induction weighted generalizing running with
  | nil => cases h
  | cons entry rest ih =>
      obtain ⟨y, weight⟩ := entry
      rw [firstAbove] at h
      split at h
      · cases h
        exact List.mem_cons_self
      · exact List.mem_cons_of_mem _ (ih h)

/-- A pick in proportion to weights is an element of the list, or the fallback. -/
theorem proportional_ensures {total : α} {weighted : List (Rule × α)}
    {fallback : Draw (Option Rule)} (hweighted : ∀ r ∈ weighted.map (·.1), r ∈ candidates)
    (hfallback : fallback.Always fun picked => ∀ r ∈ picked, r ∈ candidates) :
    Ensures (proportional total weighted fallback) g (fun _ _ => True) fun picked _ =>
      ∀ r ∈ picked, r ∈ candidates := by
  refine ensures_bind.mpr ((ensures_self _ g).imp fun threshold g' _ => ?_)
  split
  · rename_i x hx
    refine ensures_pure.mpr fun r hr => ?_
    rw [Option.mem_some_iff] at hr
    exact hweighted r (hr ▸ mem_of_firstAbove hx)
  · exact hfallback.ensures

/-- The candidates are ranked, all of them. -/
theorem ranking_perm {fitness : Rule → α} {candidates ranked : List Rule}
    (h : ranking fitness candidates = .ok ranked) : ranked.Perm candidates := by
  obtain ⟨entries, hentries, h⟩ := Fault.bind_eq_ok.mp h
  cases h
  have hcandidates : (candidates.zipIdx.map fun p => (p, fitness p.1)).map (·.1.1) = candidates := by
    rw [List.map_map]
    exact List.zipIdx_map_fst 0 candidates
  rw [← hcandidates]
  exact (Ranking.descending_perm hentries).map (·.1.1)

/-- **A selector picks one of its candidates.** -/
theorem select_ensures (s : Selector) (fitness : Rule → α) (candidates : List Rule) :
    Ensures (s.select fitness candidates) g (fun _ _ => True) fun picked _ =>
      ∀ r ∈ picked, r ∈ candidates := by
  unfold select
  split
  · exact ensures_pure.mpr fun r hr => List.mem_of_mem_head? hr
  · cases s with
    | random => exact (choose_always candidates).ensures
    | tournament size =>
        refine ensures_bind.mpr ((choose_always candidates).ensures.imp fun first g' hfirst => ?_)
        exact (contest_always hfirst (size - 1)).ensures
    | roulette =>
        unfold byFitness
        dsimp only
        split
        · exact (choose_always candidates).ensures
        · refine proportional_ensures (fun r hr => ?_) (always_pure fun r hr => ?_)
          · simpa using hr
          · exact List.mem_of_getLast? hr
    | rank =>
        refine ensures_bind.mpr (ensures_of_except (fun _ _ => trivial) fun ranked hranked => ?_)
        have hmem := fun r => (ranking_perm hranked).mem_iff (a := r)
        refine proportional_ensures (fun r hr => ?_) ((choose_always _).imp fun picked hpicked => ?_)
        · rw [List.map_map] at hr
          obtain ⟨entry, hentry, rfl⟩ := List.mem_map.mp hr
          exact (hmem _).mp (List.fst_mem_of_mem_zipIdx hentry)
        · exact fun r hr => (hmem r).mp (hpicked r hr)

end Selector

/-- The rules that several selectors pick are candidates. -/
theorem Learner.selectAll_ensures (fitness : Rule → α) (candidates : List Rule)
    (selectors : List Selector) :
    Ensures (selectAll fitness candidates selectors) g (fun _ _ => True) fun selected _ =>
      ∀ r ∈ selected, r ∈ candidates := by
  induction selectors generalizing g with
  | nil => exact ensures_pure.mpr fun r hr => nomatch hr
  | cons s rest ih =>
      refine ensures_bind.mpr ((s.select_ensures fitness candidates).imp fun picked g' hpicked => ?_)
      refine ensures_bind.mpr (ih.imp fun more g'' hmore => ensures_pure.mpr fun r hr => ?_)
      rcases List.mem_append.mp hr with hfirst | hlater
      · exact hpicked r (Option.mem_toList.mp hfirst)
      · exact hmore r hlater

/-! ## Operators -/

namespace GeneticOperator

variable {l : Limits} {sentences : List Sentence} {r q : Rule} {rules : List Rule}

/-- A change of one rule keeps its symbols or puts one in range into the place of another. -/
theorem mutate_always (hl : l.Sound) (kind : GeneticKind) (h : l.Admits sentences r) :
    (mutate l kind r).Always (l.Admits sentences) := by
  obtain ⟨parent, body⟩ := r
  cases body with
  | terminal a => exact always_pure h
  | pair left right =>
      obtain ⟨hparent, hleft, hright⟩ := h
      cases kind with
      | inversion => exact always_pure ⟨hparent, hright, hleft⟩
      | parentMutation =>
          exact (l.randomSymbol_always hl).bind fun x hx => always_pure ⟨hx, hleft, hright⟩
      | leftChildMutation =>
          exact (l.randomSymbol_always hl).bind fun x hx => always_pure ⟨hparent, hx, hright⟩
      | rightChildMutation =>
          exact (l.randomSymbol_always hl).bind fun x hx => always_pure ⟨hparent, hleft, hx⟩
      | crossover => exact always_pure ⟨hparent, hleft, hright⟩

/-- Two rules that exchange bodies keep their parents. -/
theorem crossover_admits (hr : l.Admits sentences r) (hq : l.Admits sentences q) :
    l.Admits sentences (crossover r q).1 ∧ l.Admits sentences (crossover r q).2 := by
  unfold crossover
  split
  · exact ⟨hr, hq⟩
  · exact ⟨⟨hr.parent, hq.body⟩, hq.parent, hr.body⟩

/-- Changes of one rule and exchanges of two make rules of a kind of rules of this kind. -/
structure Keeps (l : Limits) (P : Rule → Prop) : Prop where
  mutated : ∀ (kind : GeneticKind) {r : Rule}, P r → (mutate l kind r).Always P
  crossed : ∀ {r q : Rule}, P r → P q → P (crossover r q).1 ∧ P (crossover r q).2

theorem keeps_admits (hl : l.Sound) : Keeps l (l.Admits sentences) where
  mutated kind _ h := mutate_always hl kind h
  crossed := crossover_admits

variable {P : Rule → Prop} {chance : α} {fault : Fault → Generator → Prop}

theorem applyEach_keeps (hkeeps : Keeps l P) (kind : GeneticKind)
    (hchance : ∀ g, Ensures (Draw.chance chance) g fault fun _ _ => True) (h : ∀ r ∈ rules, P r) :
    Ensures (applyEach l kind chance rules) g fault fun changed _ =>
      changed.length = rules.length ∧ ∀ r ∈ changed, P r := by
  induction rules generalizing g with
  | nil => exact ensures_pure.mpr ⟨rfl, h⟩
  | cons r rest ih =>
      rw [List.forall_mem_cons] at h
      have hrest : ∀ (r' : Rule) (g : Generator), P r' →
          Ensures (applyEach l kind chance rest >>= fun changed => pure (r' :: changed)) g fault
            fun changed _ => changed.length = (r :: rest).length ∧ ∀ r ∈ changed, P r := by
        intro r' g hr'
        refine ensures_bind.mpr ((ih h.2).imp fun changed _ hchanged => ensures_pure.mpr ?_)
        exact ⟨congrArg Nat.succ hchanged.1, List.forall_mem_cons.mpr ⟨hr', hchanged.2⟩⟩
      refine ensures_bind.mpr ((hchance g).imp fun fires g' _ => ?_)
      cases fires with
      | true =>
          refine ensures_bind.mpr ((hkeeps.mutated kind h.1).ensures.imp fun r' g'' hr' => ?_)
          exact hrest r' g'' hr'
      | false => exact ensures_bind.mpr (ensures_pure.mpr (hrest r g' h.1))

theorem applyPairs_keeps (hkeeps : Keeps l P)
    (hchance : ∀ g, Ensures (Draw.chance chance) g fault fun _ _ => True) (h : ∀ r ∈ rules, P r) :
    Ensures (applyPairs chance rules) g fault fun changed _ =>
      changed.length = rules.length ∧ ∀ r ∈ changed, P r := by
  induction rules using applyPairs.induct generalizing g with
  | case1 r q rest ih =>
      rw [List.forall_mem_cons, List.forall_mem_cons] at h
      obtain ⟨hr, hq, hrest⟩ := h
      refine ensures_bind.mpr ((hchance g).imp fun fires g' _ => ?_)
      obtain ⟨hr', hq'⟩ : P (if fires then crossover r q else (r, q)).1
          ∧ P (if fires then crossover r q else (r, q)).2 := by
        split
        · exact hkeeps.crossed hr hq
        · exact ⟨hr, hq⟩
      refine ensures_bind.mpr ((ih hrest).imp fun changed _ hmore => ensures_pure.mpr ?_)
      refine ⟨congrArg (· + 2) hmore.1, ?_⟩
      exact List.forall_mem_cons.mpr ⟨hr', List.forall_mem_cons.mpr ⟨hq', hmore.2⟩⟩
  | case2 rules hfew =>
      rw [applyPairs]
      · exact ensures_pure.mpr ⟨rfl, h⟩
      · exact hfew

/-- An operator makes as many rules as it gets, and of the same kind. -/
theorem apply_keeps (hkeeps : Keeps l P) (op : GeneticOperator α)
    (hchance : ∀ g, Ensures (Draw.chance op.chance) g fault fun _ _ => True)
    (h : ∀ r ∈ rules, P r) :
    Ensures (op.apply l rules) g fault fun changed _ =>
      changed.length = rules.length ∧ ∀ r ∈ changed, P r := by
  unfold apply
  split
  · exact applyPairs_keeps hkeeps hchance h
  · exact applyEach_keeps hkeeps _ hchance h

end GeneticOperator

/-- **There are as many offspring as rules to begin with**, and of any kind that a single change keeps. -/
theorem Learner.applyStages_keeps {l : Limits} {P : Rule → Prop} (hkeeps : GeneticOperator.Keeps l P)
    {ops : List (GeneticOperator α)} {fault : Fault → Generator → Prop}
    (hchances : ∀ op ∈ ops, ∀ g, Ensures (Draw.chance op.chance) g fault fun _ _ => True)
    {rules : List Rule} (h : ∀ r ∈ rules, P r) :
    Ensures (applyStages l ops rules) g fault fun offspring _ =>
      offspring.length = rules.length ∧ ∀ r ∈ offspring, P r := by
  induction ops generalizing g rules with
  | nil => exact ensures_pure.mpr ⟨rfl, h⟩
  | cons op rest ih =>
      rw [List.forall_mem_cons] at hchances
      refine ensures_bind.mpr ((op.apply_keeps hkeeps hchances.1 h).imp fun changed _ hchanged => ?_)
      exact (ih hchances.2 hchanged.2).imp fun offspring _ hmore =>
        ⟨hmore.1.trans hchanged.1, hmore.2⟩

/-- **The offspring of admitted rules is admitted**, whatever operators it goes through. -/
theorem Learner.applyStages_ensures {l : Limits} {sentences : List Sentence} (hl : l.Sound)
    (ops : List (GeneticOperator α)) {rules : List Rule} (h : ∀ r ∈ rules, l.Admits sentences r) :
    Ensures (applyStages l ops rules) g (fun _ _ => True) fun offspring _ =>
      ∀ r ∈ offspring, l.Admits sentences r := by
  have hdrawn : ∀ op ∈ ops, ∀ g, Ensures (Draw.chance op.chance) g (fun _ _ => True) fun _ _ => True :=
    fun _ _ g => (ensures_self _ g).imp fun _ _ _ => trivial
  exact (applyStages_keeps (GeneticOperator.keeps_admits hl) hdrawn h).imp fun _ _ => And.right

end GrammarInduction
