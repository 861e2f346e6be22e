import GrammarInduction.Proofs.Insertion.Crowding
import GrammarInduction.Proofs.Ranking

/-!
# Who is spared and who makes way

Where the fitness of every rule is a number, the elite is what a ranking puts first: no rule outside it is
fitter than one inside, and of equally fit rules the earlier are in it.  Crowding takes the weakest rule of
a sample, so the rule that makes way is no fitter than a whole sample of the candidates, whatever round it
comes from.

* `exists_fittest`, `length_fittest`, `nodup_fittest` — the fittest rules of a list;
* `disorder_of_fittest` — where there are none;
* `weakest?_le` — the weakest rule of a list;
* `Crowding.IsWeak`, `Crowding.victim_weak` — the rule that makes way;
* `Crowding.IsWeak.le` — a sample of all candidates leaves only the least fit of them.
-/

namespace GrammarInduction

open Draw Ranking Scalar

variable {α : Type} [Scalar α] {fitness : Rule → α} {before : Rule → Rule → Prop}
  {rules candidates elite : List Rule} {size : Nat} {r weak : Rule}

/-! ## The fittest rules -/

omit [Scalar α] in
/-- A ranking goes by fitness values that are noted beside the rules. -/
theorem pairwise_noted (fitness : Rule → α) (hordered : rules.Pairwise before) :
    (rules.map fun r => (r, fitness r)).Pairwise fun p q => before p.1 q.1 :=
  List.pairwise_map.mpr hordered

/-- The fittest rules stand first in a ranking of all. -/
theorem exists_ranking (h : fittest fitness size rules = .ok elite) :
    ∃ ranking : List Rule, ranking.Perm rules ∧ elite = ranking.take size := by
  obtain ⟨ranked, hranked, h⟩ := Fault.bind_eq_ok.mp h
  cases h
  refine ⟨ranked.map (·.1), ?_, List.map_take⟩
  have hrules : (rules.map fun r => (r, fitness r)).map (·.1) = rules := by
    rw [List.map_map]
    exact List.map_id rules
  rw [← hrules]
  exact (descending_perm hranked).map (·.1)

theorem mem_of_mem_fittest (h : fittest fitness size rules = .ok elite) (hr : r ∈ elite) : r ∈ rules := by
  obtain ⟨ranking, hperm, rfl⟩ := exists_ranking h
  exact hperm.mem_iff.mp (List.mem_of_mem_take hr)

theorem length_fittest (h : fittest fitness size rules = .ok elite) :
    elite.length = min size rules.length := by
  obtain ⟨ranking, hperm, rfl⟩ := exists_ranking h
  rw [List.length_take, hperm.length_eq]

theorem nodup_fittest (h : fittest fitness size rules = .ok elite) (hnodup : rules.Nodup) :
    elite.Nodup := by
  obtain ⟨ranking, hperm, rfl⟩ := exists_ranking h
  exact (hperm.nodup_iff.mpr hnodup).sublist (List.take_sublist ..)

/-- **The fittest rules outrank all others**, and there are such where the fitness of each is a number. -/
theorem exists_fittest [StrictScalar α] (hstrict : Strict before)
    (hnumber : ∀ x ∈ rules, IsNumber (fitness x)) (hordered : rules.Pairwise before) (size : Nat) :
    ∃ elite, fittest fitness size rules = .ok elite
      ∧ ∀ a ∈ elite, ∀ b ∈ rules, b ∉ elite → Outranks fitness before a b := by
  have hnumbers : ∀ p ∈ rules.map fun r => (r, fitness r), IsNumber p.2 := by
    intro p hp
    obtain ⟨r, hr, rfl⟩ := List.mem_map.mp hp
    exact hnumber r hr
  have hstrict' : Strict fun p q : Rule × α => before p.1 q.1 := ⟨hstrict.asymm, hstrict.trans⟩
  obtain ⟨ranked, hranked, hpairwise⟩ :=
    exists_descending 24 hstrict' hnumbers (pairwise_noted fitness hordered)
  refine ⟨(ranked.take size).map (·.1), by rw [fittest, hranked]; rfl, fun a ha b hb hout => ?_⟩
  have hmem := fun p => (descending_perm hranked).mem_iff (a := p)
  obtain ⟨p, hp, rfl⟩ := List.mem_map.mp ha
  have hnoted : p.2 = fitness p.1 := by
    obtain ⟨r, -, rfl⟩ := List.mem_map.mp ((hmem p).mp (List.mem_of_mem_take hp))
    rfl
  have hrest : (b, fitness b) ∈ ranked.drop size := by
    have hall := (hmem _).mpr (List.mem_map_of_mem (f := fun r => (r, fitness r)) hb)
    rw [← List.take_append_drop size ranked] at hall
    refine (List.mem_append.mp hall).resolve_left fun hin => hout ?_
    exact List.mem_map_of_mem (f := (·.1)) hin
  rw [← List.take_append_drop size ranked] at hpairwise
  have houtranks := (List.pairwise_append.mp hpairwise).2.2 p hp _ hrest
  rw [Outranks, hnoted] at houtranks
  exact houtranks

/-- Only more than twenty rules, of which the fitness of one is no number, can have no fittest. -/
theorem disorder_of_fittest [StrictScalar α] (hstrict : Strict before)
    (hordered : rules.Pairwise before) {e : Fault} (h : fittest fitness size rules = .error e) :
    e = .disorder ∧ 20 < rules.length ∧ ∃ r ∈ rules, ¬ IsNumber (fitness r) := by
  have hstrict' : Strict fun p q : Rule × α => before p.1 q.1 := ⟨hstrict.asymm, hstrict.trans⟩
  cases hranked : Ranking.descending 24 (fun (p : Rule × α) => p.2) (rules.map fun r => (r, fitness r)) with
  | ok ranked =>
      rw [fittest, hranked] at h
      cases h
  | error e' =>
      rw [fittest, hranked] at h
      cases h
      obtain ⟨rfl, hlength, p, hp, hnumber⟩ :=
        disorder_of_descending hstrict' (pairwise_noted fitness hordered) hranked
      rw [List.length_map] at hlength
      obtain ⟨r, hr, rfl⟩ := List.mem_map.mp hp
      exact ⟨rfl, hlength, r, hr, hnumber⟩

/-! ## The rule that makes way -/

/-- No rule of a list is less fit than the weakest. -/
theorem weakest?_le [OrderedScalar α] (hnumber : ∀ x ∈ rules, IsNumber (fitness x))
    (h : weakest? fitness rules = some weak) : ∀ x ∈ rules, fitness weak ≤ fitness x := by
  have hfold : ∀ (rest : List Rule) (first : Rule), (∀ x ∈ first :: rest, IsNumber (fitness x)) →
      ∀ x ∈ first :: rest,
        fitness (rest.foldl (fun x y => if fitness y < fitness x then y else x) first) ≤ fitness x := by
    intro rest
    induction rest with
    | nil =>
        intro first hnumber x hx
        rw [List.mem_singleton.mp hx]
        exact hnumber first List.mem_cons_self
    | cons y rest ih =>
        intro first hnumber
        obtain ⟨hfirst, hy, hrest⟩ : IsNumber (fitness first) ∧ IsNumber (fitness y)
            ∧ ∀ x ∈ rest, IsNumber (fitness x) := by simpa using hnumber
        -- The fold goes on with the lesser of the two, which bounds both.
        rw [List.foldl_cons]
        split
        · rename_i hlt
          have hle := ih y (List.forall_mem_cons.mpr ⟨hy, hrest⟩)
          refine List.forall_mem_cons.mpr ⟨?_, hle⟩
          exact OrderedScalar.le_trans (hle y List.mem_cons_self) (OrderedScalar.le_of_lt hlt)
        · rename_i hlt
          have hle := ih first (List.forall_mem_cons.mpr ⟨hfirst, hrest⟩)
          obtain ⟨hself, hothers⟩ := List.forall_mem_cons.mp hle
          refine List.forall_mem_cons.mpr ⟨hself, List.forall_mem_cons.mpr ⟨?_, hothers⟩⟩
          exact OrderedScalar.le_trans hself (le_of_not_lt hy hfirst hlt)
  cases rules with
  | nil => cases h
  | cons first rest =>
      cases h
      exact hfold rest first hnumber

namespace Crowding

/-- A candidate is no fitter than any rule of a sample of different candidates, which it is in itself; the
sample is of the given size if there are so many. -/
def IsWeak (size : Nat) (fitness : Rule → α) (candidates : List Rule) (weak : Rule) : Prop :=
  ∃ sample : List Rule, sample.Nodup ∧ sample.length = min size candidates.length ∧ weak ∈ sample
    ∧ ∀ x ∈ sample, x ∈ candidates ∧ fitness weak ≤ fitness x

/-- A sample of all candidates leaves only the least fit of them. -/
theorem IsWeak.le (h : IsWeak size fitness candidates weak) (hsize : candidates.length ≤ size) :
    ∀ x ∈ candidates, fitness weak ≤ fitness x := by
  obtain ⟨sample, hnodup, hlength, -, hsample⟩ := h
  rw [Nat.min_eq_right hsize] at hlength
  have hsubperm := List.subperm_of_subset hnodup fun x hx => (hsample x hx).1
  have hperm := hsubperm.perm_of_length_le (Nat.le_of_eq hlength.symm)
  exact fun x hx => (hsample x (hperm.mem_iff.mpr hx)).2

/-- The rule that a round gives is weak. -/
theorem weakOf_weak [OrderedScalar α] (hnodup : candidates.Nodup)
    (hnumber : ∀ x ∈ candidates, IsNumber (fitness x)) (size : Nat) :
    (weakOf size fitness candidates).Always fun weak? =>
      ∀ weak ∈ weak?, IsWeak size fitness candidates weak := by
  refine (weakOf_always size fitness candidates).imp fun weak? h weak hweak => ?_
  obtain ⟨sample, hsubperm, hlength, rfl⟩ := h
  have hsubset := hsubperm.subset
  have hdifferent : sample.Nodup := by
    obtain ⟨ordered, hperm, hsublist⟩ := hsubperm
    exact hperm.nodup_iff.mp (hnodup.sublist hsublist)
  have hle := weakest?_le (fun x hx => hnumber x (hsubset hx)) hweak
  exact ⟨sample, hdifferent, hlength, mem_of_weakest? hweak, fun x hx => ⟨hsubset hx, hle x hx⟩⟩

/-- What holds of the rule of each round holds of the rules of all rounds. -/
theorem weakRules_forall {P : Rule → Prop}
    (h : (weakOf size fitness candidates).Always fun weak? => ∀ weak ∈ weak?, P weak)
    (rounds : Nat) :
    (weakRules size fitness candidates rounds).Always fun weak => ∀ x ∈ weak, P x := by
  induction rounds with
  | zero => exact always_pure (by simp)
  | succ rounds ih =>
      refine h.bind fun weak? hweak => ih.bind fun more hmore => always_pure fun x hx => ?_
      rcases List.mem_append.mp hx with hnew | hold
      · exact hweak x (Option.mem_toList.mp hnew)
      · exact hmore x hold

/-- **Only a weak rule makes way**, whatever is drawn. -/
theorem victim_weak [OrderedScalar α] (hnodup : candidates.Nodup)
    (hnumber : ∀ x ∈ candidates, IsNumber (fitness x)) (c : Crowding) (r : Rule) :
    (c.victim fitness candidates r).Always fun old? =>
      ∀ old ∈ old?, IsWeak c.size fitness candidates old := by
  unfold victim
  split
  · exact always_pure (by simp)
  · refine (weakRules_forall (weakOf_weak hnodup hnumber c.size) c.factor).bind fun weak hweak => ?_
    exact always_pure fun old hold => hweak old (mem_of_mostAkin? hold).1

end Crowding

end GrammarInduction
