import GrammarInduction.Insertion.Strategy
import GrammarInduction.Random.Arrangement
import GrammarInduction.Ranking

/-!
# Crowding and the elite

* `Crowding.victim` — of several weak rules, each the weakest of a random sample, the one that is
  most like the newcomer;
* `fittest` — the fittest rules of a list.
-/

namespace GrammarInduction

variable {α : Type} [Scalar α]

/-- The first of the least fit rules of a list. -/
def weakest? (fitness : Rule → α) : List Rule → Option Rule
  | [] => none
  | r :: rest => some (rest.foldl (fun x y => if fitness y < fitness x then y else x) r)

theorem mem_of_weakest? {fitness : Rule → α} {rules : List Rule} {r : Rule}
    (h : weakest? fitness rules = some r) : r ∈ rules := by
  cases rules with
  | nil => simp [weakest?] at h
  | cons x rest =>
    have hfold : ∀ (rest : List Rule) (x : Rule),
        rest.foldl (fun x y => if fitness y < fitness x then y else x) x ∈ x :: rest := by
      intro rest
      induction rest with
      | nil => simp
      | cons y rest ih =>
        intro x
        rw [List.foldl_cons]
        split
        · exact List.mem_cons_of_mem _ (ih y)
        · rcases List.mem_cons.mp (ih x) with hx | hx
          · exact List.mem_cons.mpr (Or.inl hx)
          · exact List.mem_cons_of_mem _ (List.mem_cons_of_mem _ hx)
    rw [weakest?, Option.some.injEq] at h
    exact h ▸ hfold rest x

/-- The fittest rules of a list, as many as given if there are so many; of equally fit rules the
earlier.  With its fitness noted beside it a rule takes up 24 bytes. -/
def fittest (fitness : Rule → α) (size : Nat) (rules : List Rule) : Except Fault (List Rule) := do
  let ranked ← Ranking.descending 24 (fun (p : Rule × α) => p.2) (rules.map fun r => (r, fitness r))
  pure ((ranked.take size).map (·.1))

/-- The first of those rules of a list that agree with `r` in most places; rules of another arity do
not count. -/
def mostAkin? (r : Rule) (rules : List Rule) : Option Rule :=
  let best := rules.foldl (fun (best : Option (Rule × Nat)) candidate =>
    match r.affinity? candidate, best with
    | none, _ => best
    | some places, none => some (candidate, places)
    | some places, some (_, most) => if most < places then some (candidate, places) else best) none
  best.map (·.1)

/-- The rule that agrees in most places is one of the list, and has the arity of `r`. -/
theorem mem_of_mostAkin? {r old : Rule} {rules : List Rule} (h : mostAkin? r rules = some old) :
    old ∈ rules ∧ (r.affinity? old).isSome = true := by
  have hfold : ∀ (rules : List Rule) (best : Option (Rule × Nat)) (x : Rule × Nat),
      rules.foldl (fun (best : Option (Rule × Nat)) candidate =>
        match r.affinity? candidate, best with
        | none, _ => best
        | some places, none => some (candidate, places)
        | some places, some (_, most) =>
          if most < places then some (candidate, places) else best) best = some x →
      best = some x ∨ (x.1 ∈ rules ∧ (r.affinity? x.1).isSome = true) := by
    intro rules
    induction rules with
    | nil => exact fun best x hx => Or.inl hx
    | cons candidate rest ih =>
      intro best x hx
      rw [List.foldl_cons] at hx
      rcases ih _ x hx with hbest | ⟨hmem, hsome⟩
      · cases ha : r.affinity? candidate with
        | none =>
          simp only [ha] at hbest
          exact Or.inl hbest
        | some places =>
          have hnew : some (candidate, places) = some x →
              x.1 ∈ candidate :: rest ∧ (r.affinity? x.1).isSome = true := by
            rintro heq
            cases heq
            exact ⟨List.mem_cons_self .., by rw [ha]; rfl⟩
          cases hb : best with
          | none =>
            simp only [ha, hb] at hbest
            exact Or.inr (hnew hbest)
          | some b =>
            simp only [ha, hb] at hbest
            split at hbest
            · exact Or.inr (hnew hbest)
            · exact Or.inl hbest
      · exact Or.inr ⟨List.mem_cons_of_mem _ hmem, hsome⟩
  obtain ⟨x, hx, rfl⟩ := Option.map_eq_some_iff.mp h
  rcases hfold rules none x hx with hnone | hmem
  · cases hnone
  · exact hmem

namespace Crowding

/-- The weakest of a random sample, in a random order, of the candidates. -/
def weakOf (size : Nat) (fitness : Rule → α) (candidates : List Rule) : Draw (Option Rule) := do
  let indices ← Draw.sample candidates.length size
  let sample := indices.filterMap fun i => candidates[i]?
  let shuffled ← Draw.shuffle sample
  pure (weakest? fitness shuffled)

/-- The weak rules of several rounds. -/
def weakRules (size : Nat) (fitness : Rule → α) (candidates : List Rule) : Nat → Draw (List Rule)
  | 0 => pure []
  | rounds + 1 => do
    let weak ← weakOf size fitness candidates
    let more ← weakRules size fitness candidates rounds
    pure (weak.toList ++ more)

/-- The rule that makes way for `r`, if there are candidates.  The weak rules of all rounds are held at
once, sixteen bytes each, so what is said here is for fewer than `2 ^ 59` rounds: more rules than that have
no room in memory, and a program that asks for the room ends there. -/
def victim (c : Crowding) (fitness : Rule → α) (candidates : List Rule) (r : Rule) :
    Draw (Option Rule) :=
  if candidates.isEmpty then pure none
  else do
    let weak ← weakRules c.size fitness candidates c.factor
    pure (mostAkin? r weak)

end Crowding

end GrammarInduction
