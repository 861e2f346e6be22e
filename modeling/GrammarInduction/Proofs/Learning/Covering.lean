import GrammarInduction.Learning.CoveringParse
import GrammarInduction.Proofs.Chart.Cell
import GrammarInduction.Proofs.Coverage.Invention
import GrammarInduction.Proofs.Learning.Submission

/-!
# Operators cover a cell

Operators are let at a cell in turn until one makes up a rule.  That rule is submitted, and its
production added to the pool of the cell, whatever the submission has made of the grammar.

* `Learner.Covered` — an operator has covered a cell;
* `Learner.coverFirst_ensures` — otherwise nothing but draws has happened;
* `Learner.coverLeaf_ensures`, `Learner.coverSplit_ensures` — all that may happen at a cell;
* `Learner.coverFirst_fires` — an operator that is sure to fire covers the cell, unless one before it
  has.
-/

namespace GrammarInduction.Learner

open Attempt

variable {α : Type} [Scalar α] {coverage : Coverage α} {site : CoverageSite} {t : Table α}
  {pool p : Pool α} {s s' : Learner α} {kind : CoverageKind} {kinds : List CoverageKind}

/-- One of several operators has covered a cell: its rule has been submitted, and the pool has got a
production with it. -/
inductive Covered (coverage : Coverage α) (site : CoverageSite) (pool : Pool α) (s : Learner α)
    (kinds : List CoverageKind) : Pool α → Learner α → Prop
  | fired {kind : CoverageKind} {r : Rule} {d : Detector} {probability : α} {g : Generator}
      (listed : kind ∈ kinds) (invents : Coverage.Invents s.population.limits kind site r d)
      (submitted : ∃ outcome, (submit r (coverage.get kind).hint { s with generator := g }).1
        = .ok outcome) :
      Covered coverage site pool s kinds (pool.add ⟨d, some r, probability⟩)
        (submit r (coverage.get kind).hint { s with generator := g }).2

namespace Covered

theorem mono (h : Covered coverage site pool s kinds p s') {kinds' : List CoverageKind}
    (hsub : ∀ kind ∈ kinds, kind ∈ kinds') : Covered coverage site pool s kinds' p s' := by
  cases h with
  | fired listed invents submitted => exact .fired (hsub _ listed) invents submitted

/-- Draws made before are of no account. -/
theorem of_generator {g : Generator}
    (h : Covered coverage site pool { s with generator := g } kinds p s') :
    Covered coverage site pool s kinds p s' := by
  cases h with
  | fired listed invents submitted => exact .fired listed invents submitted

theorem limits (h : Covered coverage site pool s kinds p s') :
    s'.population.limits = s.population.limits := by
  cases h with
  | fired => exact limits_submit ..

/-- A pool that has been covered derives the parent of the rule, besides what it did. -/
theorem derives_iff (h : Covered coverage site pool s kinds p s') :
    ∃ kind ∈ kinds, ∃ r d, Coverage.Invents s.population.limits kind site r d
      ∧ ∀ x, p.derives x = true ↔ pool.derives x = true ∨ r.parent = x := by
  cases h with
  | @fired kind r d probability g listed invents =>
      refine ⟨kind, listed, r, d, invents, fun x => ?_⟩
      rw [Pool.derives_add]
      simp [Production.parent?]

end Covered

/-! ## The probability of what is covered -/

omit [Scalar α] in
/-- The parts of a split of a cell of the triangle are cells of it. -/
theorem children_of_splits {d : Detector} (h : d.Splits t.length) :
    ∃ row col shift l r, d = .split row col shift l r ∧ shift < row ∧ row + col < t.length
      ∧ t.children d = .ok (some ((shift, col), (row - shift - 1, col + shift + 1))) := by
  cases h with
  | @split row col shift l r hshift inside =>
      exact ⟨row, col, shift, l, r, rfl, hshift, inside, Table.children_split hshift inside l r⟩

/-- A split of a cell of the triangle has a probability. -/
theorem insideProbability_of_splits {d : Detector} (h : d.Splits t.length) :
    ∃ x, insideProbability t d = .ok x := by
  obtain ⟨row, col, shift, l, r, rfl, hshift, inside, hchildren⟩ := children_of_splits h
  have hleft : t.cell shift col = .ok (t.poolAt shift col) := Table.cell_eq_poolAt (by omega)
  have hright : t.cell (row - shift - 1) (col + shift + 1)
      = .ok (t.poolAt (row - shift - 1) (col + shift + 1)) := Table.cell_eq_poolAt (by omega)
  refine ⟨(t.poolAt shift col).bestProbability l
    * (t.poolAt (row - shift - 1) (col + shift + 1)).bestProbability r, ?_⟩
  refine Fault.bind_eq_ok.mpr ⟨_, hchildren, ?_⟩
  exact Fault.bind_eq_ok.mpr ⟨_, hleft, Fault.bind_eq_ok.mpr ⟨_, hright, rfl⟩⟩

/-- Whatever may be covered at a site has a probability. -/
theorem exists_insideProbability {d : Detector} (hready : site.Ready t.length)
    (hd : d ∈ site.detectors) : ∃ x, insideProbability t d = .ok x := by
  cases site with
  | leaf col terminal =>
      rw [CoverageSite.detectors, List.mem_singleton] at hd
      rw [hd]
      exact ⟨1, rfl⟩
  | splits detectors => exact insideProbability_of_splits (hready.2 d hd)

/-- Whatever sees a cell of the triangle has a probability. -/
theorem insideProbability_of_sees {w : List Symbol} {row col : Nat} {d : Detector}
    (h : t.Sees w row col d) (inside : row + col < t.length) :
    ∃ x, insideProbability t d = .ok x := by
  cases h with
  | leaf => exact ⟨1, rfl⟩
  | split hshift => exact insideProbability_of_splits (.split hshift inside)

/-! ## One operator -/

/-- An operator covers a cell, or nothing but draws happens. -/
theorem coverWith_ensures : Ensures (coverWith coverage site t pool kind) s (fun _ _ => True)
    fun made s' => match made with
      | some p => Covered coverage site pool s [kind] p s'
      | none => ∃ g, s' = { s with generator := g } := by
  refine ensures_bind.mpr (ensures_get.mpr (ensures_bind.mpr (ensures_attempt.mpr ?_)))
  refine Coverage.cover_invents.imp fun made g hmade => ?_
  cases made with
  | none => exact ensures_pure.mpr ⟨g, rfl⟩
  | some invention =>
      obtain ⟨r, d⟩ := invention
      refine ensures_bind.mpr ((ensures_self _ _).imp fun outcome s' hsubmit => ?_)
      refine ensures_bind.mpr (ensures_of_except (fun _ _ => trivial) fun _ _ => ?_)
      refine ensures_bind.mpr (ensures_get.mpr (ensures_pure.mpr ?_))
      rw [show s' = _ from (congrArg Prod.snd hsubmit).symm]
      exact .fired (List.mem_singleton_self _) (hmade r d rfl) ⟨outcome, congrArg Prod.fst hsubmit⟩

/-- An operator does not fail at a site with something to cover, unless there is no elite to be found, and
covers it if it is sure to fire. -/
theorem coverWith_fires [LawfulScalar α] (hkind : kind ≠ .universal)
    (hchance : Scalar.IsNumber (coverage.get kind).chance ∨ 1 ≤ (coverage.get kind).chance)
    (hready : site.Ready t.length) :
    Ensures (coverWith coverage site t pool kind) s LacksElite fun made _ =>
      1 ≤ (coverage.get kind).chance → Coverage.suits kind site = true → made.isSome = true := by
  refine ensures_bind.mpr (ensures_get.mpr (ensures_bind.mpr (ensures_attempt.mpr ?_)))
  refine ((Coverage.cover_fires (n := t.length) hkind hchance).and
    Coverage.cover_invents).mono (fun _ _ h => h.1.elim) fun made g hmade => ?_
  cases made with
  | none => exact ensures_pure.mpr fun hone hsuits => nomatch hmade.1 hone hsuits hready
  | some invention =>
      obtain ⟨r, d⟩ := invention
      obtain ⟨x, hx⟩ := exists_insideProbability hready (hmade.2 r d rfl).mem
      refine ensures_bind.mpr ((submit_ensures ..).imp fun outcome s' _ => ?_)
      refine ensures_bind.mpr (ensures_except.mpr ?_)
      rw [hx]
      exact ensures_bind.mpr (ensures_get.mpr (ensures_pure.mpr fun _ _ => rfl))

/-! ## Operators in turn -/

/-- What comes of a cell that several operators are let at under a condition: one of them covers it, or
nothing but draws happens. -/
inductive Tried (coverage : Coverage α) (site : CoverageSite) (pool : Pool α) (s : Learner α)
    (kinds : List CoverageKind) (condition : Prop) : Pool α → Learner α → Prop
  | idle (g : Generator) : Tried coverage site pool s kinds condition pool { s with generator := g }
  | covered {p : Pool α} {s' : Learner α} (holds : condition)
      (done : Covered coverage site pool s kinds p s') : Tried coverage site pool s kinds condition p s'

/-- Of several operators one covers the cell, or nothing but draws happens. -/
theorem coverFirst_ensures {condition : Prop} (holds : condition) (kinds : List CoverageKind) :
    Ensures (coverFirst coverage site t pool kinds) s (fun _ _ => True)
      (Tried coverage site pool s kinds condition) := by
  induction kinds generalizing s with
  | nil => exact ensures_pure.mpr (.idle s.generator)
  | cons kind kinds ih =>
      refine ensures_bind.mpr (coverWith_ensures.imp fun made s' hmade => ?_)
      cases made with
      | some p =>
          refine ensures_pure.mpr (.covered holds (hmade.mono ?_))
          exact fun _ hlisted => List.mem_singleton.mp hlisted ▸ List.mem_cons_self
      | none =>
          obtain ⟨g, rfl⟩ := hmade
          refine ih.imp fun p s' h => ?_
          cases h with
          | idle g => exact .idle g
          | covered _ done =>
              exact .covered holds (done.mono fun _ => List.mem_cons_of_mem _).of_generator

/-- **A sure operator covers the cell**, unless one of those before it has, which have to be able to
decide whether they fire. -/
theorem coverFirst_fires [LawfulScalar α] {sure : CoverageKind} (before : List CoverageKind)
    {after : List CoverageKind} (hbefore : ∀ kind ∈ before, kind ≠ .universal
      ∧ Scalar.IsNumber (coverage.get kind).chance)
    (hkind : sure ≠ .universal) (hone : 1 ≤ (coverage.get sure).chance)
    (hsuits : Coverage.suits sure site = true) (hready : site.Ready t.length) :
    Ensures (coverFirst coverage site t pool (before ++ sure :: after)) s LacksElite
      fun p s' => Covered coverage site pool s (before ++ [sure]) p s' := by
  induction before generalizing s with
  | nil =>
      refine ensures_bind.mpr (((coverWith_fires hkind (Or.inr hone) hready).and
        coverWith_ensures).mono (fun _ _ h => h.1) fun made s' hmade => ?_)
      cases made with
      | some p => exact ensures_pure.mpr hmade.2
      | none => exact (nomatch hmade.1 hone hsuits)
  | cons kind before ih =>
      obtain ⟨hfirst, hnumber⟩ := hbefore kind List.mem_cons_self
      refine ensures_bind.mpr (((coverWith_fires hfirst (Or.inl hnumber) hready).and
        coverWith_ensures).mono (fun _ _ h => h.1) fun made s' hmade => ?_)
      cases made with
      | some p =>
          refine ensures_pure.mpr (hmade.2.mono ?_)
          exact fun _ hlisted => List.mem_singleton.mp hlisted ▸ List.mem_cons_self
      | none =>
          obtain ⟨g, rfl⟩ := hmade.2
          refine (ih fun kind h => hbefore kind (List.mem_cons_of_mem _ h)).imp fun p s' h => ?_
          exact (h.mono fun _ => List.mem_cons_of_mem _).of_generator

/-! ## Cells and the whole table -/

theorem coverLeaf_eq (coverage : Coverage α) (start : Symbol) (w : Sentence) (t : Table α)
    (col : Nat) (terminal : Symbol) (pool : Pool α) :
    coverLeaf coverage start w t col terminal pool
      = (if pool.isBarren then
          coverFirst coverage (.leaf col terminal) t pool [.terminal, .universal]
        else pure pool)
        >>= fun pool =>
          if w.length = 1 ∧ w.isPositive ∧ ¬ pool.derives start then
            coverFirst coverage (.leaf col terminal) t pool [.starting]
          else pure pool := by
  unfold coverLeaf
  split <;> rfl

/-- At the cell of a terminal a rule of the terminal is tried if it has none; and then, if the terminal is
a positive sentence that is not derived yet, a rule of the starting symbol. -/
theorem coverLeaf_ensures {start : Symbol} {w : Sentence} {col : Nat} {terminal : Symbol} :
    Ensures (coverLeaf coverage start w t col terminal pool) s (fun _ _ => True) fun p' s'' =>
      ∃ p s', Tried coverage (.leaf col terminal) pool s [.terminal, .universal]
          (pool.isBarren = true) p s'
        ∧ Tried coverage (.leaf col terminal) p s' [.starting]
          (w.length = 1 ∧ w.isPositive = true ∧ ¬ p.derives start = true) p' s'' := by
  have hfirst : Ensures (if pool.isBarren then
        coverFirst coverage (.leaf col terminal) t pool [.terminal, .universal] else pure pool)
      s (fun _ _ => True) (Tried coverage (.leaf col terminal) pool s [.terminal, .universal]
        (pool.isBarren = true)) := by
    split
    · rename_i hbarren
      exact coverFirst_ensures hbarren _
    · exact ensures_pure.mpr (.idle s.generator)
  rw [coverLeaf_eq]
  refine ensures_bind.mpr (hfirst.imp fun p s' h => ?_)
  split
  · rename_i hgap
    exact (coverFirst_ensures hgap _).imp fun p' s'' h' => ⟨p, s', h, h'⟩
  · exact ensures_pure.mpr ⟨p, s', h, .idle s'.generator⟩

/-- What may happen at the cell of a stretch of several symbols. -/
inductive SplitTried (coverage : Coverage α) (start : Symbol) (w : Sentence) (row : Nat)
    (pool : Pool α) (s : Learner α) : Pool α → Learner α → Prop
  | idle (g : Generator) : SplitTried coverage start w row pool s pool { s with generator := g }
  /-- A cell that derives nothing gets a rule at a split that has none. -/
  | barren {p : Pool α} {s' : Learner α} (positive : w.isPositive = true)
      (barren : pool.isBarren = true)
      (done : Covered coverage (.splits pool.unsatisfied.toList) pool s [.aggressive, .full] p s') :
      SplitTried coverage start w row pool s p s'
  /-- The last cell, if it does not derive the starting symbol, gets a rule of that at a split that has
  none. -/
  | gap {p : Pool α} {s' : Learner α} (positive : w.isPositive = true) (top : row + 1 = w.length)
      (unmet : ¬ pool.derives start = true)
      (done : Covered coverage (.splits pool.unsatisfied.toList) pool s [.full] p s') :
      SplitTried coverage start w row pool s p s'
  /-- If all its splits have rules, it gets one at any of them. -/
  | overwrite {p : Pool α} {s' : Learner α} (positive : w.isPositive = true)
      (top : row + 1 = w.length) (unmet : ¬ pool.derives start = true)
      (exhausted : pool.unsatisfied = #[])
      (done : Covered coverage (.splits pool.detectors) pool s [.full] p s') :
      SplitTried coverage start w row pool s p s'

theorem coverSplit_ensures {start : Symbol} {w : Sentence} {row : Nat} :
    Ensures (coverSplit coverage start w t row pool) s (fun _ _ => True)
      (SplitTried coverage start w row pool s) := by
  rw [coverSplit]
  by_cases hpositive : w.isPositive = true
  · rw [if_neg (by simp [hpositive])]
    split
    · rename_i hbarren
      refine (coverFirst_ensures hbarren _).imp fun p s' h => ?_
      cases h with
      | idle g => exact .idle g
      | covered _ done =>
          refine .barren hpositive hbarren (done.mono fun kind hlisted => ?_)
          split at hlisted <;> simpa [or_comm] using hlisted
    · split
      · rename_i hgap
        have htop : row + 1 = w.length := of_decide_eq_true hgap.1
        refine (coverFirst_ensures hgap _).imp fun p s' h => ?_
        cases h with
        | idle g => exact .idle g
        | covered _ done =>
            by_cases hempty : pool.unsatisfied.isEmpty = true
            · rw [if_pos hempty] at done
              exact .overwrite hpositive htop hgap.2 (Array.isEmpty_iff.mp hempty) done
            · rw [if_neg hempty] at done
              exact .gap hpositive htop hgap.2 done
      · exact ensures_pure.mpr (.idle s.generator)
  · rw [if_pos (by simp [hpositive])]
    exact ensures_pure.mpr (.idle s.generator)

theorem coveredPool_zero (coverage : Coverage α) (start : Symbol) {w : Sentence} {col : Nat}
    {terminal : Symbol} {pool : Pool α} (here : w.symbols[col]? = some terminal)
    (hpool : s.population.cellPool w.symbols t 0 col = .ok pool) :
    coveredPool coverage start w t 0 col s = coverLeaf coverage start w t col terminal pool s := by
  unfold coveredPool
  rw [here]
  exact read_bind_apply (x := fun s : Learner α => s.population.cellPool w.symbols t 0 col) hpool _

theorem coveredPool_succ (coverage : Coverage α) (start : Symbol) {w : Sentence} {row col : Nat}
    {pool : Pool α} (hpool : s.population.cellPool w.symbols t (row + 1) col = .ok pool) :
    coveredPool coverage start w t (row + 1) col s
      = coverSplit coverage start w t (row + 1) pool s := by
  unfold coveredPool
  exact read_bind_apply
    (x := fun s : Learner α => s.population.cellPool w.symbols t (row + 1) col) hpool _

/-- What is done at a cell starts from the pool that the population gives it. -/
theorem coveredPool_cases (coverage : Coverage α) (start : Symbol) (s : Learner α) {w : Sentence}
    {row col : Nat} (hlength : t.length = w.length) (inside : row + col < w.length) :
    ∃ pool, s.population.cellPool w.symbols t row col = .ok pool
      ∧ s.population.Fills w.symbols t row col pool
      ∧ ((∃ terminal, row = 0 ∧ w.symbols[col]? = some terminal
          ∧ coveredPool coverage start w t row col s
            = coverLeaf coverage start w t col terminal pool s)
        ∨ 0 < row ∧ coveredPool coverage start w t row col s
            = coverSplit coverage start w t row pool s) := by
  obtain ⟨pool, hpool, hfills⟩ := Population.cellPool_ok (p := s.population) hlength
    (hlength ▸ inside)
  refine ⟨pool, hpool, hfills, ?_⟩
  cases row with
  | zero =>
      obtain ⟨terminal, here⟩ : ∃ a, w.symbols[col]? = some a :=
        ⟨_, List.getElem?_eq_getElem (by rw [← Sentence.length]; omega)⟩
      exact Or.inl ⟨terminal, rfl, here, coveredPool_zero coverage start here hpool⟩
  | succ row => exact Or.inr ⟨Nat.succ_pos row, coveredPool_succ coverage start hpool⟩

/-- The outcome of a parse is that of its table. -/
theorem parse_ensures {w : Sentence} {fault : Fault → Learner α → Prop}
    {post : Table α → Learner α → Prop}
    (hfill : Ensures (Table.fill (coveredPool coverage s.population.limits.start w) w.length) s
      fault post) :
    Ensures (parse coverage w) s fault fun outcome s' =>
      ∃ t, outcome = Parse.ofTable s.population.limits.start w t ∧ post t s' := by
  refine ensures_bind.mpr (ensures_get.mpr (ensures_bind.mpr ?_))
  exact hfill.imp fun t s' h => ensures_pure.mpr ⟨t, rfl, h⟩

end GrammarInduction.Learner
