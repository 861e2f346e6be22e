import GrammarInduction.Proofs.Learning.Linking
import GrammarInduction.Proofs.Learning.Lockstep

/-!
# What a parse has learned is kept

Where the grammar may grow and has room for it, a covering parse inserts rules and removes at most one.
In all cells but the last a rule is made up only for a body that no rule has, so nothing is removed.
In the cell of the whole sentence the full operator may find no such body.  Then it gives the body of
a stored rule to the starting symbol, and cells filled before may have relied on that rule.

* `Learner.Safe` — a cell was filled without the loss of a rule;
* `Learner.Ends` — the last cell was filled;
* `Learner.coveredPool_grown` — every cell is filled in one of these ways;
* `Learner.recognise_of_parse` — so the grammar after an accepting parse recognises the sentence,
  unless it was the last cell that overwrote a rule of a shorter stretch.
-/

namespace GrammarInduction.Learner

open Attempt

variable {α : Type} [Scalar α] {coverage : Coverage α} {w : Sentence} {t u : Table α}
  {row col : Nat} {pool p p' : Pool α} {s s' s'' : Learner α} {start : Symbol}

section Filled

omit [Scalar α]

/-! ## How one cell is filled -/

/-- The rule `r` has lost its body to the starting symbol, for a production of the pool `p`; in a cell
with splits this happens only if all of them have a rule. -/
structure Overwritten (start : Symbol) (row : Nat) (p : Pool α) (s' : Learner α) (r : Rule) : Prop where
  parent : r.parent ≠ start
  owner : s'.population.rules.owner? r.body = some start
  uses : p.Uses ⟨start, r.body⟩
  exhausted : 0 < row → p.unsatisfied = #[]

/-- A cell has been filled with the pool `p`, and the grammar has grown by no more than one rule. -/
structure Grown (w : Sentence) (t : Table α) (row col : Nat) (s : Learner α) (p : Pool α)
    (s' : Learner α) : Prop where
  limits : s'.population.limits = s.population.limits
  count : s'.population.rules.pairCount
    ≤ s.population.rules.pairCount + if row = 0 then 0 else 1
  linked : p.Linked w.symbols t row col

/-- All rules that were stored before, and all rules that the pool uses, are stored. -/
structure Safe (s : Learner α) (p : Pool α) (s' : Learner α) : Prop where
  stays : ∀ r, s.population.rules.contains r = true → s'.population.rules.contains r = true
  backed : ∀ r, p.Uses r → s'.population.rules.contains r = true

/-- If the pool derives the starting symbol it does so by a stored rule, and any rule that was stored
before is stored or has been overwritten. -/
structure Ends (start : Symbol) (w : Sentence) (t : Table α) (row col : Nat) (s : Learner α)
    (p : Pool α) (s' : Learner α) : Prop where
  derived : p.derives start = true →
    ∃ d, t.Sees w.symbols row col d ∧ s'.population.rules.owner? d.body = some start
  lost : ∀ r, s.population.rules.contains r = true →
    s'.population.rules.contains r = true ∨ Overwritten start row p s' r

/-- A cell that is filled without a loss is a last cell as well. -/
theorem Safe.ends (h : Safe s p s') (hlinked : p.Linked w.symbols t row col) :
    Ends start w t row col s p s' := by
  refine ⟨fun hstart => ?_, fun r hr => Or.inl (h.stays r hr)⟩
  obtain ⟨d, r, hsees, huses, rfl, hbody⟩ := hlinked.exists_of_derives hstart
  have howner := RuleSet.contains_iff.mp (h.backed r huses)
  rw [hbody] at howner
  exact ⟨d, hsees, howner⟩

theorem Ends.of_stays (h : Ends start w t row col s' p' s'')
    (hstays : ∀ r, s.population.rules.contains r = true → s'.population.rules.contains r = true) :
    Ends start w t row col s p' s'' :=
  ⟨h.derived, fun r hr => h.lost r (hstays r hr)⟩

/-- A cell that nobody covers is filled without a loss. -/
theorem safe_of_fills (hfills : s.population.Fills w.symbols t row col pool) (g : Generator) :
    Grown w t row col s pool { s with generator := g } ∧ Safe s pool { s with generator := g } :=
  ⟨⟨rfl, Nat.le_add_right _ _, hfills.linked⟩, ⟨fun _ h => h, fun _ h => hfills.stored h⟩⟩

end Filled

/-! ## How a cell is covered -/

/-- All operators let the grammar grow. -/
def Expands (coverage : Coverage α) : Prop := ∀ kind, (coverage.get kind).hint = .expand

section Covered

variable {site : CoverageSite} {kinds : List CoverageKind}

/-- Below the limit the rule of an operator is inserted. -/
theorem Covered.expand (h : Covered coverage site pool s kinds p s') (hexpands : Expands coverage)
    (hroom : s.HasRoom) :
    ∃ kind ∈ kinds, ∃ r d x, Coverage.Invents s.population.limits kind site r d
      ∧ p = pool.add ⟨d, some r, x⟩
      ∧ ∀ b, s'.population.rules.owner? b
        = if b = r.body then some r.parent else s.population.rules.owner? b := by
  cases h with
  | @fired kind r d x g listed invents =>
      refine ⟨kind, listed, r, d, x, invents, rfl, fun b => ?_⟩
      rw [hexpands kind]
      exact owner?_submit_expand (s := { s with generator := g }) hroom r b

/-- Covering a cell grows the grammar, if operators pick what sees the cell. -/
theorem Covered.grown (h : Covered coverage site pool s kinds p s') (hexpands : Expands coverage)
    (hroom : s.HasRoom)
    (hlinked : pool.Linked w.symbols t row col)
    (hsees : ∀ d ∈ site.detectors, t.Sees w.symbols row col d) : Grown w t row col s p s' := by
  have hgrown := h.linked hlinked hsees
  have hlimits := h.limits
  obtain ⟨kind, -, r, d, x, hinvents, rfl, howner⟩ := h.expand hexpands hroom
  have hsees := hsees d hinvents.mem
  refine ⟨hlimits, ?_, hgrown⟩
  refine Nat.le_trans (RuleSet.pairCount_le howner) (Nat.add_le_add_left ?_ _)
  by_cases hrow : row = 0
  · subst hrow
    have hterminal : r.isTerminal = true := by
      rw [Rule.isTerminal, hinvents.body]
      cases hsees with
      | leaf => rfl
      | split hshift => exact absurd hshift (Nat.not_lt_zero _)
    have hnone : (if r.isTerminal then 0 else 1) = 0 := if_pos hterminal
    rw [hnone]
    exact Nat.zero_le _
  · rw [if_neg hrow]
    split <;> omega

/-- Covering a body that no rule has loses nothing. -/
theorem Covered.safe (h : Covered coverage site pool s kinds p s') (hexpands : Expands coverage)
    (hroom : s.HasRoom)
    (hbacked : ∀ r, pool.Uses r → s.population.rules.contains r = true)
    (hfree : ∀ d ∈ site.detectors, s.population.rules.owner? d.body = none) : Safe s p s' := by
  obtain ⟨kind, -, r, d, x, hinvents, rfl, howner⟩ := h.expand hexpands hroom
  have hstays : ∀ r', s.population.rules.contains r' = true →
      s'.population.rules.contains r' = true := by
    intro r' hr'
    rcases RuleSet.contains_or howner hr' with hstored | ⟨hbody, -⟩
    · exact hstored
    · have hnone := hfree d hinvents.mem
      rw [RuleSet.contains_iff, hbody, hinvents.body, hnone] at hr'
      cases hr'
  refine ⟨hstays, fun r' hr' => ?_⟩
  rcases Pool.uses_add.mp hr' with hold | rfl
  · exact hstays r' (hbacked r' hold)
  · rw [RuleSet.contains_iff, howner, if_pos rfl]

/-- Covering a cell by an operator that derives the sentence overwrites at most one rule. -/
theorem Covered.ends (h : Covered coverage site pool s kinds p s') (hexpands : Expands coverage)
    (hroom : s.HasRoom)
    (hstart : s.population.limits.start = start)
    (hkinds : ∀ kind ∈ kinds, kind = .starting ∨ kind = .full)
    (hsees : ∀ d ∈ site.detectors, t.Sees w.symbols row col d)
    (hexhausted : 0 < row → pool.unsatisfied = #[]) : Ends start w t row col s p s' := by
  obtain ⟨kind, hlisted, r, d, x, hinvents, rfl, howner⟩ := h.expand hexpands hroom
  have hparent : r.parent = start := (hinvents.start (hkinds kind hlisted)).trans hstart
  refine ⟨fun _ => ⟨d, hsees d hinvents.mem, ?_⟩, fun r' hr' => ?_⟩
  · rw [howner, ← hinvents.body, if_pos rfl, hparent]
  · rcases RuleSet.contains_or howner hr' with hstored | ⟨hbody, hother⟩
    · exact Or.inl hstored
    · refine Or.inr ⟨hparent ▸ hother, ?_, ?_, fun hrow => ?_⟩
      · rw [howner, if_pos hbody, hparent]
      · refine Pool.uses_add.mpr (Or.inr ?_)
        rw [hbody, ← hparent]
      · rw [Pool.unsatisfied_add, if_neg (by simp [Production.parent?])]
        exact hexhausted hrow

end Covered

/-- A cell has been filled without the loss of a rule, or it is the last one. -/
def Filled (start : Symbol) (w : Sentence) (t : Table α) (row col : Nat) (s : Learner α)
    (p : Pool α) (s' : Learner α) : Prop :=
  Grown w t row col s p s' ∧ (Safe s p s' ∨ row + 1 = w.length ∧ Ends start w t row col s p s')

/-- The cell of a terminal: first its own rule, then that of a sentence of one symbol. -/
theorem coverLeaf_filled {terminal : Symbol} (hexpands : Expands coverage) (hroom : s.HasRoom)
    (hstart : s.population.limits.start = start) (here : w.symbols[col]? = some terminal)
    (hfills : s.population.Fills w.symbols t 0 col pool) :
    Ensures (coverLeaf coverage start w t col terminal pool) s (fun _ _ => True)
      (Filled start w t 0 col s) := by
  have hsees := sees_leaf (t := t) here
  refine coverLeaf_ensures.imp fun p' s'' h => ?_
  obtain ⟨p, s', hfirst, hsecond⟩ := h
  have hfilled : Grown w t 0 col s p s' ∧ Safe s p s' := by
    cases hfirst with
    | idle g => exact safe_of_fills hfills g
    | covered hbarren done =>
        refine ⟨done.grown hexpands hroom hfills.linked hsees, ?_⟩
        refine done.safe hexpands hroom (fun _ => hfills.stored) fun d hd => ?_
        exact hfills.owner?_eq_none hbarren (hsees d hd)
  obtain ⟨hgrown, hsafe⟩ := hfilled
  cases hsecond with
  | idle g => exact ⟨⟨hgrown.limits, hgrown.count, hgrown.linked⟩, Or.inl ⟨hsafe.stays, hsafe.backed⟩⟩
  | covered hgap done =>
      -- The rule of a terminal takes no room, so there is still room for the second step.
      have hlimits := hgrown.limits
      have hcount := hgrown.count
      have hroom' : s'.HasRoom := by
        rw [HasRoom, hlimits]
        exact Nat.lt_of_le_of_lt hcount hroom
      have hgrown' := done.grown hexpands hroom' hgrown.linked hsees
      refine ⟨⟨hgrown'.limits.trans hlimits, ?_, hgrown'.linked⟩, Or.inr ⟨hgap.1.symm, ?_⟩⟩
      · exact Nat.le_trans hgrown'.count hcount
      · refine (done.ends hexpands hroom' (hlimits ▸ hstart) (by simp) hsees ?_).of_stays hsafe.stays
        exact fun hrow => absurd hrow (Nat.lt_irrefl 0)

/-- The cell of a stretch of several symbols.  Only where all its splits have a rule, and it is the
last cell, a rule may be overwritten. -/
theorem coverSplit_filled (hexpands : Expands coverage) (hroom : s.HasRoom)
    (hstart : s.population.limits.start = start)
    (hfills : s.population.Fills w.symbols t row col pool) :
    Ensures (coverSplit coverage start w t row pool) s (fun _ _ => True)
      (Filled start w t row col s) := by
  have hunsatisfied : ∀ {kinds : List CoverageKind} {p : Pool α} {s' : Learner α},
      Covered coverage (.splits pool.unsatisfied.toList) pool s kinds p s' →
      Filled start w t row col s p s' := by
    intro kinds p s' done
    refine ⟨done.grown hexpands hroom hfills.linked (sees_unsatisfied hfills), Or.inl ?_⟩
    refine done.safe hexpands hroom (fun _ => hfills.stored) fun d hd => ?_
    exact (hfills.of_mem_unsatisfied (Array.mem_toList_iff.mp hd)).2
  refine coverSplit_ensures.imp fun p s' h => ?_
  cases h with
  | idle g =>
      obtain ⟨hgrown, hsafe⟩ := safe_of_fills hfills g
      exact ⟨hgrown, Or.inl hsafe⟩
  | barren _ _ done => exact hunsatisfied done
  | gap _ _ _ done => exact hunsatisfied done
  | overwrite _ htop _ hexhausted done =>
      have hsees : ∀ d ∈ pool.detectors, t.Sees w.symbols row col d :=
        fun d hd => hfills.sees_of_mem_detectors hd
      refine ⟨done.grown hexpands hroom hfills.linked hsees, Or.inr ⟨htop, ?_⟩⟩
      exact done.ends hexpands hroom hstart (by simp) hsees fun _ => hexhausted

/-- Every cell is filled without the loss of a rule, or it is the last one. -/
theorem coveredPool_filled (hexpands : Expands coverage) (hroom : s.HasRoom)
    (hstart : s.population.limits.start = start) (hlength : t.length = w.length)
    (inside : row + col < w.length) :
    Ensures (coveredPool coverage start w t row col) s (fun _ _ => True)
      (Filled start w t row col s) := by
  obtain ⟨pool, -, hfills, ⟨terminal, rfl, here, hcell⟩ | ⟨-, hcell⟩⟩ :=
    coveredPool_cases coverage start s hlength inside
  · exact (ensures_congr hcell).mpr (coverLeaf_filled hexpands hroom hstart here hfills)
  · exact (ensures_congr hcell).mpr (coverSplit_filled hexpands hroom hstart hfills)

/-! ## The whole parse -/

/-- Where a parse from `s` has come to when the cells of `done` are filled.  Their productions are
linked, and the rules used in them are stored, unless the last cell has overwritten one. -/
structure Keeps (start : Symbol) (w : Sentence) (s : Learner α) (done : List (Nat × Nat))
    (t : Table α) (s' : Learner α) : Prop where
  limits : s'.population.limits = s.population.limits
  count : s'.population.rules.pairCount ≤ s.population.rules.pairCount + done.length
  linked : t.LinkedOn w.symbols done
  stored : ∀ {row col}, (row, col) ∈ done → row + 1 < w.length →
    ∀ r, (t.poolAt row col).Uses r → s'.population.rules.contains r = true
      ∨ Overwritten start (w.length - 1) (t.poolAt (w.length - 1) 0) s' r
        ∧ (w.length - 1, 0) ∈ done
  last : (w.length - 1, 0) ∈ done → (t.poolAt (w.length - 1) 0).derives start = true →
    ∃ d, t.Sees w.symbols (w.length - 1) 0 d
      ∧ s'.population.rules.owner? d.body = some start

omit [Scalar α] in
/-- With no cell filled there is nothing to keep. -/
theorem Keeps.blank : Keeps start w s [] t s :=
  ⟨rfl, Nat.le_add_right _ _, fun hmem => (nomatch hmem), fun hmem => (nomatch hmem),
    fun hmem => (nomatch hmem)⟩

omit [Scalar α] in
/-- Filling one more cell keeps what has been learned. -/
theorem Keeps.written {done : List (Nat × Nat)} (h : Keeps start w s done t s')
    (hnow : Table.Turn w.length done row col) (hlength : t.length = w.length)
    (hp : Filled start w t row col s' p s'') (hu : Table.Written t row col p u) :
    Keeps start w s (done ++ [(row, col)]) u s'' := by
  have inside := hnow.inside
  -- No cell has its turn after the last one, so up to now nothing has been overwritten.
  have hlast := hnow.last_not_mem_done
  obtain ⟨hgrown, hsafe⟩ := hp
  have hlinked : t.LinkedOn w.symbols done := fun hmem => h.linked hmem
  refine ⟨hgrown.limits.trans h.limits, ?_, hlinked.written hnow hlength hgrown.linked hu, ?_, ?_⟩
  · have hcount := hgrown.count
    have hbefore := h.count
    rw [List.length_append, List.length_singleton]
    split at hcount <;> omega
  · intro row' col' hmem hbelow r hr
    rcases List.mem_append.mp hmem with hdone | hself
    · rw [hnow.poolAt_of_mem_done hlength hu hdone] at hr
      have hstored := (h.stored hdone hbelow r hr).resolve_right fun hover => hlast hover.2
      rcases hsafe with hsafe | ⟨htop, hends⟩
      · exact Or.inl (hsafe.stays r hstored)
      · have hplace : (row, col) = (w.length - 1, 0) := by
          rw [Prod.mk.injEq]
          omega
        cases hplace
        rw [hu.self]
        exact (hends.lost r hstored).imp_right fun hover =>
          ⟨hover, List.mem_append_right _ (List.mem_singleton_self _)⟩
    · cases List.mem_singleton.mp hself
      rw [hu.self] at hr
      rcases hsafe with hsafe | ⟨htop, -⟩
      · exact Or.inl (hsafe.backed r hr)
      · omega
  · intro hmem hstart
    rcases List.mem_append.mp hmem with hdone | hself
    · exact absurd hdone hlast
    · cases List.mem_singleton.mp hself
      rw [hu.self] at hstart
      have hends : Ends start w t (w.length - 1) 0 s' p s'' :=
        hsafe.elim (fun hsafe => hsafe.ends hgrown.linked) fun hends => hends.2
      obtain ⟨d, hsees, howner⟩ := hends.derived hstart
      exact ⟨d, hsees.written hu (Nat.le_refl _) (hlength ▸ inside), howner⟩

omit [Scalar α] in
/-- As long as there is a cell yet to be filled there is room for a rule. -/
theorem Keeps.hasRoom {done : List (Nat × Nat)} (h : Keeps start w s done t s')
    (hnow : Table.Turn w.length done row col)
    (hroom : s.population.rules.pairCount + w.length * (w.length + 1) / 2
      ≤ s.population.limits.pairRuleLimit) : s'.HasRoom := by
  have hcount := h.count
  have hcells := hnow.length_lt
  rw [HasRoom, h.limits]
  omega

theorem fill_keeps (hexpands : Expands coverage)
    (hroom : s.population.rules.pairCount + w.length * (w.length + 1) / 2
      ≤ s.population.limits.pairRuleLimit) :
    Ensures (Table.fill (coveredPool coverage s.population.limits.start w) w.length) s
      (fun _ _ => True) fun t s' => t.length = w.length
        ∧ Keeps s.population.limits.start w s (Table.coordinates w.length) t s' := by
  refine Table.fill_ensures (Keeps s.population.limits.start w s) ?_ ?_
  · exact .blank
  · intro done row col t s' hnow hlength hkeeps
    have hlimits := hkeeps.limits
    have hroom' := hkeeps.hasRoom hnow hroom
    refine (coveredPool_filled hexpands hroom' (by rw [hlimits]) hlength hnow.inside).imp ?_
    exact fun p s'' hp u hu => hkeeps.written hnow hlength hp hu

/-- The rule `r`, by which a stretch shorter than the sentence was derived in a parse, has lost its body
to the starting symbol in the cell of the whole sentence, of which every split had a rule. -/
structure Forgotten (w : Sentence) (outcome : Parse α) (s' : Learner α) (r : Rule) : Prop where
  below : ∃ row col pool, row + 1 < w.length ∧ outcome.table.cell row col = .ok pool ∧ pool.Uses r
  parent : r.parent ≠ s'.population.limits.start
  owner : s'.population.rules.owner? r.body = some s'.population.limits.start
  last : ∃ pool, outcome.table.top? = some pool ∧ pool.unsatisfied = #[]
    ∧ pool.Uses ⟨s'.population.limits.start, r.body⟩

/-- **What a parse has learned is kept**, or overwritten by its own last step.  Where every operator
lets the grammar grow and there is room for a rule in every cell, the grammar after an accepting parse
recognises the sentence, unless the full operator has given the body of a rule that a shorter stretch
relies on to the starting symbol. -/
theorem recognise_of_parse (hexpands : Expands coverage)
    (hroom : s.population.rules.pairCount + w.length * (w.length + 1) / 2
      ≤ s.population.limits.pairRuleLimit) {outcome : Parse α}
    (hrun : parse coverage w s = (.ok outcome, s')) (haccepted : outcome.accepted = true) :
    ∃ again, s'.population.recognise w = .ok again
      ∧ (again.accepted = true ∨ ∃ r, Forgotten w outcome s' r) := by
  obtain ⟨t, rfl, hlength, hkeeps⟩ := (parse_ensures (fill_keeps hexpands hroom)).of_ok hrun
  obtain ⟨hsome, hstart⟩ := (Parse.accepted_ofTable hlength).mp haccepted
  have hpos : 0 < w.length := List.length_pos_iff.mpr hsome
  obtain ⟨again, hagain, -, -, hderives⟩ := s'.population.exists_recognise w
  refine ⟨_, hagain, ?_⟩
  rw [hderives, hkeeps.limits]
  have hmem : ∀ {row col}, row + col < w.length → (row, col) ∈ Table.coordinates w.length :=
    Table.mem_coordinates.mpr
  -- Either all rules of the shorter stretches are still stored, or one of them has been overwritten.
  by_cases hall : ∀ row col, row + 1 < w.length → row + col < w.length →
      ∀ r, (t.poolAt row col).Uses r → s'.population.rules.contains r = true
  · refine Or.inl ?_
    obtain ⟨d, hsees, howner⟩ := hkeeps.last (hmem (by omega)) hstart
    rw [← stretch_top hsome]
    refine hsees.derives (fun {row col} hrow hinside y hy => ?_) howner
    refine Table.derives_of_linked (k := w.length - 1) (n := w.length) ?_ ?_ hrow
      (by omega) hy
    · exact fun _ hinside => hkeeps.linked (hmem hinside)
    · exact fun hrow hinside => hall _ _ (by omega) hinside
  · refine Or.inr ?_
    simp only [Classical.not_forall] at hall
    obtain ⟨row, col, hbelow, hinside, r, huses, hgone⟩ := hall
    obtain ⟨hover, -⟩ := (hkeeps.stored (hmem hinside) hbelow r huses).resolve_left hgone
    refine ⟨r, ⟨row, col, _, hbelow, Table.cell_eq_poolAt (hlength ▸ hinside), huses⟩, ?_, ?_, ?_⟩
    · rw [hkeeps.limits]
      exact hover.parent
    · rw [hkeeps.limits]
      exact hover.owner
    · have htop : t.top? = some (t.poolAt (w.length - 1) 0) := by
        rw [← hlength]
        exact Table.top?_eq_poolAt (by omega)
      refine ⟨_, htop, hover.exhausted (by omega), ?_⟩
      rw [hkeeps.limits]
      exact hover.uses

/-- The standard settings keep a sentence that they have learned from no rule at all. -/
theorem recognise_of_parse_standard :
    ∃ (outcome again : Parse Float) (s' : Learner Float),
      Expands (Coverage.standard : Coverage Float)
        ∧ parse .standard ⟨[-1, -2], .positive⟩
          (ofPopulation (.ofRules .standard []) .usage (.standard .standard 10) (.ofSeed 7))
          = (.ok outcome, s')
        ∧ outcome.accepted = true
        ∧ s'.population.recognise ⟨[-1, -2], .positive⟩ = .ok again
        ∧ (again.accepted = true ∨ ∃ r, Forgotten ⟨[-1, -2], .positive⟩ outcome s' r) := by
  have hexpands : Expands (Coverage.standard : Coverage Float) := by
    intro kind
    cases kind <;> rfl
  obtain ⟨outcome, s', hrun, haccepted⟩ := exists_ok_of_check (fun outcome _ => outcome.accepted)
    (m := parse (.standard : Coverage Float) ⟨[-1, -2], .positive⟩)
    (s := ofPopulation (.ofRules .standard []) .usage (.standard .standard 10) (.ofSeed 7))
    (by decide +kernel)
  obtain ⟨again, hagain, hkept⟩ :=
    recognise_of_parse hexpands (by decide +kernel) hrun haccepted
  exact ⟨outcome, again, s', hexpands, hrun, haccepted, hagain, hkept⟩

/-! ## A sentence that is forgotten -/

/-- The last cell may overwrite what the sentence was derived with.  Here symbol two derives every
sentence of one terminal and symbol one derives none; the pair rule of two is given to one, and with it
goes the pair that the rest of the derivation needs. -/
theorem not_recognise_of_parse :
    ¬ ∀ (coverage : Coverage Float) (w : Sentence) (s s' : Learner Float) (outcome : Parse Float),
      s.Mirrors → w.isPositive = true → Expands coverage →
      s.population.rules.pairCount + w.length * (w.length + 1) / 2
        ≤ s.population.limits.pairRuleLimit →
      parse coverage w s = (.ok outcome, s') → outcome.accepted = true →
      ∃ again, s'.population.recognise w = .ok again ∧ again.accepted = true := by
  intro hrecognises
  have hexpands : Expands { (Coverage.disabled : Coverage Float) with full := .always } := by
    intro kind
    cases kind <;> rfl
  obtain ⟨outcome, s', hrun, hcheck⟩ := exists_ok_of_check
    (fun outcome s' => outcome.accepted
      && match s'.population.recognise ⟨[-1, -1, -1], .positive⟩ with
        | .ok again => !again.accepted
        | .error _ => false)
    (m := parse { (Coverage.disabled : Coverage Float) with full := .always }
      ⟨[-1, -1, -1], .positive⟩)
    (s := ofPopulation (.ofRules .standard [.pair 2 2 2, .terminal 2 (-1)]) .usage
      (.standard .standard 10) (.ofSeed 0)) (by decide +kernel)
  rw [Bool.and_eq_true] at hcheck
  obtain ⟨again, hagain, hagain'⟩ := hrecognises _ _ _ s' outcome (mirrors_ofPopulation _ _ _ _) rfl hexpands
    (by decide +kernel) hrun hcheck.1
  rw [hagain] at hcheck
  simp [hagain'] at hcheck

end GrammarInduction.Learner
