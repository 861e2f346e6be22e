import GrammarInduction.Proofs.Breeding.Offspring
import GrammarInduction.Proofs.Learning.Correction
import GrammarInduction.Proofs.Learning.Course

/-!
# A run keeps to its symbols

Rules come into a grammar from many sides: at random, by five operators of coverage, two of which copy
symbols out of a table whose rules may have left the grammar since, and by mutation and crossover.  None of
them leaves the symbols in range and the terminals of the sentences.  For a table this rests on its cells:
whatever has become of the grammar, they derive symbols in range only.

* `Learner.Confined` — a learner whose rules are admitted;
* `Learner.Confined.submit` — a submission brings in the newcomer and nothing else;
* `Learner.coveredPool_confined` — coverage makes up admitted rules, and cells that derive symbols in range;
* `Run.passes_confined` — so everything that a run comes by is confined.
-/

namespace GrammarInduction

open Attempt Draw

variable {α : Type} [Scalar α] {l : Limits} {sentences : List Sentence}

namespace Learner

variable {coverage : Coverage α} {w : Sentence} {t : Table α} {row col : Nat} {pool p : Pool α}
  {s s' : Learner α} {start : Symbol} {site : CoverageSite} {kinds : List CoverageKind}
  {done : List (Nat × Nat)}

/-! ## Submissions -/

/-- Settling brings in the newcomer and nothing else. -/
theorem contains_of_settle {r q : Rule} {old? : Option Rule}
    (h : (settle r old? s).2.population.contains q = true) : q = r ∨ s.population.contains q = true := by
  cases old? with
  | none => exact (Population.contains_insertWithWeight.mp h).imp_right And.left
  | some old =>
      refine (Population.contains_insertWithWeight.mp h).imp_right fun hstored => ?_
      exact (Population.contains_erase.mp hstored.1).1

/-- A submission brings in the newcomer and nothing else. -/
theorem contains_of_submit {r q : Rule} {hint : Hint}
    (h : (submit r hint s).2.population.contains q = true) :
    q = r ∨ s.population.contains q = true := by
  cases hnew : s.population.contains r with
  | true =>
      rw [submit_stored hnew] at h
      exact Or.inr h
  | false =>
      rcases exists_settle_of_submit hnew hint with ⟨e, -, hsubmit⟩
        | ⟨old?, elite, g, s', rfl, hsubmit, -⟩
      · rw [hsubmit] at h
        exact Or.inr h
      · rw [hsubmit] at h
        exact (contains_of_settle h :)

/-- The learner has the given limits, and all its rules are admitted. -/
structure Confined (l : Limits) (sentences : List Sentence) (s : Learner α) : Prop where
  limits : s.population.limits = l
  rules : s.population.rules.Confined l sentences

omit [Scalar α] in
theorem Confined.congr (h : s.Confined l sentences) (hpopulation : s'.population = s.population) :
    s'.Confined l sentences := by
  constructor
  · rw [hpopulation]
    exact h.limits
  · rw [hpopulation]
    exact h.rules

theorem Confined.submit (h : s.Confined l sentences) {r : Rule} (hr : l.Admits sentences r)
    (hint : Hint) : (submit r hint s).2.Confined l sentences := by
  refine ⟨(limits_submit r hint s).trans h.limits, fun q hq => ?_⟩
  rcases contains_of_submit hq with rfl | hold
  · exact hr
  · exact h.rules q hold

theorem Confined.submitAll (h : s.Confined l sentences) {rules : List Rule}
    (hrules : ∀ r ∈ rules, l.Admits sentences r) (hint : Hint) (report : BreedingReport) :
    (submitAll hint rules report s).2.Confined l sentences := by
  induction rules generalizing s report with
  | nil => exact h
  | cons r rules ih =>
      rw [List.forall_mem_cons] at hrules
      have hfirst := h.submit hrules.1 hint
      unfold Learner.submitAll
      rw [bind_apply]
      rcases hsubmit : Learner.submit r hint s with ⟨ending, t⟩
      rw [hsubmit] at hfirst
      cases ending with
      | ok outcome => exact ih hfirst hrules.2 _
      | error e => exact hfirst

/-! ## Coverage of one cell -/

/-- A cell has been filled: the learner is confined, and the cell derives symbols in range. -/
structure FilledWithin (l : Limits) (sentences : List Sentence) (p : Pool α) (s : Learner α) :
    Prop where
  confined : s.Confined l sentences
  inRange : ∀ x, p.derives x = true → l.InRange x

/-- The rule that an operator makes up is admitted, if the detector that it picks is. -/
theorem admits_of_invents {kind : CoverageKind} {r : Rule} {d : Detector} (hl : l.Sound)
    (h : Coverage.Invents l kind site r d) (hd : l.AdmitsBody sentences d.body) :
    l.Admits sentences r := by
  refine ⟨?_, h.body ▸ hd⟩
  cases kind with
  | terminal => exact h.inRange (Or.inl rfl) hl.symbols
  | universal => exact hl.universal _ (h.universal rfl)
  | starting => exact h.start (Or.inl rfl) ▸ hl.start
  | aggressive => exact h.inRange (Or.inr rfl) hl.symbols
  | full => exact h.start (Or.inr rfl) ▸ hl.start

omit [Scalar α] in
/-- The pool that a confined grammar gives a cell derives symbols in range. -/
theorem Confined.filledWithin (h : s.Confined l sentences)
    (hfills : s.population.Fills w.symbols t row col pool) : FilledWithin l sentences pool s := by
  refine ⟨h, fun x hx => ?_⟩
  obtain ⟨d, -, howner⟩ := (hfills.derives_iff x).mp hx
  exact (h.rules ⟨x, d.body⟩ (RuleSet.contains_iff.mpr howner)).parent

/-- A cell that is covered for admitted bodies is filled with symbols in range. -/
theorem Covered.filledWithin (h : Covered coverage site pool s kinds p s') (hl : l.Sound)
    (hs : FilledWithin l sentences pool s)
    (hsite : ∀ d ∈ site.detectors, l.AdmitsBody sentences d.body) :
    FilledWithin l sentences p s' := by
  cases h with
  | @fired kind r d x g listed invents =>
      rw [hs.confined.limits] at invents
      have hadmits := admits_of_invents hl invents (hsite d invents.mem)
      have hdrawn : ({ s with generator := g } : Learner α).Confined l sentences :=
        hs.confined.congr rfl
      refine ⟨hdrawn.submit hadmits _, fun y hy => ?_⟩
      rcases (Pool.derives_add ..).mp hy with hold | hnew
      · exact hs.inRange y hold
      · cases hnew
        exact hadmits.parent

theorem Tried.filledWithin {condition : Prop} (h : Tried coverage site pool s kinds condition p s')
    (hl : l.Sound) (hs : FilledWithin l sentences pool s)
    (hsite : ∀ d ∈ site.detectors, l.AdmitsBody sentences d.body) :
    FilledWithin l sentences p s' := by
  cases h with
  | idle g => exact ⟨hs.confined.congr rfl, hs.inRange⟩
  | covered _ done => exact done.filledWithin hl hs hsite

theorem SplitTried.filledWithin (h : SplitTried coverage start w row pool s p s') (hl : l.Sound)
    (hs : FilledWithin l sentences pool s)
    (hfills : s.population.Fills w.symbols t row col pool)
    (hsees : ∀ d, t.Sees w.symbols row col d → l.AdmitsBody sentences d.body) :
    FilledWithin l sentences p s' := by
  obtain ⟨site, kinds, hpicked, htried⟩ := h.tried hfills
  exact htried.filledWithin hl hs fun d hd => hsees d (hpicked d hd)

/-! ## Coverage of a table -/

/-- The cells that have been filled derive symbols in range. -/
def InRangeOn (l : Limits) (done : List (Nat × Nat)) (t : Table α) : Prop :=
  ∀ {row col}, (row, col) ∈ done → ∀ x, (t.poolAt row col).derives x = true → l.InRange x

omit [Scalar α] in
/-- What a detector sees in a cell is a terminal of the sentence, or two symbols derived before. -/
theorem admitsBody_of_sees (hw : w ∈ sentences) (hnow : Table.Turn w.length done row col)
    (hdone : InRangeOn l done t) {d : Detector} (hd : t.Sees w.symbols row col d) :
    l.AdmitsBody sentences d.body := by
  have hinside := hnow.inside
  cases hd with
  | leaf here => exact ⟨w, hw, List.mem_of_getElem? here⟩
  | split inside left right =>
      refine ⟨hdone (hnow.mem_done_of_lt inside (by omega)) _ left, ?_⟩
      exact hdone (hnow.mem_done_of_lt (by omega) (by omega)) _ right

/-- **Coverage makes up admitted rules**, and cells that derive symbols in range. -/
theorem coveredPool_confined (hl : l.Sound) (hw : w ∈ sentences)
    (hnow : Table.Turn w.length done row col) (hlength : t.length = w.length)
    (hdone : InRangeOn l done t) (hs : s.Confined l sentences) :
    Ensures (coveredPool coverage start w t row col) s (fun _ _ => True)
      (FilledWithin l sentences) := by
  have hsees := fun d (hd : t.Sees w.symbols row col d) => admitsBody_of_sees hw hnow hdone hd
  obtain ⟨pool, -, hfills, ⟨terminal, rfl, here, hcell⟩ | ⟨-, hcell⟩⟩ :=
    coveredPool_cases coverage start s hlength hnow.inside
  · refine (ensures_congr hcell).mpr (coverLeaf_ensures.imp fun p' s'' h => ?_)
    obtain ⟨p, s', hfirst, hsecond⟩ := h
    have hleaf := fun d hd => hsees d (sees_leaf here d hd)
    exact hsecond.filledWithin hl (hfirst.filledWithin hl (hs.filledWithin hfills) hleaf) hleaf
  · refine (ensures_congr hcell).mpr (coverSplit_ensures.imp fun p s' h => ?_)
    exact h.filledWithin hl (hs.filledWithin hfills) hfills hsees

/-- Whatever cells have been filled, the learner is confined, and they derive symbols in range. -/
theorem fillCells_confined (hl : l.Sound) (hw : w ∈ sentences) (hs : s.Confined l sentences)
    {rest : List (Nat × Nat)} (hsplit : Table.coordinates w.length = done ++ rest) :
    Ensures (Table.fillCells (coveredPool coverage start w) done (.blank w.length)) s
      (fun _ _ => True) fun t s' =>
        t.length = w.length ∧ s'.Confined l sentences ∧ InRangeOn l done t := by
  have hall : Table.coordinates w.length = [] ++ (done ++ rest) := hsplit
  refine Table.fillCells_ensures
    (fun done t (s' : Learner α) => s'.Confined l sentences ∧ InRangeOn l done t) ?_ hall rfl rfl
    ⟨hs, fun hmem => nomatch hmem⟩
  intro done row col t s' hnow hlength _ hbefore
  obtain ⟨hs', hdone⟩ := hbefore
  refine (coveredPool_confined hl hw hnow hlength hdone hs').imp fun p s'' hp u hu => ?_
  refine ⟨hp.confined, fun {row' col'} hmem => ?_⟩
  exact hnow.forall_written (P := fun _ _ p => ∀ x, p.derives x = true → l.InRange x) hlength hu
    (fun hmem => hdone hmem) hp.inRange hmem

theorem parse_confined (hl : l.Sound) (hw : w ∈ sentences) (hs : s.Confined l sentences) :
    Ensures (parse coverage w) s (fun _ _ => True) fun _ s' => s'.Confined l sentences := by
  have hsplit : Table.coordinates w.length = Table.coordinates w.length ++ [] :=
    (List.append_nil _).symm
  refine (parse_ensures (fillCells_confined hl hw hs hsplit)).imp fun outcome s' h => ?_
  obtain ⟨-, -, -, hs', -⟩ := h
  exact hs'

/-- Nothing that is come by while a cell is covered leaves the symbols. -/
theorem CoverPasses.confined (h : CoverPasses coverage start w t row col s s') (hl : l.Sound)
    (hw : w ∈ sentences) (hnow : Table.Turn w.length done row col) (hlength : t.length = w.length)
    (hdone : InRangeOn l done t) (hs : s.Confined l sentences) : s'.Confined l sentences := by
  cases h with
  | turn => exact hs
  | @again terminal pool p _ leaf here given barren ran =>
      subst leaf
      obtain ⟨pool', hpool', hfills⟩ := Population.cellPool_ok (p := s.population) hlength
        (hlength ▸ hnow.inside)
      rw [given] at hpool'
      cases hpool'
      have htried := (coverFirst_ensures barren _).of_ok ran
      refine (htried.filledWithin hl (hs.filledWithin hfills) fun d hd => ?_).confined
      exact admitsBody_of_sees hw hnow hdone (sees_leaf here d hd)
  | covered ran => exact ((coveredPool_confined hl hw hnow hlength hdone hs).of_ok ran).confined

theorem ParsePasses.confined (h : ParsePasses coverage w s s') (hl : l.Sound) (hw : w ∈ sentences)
    (hs : s.Confined l sentences) : s'.Confined l sentences := by
  cases h with
  | cell turn filled within =>
      obtain ⟨rest, hsplit⟩ := turn
      obtain ⟨hlength, hs₁, hdone⟩ := (fillCells_confined hl hw hs hsplit).of_ok filled
      exact within.confined hl hw ⟨rest, hsplit⟩ hlength hdone hs₁
  | parsed ran => exact (parse_confined hl hw hs).of_ok ran

/-! ## Breeding -/

/-- The offspring of a confined grammar is admitted. -/
theorem offspring_confined {plan : BreedingPlan α} (hl : l.Sound) (hs : s.Confined l sentences)
    {selected offspring : List Rule} {s₁ s₂ s₃ : Learner α}
    (picked : attempt (selectAll s.statistics.fitness s.population.rules.pairRules plan.selectors) s
      = (.ok selected, s₁))
    (renewed : renewElite s₁ = (.ok (), s₂))
    (changed : attempt (applyStages s.population.limits plan.stages selected) s₂
      = (.ok offspring, s₃)) :
    s₃.Confined l sentences ∧ ∀ r ∈ offspring, l.Admits sentences r := by
  have hpicked : Ensures
      (attempt (selectAll s.statistics.fitness s.population.rules.pairRules plan.selectors)) s
      (fun _ _ => True) fun selected s₁ =>
        s₁.population = s.population ∧ ∀ r ∈ selected, l.Admits sentences r := by
    refine ensures_attempt.mpr ((selectAll_ensures ..).imp fun selected g hselected => ⟨rfl, ?_⟩)
    intro r hr
    obtain ⟨hstored, -⟩ := RuleSet.mem_pairRules.mp (hselected r hr)
    exact hs.rules r (RuleSet.contains_iff.mpr (RuleSet.mem_rules.mp hstored))
  obtain ⟨hpopulation, hselected⟩ := hpicked.of_ok picked
  have hchanged : Ensures (attempt (applyStages s.population.limits plan.stages selected))
      s₂ (fun _ _ => True) fun offspring s₃ =>
        s₃.population = s.population ∧ ∀ r ∈ offspring, l.Admits sentences r := by
    rw [hs.limits]
    refine ensures_attempt.mpr ((applyStages_ensures hl _ hselected).imp fun offspring g h => ⟨?_, h⟩)
    exact (population_renewElite renewed).trans hpopulation
  obtain ⟨hpopulation', hoffspring⟩ := hchanged.of_ok changed
  exact ⟨hs.congr hpopulation', hoffspring⟩

theorem BreedPasses.confined {plan : BreedingPlan α} (h : BreedPasses plan s s') (hl : l.Sound)
    (hs : s.Confined l sentences) : s'.Confined l sentences := by
  cases h with
  | submitting report picked renewed changed =>
      obtain ⟨hs₃, hoffspring⟩ := offspring_confined hl hs picked renewed changed
      exact hs₃.submitAll (fun r hr => hoffspring r (List.mem_append_left _ hr)) _ report

theorem breed_confined {plan : BreedingPlan α} (hl : l.Sound) (hs : s.Confined l sentences) :
    Ensures (breed plan) s (fun _ _ => True) fun _ s' => s'.Confined l sentences := by
  unfold breed
  refine ensures_bind.mpr (ensures_get.mpr ?_)
  dsimp only
  split
  · exact ensures_pure.mpr hs
  · refine ensures_bind.mpr ((ensures_self _ s).imp fun selected s₁ picked => ?_)
    refine ensures_bind.mpr ((ensures_self _ s₁).imp fun _ s₂ renewed => ?_)
    refine ensures_bind.mpr ((ensures_self _ s₂).imp fun offspring s₃ changed => ?_)
    obtain ⟨hs₃, hoffspring⟩ := offspring_confined hl hs picked renewed changed
    refine (ensures_self _ s₃).imp fun report s' submitted => ?_
    rw [show s' = _ from (congrArg Prod.snd submitted).symm]
    exact hs₃.submitAll hoffspring _ _

end Learner

namespace Run

open Learner

variable {variant : Variant} {settings : Settings α} {step : Nat} {series : Series α}
  {s s' : Learner α} {around : Surroundings} {seed : UInt64}

/-! ## One generation -/

/-- A correction removes rules and brings in none. -/
theorem correct_confined (hs : s.Confined l sentences) : s.correct.2.Confined l sentences :=
  ⟨(limits_correct s).trans hs.limits, hs.rules.mono fun _ => contains_of_correct⟩

theorem prepare_confined (hs : s.Confined l sentences) :
    (prepare settings step s).Confined l sentences := by
  unfold prepare
  dsimp only
  split
  · exact (correct_confined hs).congr rfl
  · exact hs.congr rfl

theorem score_confined (hs : s.Confined l sentences) : (score variant s).Confined l sentences := by
  constructor
  · rw [limits_score]
    exact hs.limits
  · rw [rules_score]
    exact hs.rules

theorem pass_confined {coverage : Coverage α} (hl : l.Sound) {ws : List Sentence}
    (hws : ∀ w ∈ ws, w ∈ sentences) (hs : s.Confined l sentences) (tally : Tally) :
    Ensures (pass variant coverage ws tally) s (fun _ _ => True) fun _ s' =>
      s'.Confined l sentences := by
  induction ws generalizing s tally with
  | nil => exact ensures_pure.mpr hs
  | cons w ws ih =>
      rw [List.forall_mem_cons] at hws
      refine ensures_bind.mpr (ensures_bind.mpr ((ensures_self _ s).imp fun parse s₁ hparse => ?_))
      have hs₁ := (parse_confined hl hws.1 hs).of_ok hparse
      have huses := variant.recordUsage_ensures (.covered hparse) s₁
      refine ensures_bind.mpr (huses.mono (fun _ _ h => h.elim) fun _ s₂ hpopulation => ?_)
      exact ensures_of_except (fun _ _ => trivial) fun _ _ => ih hws.2 (hs₁.congr hpopulation) _

theorem generation_confined (hl : l.Sound) (hs : s.Confined l sentences) :
    Ensures (generation variant settings sentences step series) s (fun _ _ => True) fun _ s' =>
      s'.Confined l sentences := by
  refine ensures_bind.mpr (ensures_modify.mpr (ensures_bind.mpr ?_))
  refine (pass_confined hl (fun _ h => h) (prepare_confined hs) _).imp fun tally s₁ hs₁ => ?_
  refine ensures_bind.mpr (ensures_modify.mpr (ensures_bind.mpr (ensures_get.mpr ?_)))
  refine ensures_bind.mpr (ensures_of_except (fun _ _ => trivial) fun _ _ => ?_)
  split
  · exact ensures_bind.mpr ((breed_confined hl (score_confined hs₁)).imp fun _ _ h => h)
  · exact ensures_pure.mpr (score_confined hs₁)

/-- Nothing that a generation comes by leaves the symbols. -/
theorem GenerationPasses.confined (h : GenerationPasses variant settings sentences step s s')
    (hl : l.Sound) (hs : s.Confined l sentences) : s'.Confined l sentences := by
  have hprepared : (prepare settings step s).Confined l sentences := prepare_confined hs
  cases h with
  | prepared => exact hprepared
  | parsing split passed within =>
      have hdone : ∀ w ∈ _, w ∈ sentences := fun w hw => split ▸ List.mem_append_left _ hw
      refine within.confined hl ?_ ((pass_confined hl hdone hprepared _).of_ok passed)
      rw [split]
      exact List.mem_append_right _ List.mem_cons_self
  | scored passed =>
      exact score_confined ((pass_confined hl (fun _ h => h) hprepared _).of_ok passed)
  | breeding passed within =>
      have hs₁ := (pass_confined hl (fun _ h => h) hprepared _).of_ok passed
      exact within.confined hl (score_confined hs₁)

/-! ## The whole run -/

/-- Random rules are admitted, whatever is drawn. -/
theorem addRandomRules_confined (hl : l.Sound) (count : Nat) {rules : RuleSet}
    (h : rules.Confined l sentences) :
    (addRandomRules l count rules).Always (RuleSet.Confined l sentences) := by
  induction count generalizing rules with
  | zero => exact always_pure h
  | succ count ih => exact (l.randomPairRule_always hl).bind fun r hr => ih (h.insert hr)

theorem firstLearner_confined (hl : settings.limits.Sound) :
    (firstLearner variant settings seed none).Confined settings.limits sentences := by
  have hempty : RuleSet.empty.Confined settings.limits sentences := RuleSet.confined_empty
  have hrules := addRandomRules_confined hl settings.limits.initialPairRules hempty (.ofSeed seed)
  cases variant <;> exact ⟨rfl, hrules⟩

theorem Reaches.confined (hl : l.Sound) {first : Learner α} (hfirst : first.Confined l sentences)
    {k : Nat} (h : Reaches variant settings sentences around first k series s) :
    s.Confined l sentences := by
  induction h with
  | start => exact hfirst
  | step before going ran ih => exact (generation_confined hl ih).of_ok ran

/-- **A run keeps to its symbols.**  Whatever its operators, its sentences and its seed, and wherever it
has come to: every rule has a parent in range, a pair rule has children in range, and the terminal of a
terminal rule stands in one of the sentences.  So it is with the rules of its result. -/
theorem passes_confined (hsound : settings.flaw? = none) :
    (∀ rules, Passes variant settings seed sentences around rules →
      rules.Confined settings.limits sentences)
      ∧ ∀ horizon result, start variant settings seed none sentences around horizon = .ok result →
        result.population.rules.Confined settings.limits sentences := by
  have hl : settings.limits.Sound := by
    simp only [Settings.flaw?, Option.or_eq_none_iff, Option.map_eq_none_iff] at hsound
    exact Limits.sound_of_flaw? hsound.1
  have hfirst : (firstLearner variant settings seed none).Confined settings.limits sentences :=
    firstLearner_confined hl
  have hpasses : ∀ rules, Passes variant settings seed sentences around rules →
      rules.Confined settings.limits sentences := by
    intro rules h
    induction h with
    | seeding fewer => exact addRandomRules_confined hl _ RuleSet.confined_empty _
    | between reached => exact (reached.confined hl hfirst).rules
    | within reached going passes => exact (passes.confined hl (reached.confined hl hfirst)).rules
    | without passes r ih => exact ih.erase r
  exact ⟨hpasses, fun horizon result h => hpasses _ (passes_of_start h)⟩

/-- The standard settings for a run of one generation from one random rule. -/
def brief : Settings Float :=
  { Settings.standard with
    limits := { Limits.standard with initialPairRules := 1 }
    stop := ⟨none, some 1, none⟩ }

/-- A random rule and a generation, with coverage and breeding, leave rules of twenty symbols and two
terminals. -/
theorem passes_confined_brief :
    ∃ result : RunResult Float,
      start .plain brief 0 none [⟨[-1, -2], .positive⟩] (.brisk false) 2 = .ok result
        ∧ 3 ≤ result.population.rules.size
        ∧ result.population.rules.Confined brief.limits [⟨[-1, -2], .positive⟩] := by
  have hsound : brief.flaw? = none := by decide +kernel
  have hcheck : (match start .plain brief 0 none [⟨[-1, -2], .positive⟩] (.brisk false) 2 with
      | .ok result => decide (3 ≤ result.population.rules.size)
      | .error _ => false) = true := by decide +kernel
  split at hcheck
  · rename_i result hrun
    exact ⟨result, hrun, of_decide_eq_true hcheck, (passes_confined hsound).2 2 result hrun⟩
  · cases hcheck

end Run

end GrammarInduction
