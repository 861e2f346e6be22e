import GrammarInduction.Proofs.Learning.Completeness
import GrammarInduction.Proofs.Learning.Growth

/-!
# The terminals of a sentence after its parse

Terminal coverage that is sure to fire gives a rule to every terminal of a sentence that has none.  As long
as the grammar has room this leaves all other terminals their rules.  At the limit of pair rules the
submission of a terminal rule is turned into crowding as well, and crowding evicts a terminal rule, which
may be that of an earlier column of the same sentence.  This is the only way in which a parse can leave a
terminal of its sentence without a rule: cells of several symbols get pair rules, and those make no
terminal rule go.

* `Learner.Knows` — a terminal has a rule;
* `Learner.Evicts`, `Learner.CrowdedOut` — a terminal loses its rule to that of a later column;
* `Learner.coverLeaf_knows`, `Learner.coverSplit_knows` — the two kinds of cell;
* `Learner.knows_of_parse` — a whole parse;
* `Learner.not_knows_of_parse` — a terminal of the sentence may be left without a rule.
-/

namespace GrammarInduction

open Attempt

/-- Sets with the same pair rules have as many. -/
theorem RuleSet.pairCount_congr {s s' : RuleSet}
    (h : ∀ r : Rule, r.isTerminal = false → s'.contains r = s.contains r) :
    s'.pairCount = s.pairCount := by
  have hperm : s'.pairRules.Perm s.pairRules := by
    apply (List.perm_ext_iff_of_nodup s'.nodup_pairRules s.nodup_pairRules).mpr
    intro r
    rw [mem_pairRules, mem_pairRules, mem_rules, mem_rules, ← contains_iff, ← contains_iff]
    exact and_congr_left fun hpair => by rw [h r hpair]
  rw [← length_pairRules, ← length_pairRules, hperm.length_eq]

/-- What sees a stretch of several symbols is no terminal. -/
theorem Table.Sees.isTerminal_body {α : Type} {w : List Symbol} {t : Table α} {row col : Nat}
    {d : Detector} (h : t.Sees w row col d) (hrow : 0 < row) : d.body.isTerminal = false := by
  cases h with
  | leaf => exact absurd hrow (Nat.lt_irrefl 0)
  | split => rfl

namespace Learner

variable {α : Type} {s s' s'' : Learner α} {x terminal : Symbol}

/-- A terminal has a rule. -/
def Knows (s : Learner α) (x : Symbol) : Prop :=
  ∃ parent, s.population.contains (.terminal parent x) = true

theorem knows_iff : s.Knows x ↔ ∃ parent, s.population.rules.owner? (.terminal x) = some parent :=
  exists_congr fun _ => RuleSet.contains_terminal_iff

variable [Scalar α] {coverage : Coverage α} {w : Sentence} {t : Table α} {row col : Nat}
  {pool p : Pool α} {site : CoverageSite} {kinds : List CoverageKind} {start : Symbol}

/-- A rule for the terminal `y`, which has none, is submitted to a full grammar, and takes the place of the
rule of `x`. -/
inductive Evicts (s : Learner α) (y x : Symbol) : Learner α → Prop
  | evicted {parent holder : Symbol} {g : Generator} (missing : ¬ s.Knows y) (full : ¬ s.HasRoom)
      (replaced : (submit (.terminal parent y) .expand { s with generator := g }).1
        = .ok (.replaced (.terminal holder x))) :
      Evicts s y x (submit (.terminal parent y) .expand { s with generator := g }).2

/-- In a parse from `s` the rule of `x` makes way for that of the terminal at a column, when it is the turn
of this. -/
inductive CrowdedOut (coverage : Coverage α) (w : Sentence) (s : Learner α) (col : Nat) (x : Symbol) :
    Prop
  | turn {done : List (Nat × Nat)} {t : Table α} {s₁ s₂ : Learner α} {p : Pool α} {y : Symbol}
      (now : Table.Turn w.length done 0 col)
      (filled : Table.fillCells (coveredPool coverage s.population.limits.start w) done
        (.blank w.length) s = (.ok t, s₁))
      (here : w.symbols[col]? = some y)
      (ran : coveredPool coverage s.population.limits.start w t 0 col s₁ = (.ok p, s₂))
      (evicts : Evicts s₁ y x s₂) : CrowdedOut coverage w s col x

theorem CrowdedOut.lt_length (h : CrowdedOut coverage w s col x) : col < w.length := by
  cases h with
  | turn now =>
      have hinside := now.inside
      omega

/-! ## One cell -/

/-- A terminal that is covered has a rule. -/
theorem Covered.knows (h : Covered coverage (.leaf col terminal) pool s kinds p s') :
    s'.Knows terminal :=
  knows_iff.mpr h.owner?_terminal

/-- Teaching terminals makes no difference to the room there is. -/
theorem Covered.hasRoom_iff (h : Covered coverage (.leaf col terminal) pool s kinds p s') :
    s'.HasRoom ↔ s.HasRoom := by
  have hcount : s'.population.rules.pairCount = s.population.rules.pairCount :=
    RuleSet.pairCount_congr (h.taught (List.mem_singleton_self _)).pairs
  rw [HasRoom, HasRoom, hcount, h.limits]

/-- Covering a terminal leaves the others their rules, or the rule of one of them is evicted. -/
theorem Covered.knows_or_evicts (h : Covered coverage (.leaf col terminal) pool s [.terminal] p s')
    (hexpand : coverage.terminal.hint = .expand) (hmissing : ¬ s.Knows terminal)
    (hx : s.Knows x) : s'.Knows x ∨ Evicts s terminal x s' := by
  cases h with
  | @fired kind r d probability g listed invents submitted =>
      have hbody := invents.body_of_leaf
      have hhint : (coverage.get kind).hint = .expand := by
        rw [List.mem_singleton.mp listed]
        exact hexpand
      obtain ⟨parent, body⟩ := r
      cases hbody
      rw [hhint] at submitted ⊢
      obtain ⟨outcome, hended⟩ := submitted
      obtain ⟨holder, hstored⟩ := hx
      by_cases hroom : s.HasRoom
      · -- With room the newcomer gets its own body, and the others keep theirs.
        have howner := owner?_submit_expand (s := { s with generator := g }) hroom
          (.terminal parent terminal) (.terminal x)
        have hother : Body.terminal x ≠ .terminal terminal := by
          rintro ⟨⟩
          exact hmissing ⟨holder, hstored⟩
        refine Or.inl (knows_iff.mpr ⟨holder, howner.trans ?_⟩)
        exact (if_neg hother).trans (RuleSet.contains_terminal_iff.mp hstored)
      · by_cases hreplaced : outcome = .replaced (.terminal holder x)
        · exact Or.inr (.evicted hmissing hroom (hreplaced ▸ hended))
        · exact Or.inl ⟨holder, (contains_submit hended).mpr (Or.inr ⟨hstored, hreplaced⟩)⟩

/-- Covering a stretch of several symbols leaves all terminals their rules. -/
theorem Covered.knows_of_sees (h : Covered coverage site pool s kinds p s')
    (hsees : ∀ d ∈ site.detectors, t.Sees w.symbols row col d) (hrow : 0 < row) (hx : s.Knows x) :
    s'.Knows x := by
  cases h with
  | @fired kind r d probability g listed invents =>
      have hpair : r.isTerminal = false := by
        rw [Rule.isTerminal, invents.body]
        exact (hsees d invents.mem).isTerminal_body hrow
      obtain ⟨holder, hstored⟩ := hx
      refine ⟨holder, (contains_submit_of_arity ?_).trans hstored⟩
      rw [hpair]
      exact Bool.noConfusion

theorem coverSplit_knows (hfills : s.population.Fills w.symbols t row col pool) (hrow : 0 < row) :
    Ensures (coverSplit coverage start w t row pool) s (fun _ _ => True) fun _ s' =>
      ∀ x, s.Knows x → s'.Knows x := by
  refine coverSplit_ensures.imp fun p s' hcell x hx => ?_
  obtain ⟨site, kinds, hsees, htried⟩ := hcell.tried hfills
  cases htried with
  | idle => exact hx
  | covered _ done => exact done.knows_of_sees hsees hrow hx

/-- What the cell of a terminal comes to where terminal coverage is sure to fire. -/
structure LeafServed (w : Sentence) (terminal : Symbol) (s s' : Learner α) : Prop where
  knows : s'.Knows terminal
  room : s'.HasRoom ↔ s.HasRoom
  others : w.length ≠ 1 → ∀ x, s.Knows x → s'.Knows x ∨ Evicts s terminal x s'

variable [LawfulScalar α]

/-- The terminal operator is sure to cover a terminal that has no rule. -/
theorem coverTerminal_knows (hsure : 1 ≤ coverage.terminal.chance)
    (hexpand : coverage.terminal.hint = .expand) (here : w.symbols[col]? = some terminal)
    (hfills : s.population.Fills w.symbols t 0 col pool) :
    Ensures (if pool.isBarren then
        coverFirst coverage (.leaf col terminal) t pool [.terminal, .universal] else pure pool)
      s (fun _ _ => True) fun _ s' => s'.Knows terminal ∧ (s'.HasRoom ↔ s.HasRoom)
        ∧ ∀ x, s.Knows x → s'.Knows x ∨ Evicts s terminal x s' := by
  split
  · rename_i hbarren
    have hmissing : ¬ s.Knows terminal := by
      have howner : s.population.rules.owner? (.terminal terminal) = none :=
        hfills.owner?_eq_none hbarren (.leaf here)
      rw [knows_iff, howner]
      nofun
    have hready : (CoverageSite.leaf col terminal).Ready t.length := trivial
    refine Ensures.mono (coverFirst_fires [] (by simp) (by simp) hsure rfl hready)
      (fun _ _ _ => trivial) fun p s' done => ?_
    exact ⟨done.knows, done.hasRoom_iff, fun x => done.knows_or_evicts hexpand hmissing⟩
  · rename_i hbarren
    obtain ⟨y, hy⟩ := Pool.exists_derives hbarren
    obtain ⟨d, hsees, howner⟩ := (hfills.derives_iff y).mp hy
    have hknows : s.Knows terminal := by
      cases hsees with
      | leaf there =>
          cases here.symm.trans there
          exact knows_iff.mpr ⟨y, howner⟩
      | split hshift => exact absurd hshift (Nat.not_lt_zero _)
    exact ensures_pure.mpr ⟨hknows, Iff.rfl, fun x => Or.inl⟩

/-- The starting operator is let at a sentence of one symbol only, and gives the same body a rule. -/
theorem coverLeaf_knows (hsure : 1 ≤ coverage.terminal.chance)
    (hexpand : coverage.terminal.hint = .expand) (here : w.symbols[col]? = some terminal)
    (hfills : s.population.Fills w.symbols t 0 col pool) :
    Ensures (coverLeaf coverage start w t col terminal pool) s (fun _ _ => True) fun _ s' =>
      LeafServed w terminal s s' := by
  rw [coverLeaf_eq]
  refine ensures_bind.mpr ((coverTerminal_knows hsure hexpand here hfills).imp fun p s' hserved => ?_)
  obtain ⟨hknows, hroom, hothers⟩ := hserved
  split
  · rename_i hgap
    refine (coverFirst_ensures hgap [.starting]).imp fun p' s'' htried => ?_
    cases htried with
    | idle g => exact ⟨hknows, hroom, fun hlength => absurd hgap.1 hlength⟩
    | covered _ done =>
        exact ⟨done.knows, done.hasRoom_iff.trans hroom, fun hlength => absurd hgap.1 hlength⟩
  · exact ensures_pure.mpr ⟨hknows, hroom, fun _ => hothers⟩

/-! ## The whole parse -/

/-- Where a parse from `s` has come to when the cells of `done` are filled: every terminal of a filled cell
has a rule, or has lost it at a later column because the grammar was full from the start. -/
structure KnowsFilled (coverage : Coverage α) (w : Sentence) (s : Learner α) (done : List (Nat × Nat))
    (s' : Learner α) : Prop where
  room : (∀ cell ∈ done, cell.1 = 0) → (s'.HasRoom ↔ s.HasRoom)
  known : ∀ {col x}, (0, col) ∈ done → w.symbols[col]? = some x →
    s'.Knows x ∨ ¬ s.HasRoom ∧ ∃ later, col < later ∧ CrowdedOut coverage w s later x

omit [LawfulScalar α] in
/-- One more terminal cell. -/
theorem KnowsFilled.leaf {done : List (Nat × Nat)} (h : KnowsFilled coverage w s done s')
    (hnow : Table.Turn w.length done 0 col)
    (hfilled : Table.fillCells (coveredPool coverage s.population.limits.start w) done
      (.blank w.length) s = (.ok t, s'))
    (here : w.symbols[col]? = some terminal)
    (hran : coveredPool coverage s.population.limits.start w t 0 col s' = (.ok p, s''))
    (hserved : LeafServed w terminal s' s'') :
    KnowsFilled coverage w s (done ++ [(0, col)]) s'' := by
  have hbefore : ∀ {row' col'}, (row', col') ∈ done → row' = 0 ∧ col' < col := by
    intro row' col' hmem
    have hearlier := (hnow.mem_done_iff.mp hmem).2
    omega
  have hroom : s'.HasRoom ↔ s.HasRoom := h.room fun cell hmem => (hbefore hmem).1
  refine ⟨fun _ => hserved.room.trans hroom, fun {col' x} hmem there => ?_⟩
  rcases List.mem_append.mp hmem with hdone | hself
  · have hearlier := (hbefore hdone).2
    have hinside := hnow.inside
    rcases h.known hdone there with hknown | hlost
    · rcases hserved.others (by omega) x hknown with hkept | hevicted
      · exact Or.inl hkept
      · have hfull : ¬ s.HasRoom := by
          cases hevicted with
          | evicted _ full => exact fun hfree => full (hroom.mpr hfree)
        exact Or.inr ⟨hfull, col, hearlier, .turn hnow hfilled here hran hevicted⟩
    · exact Or.inr hlost
  · cases List.mem_singleton.mp hself
    cases here.symm.trans there
    exact Or.inl hserved.knows

omit [LawfulScalar α] in
/-- One more cell of several symbols. -/
theorem KnowsFilled.split {done : List (Nat × Nat)} (h : KnowsFilled coverage w s done s')
    (hrow : 0 < row) (hkept : ∀ x, s'.Knows x → s''.Knows x) :
    KnowsFilled coverage w s (done ++ [(row, col)]) s'' := by
  refine ⟨fun hfirst => ?_, fun {col' x} hmem there => ?_⟩
  · have hzero : row = 0 := hfirst _ (List.mem_append_right _ (List.mem_singleton_self _))
    exact absurd hzero (Nat.ne_of_gt hrow)
  · have hdone : (0, col') ∈ done := by
      refine (List.mem_append.mp hmem).resolve_right fun hself => ?_
      cases List.mem_singleton.mp hself
      exact Nat.lt_irrefl 0 hrow
    exact (h.known hdone there).imp_left (hkept x)

theorem fill_knows (hsure : 1 ≤ coverage.terminal.chance)
    (hexpand : coverage.terminal.hint = .expand) :
    Ensures (Table.fill (coveredPool coverage s.population.limits.start w) w.length) s
      (fun _ _ => True) fun t s' =>
        t.length = w.length ∧ KnowsFilled coverage w s (Table.coordinates w.length) s' := by
  refine Table.fill_ensures_of_run (fun done _ s' => KnowsFilled coverage w s done s') ?_ ?_
  · exact ⟨fun _ => Iff.rfl, fun hmem => nomatch hmem⟩
  · intro done row col t s' hnow hlength hfilled hbefore
    obtain ⟨pool, -, hfills, hcell⟩ :=
      coveredPool_cases coverage s.population.limits.start s' hlength hnow.inside
    rcases hcell with ⟨terminal, rfl, here, hcell⟩ | ⟨hrow, hcell⟩
    · have hleaf := (ensures_congr hcell).mpr (coverLeaf_knows hsure hexpand here hfills)
      refine (hleaf.and (ensures_self _ s')).mono (fun _ _ _ => trivial) fun p s'' hend u _ => ?_
      obtain ⟨hserved, hran⟩ := hend
      exact hbefore.leaf hnow hfilled here hran hserved
    · have hsplit := (ensures_congr hcell).mpr (coverSplit_knows hfills hrow)
      exact hsplit.imp fun p s'' hkept u _ => hbefore.split hrow hkept

/-- **A parse leaves the terminals of its sentence with rules**, unless it evicts them itself.  Where the
terminal operator is sure to fire and lets the grammar grow, every terminal of the sentence has a rule in
the end if there was room.  At the limit a terminal may be without one, but only if its rule has made way
for that of a later column. -/
theorem knows_of_parse (hsure : 1 ≤ coverage.terminal.chance)
    (hexpand : coverage.terminal.hint = .expand) {outcome : Parse α}
    (hrun : parse coverage w s = (.ok outcome, s')) :
    (s.HasRoom → ∀ x ∈ w.symbols, s'.Knows x)
      ∧ ∀ col x, w.symbols[col]? = some x →
        s'.Knows x ∨ ∃ later, col < later ∧ CrowdedOut coverage w s later x := by
  obtain ⟨t, -, -, hknows⟩ := (parse_ensures (fill_knows hsure hexpand)).of_ok hrun
  have hcells : ∀ {col x}, w.symbols[col]? = some x →
      s'.Knows x ∨ ¬ s.HasRoom ∧ ∃ later, col < later ∧ CrowdedOut coverage w s later x := by
    intro col x here
    have hcol : col < w.length := (List.getElem?_eq_some_iff.mp here).1
    exact hknows.known (Table.mem_coordinates.mpr (by omega)) here
  constructor
  · intro hroom x hx
    obtain ⟨col, here⟩ := List.mem_iff_getElem?.mp hx
    exact (hcells here).resolve_right fun hlost => hlost.1 hroom
  · exact fun col x here => (hcells here).imp_right And.right

/-! ## A terminal that is left without a rule -/

/-- A learner with as many pair rules as its limit allows and no terminal rule. -/
def saturated : Learner Float :=
  ofPopulation (.ofRules { Limits.standard with pairRuleLimit := 1 } [.pair 1 2 3])
    (.blend .standard) (.standard .standard 10) (.ofSeed 0)

/-- Nothing but terminals is covered, and those always. -/
def terminalsOnly : Coverage Float := { (Coverage.disabled : Coverage Float) with terminal := .always }

/-- Of two terminals that have no rule the second evicts the rule of the first. -/
theorem exists_parse_saturated :
    ∃ outcome s', parse terminalsOnly ⟨[-1, -2], .negative⟩ saturated = (.ok outcome, s')
      ∧ ¬ s'.Knows (-1) := by
  obtain ⟨outcome, s', hrun, hgone⟩ := exists_ok_of_check
    (fun _ s' => (s'.population.rules.owner? (.terminal (-1))).isNone)
    (m := parse terminalsOnly ⟨[-1, -2], .negative⟩) (s := saturated) (by decide +kernel)
  refine ⟨outcome, s', hrun, ?_⟩
  rw [knows_iff, Option.isNone_iff_eq_none.mp hgone]
  nofun

/-- The second terminal keeps its rule, and the first has lost its own to that and to nothing else. -/
theorem knows_of_parse_saturated :
    1 ≤ terminalsOnly.terminal.chance ∧ terminalsOnly.terminal.hint = .expand
      ∧ ∃ outcome s', parse terminalsOnly ⟨[-1, -2], .negative⟩ saturated = (.ok outcome, s')
        ∧ ¬ s'.Knows (-1) ∧ s'.Knows (-2)
        ∧ CrowdedOut terminalsOnly ⟨[-1, -2], .negative⟩ saturated 1 (-1) := by
  have hsure : 1 ≤ terminalsOnly.terminal.chance := by decide +kernel
  obtain ⟨outcome, s', hrun, hunknown⟩ := exists_parse_saturated
  obtain ⟨-, hcolumns⟩ := knows_of_parse hsure rfl hrun
  obtain ⟨later, hlater, hlost⟩ := (hcolumns 0 (-1) rfl).resolve_left hunknown
  have hlast : later < 2 := hlost.lt_length
  obtain rfl : later = 1 := by omega
  refine ⟨hsure, rfl, outcome, s', hrun, hunknown, ?_, hlost⟩
  refine (hcolumns 1 (-2) rfl).resolve_right fun hlost' => ?_
  obtain ⟨later, hlater', hlost'⟩ := hlost'
  have hlast' : later < 2 := hlost'.lt_length
  omega

/-- Sure terminal coverage does not leave every terminal of a sentence with a rule, whatever the grammar: the
rule of the first terminal is the only one of its arity when the second comes, and the grammar is full. -/
theorem not_knows_of_parse :
    ¬ ∀ (coverage : Coverage Float) (w : Sentence) (s s' : Learner Float) (outcome : Parse Float),
      s.Mirrors → s.supervisor = .standard .standard 10 → 1 ≤ coverage.terminal.chance →
      coverage.terminal.hint = .expand → parse coverage w s = (.ok outcome, s') →
      ∀ x ∈ w.symbols, s'.Knows x := by
  intro hknows
  obtain ⟨outcome, s', hrun, hunknown⟩ := exists_parse_saturated
  have hsure : 1 ≤ terminalsOnly.terminal.chance := by decide +kernel
  exact hunknown (hknows terminalsOnly _ saturated s' outcome (mirrors_ofPopulation _ _ _ _) rfl hsure
    rfl hrun (-1) List.mem_cons_self)

end Learner

end GrammarInduction
