import GrammarInduction.Proofs.Chart.Cell
import GrammarInduction.Proofs.Grammar.Derivation

/-!
# Charts are exact

A cell of a recognised sentence derives exactly the symbols that derive its stretch by the stored
rules, so the sentence is accepted exactly if the starting symbol derives it.  Weights and
probabilities choose between derivations; they neither add nor remove one.

* `Table.ExactOn` — the cells of a list derive what the rules do;
* `Table.ExactOn.written` — filling one more cell keeps this;
* `Population.exists_exact_chart` — the completed chart is exact;
* `Population.recognise_exact` — the cells and the answer of a recognition;
* `Population.evaluate_eq_of_derives` — populations that derive the same sentences judge them alike.
-/

namespace GrammarInduction

variable {α : Type} {w : List Symbol} {t u : Table α} {row col : Nat} {done : List (Nat × Nat)}

namespace Table

/-- Where symbols derive the stretches of the cells that they are found in, the owner of a body that is
seen in the next cell derives the stretch of that one. -/
theorem Sees.derives {s : RuleSet} {d : Detector} {x : Symbol} (h : t.Sees w row col d)
    (hparts : ∀ {row' col'}, row' < row → row' + col' ≤ row + col → ∀ y,
      (t.poolAt row' col').derives y = true → s.Derives y (stretch w row' col'))
    (howner : s.owner? d.body = some x) : s.Derives x (stretch w row col) := by
  cases h with
  | leaf here =>
      rw [stretch_zero here]
      exact .terminal (RuleSet.contains_terminal_iff.mpr howner)
  | @split _ _ shift l r inside left right =>
      have hl := hparts inside (by omega) l left
      have hr := hparts (by omega) (by omega) r right
      rw [stretch_append w col inside]
      exact .pair (RuleSet.contains_pair_iff.mpr howner) hl hr

/-- Where the cells of shorter stretches derive all that the rules derive over these, a symbol that
derives the stretch of a cell owns a body that is seen in it. -/
theorem exists_sees_of_derives {s : RuleSet} {x : Symbol} (hinside : row + col < w.length)
    (hparts : ∀ {row' col'}, row' < row → row' + col' ≤ row + col → ∀ y,
      s.Derives y (stretch w row' col') → (t.poolAt row' col').derives y = true)
    (h : s.Derives x (stretch w row col)) :
    ∃ d, t.Sees w row col d ∧ s.owner? d.body = some x := by
  cases row with
  | zero =>
      obtain ⟨terminal, here⟩ : ∃ a, w[col]? = some a := ⟨_, List.getElem?_eq_getElem (by omega)⟩
      exact ⟨_, .leaf here, (RuleSet.derives_stretch_zero here).mp h⟩
  | succ row =>
      obtain ⟨shift, inside, l, r, left, right, howner⟩ :=
        (RuleSet.derives_stretch_succ hinside).mp h
      have hl := hparts inside (by omega) l left
      have hr := hparts (by omega) (by omega) r right
      exact ⟨_, .split inside hl hr, howner⟩

/-- The listed cells derive exactly what the rules derive over their stretches. -/
def ExactOn (s : RuleSet) (w : List Symbol) (t : Table α) (cells : List (Nat × Nat)) : Prop :=
  ∀ {row col}, (row, col) ∈ cells → ∀ x,
    (t.poolAt row col).derives x = true ↔ s.Derives x (stretch w row col)

/-- Where the cells of shorter stretches are exact, the owners of the bodies seen in a cell are the
symbols that derive its stretch. -/
theorem ExactOn.sees_iff {s : RuleSet} (h : t.ExactOn s w done) (hnow : Turn w.length done row col)
    (x : Symbol) :
    (∃ d, t.Sees w row col d ∧ s.owner? d.body = some x) ↔ s.Derives x (stretch w row col) := by
  have hinside := hnow.inside
  constructor
  · intro hseen
    obtain ⟨d, hd, howner⟩ := hseen
    refine hd.derives (fun hrow hle y hy => ?_) howner
    exact (h (hnow.mem_done_of_lt hrow (by omega)) y).mp hy
  · apply exists_sees_of_derives hinside
    intro row' col' hrow hle y hy
    exact (h (hnow.mem_done_of_lt hrow (by omega)) y).mpr hy

theorem ExactOn.derives_iff {p : Population α} {pool : Pool α} (h : t.ExactOn p.rules w done)
    (hnow : Turn w.length done row col) (hfills : p.Fills w t row col pool) (x : Symbol) :
    pool.derives x = true ↔ p.rules.Derives x (stretch w row col) :=
  (hfills.derives_iff x).trans (h.sees_iff hnow x)

/-- Filling one more cell keeps a table exact. -/
theorem ExactOn.written {p : Population α} {pool : Pool α} (h : t.ExactOn p.rules w done)
    (hnow : Turn w.length done row col) (hlength : t.length = w.length)
    (hfills : p.Fills w t row col pool) (hu : Written t row col pool u) :
    u.ExactOn p.rules w (done ++ [(row, col)]) := by
  intro row' col' hmem
  exact hnow.forall_written hlength hu
    (P := fun row col pool => ∀ x, pool.derives x = true ↔ p.rules.Derives x (stretch w row col))
    h (h.derives_iff hnow hfills) hmem

end Table

variable [Scalar α]

/-- A completed table stands for acceptance exactly if there is a sentence and the cell of the whole of
it derives the starting symbol. -/
theorem Parse.accepted_ofTable {start : Symbol} {w : Sentence} (hlength : t.length = w.length) :
    (Parse.ofTable start w t).accepted = true ↔
      w.symbols ≠ [] ∧ (t.poolAt (w.length - 1) 0).derives start = true := by
  have hempty : w.length = 0 ↔ w.symbols = [] := List.length_eq_zero_iff
  by_cases hzero : t.length = 0
  · have hnil := hempty.mp (hlength ▸ hzero)
    simp [Parse.ofTable, Table.top?, hzero, hnil]
  · have hsome : w.symbols ≠ [] := fun h => hzero (hlength.trans (hempty.mpr h))
    simp [Parse.ofTable, Table.top?_eq_poolAt hzero, hsome, hlength]

namespace Population

/-- The chart of a sentence is completed, and all of its cells are exact. -/
theorem exists_exact_chart (p : Population α) (w : List Symbol) :
    ∃ t, Table.fill (p.cellPool w) w.length = .ok t ∧ t.length = w.length
      ∧ t.ExactOn p.rules w (Table.coordinates w.length) := by
  refine Table.fill_ok (fun done t => t.ExactOn p.rules w done) ?_ ?_
  · intro row col hmem
    cases hmem
  · intro done row col t hnow hlength hexact
    obtain ⟨pool, hpool, hfills⟩ := cellPool_ok (p := p) hlength (hlength ▸ hnow.inside)
    exact ⟨pool, hpool, fun u hu => hexact.written hnow hlength hfills hu⟩

/-- A sentence is recognised, and accepted exactly if the starting symbol derives it. -/
theorem exists_recognise (p : Population α) (w : Sentence) :
    ∃ t : Table α, p.recognise w = .ok (Parse.ofTable p.limits.start w t) ∧ t.length = w.length
      ∧ t.ExactOn p.rules w.symbols (Table.coordinates w.length)
      ∧ ((Parse.ofTable p.limits.start w t).accepted = true ↔
        p.rules.Derives p.limits.start w.symbols) := by
  obtain ⟨t, hfill, hlength, hexact⟩ := p.exists_exact_chart w.symbols
  refine ⟨t, ?_, hlength, hexact, ?_⟩
  · rw [recognise, show w.length = w.symbols.length from rfl, hfill]
    rfl
  · rw [Parse.accepted_ofTable hlength]
    constructor
    · intro haccepted
      obtain ⟨hsome, htop⟩ := haccepted
      have hpos := List.length_pos_iff.mpr hsome
      have hmem : (w.length - 1, 0) ∈ Table.coordinates w.length :=
        Table.mem_coordinates.mpr (show w.symbols.length - 1 + 0 < w.symbols.length by omega)
      rw [← stretch_top hsome]
      exact (hexact hmem _).mp htop
    · intro hderives
      have hsome := hderives.ne_nil
      have hpos := List.length_pos_iff.mpr hsome
      have hmem : (w.length - 1, 0) ∈ Table.coordinates w.length :=
        Table.mem_coordinates.mpr (show w.symbols.length - 1 + 0 < w.symbols.length by omega)
      rw [← stretch_top hsome] at hderives
      exact ⟨hsome, (hexact hmem _).mpr hderives⟩

/-- **Recognition is exact.**  Every sentence has a completed chart; the effectors of each cell are
the symbols that derive the stretch of the cell by the stored rules; and the sentence is accepted
exactly if it is not empty and the starting symbol derives it. -/
theorem recognise_exact (p : Population α) (w : Sentence) :
    ∃ parse, p.recognise w = .ok parse ∧ parse.table.length = w.length
      ∧ (∀ row col, row + col < w.length → ∃ pool, parse.table.cell row col = .ok pool
        ∧ ∀ x, x ∈ pool.effectors ↔ p.rules.Derives x (stretch w.symbols row col))
      ∧ (parse.accepted = true ↔
        w.symbols ≠ [] ∧ p.rules.Derives p.limits.start w.symbols) := by
  obtain ⟨t, hrun, hlength, hexact, haccepted⟩ := p.exists_recognise w
  refine ⟨_, hrun, hlength, ?_, ?_⟩
  · intro row col hinside
    refine ⟨_, Table.cell_eq_poolAt (hlength ▸ hinside), fun x => ?_⟩
    rw [Pool.mem_effectors]
    exact hexact (Table.mem_coordinates.mpr hinside) x
  · rw [haccepted]
    exact ⟨fun h => ⟨h.ne_nil, h⟩, fun h => h.2⟩

/-- Populations whose starting symbols derive the same sentences judge a sentence alike. -/
theorem verdict?_congr {p p' : Population α} {w : Sentence}
    (h : p.rules.Derives p.limits.start w.symbols ↔ p'.rules.Derives p'.limits.start w.symbols) :
    (p.recognise w).map Parse.verdict? = (p'.recognise w).map Parse.verdict? := by
  obtain ⟨t, hrun, -, -, haccepted⟩ := p.exists_recognise w
  obtain ⟨t', hrun', -, -, haccepted'⟩ := p'.exists_recognise w
  have hsame : (Parse.ofTable p.limits.start w t).accepted
      = (Parse.ofTable p'.limits.start w t').accepted := by
    rw [Bool.eq_iff_iff, haccepted, haccepted', h]
  rw [hrun, hrun']
  exact congrArg (fun accepted => Except.ok (Verdict.of? w.label accepted)) hsame

/-- Populations whose starting symbols derive the same sentences have the same tally. -/
theorem evaluate_eq_of_derives {p p' : Population α}
    (h : ∀ u, p.rules.Derives p.limits.start u ↔ p'.rules.Derives p'.limits.start u)
    (ws : List Sentence) : p.evaluate ws = p'.evaluate ws := by
  have hjudge : ∀ (p : Population α) (tally : Tally) (w : Sentence),
      (do
        let parse ← p.recognise w
        tally.record? parse.verdict?)
      = ((p.recognise w).map Parse.verdict?).bind fun verdict => tally.record? verdict := by
    intro p tally w
    cases p.recognise w <;> rfl
  simp only [evaluate, hjudge, verdict?_congr (h _)]

/-- Populations with the same start and the same rules have the same tally. -/
theorem evaluate_congr {p p' : Population α} (hstart : p.limits.start = p'.limits.start)
    (howner : ∀ b, p.rules.owner? b = p'.rules.owner? b) (ws : List Sentence) :
    p.evaluate ws = p'.evaluate ws := by
  have hstored : ∀ r, p.rules.contains r = p'.rules.contains r := by
    intro r
    rw [RuleSet.contains, RuleSet.contains, howner]
  refine evaluate_eq_of_derives (fun u => ?_) ws
  rw [hstart]
  exact ⟨.mono fun r hr => hstored r ▸ hr, .mono fun r hr => hstored r ▸ hr⟩

/-- Every list of sentences has a tally, if a machine word can count them. -/
theorem exists_evaluate (p : Population α) {ws : List Sentence} (hcorpus : ws.length < wordCount) :
    ∃ tally, p.evaluate ws = .ok tally := by
  have hfold : ∀ tally : Tally, tally.verdicts + ws.length < wordCount →
      ∃ tally', ws.foldlM (fun tally w => do
        let parse ← p.recognise w
        tally.record? parse.verdict?) tally = .ok tally' := by
    clear hcorpus
    induction ws with
    | nil => exact fun tally _ => ⟨tally, rfl⟩
    | cons w ws ih =>
        intro tally hroom
        rw [List.length_cons] at hroom
        obtain ⟨t, hrun, -⟩ := p.exists_recognise w
        let verdict? := (Parse.ofTable p.limits.start w t).verdict?
        have hrecord := Tally.record?_of_lt (by omega : tally.verdicts + 1 < wordCount) verdict?
        have hle := tally.verdicts_after_le verdict?
        obtain ⟨tally', hrest⟩ := ih (tally.after verdict?) (by omega)
        refine ⟨tally', ?_⟩
        rw [List.foldlM_cons, hrun]
        exact Fault.bind_eq_ok.mpr ⟨_, hrecord, hrest⟩
  exact hfold .zero (by rw [show Tally.zero.verdicts = 0 from rfl]; omega)

end Population

end GrammarInduction
