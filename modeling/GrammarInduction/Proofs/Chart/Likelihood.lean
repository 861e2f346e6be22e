import GrammarInduction.Proofs.Chart.BestTree
import GrammarInduction.Proofs.Chart.Rating
import GrammarInduction.Proofs.Grammar.Normalisation

/-!
# The most probable derivation

A parse tree has the product of the probabilities of its rules for a value, multiplied in the order of
the tree.  There may be as many trees over a stretch as there are ways to bracket it, but the best
productions are enough as long as a product grows with its factors: whatever tree there is, the best
production of its root is worth no less, and the best productions in turn make up a tree that is worth
exactly as much.

* `Population.RatesOn.value_le_best` — no stored tree is worth more than the best production of its root;
* `Population.RatesOn.value_of_follows` — the tree of best productions is worth as much;
* `Population.recognise_mostProbable` — so a cell has the greatest value of any tree over its stretch, and
  the rules read off an accepted sentence are those of a tree that has it.
-/

namespace GrammarInduction.Population

open Scalar

variable {α : Type} [Scalar α] {p : Population α} {w : List Symbol} {t : Table α} {row col : Nat}

/-! ## Trees and cells -/

/-- The probability of a tree: that of its rule, times the product of the values of its parts. -/
def value (p : Population α) : ParseTree → α
  | .leaf x a => p.probability (.terminal x a)
  | .node x l r => p.probability (.pair x l.root r.root) * (p.value l * p.value r)

/-- What a detector sees is worth no more than the best production of the symbol that owns its body. -/
theorem RatesOn.rating_le_best (h : p.RatesOn w t (Table.coordinates w.length))
    (inside : row + col < w.length) {d : Detector} (hsees : t.Sees w row col d) {r : Rule}
    (hstored : p.rules.contains r = true) (hbody : r.body = d.body) :
    p.rating t r d ≤ (t.poolAt row col).bestProbability r.parent := by
  have h := h (Table.mem_coordinates.mpr inside)
  have howner : p.rules.owner? d.body = some r.parent := hbody ▸ RuleSet.contains_iff.mp hstored
  obtain ⟨q, hq, rfl⟩ := h.fills.complete d hsees (Or.inr (by rw [howner]; rfl))
  have hr : q.rule? = some r := by
    rw [h.fills.rule q hq]
    exact RuleSet.ruleOf?_eq_some_iff.mpr ⟨hbody, howner⟩
  have hparent : q.parent? = some r.parent := by
    rw [Production.parent?, hr]
    rfl
  obtain ⟨b, hb⟩ := h.ranked.exists_best? hq hparent
  rw [← h.rated q hq r hr, Pool.bestProbability_eq hb]
  exact h.ranked.le_best _ b hb q hq hparent

/-- **A tree of best productions is worth as much as the best production of its root.** -/
theorem RatesOn.value_of_follows (h : p.RatesOn w t (Table.coordinates w.length)) {tree : ParseTree}
    (hfollows : t.Follows row col tree) (inside : row + col < w.length) :
    p.value tree = (t.poolAt row col).bestProbability tree.root := by
  have hrated : ∀ {row col x q r}, row + col < w.length → (t.poolAt row col).best? x = some q →
      q.rule? = some r → (t.poolAt row col).bestProbability x = p.rating t r q.detector
        ∧ r.body = q.detector.body := by
    intro row col x q r inside hbest hr
    have h := h (Table.mem_coordinates.mpr inside)
    have hmem := (h.ranked.of_best x q hbest).1
    rw [Pool.bestProbability_eq hbest]
    exact ⟨h.rated q hmem r hr, h.fills.linked.body q hmem r hr⟩
  induction hfollows with
  | @leaf col x a q best rule =>
      obtain ⟨hvalue, hbody⟩ := hrated inside best rule
      generalize q.detector = d at hvalue hbody
      cases d with
      | split => cases hbody
      | leaf => exact hvalue.symm
  | @node row col shift x l r q hshift best detector rule left right ihl ihr =>
      obtain ⟨hvalue, -⟩ := hrated inside best rule
      rw [detector] at hvalue
      rw [value, ihl (by omega), ihr (by omega)]
      exact hvalue.symm

/-- Among the trees of stored rules for a symbol over a list of symbols, no other is worth more. -/
structure IsMostProbable (p : Population α) (x : Symbol) (u : List Symbol) (tree : ParseTree) :
    Prop where
  stored : tree.StoredIn p.rules
  root : tree.root = x
  yield : tree.yield = u
  greatest : ∀ other : ParseTree, other.StoredIn p.rules → other.root = x → other.yield = u →
    p.value other ≤ p.value tree

section Trees

variable [MonotoneProduct α] {tree : ParseTree}

/-- The value of a stored tree is not less than nothing. -/
theorem Nonnegative.value_nonneg (hp : p.Nonnegative) (htree : tree.StoredIn p.rules) :
    0 ≤ p.value tree := by
  induction tree with
  | leaf x a => exact hp _ (ParseTree.storedIn_leaf.mp htree)
  | node x l r ihl ihr =>
      obtain ⟨stored, hl, hr⟩ := ParseTree.storedIn_node.mp htree
      exact MonotoneProduct.mul_nonneg (hp _ stored) (MonotoneProduct.mul_nonneg (ihl hl) (ihr hr))

/-- **No tree is worth more than the best production of its root.** -/
theorem RatesOn.value_le_best (h : p.RatesOn w t (Table.coordinates w.length)) (hp : p.Nonnegative)
    (hcharts : p.Charts w t) (htree : tree.StoredIn p.rules) (inside : row + col < w.length)
    (hyield : tree.yield = stretch w row col) :
    p.value tree ≤ (t.poolAt row col).bestProbability tree.root := by
  induction tree generalizing row col with
  | leaf x a =>
      have hlength := congrArg List.length hyield
      rw [length_stretch inside, ParseTree.yield, List.length_singleton] at hlength
      obtain rfl : row = 0 := by omega
      have here : w[col]? = some a := by
        rw [stretch, List.take_one, List.head?_drop, ParseTree.yield] at hyield
        simpa using hyield.symm
      exact h.rating_le_best inside (.leaf here) (ParseTree.storedIn_leaf.mp htree) rfl
  | node x l r ihl ihr =>
      obtain ⟨stored, hl, hr⟩ := ParseTree.storedIn_node.mp htree
      obtain ⟨shift, hshift, hyieldl, hyieldr⟩ :=
        exists_split_of_append inside hl.derives.ne_nil hr.derives.ne_nil hyield
      have left := (hcharts.derives_iff (by omega)).mpr (hyieldl ▸ hl.derives)
      have right := (hcharts.derives_iff (by omega)).mpr (hyieldr ▸ hr.derives)
      have hparts := MonotoneProduct.mul_le_mul (hp.value_nonneg hl) (hp.value_nonneg hr)
        (ihl hl (by omega) hyieldl) (ihr hr (by omega) hyieldr)
      have hnonneg := MonotoneProduct.mul_nonneg (hp.value_nonneg hl) (hp.value_nonneg hr)
      exact OrderedScalar.le_trans
        (MonotoneProduct.mul_le_mul_left (hp _ stored) hnonneg hparts)
        (h.rating_le_best inside (.split hshift left right) stored rfl)

/-- A tree of best productions is a most probable one. -/
theorem RatesOn.isMostProbable (h : p.RatesOn w t (Table.coordinates w.length))
    (hp : p.Nonnegative) (hcharts : p.Charts w t) (hfollows : t.Follows row col tree)
    (inside : row + col < w.length) (hyield : tree.yield = stretch w row col) :
    p.IsMostProbable tree.root (stretch w row col) tree where
  stored q hq := by
    obtain ⟨row', col', inside', huses⟩ := hcharts.linked.uses_of_follows hfollows inside q hq
    exact (hcharts.fills (hcharts.length ▸ inside')).stored huses
  root := rfl
  yield := hyield
  greatest other hother hroot hyield' := by
    rw [h.value_of_follows hfollows inside, ← hroot]
    exact h.value_le_best hp hcharts hother inside hyield'

end Trees

/-! ## The whole sentence -/

/-- Recognition finds what is most probable.  The probability of each symbol that a cell derives is the
greatest value of its trees over the cell's stretch; and if the sentence is accepted, the rules that are
read off are those of a tree of the starting symbol that has the greatest value. -/
def FindsMostProbable (p : Population α) (w : Sentence) : Prop :=
  ∃ parse, p.recognise w = .ok parse
    ∧ (∀ row col, row + col < w.length → ∃ pool, parse.table.cell row col = .ok pool
      ∧ ∀ x ∈ pool.effectors, ∃ tree, p.IsMostProbable x (stretch w.symbols row col) tree
        ∧ p.value tree = pool.bestProbability x)
    ∧ (parse.accepted = true → ∃ tree top, parse.table.top? = some top
      ∧ parse.table.trace .bestDerivation p.limits.start = .ok tree.rules
      ∧ p.IsMostProbable p.limits.start w.symbols tree
      ∧ p.value tree = top.bestProbability p.limits.start)

theorem Nonnegative.findsMostProbable [MonotoneProduct α] (hp : p.Nonnegative) (w : Sentence) :
    p.FindsMostProbable w := by
  obtain ⟨t, hfill, hcharts, hrates⟩ := exists_rated_chart hp w.symbols
  have hlength : t.length = w.length := hcharts.length
  refine ⟨Parse.ofTable p.limits.start w t, ?_, ?_, ?_⟩
  · rw [recognise, show w.length = w.symbols.length from rfl, hfill]
    rfl
  · intro row col inside
    refine ⟨_, Table.cell_eq_poolAt (hlength ▸ inside), fun x hx => ?_⟩
    obtain ⟨tree, hfollows, rfl, hyield⟩ :=
      hcharts.linked.exists_follows inside (Pool.mem_effectors.mp hx)
    exact ⟨tree, hrates.isMostProbable hp hcharts hfollows inside hyield,
      hrates.value_of_follows hfollows inside⟩
  · intro haccepted
    obtain ⟨hsome, hderives⟩ := (Parse.accepted_ofTable hlength).mp haccepted
    have hpos := List.length_pos_iff.mpr hsome
    have inside : w.symbols.length - 1 + 0 < w.symbols.length := by omega
    have hne : t.length ≠ 0 := by
      rw [hcharts.length]
      omega
    obtain ⟨tree, hread, hfollows, hroot, hyield, -⟩ :=
      hcharts.linked.exists_bestTree hsome hderives
    have hmost := hrates.isMostProbable hp hcharts hfollows inside
      (hyield.trans (stretch_top hsome).symm)
    have hvalue := hrates.value_of_follows hfollows inside
    rw [stretch_top hsome, hroot] at hmost
    rw [hroot] at hvalue
    have htop : t.top? = some (t.poolAt (w.symbols.length - 1) 0) :=
      hcharts.length ▸ Table.top?_eq_poolAt hne
    exact ⟨tree, _, htop, hread, hmost, hvalue⟩

/-- **The probability of a symbol in a cell is the greatest value of its trees**, and the rules read off
an accepted sentence are those of a tree that attains it.  This holds for probabilities that are not
negative and any product that grows with its factors; so over the rationals it holds of every weighted
population, whatever has been done with it. -/
theorem recognise_mostProbable :
    (∀ {α : Type} [Scalar α] [MonotoneProduct α] (p : Population α), p.Nonnegative →
      ∀ w, p.FindsMostProbable w)
      ∧ ∀ (p : Population Rat) (updates : List (Update Rat)) (w : Sentence),
        (Update.runAll updates p.withUniformWeights).FindsMostProbable w := by
  refine ⟨fun p hp w => hp.findsMostProbable w, fun p updates w => ?_⟩
  obtain ⟨weighting, h⟩ := (weighed_withUniformWeights p).updates updates
  exact Nonnegative.findsMostProbable (fun r _ => h.probability_nonneg r) w

/-- Three terminals can be bracketed in two ways, one of them three times as probable as the other. -/
def lopsided : Population Rat :=
  Update.runAll [.addWithWeight (.pair 1 2 4) 1, .addWithWeight (.pair 1 4 2) 3]
    (ofRules .standard [.pair 4 2 2, .terminal 2 (-1)]).withUniformWeights

/-- The tree that is read off has the more probable rule at its root, and is worth as much as that rule.
Without weights the recognition of the same sentence still finds what is most probable. -/
theorem recognise_mostProbable_lopsided :
    (∃ (parse : Parse Rat) (tree : ParseTree),
      lopsided.recognise ⟨[-1, -1, -1], .positive⟩ = .ok parse ∧ parse.accepted = true
        ∧ parse.table.trace .bestDerivation 1 = .ok tree.rules
        ∧ lopsided.IsMostProbable 1 [-1, -1, -1] tree
        ∧ tree.rules.head? = some (.pair 1 4 2) ∧ lopsided.value tree = 3 / 4)
      ∧ (ofRules .standard lopsided.rules.rules : Population Rat).Nonnegative
      ∧ (ofRules .standard lopsided.rules.rules : Population Rat).FindsMostProbable
        ⟨[-1, -1, -1], .positive⟩ := by
  have hplain : (ofRules .standard lopsided.rules.rules : Population Rat).Nonnegative :=
    fun _ _ => show (0 : Rat) ≤ 1 by decide
  refine ⟨?_, hplain, recognise_mostProbable.1 _ hplain _⟩
  obtain ⟨parse, hrun, -, hbest⟩ : lopsided.FindsMostProbable ⟨[-1, -1, -1], .positive⟩ :=
    recognise_mostProbable.2 _ _ _
  have hcomputed : (lopsided.recognise ⟨[-1, -1, -1], .positive⟩).toOption.map (fun parse =>
      (parse.accepted, (parse.table.trace .bestDerivation 1).toOption.bind List.head?,
        parse.table.top?.map fun top => top.bestProbability 1))
      = some (true, some (.pair 1 4 2), some (3 / 4)) := by
    decide +kernel
  simp only [hrun, Except.toOption, Option.map_some, Option.some.injEq, Prod.mk.injEq]
    at hcomputed
  obtain ⟨haccepted, hrules, hworth⟩ := hcomputed
  obtain ⟨tree, top, htop, htrace, hmost, hvalue⟩ := hbest haccepted
  change parse.table.trace .bestDerivation 1 = .ok tree.rules at htrace
  rw [htrace] at hrules
  rw [htop] at hworth
  exact ⟨parse, tree, hrun, haccepted, htrace, hmost, hrules,
    hvalue.trans (Option.some.inj hworth)⟩

end GrammarInduction.Population
