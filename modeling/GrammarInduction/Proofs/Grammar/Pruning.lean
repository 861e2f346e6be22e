import GrammarInduction.Proofs.Grammar.Usefulness

/-!
# Pruning a rule set

Rules are pruned in two passes.  The first keeps the rules whose children are productive, and the second,
of those, the rules whose parent is reachable.  A derivation uses only rules of the first kind, and one
that starts from a reachable symbol only rules of the second, so neither pass takes anything away from
the language.  What the second pass removes was not needed to make any reachable symbol productive, so
what is left is tidy: a third pass would find nothing.

* `RuleSet.ProductivePart`, `RuleSet.ReachablePart` — what the passes leave;
* `RuleSet.ProductivePart.derives_iff`, `RuleSet.ReachablePart.derives_iff` — derivations survive;
* `RuleSet.tidy_of_parts` — the two passes in this order leave a tidy set;
* `RuleSet.pruned` — what they leave, with `RuleSet.tidy_pruned`, `RuleSet.derives_pruned` and
  `RuleSet.pruned_pruned` to say that it is tidy, derives the same and is left alone by two more passes.
-/

namespace GrammarInduction.RuleSet

variable {s s₁ s₂ : RuleSet} {universal? : Option Symbol} {start x : Symbol} {w : List Symbol}

/-- The rules of `s` whose children are productive. -/
def ProductivePart (s s₁ : RuleSet) (universal? : Option Symbol) : Prop :=
  ∀ r, s₁.contains r = true
    ↔ s.contains r = true ∧ ∀ y ∈ r.body.children, s.Productive universal? y

/-- The rules of `s` whose parent is reachable. -/
def ReachablePart (s s₁ : RuleSet) (start : Symbol) : Prop :=
  ∀ r, s₁.contains r = true ↔ s.contains r = true ∧ s.Reachable start r.parent

/-- Every rule has productive children and a reachable parent. -/
structure Tidy (s : RuleSet) (universal? : Option Symbol) (start : Symbol) : Prop where
  productive : ∀ r, s.contains r = true → ∀ y ∈ r.body.children, s.Productive universal? y
  reachable : ∀ r, s.contains r = true → s.Reachable start r.parent

/-! ## The first pass -/

namespace ProductivePart

/-- A derivation uses only rules with productive children. -/
theorem derives_iff (h : ProductivePart s s₁ universal?) : s₁.Derives x w ↔ s.Derives x w := by
  constructor
  · intro hderives
    exact hderives.mono fun r hr => ((h r).mp hr).1
  · intro hderives
    induction hderives with
    | terminal stored =>
        have hkept := (h _).mpr ⟨stored, fun y hy => nomatch hy⟩
        exact .terminal hkept
    | @pair x l r u v stored left right ihl ihr =>
        have hchildren : ∀ y ∈ (Rule.pair x l r).body.children, s.Productive universal? y := by
          intro y hy
          rcases List.mem_cons.mp hy with rfl | hy
          · exact left.productive
          · cases List.mem_singleton.mp hy
            exact right.productive
        have hkept := (h _).mpr ⟨stored, hchildren⟩
        exact .pair hkept ihl ihr

/-- What is productive stays so. -/
theorem productive (h : ProductivePart s s₁ universal?) (hx : s.Productive universal? x) :
    s₁.Productive universal? x := by
  induction hx with
  | universal hset => exact .universal hset
  | rule stored children ih => exact .rule ((h _).mpr ⟨stored, children⟩) ih

end ProductivePart

/-! ## The second pass -/

namespace ReachablePart

/-- A derivation from a reachable symbol uses only rules with a reachable parent. -/
theorem derives_iff (h : ReachablePart s s₁ start) (hx : s.Reachable start x) :
    s₁.Derives x w ↔ s.Derives x w := by
  constructor
  · intro hderives
    exact hderives.mono fun r hr => ((h r).mp hr).1
  · intro hderives
    induction hderives with
    | terminal stored => exact .terminal ((h _).mpr ⟨stored, hx⟩)
    | @pair x l r u v stored _ _ ihl ihr =>
        have hl : s.Reachable start l := .child stored hx List.mem_cons_self
        have hr : s.Reachable start r := .child stored hx (List.mem_cons_of_mem _ List.mem_cons_self)
        exact .pair ((h _).mpr ⟨stored, hx⟩) (ihl hl) (ihr hr)

/-- What is reachable and productive stays productive. -/
theorem productive (h : ReachablePart s s₁ start) (hproductive : s.Productive universal? x)
    (hx : s.Reachable start x) : s₁.Productive universal? x := by
  induction hproductive with
  | universal hset => exact .universal hset
  | rule stored _ ih =>
      apply Productive.rule ((h _).mpr ⟨stored, hx⟩)
      intro y hy
      exact ih y hy (.child stored hx hy)

/-- What is reachable stays so. -/
theorem reachable (h : ReachablePart s s₁ start) (hx : s.Reachable start x) :
    s₁.Reachable start x := by
  induction hx with
  | start => exact .start
  | child stored parent mem ih => exact .child ((h _).mpr ⟨stored, parent⟩) ih mem

end ReachablePart

/-! ## Both passes -/

/-- **The two passes leave a tidy set.**  The second pass takes no rule away that a child of a remaining
rule is productive by. -/
theorem tidy_of_parts (h : ProductivePart s s₁ universal?) (h' : ReachablePart s₁ s₂ start) :
    s₂.Tidy universal? start where
  productive r hr y hy := by
    obtain ⟨hr₁, hparent⟩ := (h' r).mp hr
    have hproductive := ((h r).mp hr₁).2 y hy
    have hreachable : s₁.Reachable start y := .child hr₁ hparent hy
    exact h'.productive (h.productive hproductive) hreachable
  reachable r hr := h'.reachable ((h' r).mp hr).2

/-- A tidy set has no rule to prune. -/
theorem Tidy.nothing_useless (h : s.Tidy universal? start) :
    s.unproductiveRules universal? = [] ∧ s.unreachableRules start = [] := by
  constructor
  · apply List.eq_nil_iff_forall_not_mem.mpr
    intro r hr
    obtain ⟨hstored, hnot⟩ := mem_unproductiveRules.mp hr
    exact hnot (h.productive r hstored)
  · apply List.eq_nil_iff_forall_not_mem.mpr
    intro r hr
    obtain ⟨hstored, hnot⟩ := mem_unreachableRules.mp hr
    exact hnot (h.reachable r hstored)

/-! ## What is left -/

/-- Of the stored rules, those that are not listed stay. -/
theorem contains_foldl_erase {rules : List Rule} {q : Rule} :
    (rules.foldl erase s).contains q = true ↔ s.contains q = true ∧ q ∉ rules := by
  induction rules generalizing s with
  | nil => simp
  | cons r rules ih => rw [List.foldl_cons, ih, contains_erase, List.mem_cons, not_or, and_assoc]

/-- Where the stored rules without a property are listed, those with the property stay. -/
theorem contains_foldl_erase_of {rules : List Rule} {P : Rule → Prop}
    (hlisted : ∀ q, q ∈ rules ↔ s.contains q = true ∧ ¬ P q) (q : Rule) :
    (rules.foldl erase s).contains q = true ↔ s.contains q = true ∧ P q := by
  rw [contains_foldl_erase, hlisted]
  apply and_congr_right
  intro hstored
  rw [not_and, Classical.not_not]
  exact ⟨fun h => h hstored, fun h _ => h⟩

/-- The rules that both passes leave. -/
def pruned (s : RuleSet) (universal? : Option Symbol) (start : Symbol) : RuleSet :=
  let first := (s.unproductiveRules universal?).foldl erase s
  (first.unreachableRules start).foldl erase first

variable (s universal? start)

/-- The first pass leaves the rules with productive children. -/
theorem productivePart_foldl_erase :
    ProductivePart s ((s.unproductiveRules universal?).foldl erase s) universal? :=
  contains_foldl_erase_of fun _ => mem_unproductiveRules

/-- The second pass leaves the rules with a reachable parent. -/
theorem reachablePart_foldl_erase :
    ReachablePart s ((s.unreachableRules start).foldl erase s) start :=
  contains_foldl_erase_of fun _ => mem_unreachableRules

/-- What is left is tidy. -/
theorem tidy_pruned : (s.pruned universal? start).Tidy universal? start :=
  tidy_of_parts (s.productivePart_foldl_erase universal?) (reachablePart_foldl_erase _ start)

/-- The same sentences are derived as before. -/
theorem derives_pruned : (s.pruned universal? start).Derives start w ↔ s.Derives start w :=
  ((reachablePart_foldl_erase _ start).derives_iff .start).trans
    (s.productivePart_foldl_erase universal?).derives_iff

/-- A tidy set is left as it is, so what is left once is left again. -/
theorem pruned_pruned :
    (s.pruned universal? start).pruned universal? start = s.pruned universal? start := by
  obtain ⟨hproductive, hreachable⟩ := (s.tidy_pruned universal? start).nothing_useless
  have hfirst : ((s.pruned universal? start).unproductiveRules universal?).foldl erase
      (s.pruned universal? start) = s.pruned universal? start := by
    rw [hproductive]
    rfl
  rw [pruned, hfirst, hreachable]
  rfl

end GrammarInduction.RuleSet
