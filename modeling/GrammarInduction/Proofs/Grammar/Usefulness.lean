import GrammarInduction.Proofs.Grammar.Closure
import GrammarInduction.Proofs.Grammar.Derivation

/-!
# What the closures of a grammar stand for

A symbol is productive if a rule expands it to symbols that are all productive, and the universal symbol
is taken to be.  It is reachable if it is the starting symbol or stands in the body of a rule with a
reachable parent.  These are the least such sets, and the closures compute them.

* `RuleSet.Productive`, `RuleSet.Reachable` — the two properties, each by one rule at a time;
* `RuleSet.mem_productive`, `RuleSet.mem_reachable` — the closures are exact;
* `RuleSet.mem_unproductiveRules`, `RuleSet.mem_unreachableRules` — so are the lists of useless rules;
* `RuleSet.Derives.productive`, `RuleSet.Productive.exists_derives` — without a universal symbol the
  productive symbols are those that derive something.
-/

namespace GrammarInduction

/-- The symbols that a body is expanded further to: both of a pair, none for a terminal. -/
def Body.children : Body → List Symbol
  | .pair left right => [left, right]
  | .terminal _ => []

namespace RuleSet

variable {s s' : RuleSet} {universal? : Option Symbol} {start x : Symbol} {r : Rule} {set : SymbolSet}

/-- A symbol is productive if it is the universal one, or the parent of a rule whose children are
productive. -/
inductive Productive (s : RuleSet) (universal? : Option Symbol) : Symbol → Prop
  | universal {x : Symbol} (set : universal? = some x) : Productive s universal? x
  | rule {r : Rule} (stored : s.contains r = true)
      (children : ∀ y ∈ r.body.children, Productive s universal? y) :
      Productive s universal? r.parent

/-- A symbol is reachable if it is the starting symbol, or a child of a rule whose parent is
reachable. -/
inductive Reachable (s : RuleSet) (start : Symbol) : Symbol → Prop
  | start : Reachable s start start
  | child {r : Rule} {y : Symbol} (stored : s.contains r = true)
      (parent : Reachable s start r.parent) (mem : y ∈ r.body.children) : Reachable s start y

theorem mem_rules_iff_contains : r ∈ s.rules ↔ s.contains r = true :=
  mem_rules.trans contains_iff.symm

/-! ## What one turn of a rule adds -/

theorem childrenIn_iff (set : SymbolSet) (b : Body) :
    childrenIn set b = true ↔ ∀ y ∈ b.children, y ∈ set := by
  cases b with
  | terminal t => simp [childrenIn, Body.children]
  | pair l r => simp [childrenIn, Body.children]

theorem mem_insert_iff (set : SymbolSet) (x y : Symbol) : x ∈ set.insert y ↔ x ∈ set ∨ x = y := by
  rw [Std.TreeSet.mem_insert, Std.LawfulEqCmp.compare_eq_iff_eq, or_comm, eq_comm]

/-- A rule adds its parent once its children are there. -/
theorem contributes_addParent :
    SymbolSet.Contributes (fun r => r.body.children) (fun r => [r.parent]) addParent := by
  intro set r x
  unfold addParent
  split
  · rename_i hchildren
    have hneeds := (childrenIn_iff set r.body).mp hchildren
    rw [mem_insert_iff, List.mem_singleton]
    exact or_congr_right ⟨fun hx => ⟨hneeds, hx⟩, fun hx => hx.2⟩
  · rename_i hchildren
    have hneeds := mt (childrenIn_iff set r.body).mpr hchildren
    exact ⟨Or.inl, fun hx => hx.resolve_right fun hand => hneeds hand.1⟩

/-- A rule adds its children once its parent is there. -/
theorem contributes_addChildren :
    SymbolSet.Contributes (fun r => [r.parent]) (fun r => r.body.children) addChildren := by
  intro set r x
  obtain ⟨parent, body⟩ := r
  cases body with
  | terminal t => simp [addChildren, Body.children]
  | pair left right =>
      unfold addChildren
      dsimp only
      split
      · rename_i hparent
        have hneeds : parent ∈ set := Std.TreeSet.mem_iff_contains.mpr hparent
        rw [mem_insert_iff, mem_insert_iff, or_assoc]
        simp [Body.children, hneeds]
      · rename_i hparent
        have hneeds : parent ∉ set := mt Std.TreeSet.mem_iff_contains.mp hparent
        simp [hneeds]

/-- A rule adds its parent whatever there is. -/
theorem contributes_insert :
    SymbolSet.Contributes (fun _ => []) (fun r => [r.parent]) fun set r => set.insert r.parent := by
  intro set r x
  rw [mem_insert_iff]
  simp

theorem length_flatMap_le (gives : Rule → List Symbol) {k : Nat} (h : ∀ r, (gives r).length ≤ k)
    (rules : List Rule) : (rules.flatMap gives).length ≤ k * rules.length := by
  induction rules with
  | nil => exact Nat.zero_le _
  | cons r rules ih =>
      have hr := h r
      rw [List.flatMap_cons, List.length_append, List.length_cons, Nat.mul_succ]
      omega

/-! ## The closures -/

/-- The symbols of the seed are the universal one and the parents of terminal rules. -/
theorem mem_leaves :
    x ∈ s.terminalRules.foldl (fun set r => set.insert r.parent) (Std.TreeSet.ofList universal?.toList)
      ↔ universal? = some x ∨ ∃ r ∈ s.terminalRules, r.parent = x := by
  constructor
  · intro hx
    rcases contributes_insert.origin hx with huniversal | hparent
    · rw [Std.TreeSet.mem_ofList] at huniversal
      exact Or.inl (by simpa using huniversal)
    · obtain ⟨r, hr, hx⟩ := List.mem_flatMap.mp hparent
      exact Or.inr ⟨r, hr, (List.mem_singleton.mp hx).symm⟩
  · intro hx
    rcases hx with huniversal | ⟨r, hr, rfl⟩
    · apply contributes_insert.mem_foldl
      rw [Std.TreeSet.mem_ofList]
      simpa using huniversal
    · exact contributes_insert.given hr (fun _ hy => nomatch hy) (List.mem_singleton_self _)

theorem length_pairRules_le (s : RuleSet) : s.pairRules.length ≤ s.size := by
  rw [← length_rules]
  exact s.pairRules_sublist.length_le

/-- **The productive closure is exact.** -/
theorem mem_productive : x ∈ s.productive universal? ↔ s.Productive universal? x := by
  have hrounds : (s.pairRules.flatMap fun r => [r.parent]).length < 2 * s.size + 2 := by
    have hgiven := length_flatMap_le (fun r => [r.parent]) (fun _ => Nat.le_refl 1) s.pairRules
    have hpairs := length_pairRules_le s
    omega
  unfold productive
  dsimp only
  rw [SymbolSet.mem_close_iff contributes_addParent hrounds]
  constructor
  · intro hfollows
    induction hfollows with
    | seed hseed =>
        rcases mem_leaves.mp hseed with huniversal | ⟨r, hr, rfl⟩
        · exact .universal huniversal
        · obtain ⟨hmem, hterminal⟩ := mem_terminalRules.mp hr
          apply Productive.rule (mem_rules_iff_contains.mp hmem)
          intro y hy
          obtain ⟨parent, body⟩ := r
          cases body with
          | terminal t => cases hy
          | pair left right => cases hterminal
    | rule listed _ given ih =>
        cases List.mem_singleton.mp given
        exact .rule (mem_rules_iff_contains.mp (mem_pairRules.mp listed).1) ih
  · intro hproductive
    induction hproductive with
    | universal hset => exact .seed (mem_leaves.mpr (Or.inl hset))
    | @rule r stored _ ih =>
        have hmem := mem_rules_iff_contains.mpr stored
        cases hterminal : r.isTerminal with
        | true =>
            have hr : r ∈ s.terminalRules := mem_terminalRules.mpr ⟨hmem, hterminal⟩
            exact .seed (mem_leaves.mpr (Or.inr ⟨r, hr, rfl⟩))
        | false =>
            have hr : r ∈ s.pairRules := mem_pairRules.mpr ⟨hmem, hterminal⟩
            exact .rule hr ih (List.mem_singleton_self _)

/-- **The reachable closure is exact.** -/
theorem mem_reachable : x ∈ s.reachable start ↔ s.Reachable start x := by
  have hrounds : (s.rules.flatMap fun r => r.body.children).length < 2 * s.size + 2 := by
    have hchildren : ∀ r : Rule, r.body.children.length ≤ 2 := by
      intro r
      cases r.body <;> simp [Body.children]
    have hgiven := length_flatMap_le _ hchildren s.rules
    rw [length_rules] at hgiven
    omega
  unfold reachable
  rw [SymbolSet.mem_close_iff contributes_addChildren hrounds]
  constructor
  · intro hfollows
    induction hfollows with
    | seed hseed =>
        rw [Std.TreeSet.mem_ofList] at hseed
        cases List.mem_singleton.mp (List.contains_iff_mem.mp hseed)
        exact .start
    | rule listed _ given ih =>
        exact .child (mem_rules_iff_contains.mp listed) (ih _ (List.mem_singleton_self _)) given
  · intro hreachable
    induction hreachable with
    | start =>
        apply SymbolSet.Follows.seed
        rw [Std.TreeSet.mem_ofList]
        simp
    | child stored _ mem ih =>
        apply SymbolSet.Follows.rule (mem_rules_iff_contains.mpr stored) _ mem
        intro y hy
        cases List.mem_singleton.mp hy
        exact ih

/-! ## Useless rules -/

/-- The unproductive rules are the stored ones with a child that is not productive. -/
theorem mem_unproductiveRules : r ∈ s.unproductiveRules universal?
    ↔ s.contains r = true ∧ ¬ ∀ y ∈ r.body.children, s.Productive universal? y := by
  have hchildren : childrenIn (s.productive universal?) r.body = true
      ↔ ∀ y ∈ r.body.children, s.Productive universal? y := by
    rw [childrenIn_iff]
    exact forall₂_congr fun y _ => mem_productive
  unfold unproductiveRules
  dsimp only
  rw [List.mem_filter, mem_pairRules, mem_rules_iff_contains, ← hchildren, Bool.not_eq_true',
    Bool.not_eq_true]
  constructor
  · intro hr
    exact ⟨hr.1.1, hr.2⟩
  · intro hr
    obtain ⟨parent, body⟩ := r
    cases body with
    | pair left right => exact ⟨⟨hr.1, rfl⟩, hr.2⟩
    | terminal t => cases hr.2

/-- The unreachable rules are the stored ones with a parent that is not reachable. -/
theorem mem_unreachableRules : r ∈ s.unreachableRules start
    ↔ s.contains r = true ∧ ¬ s.Reachable start r.parent := by
  unfold unreachableRules
  dsimp only
  rw [List.mem_filter, mem_rules_iff_contains, Bool.not_eq_true', ← Bool.not_eq_true,
    ← mem_reachable, Std.TreeSet.mem_iff_contains]

/-! ## Productive symbols and derivations -/

/-- What derives a list of symbols is productive. -/
theorem Derives.productive {w : List Symbol} (h : s.Derives x w) : s.Productive universal? x := by
  induction h with
  | terminal stored => exact .rule stored fun _ hy => nomatch hy
  | pair stored _ _ ihl ihr =>
      apply Productive.rule stored
      intro y hy
      rcases List.mem_cons.mp hy with rfl | hy
      · exact ihl
      · cases List.mem_singleton.mp hy
        exact ihr

/-- Without a universal symbol, what is productive derives a list of symbols. -/
theorem Productive.exists_derives (h : s.Productive none x) : ∃ w, s.Derives x w := by
  induction h with
  | universal hset => cases hset
  | @rule r stored _ ih =>
      obtain ⟨parent, body⟩ := r
      cases body with
      | terminal t => exact ⟨[t], .terminal stored⟩
      | pair left right =>
          obtain ⟨u, hu⟩ := ih left List.mem_cons_self
          obtain ⟨v, hv⟩ := ih right (List.mem_cons_of_mem _ List.mem_cons_self)
          exact ⟨u ++ v, .pair stored hu hv⟩

end RuleSet

end GrammarInduction
