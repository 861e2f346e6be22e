import GrammarInduction.Proofs.Grammar.Pruning

/-!
# Where rules occur in derivations

A rule occurs in a derivation of a list of symbols if some tree for that list has a node with the rule.
In a tidy set without a universal symbol every rule does so from the starting symbol on: its children
derive something, and above it stands a chain of rules up to the start, whose other children derive
something too.

* `RuleSet.Occurs` — a rule occurs in some derivation;
* `RuleSet.Tidy.exists_occurs` — in a tidy set every rule occurs in a derivation of a sentence.
-/

namespace GrammarInduction.RuleSet

variable {s : RuleSet} {start x : Symbol} {u : List Symbol} {q : Rule}

/-- A rule occurs in some derivation of a list of symbols from a symbol: as the first rule of it, or
in the derivation of the left or of the right part. -/
inductive Occurs (s : RuleSet) : Symbol → List Symbol → Rule → Prop
  | terminal {x t : Symbol} (stored : s.contains (.terminal x t) = true) :
      Occurs s x [t] (.terminal x t)
  | pair {x l r : Symbol} {u v : List Symbol} (stored : s.contains (.pair x l r) = true)
      (left : s.Derives l u) (right : s.Derives r v) : Occurs s x (u ++ v) (.pair x l r)
  | left {x l r : Symbol} {u v : List Symbol} {q : Rule}
      (stored : s.contains (.pair x l r) = true) (left : Occurs s l u q) (right : s.Derives r v) :
      Occurs s x (u ++ v) q
  | right {x l r : Symbol} {u v : List Symbol} {q : Rule}
      (stored : s.contains (.pair x l r) = true) (left : s.Derives l u) (right : Occurs s r v q) :
      Occurs s x (u ++ v) q

theorem Occurs.derives (h : s.Occurs x u q) : s.Derives x u := by
  induction h with
  | terminal stored => exact .terminal stored
  | pair stored left right => exact .pair stored left right
  | left stored _ right ih => exact .pair stored ih right
  | right stored left _ ih => exact .pair stored left ih

namespace Tidy

variable (h : s.Tidy none start)

include h

/-- Both children of a rule derive something. -/
theorem exists_derives_children {x l r : Symbol} (stored : s.contains (.pair x l r) = true) :
    (∃ u, s.Derives l u) ∧ ∃ v, s.Derives r v := by
  have hchildren := h.productive _ stored
  have hl := hchildren l List.mem_cons_self
  have hr := hchildren r (List.mem_cons_of_mem _ List.mem_cons_self)
  exact ⟨hl.exists_derives, hr.exists_derives⟩

/-- A rule occurs in a derivation from its parent. -/
theorem exists_occurs_parent (hq : s.contains q = true) : ∃ u, s.Occurs q.parent u q := by
  obtain ⟨parent, body⟩ := q
  cases body with
  | terminal t => exact ⟨[t], .terminal hq⟩
  | pair l r =>
      obtain ⟨⟨u, hu⟩, v, hv⟩ := h.exists_derives_children hq
      exact ⟨u ++ v, .pair hq hu hv⟩

/-- What occurs in a derivation from a reachable symbol occurs in one from the starting symbol. -/
theorem exists_occurs_start (hx : s.Reachable start x) (hq : s.Occurs x u q) :
    ∃ w, s.Occurs start w q := by
  induction hx generalizing u with
  | start => exact ⟨u, hq⟩
  | @child r y stored _ mem ih =>
      -- The sibling of the symbol derives something, and so the parent derives more.
      obtain ⟨parent, body⟩ := r
      cases body with
      | terminal t => cases mem
      | pair left right =>
          obtain ⟨⟨v, hv⟩, w, hw⟩ := h.exists_derives_children stored
          rcases List.mem_cons.mp mem with rfl | hright
          · exact ih (.left stored hq hw)
          · cases List.mem_singleton.mp hright
            exact ih (.right stored hv hq)

/-- **In a tidy set every rule occurs in a derivation of a sentence.** -/
theorem exists_occurs (hq : s.contains q = true) : ∃ w, s.Occurs start w q := by
  obtain ⟨u, hu⟩ := h.exists_occurs_parent hq
  exact h.exists_occurs_start (h.reachable q hq) hu

end Tidy

end GrammarInduction.RuleSet
