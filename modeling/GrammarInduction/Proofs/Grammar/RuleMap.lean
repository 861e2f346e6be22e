import GrammarInduction.Grammar.Rule
import Std.Data.TreeMap

/-!
# Maps of rules

Weights, probabilities and counters are kept in maps by rule, and what concerns a parent is found among
the entries of its rules.  These depend on the values of these rules alone, and a rule that is given
another value changes its own entry.

* `RuleMap.entries` — the entries of one parent;
* `RuleMap.entries_congr`, `RuleMap.entries_eq_map` — they depend on the values of its rules;
* `RuleMap.entries_perm_erase`, `RuleMap.entries_perm_insert` — the entry of one rule and all others.
-/

namespace GrammarInduction.RuleMap

variable {β γ ι : Type}

/-- The entries of one parent, in rule order. -/
def entries (m : Std.TreeMap Rule β) (parent : Symbol) : List (Rule × β) :=
  m.toList.filter fun entry => decide (entry.1.parent = parent)

theorem mem_entries {m : Std.TreeMap Rule β} {parent : Symbol} {r : Rule} {x : β} :
    (r, x) ∈ entries m parent ↔ m[r]? = some x ∧ r.parent = parent := by
  simp [entries, Std.TreeMap.mem_toList_iff_getElem?_eq_some]

theorem entries_pairwise (m : Std.TreeMap Rule β) (parent : Symbol) :
    (entries m parent).Pairwise fun a b => compare a.1 b.1 = .lt :=
  Std.TreeMap.ordered_keys_toList.filter _

theorem nodup_of_pairwise_lt {entries : List (Rule × β)}
    (h : entries.Pairwise fun a b => compare a.1 b.1 = .lt) : entries.Nodup := by
  apply h.imp
  intro a b hab heq
  rw [heq, Std.LawfulEqOrd.compare_eq_iff_eq.mpr rfl] at hab
  cases hab

/-- Where one map has the values of another under `f`, so have its entries. -/
theorem entries_eq_map {m : Std.TreeMap Rule β} {n : Std.TreeMap Rule γ} {f : β → γ}
    {parent : Symbol} (h : ∀ r : Rule, r.parent = parent → n[r]? = m[r]?.map f) :
    entries n parent = (entries m parent).map fun entry => (entry.1, f entry.2) := by
  have hleft := entries_pairwise n parent
  have hright : ((entries m parent).map fun entry => (entry.1, f entry.2)).Pairwise
      fun a b => compare a.1 b.1 = .lt :=
    List.pairwise_map.mpr (entries_pairwise m parent)
  -- Both lists are in rule order, so it is enough that they have the same members.
  apply List.Perm.eq_of_pairwise _ hleft hright
  · apply (List.perm_ext_iff_of_nodup (nodup_of_pairwise_lt hleft)
      (nodup_of_pairwise_lt hright)).mpr
    intro entry
    obtain ⟨r, y⟩ := entry
    simp only [mem_entries, List.mem_map, Prod.exists, Prod.mk.injEq]
    constructor
    · intro hmem
      obtain ⟨hy, hparent⟩ := hmem
      rw [h r hparent, Option.map_eq_some_iff] at hy
      obtain ⟨x, hx, rfl⟩ := hy
      exact ⟨r, x, ⟨hx, hparent⟩, rfl, rfl⟩
    · intro hmem
      obtain ⟨r', x, ⟨hx, hparent⟩, rfl, rfl⟩ := hmem
      rw [h r' hparent, hx]
      exact ⟨rfl, hparent⟩
  · intro a b _ _ hab hba
    rw [Std.OrientedCmp.gt_iff_lt.mpr hab] at hba
    cases hba

/-- The entries of a parent depend on the values of its own rules. -/
theorem entries_congr {m n : Std.TreeMap Rule β} {parent : Symbol}
    (h : ∀ r : Rule, r.parent = parent → n[r]? = m[r]?) : entries n parent = entries m parent := by
  have hsame : ∀ r : Rule, r.parent = parent → n[r]? = m[r]?.map id := by simpa using h
  exact (entries_eq_map hsame).trans (List.map_id _)

theorem getElem?_insert_eq (m : Std.TreeMap Rule β) (r q : Rule) (x : β) :
    (m.insert r x)[q]? = if q = r then some x else m[q]? := by
  rw [Std.TreeMap.getElem?_insert]
  simp only [Std.LawfulEqOrd.compare_eq_iff_eq, eq_comm (a := r)]

theorem getElem?_erase_eq (m : Std.TreeMap Rule β) (r q : Rule) :
    (m.erase r)[q]? = if q = r then none else m[q]? := by
  rw [Std.TreeMap.getElem?_erase]
  simp only [Std.LawfulEqOrd.compare_eq_iff_eq, eq_comm (a := r)]

/-- Without a rule, the entries depend on the values of the others. -/
theorem entries_erase_congr {m n : Std.TreeMap Rule β} {r : Rule}
    (h : ∀ q, q ≠ r → n[q]? = m[q]?) (parent : Symbol) :
    entries (n.erase r) parent = entries (m.erase r) parent := by
  apply entries_congr
  intro q _
  rw [getElem?_erase_eq, getElem?_erase_eq]
  split
  · rfl
  · rename_i hq
    exact h q hq

/-- A rule without value has no entry to erase. -/
theorem entries_erase_of_none {m : Std.TreeMap Rule β} {r : Rule} (h : m[r]? = none)
    (parent : Symbol) : entries (m.erase r) parent = entries m parent := by
  apply entries_congr
  intro q _
  rw [getElem?_erase_eq]
  split
  · rename_i hq
    rw [hq, h]
  · rfl

/-- The entry of a rule stands beside those that are left without it. -/
theorem entries_perm_erase {m : Std.TreeMap Rule β} {r : Rule} {x : β} (h : m[r]? = some x) :
    (entries m r.parent).Perm ((r, x) :: entries (m.erase r) r.parent) := by
  have hfresh : (r, x) ∉ entries (m.erase r) r.parent := by
    rw [mem_entries, getElem?_erase_eq, if_pos rfl]
    exact fun hmem => nomatch hmem.1
  apply (List.perm_ext_iff_of_nodup (nodup_of_pairwise_lt (entries_pairwise m r.parent))
    (List.nodup_cons.mpr ⟨hfresh, nodup_of_pairwise_lt (entries_pairwise _ _)⟩)).mpr
  intro entry
  obtain ⟨q, y⟩ := entry
  rw [List.mem_cons, mem_entries, mem_entries, getElem?_erase_eq, Prod.mk.injEq]
  by_cases hq : q = r
  · subst hq
    simp [h, eq_comm]
  · simp [hq]

/-- So does the entry of a rule that has been given a value. -/
theorem entries_perm_insert (m : Std.TreeMap Rule β) (r : Rule) (x : β) :
    (entries (m.insert r x) r.parent).Perm ((r, x) :: entries (m.erase r) r.parent) := by
  have hvalue : (m.insert r x)[r]? = some x := by rw [getElem?_insert_eq, if_pos rfl]
  have hothers : ∀ q, q ≠ r → (m.insert r x)[q]? = m[q]? := by
    intro q hq
    rw [getElem?_insert_eq, if_neg hq]
  rw [← entries_erase_congr hothers]
  exact entries_perm_erase hvalue

/-- A key has the value of an entry that is inserted for it, or the value that it had if there is none. -/
theorem getElem?_foldl_insert (key : ι → Rule) (value : ι → β) (items : List ι)
    (m : Std.TreeMap Rule β) (q : Rule) :
    (∃ i ∈ items, key i = q
        ∧ (items.foldl (fun m i => m.insert (key i) (value i)) m)[q]? = some (value i))
      ∨ (∀ i ∈ items, key i ≠ q)
        ∧ (items.foldl (fun m i => m.insert (key i) (value i)) m)[q]? = m[q]? := by
  induction items generalizing m with
  | nil => exact Or.inr ⟨fun i hi => absurd hi List.not_mem_nil, rfl⟩
  | cons i items ih =>
      rw [List.foldl_cons]
      rcases ih (m.insert (key i) (value i)) with ⟨j, hj, hkey, hvalue⟩ | ⟨hnone, hvalue⟩
      · exact Or.inl ⟨j, List.mem_cons_of_mem i hj, hkey, hvalue⟩
      · rw [getElem?_insert_eq] at hvalue
        by_cases hkey : key i = q
        · rw [if_pos hkey.symm] at hvalue
          exact Or.inl ⟨i, List.mem_cons_self, hkey, hvalue⟩
        · rw [if_neg (Ne.symm hkey)] at hvalue
          refine Or.inr ⟨?_, hvalue⟩
          intro j hj
          rcases List.mem_cons.mp hj with rfl | hrest
          · exact hkey
          · exact hnone j hrest

end GrammarInduction.RuleMap
