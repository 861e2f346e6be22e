import GrammarInduction.Grammar.RuleSet

/-!
# Derivations

A symbol derives a list of symbols by the rules of a set: a terminal rule derives its terminal, and a
pair rule derives what its first symbol derives followed by what its second symbol derives.  This is
what a chart is compared with.

A stretch of a sentence is what one cell of its chart covers.  The main facts:

* `stretch_append` — a stretch of several symbols falls into two shorter stretches at each of its
  splits, and these are all the ways to cut it in two;
* `RuleSet.derives_stretch_succ` — so a symbol derives it exactly if a pair rule joins two symbols that
  derive the parts of some split;
* `RuleSet.Derives.mono` — more rules derive at least as much.
-/

namespace GrammarInduction

/-- The `row + 1` symbols of a list from column `col` on, as far as there are so many. -/
def stretch (w : List Symbol) (row col : Nat) : List Symbol := (w.drop col).take (row + 1)

section Stretch

variable {w u v : List Symbol} {row col shift : Nat} {t : Symbol}

theorem length_stretch (h : row + col < w.length) : (stretch w row col).length = row + 1 := by
  rw [stretch, List.length_take, List.length_drop]
  omega

theorem stretch_zero (h : w[col]? = some t) : stretch w 0 col = [t] := by
  obtain ⟨hcol, rfl⟩ := List.getElem?_eq_some_iff.mp h
  rw [stretch, List.drop_eq_getElem_cons hcol, List.take_succ_cons, List.take_zero]

/-- The longest stretch is the whole list. -/
theorem stretch_top (h : w ≠ []) : stretch w (w.length - 1) 0 = w := by
  have hpos := List.length_pos_iff.mpr h
  rw [stretch, List.drop_zero, List.take_of_length_le (by omega)]

/-- A stretch falls into two at each of its splits. -/
theorem stretch_append (w : List Symbol) (col : Nat) (h : shift < row) :
    stretch w row col
      = stretch w shift col ++ stretch w (row - shift - 1) (col + shift + 1) := by
  have hrow : row + 1 = (shift + 1) + (row - shift - 1 + 1) := by omega
  rw [stretch, stretch, stretch, hrow, List.take_add, List.drop_drop, Nat.add_assoc]

/-- Whoever cuts a stretch into two parts that are not empty cuts it at one of its splits. -/
theorem exists_split_of_append (h : row + col < w.length) (hu : u ≠ []) (hv : v ≠ [])
    (huv : u ++ v = stretch w row col) :
    ∃ shift < row, u = stretch w shift col ∧ v = stretch w (row - shift - 1) (col + shift + 1) := by
  have hlength := congrArg List.length huv
  rw [List.length_append, length_stretch h] at hlength
  have hulength := List.length_pos_iff.mpr hu
  have hvlength := List.length_pos_iff.mpr hv
  have hshift : u.length - 1 < row := by omega
  have hfirst : (stretch w (u.length - 1) col).length = u.length := by
    rw [length_stretch (by omega)]
    omega
  rw [stretch_append w col hshift] at huv
  obtain ⟨hleft, hright⟩ := List.append_inj huv hfirst.symm
  exact ⟨u.length - 1, hshift, hleft, hright⟩

end Stretch

namespace RuleSet

/-- A symbol derives a list of symbols by stored rules. -/
inductive Derives (s : RuleSet) : Symbol → List Symbol → Prop
  | terminal {x t : Symbol} (stored : s.contains (.terminal x t) = true) : Derives s x [t]
  | pair {x l r : Symbol} {u v : List Symbol} (stored : s.contains (.pair x l r) = true)
      (left : Derives s l u) (right : Derives s r v) : Derives s x (u ++ v)

variable {s s' : RuleSet} {x t : Symbol} {w u : List Symbol} {row col : Nat}

theorem contains_terminal_iff :
    s.contains (.terminal x t) = true ↔ s.owner? (.terminal t) = some x :=
  contains_iff

theorem contains_pair_iff {l r : Symbol} :
    s.contains (.pair x l r) = true ↔ s.owner? (.pair l r) = some x :=
  contains_iff

theorem Derives.ne_nil (h : s.Derives x u) : u ≠ [] := by
  induction h with
  | terminal => exact List.cons_ne_nil _ _
  | pair _ _ _ ihl _ => exact fun h => ihl (List.append_eq_nil_iff.mp h).1

/-- More rules derive at least as much. -/
theorem Derives.mono (hsub : ∀ r, s.contains r = true → s'.contains r = true)
    (h : s.Derives x u) : s'.Derives x u := by
  induction h with
  | terminal stored => exact .terminal (hsub _ stored)
  | pair stored _ _ ihl ihr => exact .pair (hsub _ stored) ihl ihr

/-- A single symbol is derived by its terminal rule alone. -/
theorem derives_singleton_iff : s.Derives x [t] ↔ s.owner? (.terminal t) = some x := by
  constructor
  · intro h
    generalize hu : [t] = u at h
    cases h with
    | terminal stored =>
        cases hu
        exact contains_terminal_iff.mp stored
    | @pair _ l r u v stored left right =>
        -- A pair derives at least two symbols.
        have hlength := congrArg List.length hu
        have hleft := List.length_pos_iff.mpr left.ne_nil
        have hright := List.length_pos_iff.mpr right.ne_nil
        rw [List.length_append, List.length_singleton] at hlength
        omega
  · exact fun h => .terminal (contains_terminal_iff.mpr h)

/-- A stretch of several symbols is derived by joining what is derived over the parts of a split. -/
theorem derives_stretch_succ (h : row + 1 + col < w.length) :
    s.Derives x (stretch w (row + 1) col) ↔ ∃ shift < row + 1, ∃ l r,
      s.Derives l (stretch w shift col)
        ∧ s.Derives r (stretch w (row + 1 - shift - 1) (col + shift + 1))
        ∧ s.owner? (.pair l r) = some x := by
  constructor
  · intro hx
    generalize hu : stretch w (row + 1) col = u at hx
    cases hx with
    | terminal stored =>
        have hlength := congrArg List.length hu
        rw [length_stretch h, List.length_singleton] at hlength
        omega
    | @pair _ l r u v stored left right =>
        obtain ⟨shift, hshift, rfl, rfl⟩ :=
          exists_split_of_append h left.ne_nil right.ne_nil hu.symm
        exact ⟨shift, hshift, l, r, left, right, contains_pair_iff.mp stored⟩
  · intro hparts
    obtain ⟨shift, hshift, l, r, left, right, howner⟩ := hparts
    rw [stretch_append w col hshift]
    exact .pair (contains_pair_iff.mpr howner) left right

theorem derives_stretch_zero (h : w[col]? = some t) :
    s.Derives x (stretch w 0 col) ↔ s.owner? (.terminal t) = some x := by
  rw [stretch_zero h]
  exact derives_singleton_iff

end RuleSet

end GrammarInduction
