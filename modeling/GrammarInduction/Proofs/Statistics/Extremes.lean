import GrammarInduction.Proofs.Scalar.Double
import GrammarInduction.Proofs.Statistics.Parents

/-!
# Extremes of fertility points

The least and the greatest points are kept with a rule that holds each of them.  Points that change can
pass an extreme on to their rule, and they can leave one without its holder; only then, or when a holder
is no longer tracked, do the extremes have to be searched for.  So a holder is a witness: its points are
as extreme as the bound, and as long as it stays there the bound is attained.

* `Extremes.Held` — a bound of points that a rule attains, for either end;
* `Extremes.Fits` — both extremes are held, or there are no points and both are zero;
* `Extremes.fits_search` — a search finds the extremes;
* `Extremes.Spans.move` — so does a move that needs no search;
* `Statistics.extremes_of_events` — statistics after any sequence of events.
-/

namespace GrammarInduction

variable {α : Type}

namespace Extremes

/-! ## One end -/

section Held

variable {P P' : Rule → α → Prop} {le : α → α → Prop} {bound new : α} {holder : Option Rule} {r : Rule}

/-- A bound that no rule goes beyond and a rule that holds it.  Rules and their points are those of a
relation, and the order is that of numbers for the least points, and its converse for the greatest. -/
structure Held (P : Rule → α → Prop) (le : α → α → Prop) (bound : α) (holder : Option Rule) :
    Prop where
  bounds : ∀ r x, P r x → le bound x
  held : ∃ r x, holder = some r ∧ P r x ∧ le x bound

/-- A rule that goes to the bound or beyond takes it over. -/
theorem Held.take (h : Held P le bound holder)
    (htrans : ∀ {x y z : α}, le x y → le y z → le x z) (hself : le new new) (hnew : le new bound)
    (hrules : ∀ q y, P' q y → P q y ∨ y = new) (hr : P' r new) : Held P' le new (some r) where
  bounds q y hy := by
    rcases hrules q y hy with hbefore | rfl
    · exact htrans hnew (h.bounds q y hbefore)
    · exact hself
  held := ⟨r, new, rfl, hr, hself⟩

/-- A bound stays if no rule goes beyond it and the holder stays where it is. -/
theorem Held.keep (h : Held P le bound holder) (hrules : ∀ q y, P' q y → P q y ∨ le bound y)
    (hholder : ∀ q y, holder = some q → P q y → le y bound → ∃ y', P' q y' ∧ le y' bound) :
    Held P' le bound holder where
  bounds q y hy := (hrules q y hy).elim (h.bounds q y) id
  held := by
    obtain ⟨q, y, hq, hy, hle⟩ := h.held
    obtain ⟨y', hy', hle'⟩ := hholder q y hq hy hle
    exact ⟨q, y', hq, hy', hle'⟩

/-- A rule takes the bound over, or the bound stays where it is. -/
theorem Held.update {c : Prop} [Decidable c] (h : Held P le bound holder)
    (htrans : ∀ {x y z : α}, le x y → le y z → le x z) (hself : le new new)
    (htake : c → le new bound) (hkeep : ¬ c → le bound new)
    (hrules : ∀ q y, P' q y → P q y ∨ y = new) (hr : P' r new)
    (hholder : ¬ c → ∀ q y, holder = some q → P q y → le y bound → ∃ y', P' q y' ∧ le y' bound) :
    Held P' le (if c then new else bound) (if c then some r else holder) := by
  split
  · rename_i hc
    exact h.take htrans hself (htake hc) hrules hr
  · rename_i hc
    apply h.keep _ (hholder hc)
    intro q y hy
    rcases hrules q y hy with hbefore | rfl
    · exact Or.inl hbefore
    · exact Or.inr (hkeep hc)

/-- The relation with one more rule, or with other points for a rule. -/
def Put (P : Rule → α → Prop) (r : Rule) (x : α) : Rule → α → Prop :=
  fun q y => if q = r then y = x else P q y

theorem put_self (P : Rule → α → Prop) (r : Rule) (x : α) : Put P r x r x := by
  rw [Put, if_pos rfl]

theorem put_cases {q : Rule} {x y : α} (h : Put P r x q y) : P q y ∨ y = x := by
  unfold Put at h
  split at h
  · exact Or.inr h
  · exact Or.inl h

/-- The holder stays where it is, unless it is the rule that gets other points. -/
theorem put_holder (le : α → α → Prop) {old : α} (hold : ∀ x, P r x → x = old)
    (hnew : holder = some r → le old bound → le new bound) (q : Rule) (y : α)
    (hq : holder = some q) (hy : P q y) (hle : le y bound) :
    ∃ y', Put P r new q y' ∧ le y' bound := by
  by_cases hqr : q = r
  · subst hqr
    exact ⟨new, put_self P q new, hnew hq (hold y hy ▸ hle)⟩
  · refine ⟨y, ?_, hle⟩
    rw [Put, if_neg hqr]
    exact hy

/-- A rule whose points are as many as before stays on its side of the bound. -/
theorem Held.renew {old : α} (h : Held P le bound holder)
    (htrans : ∀ {x y z : α}, le x y → le y z → le x z) (hr : P r old)
    (hold : ∀ x, P r x → x = old) (hup : le old new) (hdown : le new old) :
    Held (Put P r new) le bound holder := by
  apply h.keep
  · intro q y hy
    rcases put_cases hy with hbefore | rfl
    · exact Or.inl hbefore
    · exact Or.inr (htrans (h.bounds r old hr) hup)
  · exact put_holder le hold fun _ hle => htrans hdown hle

/-- A bound stays without a rule that does not hold it. -/
theorem Held.without (h : Held P le bound holder) (hr : holder ≠ some r) :
    Held (fun q y => q ≠ r ∧ P q y) le bound holder where
  bounds q y hy := h.bounds q y hy.2
  held := by
    obtain ⟨q, y, hq, hy, hle⟩ := h.held
    exact ⟨q, y, hq, ⟨fun heq => hr (heq ▸ hq), hy⟩, hle⟩

end Held

/-! ## Both ends -/

variable [Scalar α] {P P' : Rule → α → Prop} {e e' : Extremes α} {r : Rule} {x old new : α}

/-- Both extremes are held. -/
structure Spans (e : Extremes α) (P : Rule → α → Prop) : Prop where
  low : Held P (fun x y => x ≤ y) e.bounds.low e.lowHolder
  high : Held P (fun x y => y ≤ x) e.bounds.high e.highHolder

/-- Both extremes are held, if there are points, and otherwise they are those of no rule. -/
structure Fits (e : Extremes α) (P : Rule → α → Prop) : Prop where
  spans : ∀ r x, P r x → e.Spans P
  none : (∀ r x, ¬ P r x) → e = Extremes.none

theorem Spans.congr (h : e.Spans P) (hsame : ∀ q y, P' q y ↔ P q y) : e.Spans P' := by
  obtain rfl : P' = P := funext fun q => funext fun y => propext (hsame q y)
  exact h

/-- Extremes that are held are held by a rule that has points. -/
theorem Spans.fits (h : e.Spans P) : e.Fits P where
  spans _ _ _ := h
  none hnone := by
    obtain ⟨q, y, -, hy, -⟩ := h.low.held
    exact absurd hy (hnone q y)

theorem Fits.congr (h : e.Fits P) (hsame : ∀ q y, P' q y ↔ P q y) : e.Fits P' := by
  obtain rfl : P' = P := funext fun q => funext fun y => propext (hsame q y)
  exact h

/-- Extremes stay without a rule that holds neither. -/
theorem Spans.without (h : e.Spans P) (hlow : e.lowHolder ≠ some r) (hhigh : e.highHolder ≠ some r) :
    e.Spans fun q y => q ≠ r ∧ P q y :=
  ⟨h.low.without hlow, h.high.without hhigh⟩

/-- A rule alone holds both. -/
theorem spans_single (r : Rule) (hx : Scalar.IsNumber x) :
    Spans ⟨⟨x, x⟩, some r, some r⟩ fun q y => q = r ∧ y = x where
  low := ⟨fun _ _ hy => hy.2 ▸ hx, r, x, rfl, ⟨rfl, rfl⟩, hx⟩
  high := ⟨fun _ _ hy => hy.2 ▸ hx, r, x, rfl, ⟨rfl, rfl⟩, hx⟩

/-- An extension at both ends. -/
theorem extend_eq (e : Extremes α) (r : Rule) (x : α) :
    e.extend r x = ⟨⟨if x < e.bounds.low then x else e.bounds.low,
        if e.bounds.high < x then x else e.bounds.high⟩,
      if x < e.bounds.low then some r else e.lowHolder,
      if e.bounds.high < x then some r else e.highHolder⟩ := by
  obtain ⟨⟨low, high⟩, lowHolder, highHolder⟩ := e
  simp only [extend]
  grind

/-- A move at both ends, and why it needs no search: at neither end has the holder moved inwards. -/
theorem move?_eq_some (h : e.move? r old new = some e') :
    e' = ⟨⟨if new ≤ e.bounds.low then new else e.bounds.low,
          if e.bounds.high ≤ new then new else e.bounds.high⟩,
        if new ≤ e.bounds.low then some r else e.lowHolder,
        if e.bounds.high ≤ new then some r else e.highHolder⟩
      ∧ (¬ new ≤ e.bounds.low → e.lowHolder = some r → ¬ old < new)
      ∧ (¬ e.bounds.high ≤ new → e.highHolder = some r → ¬ new < old) := by
  obtain ⟨⟨low, high⟩, lowHolder, highHolder⟩ := e
  simp only [move?] at h
  grind

section Ordered

variable [OrderedScalar α]

theorem Spans.isNumber_low (h : e.Spans P) : Scalar.IsNumber e.bounds.low := by
  obtain ⟨_, _, -, -, hle⟩ := h.low.held
  exact OrderedScalar.isNumber_right hle

theorem Spans.isNumber_high (h : e.Spans P) : Scalar.IsNumber e.bounds.high := by
  obtain ⟨_, _, -, -, hle⟩ := h.high.held
  exact OrderedScalar.isNumber_left hle

/-- One more rule of a search. -/
theorem Spans.extend (h : e.Spans P) (r : Rule) (hx : Scalar.IsNumber x) :
    (e.extend r x).Spans fun q y => P q y ∨ q = r ∧ y = x := by
  have hrules : ∀ q y, (P q y ∨ q = r ∧ y = x) → P q y ∨ y = x :=
    fun q y hy => hy.imp_right And.right
  rw [extend_eq]
  constructor
  · apply h.low.update OrderedScalar.le_trans hx OrderedScalar.le_of_lt
      (Scalar.le_of_not_lt hx h.isNumber_low) hrules (Or.inr ⟨rfl, rfl⟩)
    exact fun _ q y _ hy hle => ⟨y, Or.inl hy, hle⟩
  · apply h.high.update (fun hxy hyz => OrderedScalar.le_trans hyz hxy) hx OrderedScalar.le_of_lt
      (Scalar.le_of_not_lt h.isNumber_high hx) hrules (Or.inr ⟨rfl, rfl⟩)
    exact fun _ q y _ hy hle => ⟨y, Or.inl hy, hle⟩

/-- Several more rules of a search. -/
theorem Spans.extend_all {rest : List (Rule × Usage α)} (h : e.Spans P)
    (hrest : ∀ entry ∈ rest, Scalar.IsNumber entry.2.points) :
    (rest.foldl (fun e (s, v) => e.extend s v.points) e).Spans
      fun q y => P q y ∨ ∃ u, (q, u) ∈ rest ∧ u.points = y := by
  induction rest generalizing e P with
  | nil => simpa using h
  | cons entry rest ih =>
      obtain ⟨hentry, hrest⟩ := List.forall_mem_cons.mp hrest
      apply (ih (h.extend entry.1 hentry) hrest).congr
      intro q y
      obtain ⟨r, v⟩ := entry
      grind

/-- **A search finds the extremes.** -/
theorem fits_search {entries : List (Rule × Usage α)}
    (h : ∀ entry ∈ entries, Scalar.IsNumber entry.2.points) :
    (search entries).Fits fun r x => ∃ u, (r, u) ∈ entries ∧ u.points = x := by
  cases entries with
  | nil => exact ⟨fun r x hx => by simp at hx, fun _ => rfl⟩
  | cons entry rest =>
      obtain ⟨hentry, hrest⟩ := List.forall_mem_cons.mp h
      apply Spans.fits
      apply ((spans_single entry.1 hentry).extend_all hrest).congr
      intro q y
      obtain ⟨r, v⟩ := entry
      grind

/-! ### Moves -/

/-- **A move that needs no search finds the extremes.** -/
theorem Spans.move (h : e.Spans P) (hmove : e.move? r old new = some e')
    (hold : ∀ x, P r x → x = old) (hnew : Scalar.IsNumber new) : e'.Spans (Put P r new) := by
  obtain ⟨rfl, hlow, hhigh⟩ := move?_eq_some hmove
  -- A rule that held a bound was there with its old points, and it has not moved inwards from it.
  constructor
  · apply h.low.update OrderedScalar.le_trans hnew id
      (fun hnot => OrderedScalar.le_of_lt (OrderedScalar.lt_of_not_le h.isNumber_low hnew hnot))
      (fun _ _ => put_cases) (put_self P r new)
    intro hnot
    apply put_holder (fun x y => x ≤ y) hold
    intro hholder hle
    have hle' := Scalar.le_of_not_lt (OrderedScalar.isNumber_left hle) hnew (hlow hnot hholder)
    exact OrderedScalar.le_trans hle' hle
  · apply h.high.update (fun hxy hyz => OrderedScalar.le_trans hyz hxy) hnew id
      (fun hnot => OrderedScalar.le_of_lt (OrderedScalar.lt_of_not_le hnew h.isNumber_high hnot))
      (fun _ _ => put_cases) (put_self P r new)
    intro hnot
    apply put_holder (fun x y => y ≤ x) hold
    intro hholder hle
    have hle' := Scalar.le_of_not_lt hnew (OrderedScalar.isNumber_right hle) (hhigh hnot hholder)
    exact OrderedScalar.le_trans hle hle'

/-- Extremes stay when the points of a rule are as many as before. -/
theorem Spans.renew (h : e.Spans P) (hr : P r old) (hold : ∀ x, P r x → x = old)
    (hsame : new ≤ old ∧ old ≤ new) : e.Spans (Put P r new) where
  low := h.low.renew OrderedScalar.le_trans hr hold hsame.2 hsame.1
  high := h.high.renew (fun hxy hyz => OrderedScalar.le_trans hyz hxy) hr hold hsame.1 hsame.2

end Ordered

end Extremes

namespace Statistics

/-! ## The extremes of statistics -/

variable {s t : Statistics α} {r : Rule} {u : Usage α}

/-- A tracked rule with its points. -/
def HasPoints (s : Statistics α) (r : Rule) (x : α) : Prop := ∃ u, s.usage? r = some u ∧ u.points = x

theorem hasPoints_congr (h : t.usages = s.usages) (q : Rule) (y : α) :
    t.HasPoints q y ↔ s.HasPoints q y := by
  rw [HasPoints, HasPoints, usage?, usage?, h]

theorem tracks_iff_hasPoints : s.tracks r = true ↔ ∃ x, s.HasPoints r x := by
  rw [tracks_iff, Option.isSome_iff_exists]
  constructor
  · rintro ⟨u, hu⟩
    exact ⟨u.points, u, hu, rfl⟩
  · rintro ⟨-, u, hu, -⟩
    exact ⟨u, hu⟩

/-- There are points if a rule is tracked. -/
theorem isEmpty_eq_false_iff : s.usages.isEmpty = false ↔ ∃ r x, s.HasPoints r x := by
  rw [Std.TreeMap.isEmpty_eq_false_iff_exists_contains_eq_true]
  exact exists_congr fun r => tracks_iff_hasPoints

variable [Scalar α]

/-- All points are numbers. -/
def Numbered (s : Statistics α) : Prop :=
  ∀ entry ∈ s.usages.toList, Scalar.IsNumber entry.2.points

instance (s : Statistics α) : Decidable s.Numbered :=
  inferInstanceAs (Decidable (∀ entry ∈ s.usages.toList, Scalar.IsNumber entry.2.points))

theorem Numbered.isNumber (h : s.Numbered) (hu : s.usage? r = some u) : Scalar.IsNumber u.points :=
  h (r, u) (Std.TreeMap.mem_toList_iff_getElem?_eq_some.mpr hu)

theorem Numbered.congr (h : s.Numbered) (husages : t.usages = s.usages) : t.Numbered := by
  rw [Numbered, husages]
  exact h

/-- The extremes are those of the points of the tracked rules. -/
def Fitting (s : Statistics α) : Prop := s.extremes.Fits s.HasPoints

/-- The extremes are the least and the greatest points of tracked rules, and zero without rules. -/
structure ExactExtremes (s : Statistics α) : Prop where
  bounds : ∀ r u, s.usage? r = some u →
    s.extremes.bounds.low ≤ u.points ∧ u.points ≤ s.extremes.bounds.high
  least : ∀ r, s.tracks r = true → ∃ q u, s.usage? q = some u
    ∧ s.extremes.bounds.low ≤ u.points ∧ u.points ≤ s.extremes.bounds.low
  greatest : ∀ r, s.tracks r = true → ∃ q u, s.usage? q = some u
    ∧ s.extremes.bounds.high ≤ u.points ∧ u.points ≤ s.extremes.bounds.high
  zero : (∀ r, s.tracks r = false) → s.extremes.bounds = ⟨0, 0⟩

theorem Fitting.exactExtremes (h : s.Fitting) : s.ExactExtremes where
  bounds r u hu := by
    have hspans := h.spans r u.points ⟨u, hu, rfl⟩
    exact ⟨hspans.low.bounds r _ ⟨u, hu, rfl⟩, hspans.high.bounds r _ ⟨u, hu, rfl⟩⟩
  least r hr := by
    obtain ⟨x, hx⟩ := tracks_iff_hasPoints.mp hr
    have hlow := (h.spans r x hx).low
    obtain ⟨q, -, -, ⟨v, hv, rfl⟩, hle⟩ := hlow.held
    exact ⟨q, v, hv, hlow.bounds q _ ⟨v, hv, rfl⟩, hle⟩
  greatest r hr := by
    obtain ⟨x, hx⟩ := tracks_iff_hasPoints.mp hr
    have hhigh := (h.spans r x hx).high
    obtain ⟨q, -, -, ⟨v, hv, rfl⟩, hle⟩ := hhigh.held
    exact ⟨q, v, hv, hle, hhigh.bounds q _ ⟨v, hv, rfl⟩⟩
  zero hnone := by
    have hpoints : ∀ r x, ¬ s.HasPoints r x := by
      intro r x hx
      exact Bool.eq_false_iff.mp (hnone r) (tracks_iff_hasPoints.mpr ⟨x, hx⟩)
    rw [h.none hpoints]
    rfl

theorem fitting_empty (function : Fitness α) : (empty function).Fitting where
  spans r x hx := by
    obtain ⟨u, hu, -⟩ := hx
    cases (Std.TreeMap.getElem?_emptyc.symm.trans hu : none = some u)
  none _ := rfl

/-- Fitness is no points. -/
theorem Fitting.updateFitness (h : s.Fitting) : s.updateFitness.Fitting := by
  apply Extremes.Fits.congr h
  intro q y
  simp only [HasPoints, usage?_updateFitness, Option.map_eq_some_iff]
  grind

variable [CountingScalar α]

theorem fitting_searched (h : s.Numbered) : s.searched.Fitting := by
  apply (Extremes.fits_search h).congr
  intro q y
  simp only [HasPoints, usage?, usages_searched, Std.TreeMap.mem_toList_iff_getElem?_eq_some]

/-- Points of a rule that have changed are taken into account. -/
theorem fitting_moved {old new : α} (h : s.extremes.Spans s.HasPoints)
    (hextremes : t.extremes = s.extremes) (hold : ∀ x, s.HasPoints r x → x = old)
    (hpoints : ∀ q y, (t.moved r old new).HasPoints q y ↔ Extremes.Put s.HasPoints r new q y)
    (hnumbered : (t.moved r old new).Numbered) : (t.moved r old new).Fitting := by
  obtain ⟨u, hu, hx⟩ := (hpoints r new).mpr (Extremes.put_self s.HasPoints r new)
  have hnew : Scalar.IsNumber new := hx ▸ hnumbered.isNumber hu
  have hsame : ∀ q y, t.HasPoints q y ↔ (t.moved r old new).HasPoints q y :=
    hasPoints_congr (usages_moved ..).symm
  unfold moved
  split
  · rename_i e hmove
    rw [hextremes] at hmove
    exact ((h.move hmove hold hnew).congr fun q y => (hsame q y).trans (hpoints q y)).fits
  · exact fitting_searched (hnumbered.congr (usages_moved ..).symm)

/-! ### One event -/

/-- A newcomer has no points yet. -/
theorem Fitting.track (h : s.Fitting) (hnumbered : (s.track r).Numbered) :
    (s.track r).Fitting := by
  by_cases htracked : s.tracks r = true
  · rw [Statistics.track, if_pos htracked]
    exact h
  have hnone : ∀ x, ¬ s.HasPoints r x := by
    intro x hx
    exact htracked (tracks_iff_hasPoints.mpr ⟨x, hx⟩)
  have hpoints : ∀ q y, (s.track r).HasPoints q y ↔ Extremes.Put s.HasPoints r 0 q y := by
    intro q y
    rw [HasPoints, usage?_track, Extremes.Put]
    by_cases hq : q = r
    · simp [hq, htracked, Usage.unused, eq_comm]
    · simp [hq, HasPoints]
  cases hempty : s.usages.isEmpty with
  | true =>
      have hfirst : (s.track r).extremes = ⟨⟨0, 0⟩, some r, some r⟩ := by
        rw [Statistics.track, if_neg htracked, if_pos hempty]
      rw [Fitting, hfirst]
      apply ((Extremes.spans_single r Scalar.isNumber_zero).congr _).fits
      intro q y
      have hnot : ¬ s.HasPoints q y := by
        intro hy
        rw [isEmpty_eq_false_iff.mpr ⟨q, y, hy⟩] at hempty
        cases hempty
      rw [hpoints, Extremes.Put]
      split <;> simp_all
  | false =>
      obtain ⟨q, y, hy⟩ := isEmpty_eq_false_iff.mp hempty
      have hspans : s.extremes.Spans s.HasPoints := h.spans q y hy
      rw [Statistics.track, if_neg htracked, if_neg (Bool.eq_false_iff.mp hempty)] at hpoints hnumbered ⊢
      exact fitting_moved hspans rfl (fun x hx => absurd hx (hnone x)) hpoints hnumbered

theorem Fitting.untrack (h : s.Fitting) (hnumbered : (s.untrack r).Numbered) :
    (s.untrack r).Fitting := by
  cases hu : s.usages[r]? with
  | none =>
      rw [untrack_of_none hu]
      exact h
  | some u =>
      have hrules : ∀ q y, (s.untrack r).HasPoints q y ↔ q ≠ r ∧ s.HasPoints q y := by
        intro q y
        rw [HasPoints, usage?_untrack, HasPoints]
        by_cases hq : q = r
        · simp [hq]
        · simp [hq]
      have hspans : s.extremes.Spans s.HasPoints := h.spans r u.points ⟨u, hu, rfl⟩
      simp only [Statistics.untrack, hu] at hnumbered hrules ⊢
      split
      · rename_i hholder
        rw [if_pos hholder] at hnumbered
        exact fitting_searched hnumbered
      · rename_i hholder
        obtain ⟨hlow, hhigh⟩ := not_or.mp hholder
        rw [if_neg hholder] at hrules
        exact ((hspans.without hlow hhigh).congr hrules).fits

theorem Fitting.recordUse (h : s.Fitting) {label : Label}
    (hnumbered : (s.recordUse r label).Numbered) : (s.recordUse r label).Fitting := by
  cases hu : s.usages[r]? with
  | none =>
      rw [recordUse_of_none hu]
      exact h
  | some u =>
      have hspans : s.extremes.Spans s.HasPoints := h.spans r u.points ⟨u, hu, rfl⟩
      have hold : ∀ x, s.HasPoints r x → x = u.points := by
        intro x hx
        obtain ⟨v, hv, rfl⟩ := hx
        rw [Option.some.inj (hv.symm.trans hu)]
      have hpoints : ∀ q y, (s.recordUse r label).HasPoints q y
          ↔ Extremes.Put s.HasPoints r (u.record s.function label).points q y := by
        intro q y
        rw [HasPoints, usage?_recordUse, Extremes.Put]
        by_cases hq : q = r
        · simp [hq, usage?, hu, eq_comm]
        · simp [hq, HasPoints]
      simp only [Statistics.recordUse, recordUse?, hu, Option.getD_some] at hpoints hnumbered ⊢
      split
      · rename_i hsame
        rw [if_pos hsame] at hpoints
        exact ((hspans.renew ⟨u, hu, rfl⟩ hold hsame).congr hpoints).fits
      · rename_i hother
        rw [if_neg hother] at hpoints hnumbered
        exact fitting_moved hspans rfl hold hpoints hnumbered

theorem fitting_resetUsage (h : s.resetUsage.Numbered) : s.resetUsage.Fitting :=
  fitting_searched h

/-! ### Any sequence of events -/

theorem Fitting.event (h : s.Fitting) (e : Event) (hnumbered : (e.run s).Numbered) :
    (e.run s).Fitting := by
  cases e with
  | track r => exact h.track hnumbered
  | untrack r => exact h.untrack hnumbered
  | recordUse r label => exact h.recordUse hnumbered
  | resetUsage => exact fitting_resetUsage hnumbered
  | updateFitness => exact h.updateFitness

theorem Fitting.events (h : s.Fitting) (events : List Event)
    (hnumbered : ∀ n, n ≤ events.length → (Event.runAll (events.take n) s).Numbered) :
    (Event.runAll events s).Fitting := by
  induction events generalizing s with
  | nil => exact h
  | cons e events ih =>
      apply ih (h.event e (hnumbered 1 (Nat.le_add_left 1 _)))
      intro n hn
      exact hnumbered (n + 1) (Nat.succ_le_succ hn)

/-- **The extremes are exact.**  After any sequence of events, as long as no points come up that are no
number, the extremes that are kept are the least and the greatest points of the tracked rules. -/
theorem extremes_of_events (function : Fitness α) (events : List Event)
    (h : ∀ n, n ≤ events.length → (Event.runAll (events.take n) (empty function)).Numbered) :
    (Event.runAll events (empty function)).ExactExtremes :=
  ((fitting_empty function).events events h).exactExtremes

/-- A rule rises above another, falls below it, and the other one leaves. -/
def riseAndFall : List Event :=
  [.track (.terminal 1 (-1)), .track (.pair 1 1 1), .recordUse (.pair 1 1 1) .positive,
    .recordUse (.pair 1 1 1) .negative, .recordUse (.pair 1 1 1) .negative,
    .untrack (.terminal 1 (-1))]

/-- The extremes stay exact through all of it. -/
theorem extremes_of_riseAndFall :
    (∀ n, n ≤ riseAndFall.length →
        (Event.runAll (riseAndFall.take n) (empty (.usage : Fitness Float))).Numbered)
      ∧ (Event.runAll riseAndFall (empty (.usage : Fitness Float))).ExactExtremes :=
  ⟨by decide +kernel, extremes_of_events .usage riseAndFall (by decide +kernel)⟩

end Statistics

end GrammarInduction
