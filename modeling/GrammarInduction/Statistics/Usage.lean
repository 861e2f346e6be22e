import GrammarInduction.Grammar.Rule
import GrammarInduction.Statistics.Fitness
import GrammarInduction.Statistics.Series
import Std.Data.TreeMap

/-!
# Usage statistics of a grammar

The statistics track a set of rules.  Each rule has its counters, each parent the sum over its rules,
and the extremes of fertility points are kept with a rule that holds each of them, so that they are
searched for anew only when a holder moves the wrong way or leaves.

* `Statistics.track`, `Statistics.untrack` — a rule enters with zero counters, or leaves;
* `Statistics.recordUse` — one use of a rule in an accepted sentence;
* `Statistics.updateFitness` — the fitness of every rule, remembered until its counters are reset;
* `Statistics.fitness` — the remembered fitness of a rule, or the one its counters give.
-/

namespace GrammarInduction

/-- What is counted of all rules of one parent. -/
structure ParentUsage where
  uses : Nat
  rules : Nat
deriving DecidableEq, Repr

/-- The extremes of fertility points with rules that hold them. -/
structure Extremes (α : Type) where
  bounds : Bounds α
  lowHolder : Option Rule
  highHolder : Option Rule
deriving Repr

/-- Counters and fitness of a set of rules. -/
structure Statistics (α : Type) where
  function : Fitness α
  usages : Std.TreeMap Rule (Usage α)
  parents : Std.TreeMap Symbol ParentUsage
  extremes : Extremes α
  summary : Summary α

namespace Usage

variable {α : Type} [Scalar α]

/-- The counters after one more use in an accepted sentence of a given label. -/
def record (u : Usage α) (function : Fitness α) : Label → Usage α
  | .positive =>
    { u with uses := u.uses + 1, valid := u.valid + 1, points := u.points + function.reward }
  | .negative =>
    { u with uses := u.uses + 1, invalid := u.invalid + 1, points := u.points - function.penalty }
  | .unknown => { u with uses := u.uses + 1 }

end Usage

namespace Extremes

variable {α : Type} [Scalar α]

/-- The extremes of no rule. -/
def none : Extremes α := ⟨⟨0, 0⟩, Option.none, Option.none⟩

/-- The extremes after one more rule of a search: strictly smaller or larger points take over. -/
def extend (e : Extremes α) (r : Rule) (points : α) : Extremes α :=
  let e := if points < e.bounds.low then
    { e with bounds := ⟨points, e.bounds.high⟩, lowHolder := some r } else e
  if e.bounds.high < points then
    { e with bounds := ⟨e.bounds.low, points⟩, highHolder := some r } else e

/-- The extremes found by a search through all rules. -/
def search : List (Rule × Usage α) → Extremes α
  | [] => none
  | (r, u) :: rest =>
    rest.foldl (fun e (s, v) => e.extend s v.points) ⟨⟨u.points, u.points⟩, some r, some r⟩

/-- The extremes after a rule has moved from one count of points to another, unless a holder moved
inwards: then they have to be searched for. -/
def move? (e : Extremes α) (r : Rule) (old new : α) : Option (Extremes α) :=
  if e.bounds.high ≤ new then
    let e : Extremes α := { e with bounds := ⟨e.bounds.low, new⟩, highHolder := some r }
    if new ≤ e.bounds.low then
      some { e with bounds := ⟨new, e.bounds.high⟩, lowHolder := some r }
    else if e.lowHolder = some r ∧ old < new then Option.none
    else some e
  else if e.highHolder = some r ∧ new < old then Option.none
  else if new ≤ e.bounds.low then
    some { e with bounds := ⟨new, e.bounds.high⟩, lowHolder := some r }
  else if e.lowHolder = some r ∧ old < new then Option.none
  else some e

end Extremes

namespace Statistics

variable {α : Type}

/-- Whether a rule is tracked. -/
def tracks (s : Statistics α) (r : Rule) : Bool := s.usages.contains r

/-- The count of tracked rules. -/
def size (s : Statistics α) : Nat := s.usages.size

/-- The counters of a tracked rule. -/
def usage? (s : Statistics α) (r : Rule) : Option (Usage α) := s.usages[r]?

/-- The counters of a parent that has a tracked rule. -/
def parent? (s : Statistics α) (p : Symbol) : Option ParentUsage := s.parents[p]?

theorem tracks_iff {s : Statistics α} {r : Rule} :
    s.tracks r = true ↔ (s.usage? r).isSome = true := by
  simp [tracks, usage?]

variable [Scalar α]

/-- Statistics of no rule. -/
def empty (function : Fitness α) : Statistics α :=
  ⟨function, ∅, ∅, Extremes.none, ⟨0, 0, 0⟩⟩

/-- The extremes searched for among the present counters. -/
def searched (s : Statistics α) : Statistics α :=
  { s with extremes := Extremes.search s.usages.toList }

/-- The extremes brought up to date after the points of a rule changed. -/
def moved (s : Statistics α) (r : Rule) (old new : α) : Statistics α :=
  match s.extremes.move? r old new with
  | some e => { s with extremes := e }
  | none => s.searched

/-- Starts to track a rule with zero counters; a tracked rule keeps its own. -/
def track (s : Statistics α) (r : Rule) : Statistics α :=
  if s.tracks r then s
  else
    let side := (s.parents[r.parent]?).getD ⟨0, 0⟩
    let t : Statistics α :=
      { s with
        usages := s.usages.insert r Usage.unused
        parents := s.parents.insert r.parent ⟨side.uses, side.rules + 1⟩ }
    if s.usages.isEmpty then { t with extremes := ⟨⟨0, 0⟩, some r, some r⟩ }
    else t.moved r 0 0

/-- The parents' counters without those of one rule; a parent without rules leaves. -/
def withoutRule (parents : Std.TreeMap Symbol ParentUsage) (r : Rule) (uses : Nat) :
    Std.TreeMap Symbol ParentUsage :=
  match parents[r.parent]? with
  | some side =>
    if side.rules ≤ 1 then parents.erase r.parent
    else parents.insert r.parent ⟨side.uses - uses, side.rules - 1⟩
  | none => parents

/-- Stops tracking a rule. -/
def untrack (s : Statistics α) (r : Rule) : Statistics α :=
  match s.usages[r]? with
  | none => s
  | some u =>
    let t : Statistics α :=
      { s with usages := s.usages.erase r, parents := withoutRule s.parents r u.uses }
    if s.extremes.lowHolder = some r ∨ s.extremes.highHolder = some r then t.searched else t

/-- Statistics that track every rule of a list. -/
def ofRules (function : Fitness α) (rules : List Rule) : Statistics α :=
  rules.foldl track (empty function)

/-- One use of a tracked rule in an accepted sentence, or nothing for a rule that is not tracked. -/
def recordUse? (s : Statistics α) (r : Rule) (label : Label) : Option (Statistics α) :=
  match s.usages[r]? with
  | none => none
  | some u =>
    let v := u.record s.function label
    let side := (s.parents[r.parent]?).getD ⟨0, 0⟩
    let t : Statistics α :=
      { s with
        usages := s.usages.insert r v
        parents := s.parents.insert r.parent ⟨side.uses + 1, side.rules⟩ }
    some (if v.points ≤ u.points ∧ u.points ≤ v.points then t else t.moved r u.points v.points)

/-- One use of a rule in an accepted sentence; rules that are not tracked are passed over. -/
def recordUse (s : Statistics α) (r : Rule) (label : Label) : Statistics α :=
  (s.recordUse? r label).getD s

/-- Zero counters for every tracked rule. -/
def resetUsage (s : Statistics α) : Statistics α :=
  searched
    { s with
      usages := s.usages.map fun _ _ => Usage.unused
      parents := s.parents.map fun _ side => ⟨0, side.rules⟩ }

/-- The least, the greatest and the mean of a list of fitness values. -/
def summarise (values : List α) : Summary α :=
  if values.isEmpty then ⟨0, 0, 0⟩
  else ⟨Scalar.least values, Scalar.greatest values,
    Scalar.sum values / Scalar.ofCount values.length⟩

/-- The fitness of every rule from its counters, remembered and summarised. -/
def updateFitness (s : Statistics α) : Statistics α :=
  let usages := s.usages.map fun _ u =>
    { u with fitness? := some (s.function.value u s.extremes.bounds) }
  let values := s.usages.values.map fun u => s.function.value u s.extremes.bounds
  { s with usages := usages, summary := summarise values }

/-- The remembered fitness of a rule, or the one its counters give; a rule that is not tracked counts
as unused. -/
def fitness (s : Statistics α) (r : Rule) : α :=
  match s.usages[r]? with
  | some u =>
    match u.fitness? with
    | some f => f
    | none => s.function.value u s.extremes.bounds
  | none => s.function.value Usage.unused s.extremes.bounds

/-! ## What the operations do to the counters -/

@[simp]
theorem usages_searched (s : Statistics α) : s.searched.usages = s.usages := rfl

@[simp]
theorem usages_moved (s : Statistics α) (r : Rule) (old new : α) :
    (s.moved r old new).usages = s.usages := by
  unfold moved
  split <;> rfl

@[simp]
theorem function_moved (s : Statistics α) (r : Rule) (old new : α) :
    (s.moved r old new).function = s.function := by
  unfold moved
  split <;> rfl

/-- A rule that is newly tracked has zero counters; all others keep theirs. -/
theorem usage?_track (s : Statistics α) (r q : Rule) :
    (s.track r).usage? q
      = if q = r ∧ s.tracks r = false then some Usage.unused else s.usage? q := by
  by_cases h : s.tracks r = true
  · simp [track, h]
  · have husages : (s.track r).usages = s.usages.insert r Usage.unused := by
      rw [track, if_neg h]
      split
      · rfl
      · exact usages_moved ..
    rw [usage?, husages, Std.TreeMap.getElem?_insert]
    simp only [Std.LawfulEqOrd.compare_eq_iff_eq, eq_comm (a := r), usage?]
    simp [h]

/-- Nothing is done about a rule that is not tracked. -/
theorem untrack_of_none {s : Statistics α} {r : Rule} (h : s.usage? r = none) : s.untrack r = s := by
  rw [usage?] at h
  simp only [untrack, h]

/-- A rule that is no longer tracked has no counters; all others keep theirs. -/
theorem usage?_untrack (s : Statistics α) (r q : Rule) :
    (s.untrack r).usage? q = if q = r then none else s.usage? q := by
  cases h : s.usages[r]? with
  | none =>
    rw [untrack_of_none h]
    by_cases hq : q = r
    · rw [if_pos hq, hq, usage?, h]
    · rw [if_neg hq]
  | some u =>
    have husages : (s.untrack r).usages = s.usages.erase r := by
      simp only [untrack, h]
      split <;> rfl
    rw [usage?, husages, Std.TreeMap.getElem?_erase]
    simp only [Std.LawfulEqOrd.compare_eq_iff_eq, eq_comm (a := r), usage?]

/-- Nor does its use count. -/
theorem recordUse_of_none {s : Statistics α} {r : Rule} (h : s.usage? r = none) (label : Label) :
    s.recordUse r label = s := by
  rw [usage?] at h
  simp only [recordUse, recordUse?, h, Option.getD_none]

/-- A use counts for its rule alone. -/
theorem usage?_recordUse (s : Statistics α) (r q : Rule) (label : Label) :
    (s.recordUse r label).usage? q
      = if q = r then (s.usage? r).map (·.record s.function label) else s.usage? q := by
  cases h : s.usages[r]? with
  | none =>
    rw [recordUse_of_none h]
    by_cases hq : q = r
    · rw [if_pos hq, hq, usage?, h, Option.map_none]
    · rw [if_neg hq]
  | some u =>
    have husages : (s.recordUse r label).usages
        = s.usages.insert r (u.record s.function label) := by
      simp only [recordUse, recordUse?, h, Option.getD_some]
      split
      · rfl
      · exact usages_moved ..
    rw [usage?, husages, Std.TreeMap.getElem?_insert]
    simp only [Std.LawfulEqOrd.compare_eq_iff_eq, eq_comm (a := r), usage?, h, Option.map_some]

/-- A reset leaves zero counters. -/
theorem usage?_resetUsage (s : Statistics α) (q : Rule) :
    s.resetUsage.usage? q = (s.usage? q).map fun _ => Usage.unused := by
  simp [resetUsage, usage?]

/-- An update leaves the counters and remembers the fitness that they give. -/
theorem usage?_updateFitness (s : Statistics α) (q : Rule) :
    s.updateFitness.usage? q = (s.usage? q).map fun u =>
      { u with fitness? := some (s.function.value u s.extremes.bounds) } := by
  simp [updateFitness, usage?]

/-! ## What the operations leave of the fitness function -/

theorem function_track (s : Statistics α) (r : Rule) : (s.track r).function = s.function := by
  unfold track
  split
  · rfl
  · dsimp only
    split
    · rfl
    · rw [function_moved]

theorem function_untrack (s : Statistics α) (r : Rule) : (s.untrack r).function = s.function := by
  unfold untrack
  split
  · rfl
  · dsimp only
    split <;> rfl

theorem function_recordUse (s : Statistics α) (r : Rule) (label : Label) :
    (s.recordUse r label).function = s.function := by
  unfold recordUse recordUse?
  split
  · rfl
  · rw [Option.getD_some]
    split
    · rfl
    · rw [function_moved]

/-! ## What the operations do to the tracked rules -/

theorem tracks_track {s : Statistics α} {r q : Rule} :
    (s.track r).tracks q = true ↔ q = r ∨ s.tracks q = true := by
  rw [tracks_iff, usage?_track, tracks_iff]
  by_cases hq : q = r
  · subst hq
    by_cases htracked : s.tracks q = true
    · have hsome := tracks_iff.mp htracked
      simp [htracked, hsome]
    · simp [htracked]
  · simp [hq]

theorem tracks_untrack {s : Statistics α} {r q : Rule} :
    (s.untrack r).tracks q = true ↔ s.tracks q = true ∧ q ≠ r := by
  rw [tracks_iff, usage?_untrack, tracks_iff]
  by_cases hq : q = r
  · simp [hq]
  · simp [hq]

@[simp]
theorem tracks_recordUse (s : Statistics α) (r : Rule) (label : Label) (q : Rule) :
    (s.recordUse r label).tracks q = s.tracks q := by
  rw [Bool.eq_iff_iff, tracks_iff, tracks_iff, usage?_recordUse]
  by_cases hq : q = r
  · simp [hq]
  · simp [hq]

@[simp]
theorem tracks_resetUsage (s : Statistics α) (q : Rule) : s.resetUsage.tracks q = s.tracks q := by
  rw [Bool.eq_iff_iff, tracks_iff, tracks_iff, usage?_resetUsage, Option.isSome_map]

@[simp]
theorem tracks_updateFitness (s : Statistics α) (q : Rule) :
    s.updateFitness.tracks q = s.tracks q := by
  rw [Bool.eq_iff_iff, tracks_iff, tracks_iff, usage?_updateFitness, Option.isSome_map]

/-- The statistics of a list of rules track these rules. -/
theorem tracks_ofRules {function : Fitness α} {rules : List Rule} {q : Rule} :
    (ofRules function rules).tracks q = true ↔ q ∈ rules := by
  have hfold : ∀ (rules : List Rule) (s : Statistics α),
      (rules.foldl track s).tracks q = true ↔ s.tracks q = true ∨ q ∈ rules := by
    intro rules
    induction rules with
    | nil => simp
    | cons r rules ih =>
        intro s
        rw [List.foldl_cons, ih, tracks_track, List.mem_cons, or_comm (a := q = r), or_assoc]
  rw [ofRules, hfold]
  simp [empty, tracks]

/-- The statistics of a list of rules have counted no use. -/
theorem eq_unused_of_ofRules {function : Fitness α} {rules : List Rule} {q : Rule} {u : Usage α}
    (h : (ofRules function rules).usage? q = some u) : u = Usage.unused := by
  have hfold : ∀ (rules : List Rule) (s : Statistics α), (∀ u ∈ s.usage? q, u = Usage.unused) →
      ∀ u ∈ (rules.foldl track s).usage? q, u = Usage.unused := by
    intro rules
    induction rules with
    | nil => exact fun _ hs => hs
    | cons r rules ih =>
        intro s hs
        refine ih (s.track r) fun u hu => ?_
        rw [usage?_track] at hu
        split at hu
        · exact (Option.some.inj hu).symm
        · exact hs u hu
  exact hfold rules (empty function) (by simp [empty, usage?]) u h

theorem function_ofRules (function : Fitness α) (rules : List Rule) :
    (ofRules function rules).function = function := by
  have hfold : ∀ (rules : List Rule) (s : Statistics α),
      (rules.foldl track s).function = s.function := by
    intro rules
    induction rules with
    | nil => exact fun _ => rfl
    | cons r rules ih => exact fun s => (ih (s.track r)).trans (function_track s r)
  exact hfold rules (empty function)

end Statistics

end GrammarInduction
