import Mathlib.Data.List.Induction
import GrammarInduction.Proofs.Scalar.Double
import GrammarInduction.Statistics.Series

/-!
# The extremes that a series keeps

Every record of a series stores, for each criterion, the extremes of its step and those of all steps so far.
The latter are kept beside the records and widened by one step at a time.  Whatever the steps are, with no
number among their extremes or not, this gives every record the extremes of exactly the steps up to its own.

* `Scalar.Foremost` — the value of a list that no number of it precedes, in either direction;
* `Scalar.lesser_chooses`, `Scalar.greater_chooses`, `Scalar.Foremost.concat` — one more value;
* `Series.Tells` — what a series says of the steps recorded in it;
* `Series.Tells.enter` — a further step keeps it;
* `Series.tells_ofEntries` — so it holds however long the series is.
-/

namespace GrammarInduction

variable {α : Type} [Scalar α]

namespace Scalar

/-! ## The extremes of a list -/

/-- A value of the list which no number of the list precedes.  It is a number if there is any. -/
structure Foremost (before : α → α → Prop) (xs : List α) (x : α) : Prop where
  mem : x ∈ xs
  bound : ∀ y ∈ xs, IsNumber y → before x y
  isNumber : ∀ y ∈ xs, IsNumber y → IsNumber x

/-- The least number of the list, or no number if there is none. -/
def IsLeastOf (xs : List α) (x : α) : Prop := Foremost (fun x y => x ≤ y) xs x

/-- The greatest number of the list, or no number if there is none. -/
def IsGreatestOf (xs : List α) (x : α) : Prop := Foremost (fun x y => y ≤ x) xs x

/-- One of two values, which neither precedes if it is a number. -/
structure Chooses (before : α → α → Prop) (x y z : α) : Prop where
  one : z = x ∨ z = y
  left : IsNumber x → before z x
  right : IsNumber y → before z y

theorem Foremost.single {before : α → α → Prop} (h : ∀ x, IsNumber x → before x x) (x : α) :
    Foremost before [x] x where
  mem := List.mem_singleton_self x
  bound y hy := by
    rw [List.mem_singleton.mp hy]
    exact h x
  isNumber y hy := by
    rw [List.mem_singleton.mp hy]
    exact id

/-- With one more value the foremost is the one that is chosen of it and the foremost so far. -/
theorem Foremost.concat {before : α → α → Prop} {xs : List α} {x y z : α}
    (hnumber : ∀ {x y}, before x y → IsNumber x)
    (htrans : ∀ {x y z}, before x y → before y z → before x z) (h : Foremost before xs x)
    (hchoice : Chooses before x y z) : Foremost before (xs ++ [y]) z := by
  have hbound : ∀ u ∈ xs ++ [y], IsNumber u → before z u := by
    intro u hu hnum
    rcases List.mem_append.mp hu with hold | hnew
    · have hxu := h.bound u hold hnum
      exact htrans (hchoice.left (hnumber hxu)) hxu
    · obtain rfl := List.mem_singleton.mp hnew
      exact hchoice.right hnum
  refine ⟨?_, hbound, fun u hu hnum => hnumber (hbound u hu hnum)⟩
  rcases hchoice.one with rfl | rfl
  · exact List.mem_append_left _ h.mem
  · exact List.mem_append_right _ (List.mem_singleton_self _)

variable [OrderedScalar α]

theorem lesser_chooses (x y : α) : Chooses (fun x y => x ≤ y) x y (lesser x y) := by
  unfold lesser
  split
  · rename_i hx
    split
    · rename_i hlt
      exact ⟨Or.inr rfl, fun _ => OrderedScalar.le_of_lt hlt, id⟩
    · rename_i hlt
      exact ⟨Or.inl rfl, id, fun hy => le_of_not_lt hy hx hlt⟩
  · rename_i hx
    exact ⟨Or.inr rfl, fun h => absurd h hx, id⟩

theorem greater_chooses (x y : α) : Chooses (fun x y => y ≤ x) x y (greater x y) := by
  unfold greater
  split
  · rename_i hx
    split
    · rename_i hlt
      exact ⟨Or.inr rfl, fun _ => OrderedScalar.le_of_lt hlt, id⟩
    · rename_i hlt
      exact ⟨Or.inl rfl, id, fun hy => le_of_not_lt hx hy hlt⟩
  · rename_i hx
    exact ⟨Or.inr rfl, fun h => absurd h hx, id⟩

theorem IsLeastOf.concat {xs : List α} {x : α} (h : IsLeastOf xs x) (y : α) :
    IsLeastOf (xs ++ [y]) (lesser x y) :=
  Foremost.concat OrderedScalar.isNumber_left OrderedScalar.le_trans h (lesser_chooses x y)

theorem IsGreatestOf.concat {xs : List α} {x : α} (h : IsGreatestOf xs x) (y : α) :
    IsGreatestOf (xs ++ [y]) (greater x y) :=
  Foremost.concat OrderedScalar.isNumber_right (fun hxy hyz => OrderedScalar.le_trans hyz hxy) h
    (greater_chooses x y)

/-- A value compared with itself is the only one of its list. -/
theorem isLeastOf_lesser_self (x : α) : IsLeastOf [x] (lesser x x) := by
  rw [(lesser_chooses x x).one.elim id id]
  apply Foremost.single
  exact fun _ h => h

theorem isGreatestOf_greater_self (x : α) : IsGreatestOf [x] (greater x x) := by
  rw [(greater_chooses x x).one.elim id id]
  apply Foremost.single
  exact fun _ h => h

end Scalar

/-! ## What a series tells -/

open Scalar

/-- What is recorded of a step. -/
structure Entry (α : Type) where
  step : Nat
  tally : Tally
  rules : Summary α
  ruleCount : Nat
  pairRuleCount : Nat

/-- The share of some verdicts among them and others, however many they are. -/
def Entry.share (part others : Nat) : α := Tally.ratio part (part + others)

/-- The value of a criterion in a step, whose verdicts may be too many to be counted by a word. -/
def Entry.value (e : Entry α) : Criterion → StepValue α
  | .fitness => .flat (Tally.ratio (e.tally.truePositives + e.tally.trueNegatives) e.tally.verdicts)
  | .sensitivity => .flat (share e.tally.truePositives e.tally.falseNegatives)
  | .specificity => .flat (share e.tally.trueNegatives e.tally.falsePositives)
  | .precision => .flat (share e.tally.truePositives e.tally.falsePositives)
  | .f1 =>
    let p : α := share e.tally.truePositives e.tally.falsePositives
    let r : α := share e.tally.truePositives e.tally.falseNegatives
    .flat (if 0 < p + r then ofCount 2 * p * r / (p + r) else 0)
  | .ruleFitness => ⟨e.rules.mean, e.rules.min, e.rules.max⟩

/-- The least values of a criterion in some steps. -/
def Entry.minima (entries : List (Entry α)) (c : Criterion) : List α :=
  entries.map fun e => (e.value c).min

/-- The greatest values of a criterion in some steps. -/
def Entry.maxima (entries : List (Entry α)) (c : Criterion) : List α :=
  entries.map fun e => (e.value c).max

/-- The record tells the step itself. -/
structure Generation.IsOf (gen : Generation α) (e : Entry α) : Prop where
  step : gen.step = e.step
  tally : gen.tally = e.tally
  ruleCount : gen.ruleCount = e.ruleCount
  pairRuleCount : gen.pairRuleCount = e.pairRuleCount
  values : ∀ c, (gen.values.get c).step = e.value c

namespace Series

/-- Records a step, if it can be measured. -/
def enter? (s : Series α) (e : Entry α) : Except Fault (Series α) :=
  s.record e.step e.tally e.rules e.ruleCount e.pairRuleCount

/-- The series after a step has been offered to it: a step that is not recorded leaves it as it is. -/
def offer (s : Series α) (e : Entry α) : Series α := (s.enter? e).toOption.getD s

/-- The series after some steps have been offered to it. -/
def ofEntries (entries : List (Entry α)) : Series α := entries.foldl offer empty

/-! ## Which steps are recorded -/

theorem shareOf_of_fits {t : Tally} (h : t.Fits) {part others : Nat}
    (hle : part + others ≤ t.verdicts) :
    (Tally.shareOf part others : Except Fault α) = .ok (Entry.share part others) := by
  rw [Tally.shareOf, Word.checked_of_lt (Nat.lt_of_le_of_lt hle h)]
  rfl

/-- A step whose verdicts can be counted together has all its values. -/
theorem of_of_fits {e : Entry α} (h : e.tally.Fits) (c : Criterion) :
    StepValue.of e.tally e.rules c = .ok (e.value c) := by
  have hshare : ∀ {part others : Nat}, part + others ≤ e.tally.verdicts →
      (Tally.shareOf part others : Except Fault α) = .ok (Entry.share part others) :=
    shareOf_of_fits h
  unfold Tally.verdicts at hshare
  have hsensitivity : (e.tally.sensitivity : Except Fault α) = .ok _ := hshare (by omega)
  have hspecificity : (e.tally.specificity : Except Fault α) = .ok _ := hshare (by omega)
  have hprecision : (e.tally.precision : Except Fault α) = .ok _ := hshare (by omega)
  cases c with
  | fitness => rw [StepValue.of, Tally.accuracy_of_fits h]; rfl
  | sensitivity => rw [StepValue.of, hsensitivity]; rfl
  | specificity => rw [StepValue.of, hspecificity]; rfl
  | precision => rw [StepValue.of, hprecision]; rfl
  | f1 => rw [StepValue.of, Tally.f1, hprecision, hsensitivity]; rfl
  | ruleFitness => rfl

/-- The series with the record of a step, whose values are those of counts without a bound. -/
def enter (s : Series α) (e : Entry α) : Series α :=
  s.append e.step e.tally (.ofFn e.value) e.ruleCount e.pairRuleCount

theorem enter?_of_fits {e : Entry α} (h : e.tally.Fits) (s : Series α) :
    s.enter? e = .ok (s.enter e) := by
  refine record_eq_ok.mpr ⟨_, fun c => ?_, rfl⟩
  rw [PerCriterion.get_ofFn, of_of_fits h]

/-- **A step is not recorded exactly if its verdicts are too many to be counted together.** -/
theorem enter?_of_not_fits {e : Entry α} (h : ¬ e.tally.Fits) (s : Series α) :
    s.enter? e = .error .overflow := by
  rw [enter?, record, PerCriterion.tryFn, StepValue.of, Tally.accuracy_of_not_fits h]
  rfl

theorem offer_eq (s : Series α) (e : Entry α) :
    s.offer e = if e.tally.Fits then s.enter e else s := by
  rw [offer]
  split
  · rename_i h
    rw [enter?_of_fits h]
    rfl
  · rename_i h
    rw [enter?_of_not_fits h]
    rfl

/-- The record of a step that follows on a series. -/
def generationOf (s : Series α) (e : Entry α) : Generation α :=
  ⟨e.step, e.tally, e.ruleCount, e.pairRuleCount, .ofFn fun c =>
    ⟨e.value c, (s.rangeAfter (e.value c) c).min, (s.rangeAfter (e.value c) c).max⟩⟩

theorem generations_enter (s : Series α) (e : Entry α) :
    (s.enter e).generations = s.generations.push (s.generationOf e) := by
  simp only [enter, append, generationOf, PerCriterion.get_ofFn]

theorem globalMin?_enter (s : Series α) (e : Entry α) (c : Criterion) :
    (s.enter e).globalMin? c = some ((s.generationOf e).values.get c).globalMin := by
  simp only [enter, append, generationOf, globalMin?, PerCriterion.get_ofFn,
    Option.map_some]

theorem globalMax?_enter (s : Series α) (e : Entry α) (c : Criterion) :
    (s.enter e).globalMax? c = some ((s.generationOf e).values.get c).globalMax := by
  simp only [enter, append, generationOf, globalMax?, PerCriterion.get_ofFn,
    Option.map_some]

/-- What a series says of the steps recorded in it: one record for each, whose global extremes are those of the
steps up to its own; and the extremes of the whole series are those of its last record. -/
structure Tells (s : Series α) (entries : List (Entry α)) : Prop where
  size_eq : s.generations.size = entries.length
  isOf : ∀ (i : Nat) gen e, s.generations[i]? = some gen → entries[i]? = some e → gen.IsOf e
  least : ∀ (i : Nat) gen, s.generations[i]? = some gen → ∀ c,
    IsLeastOf (Entry.minima (entries.take (i + 1)) c) (gen.values.get c).globalMin
  greatest : ∀ (i : Nat) gen, s.generations[i]? = some gen → ∀ c,
    IsGreatestOf (Entry.maxima (entries.take (i + 1)) c) (gen.values.get c).globalMax
  globalMin_eq : ∀ c, s.globalMin? c = s.generations.back?.map fun gen => (gen.values.get c).globalMin
  globalMax_eq : ∀ c, s.globalMax? c = s.generations.back?.map fun gen => (gen.values.get c).globalMax
  best_eq : s.bestFitness? = s.generations.back?.map fun gen => gen.values.fitness.globalMax

theorem tells_empty : (empty : Series α).Tells [] where
  size_eq := rfl
  isOf i gen e hgen := by simp [empty] at hgen
  least i gen hgen := by simp [empty] at hgen
  greatest i gen hgen := by simp [empty] at hgen
  globalMin_eq c := rfl
  globalMax_eq c := rfl
  best_eq := rfl

/-- The last record of a series has the extremes of all its steps, so that it needs no second look at them. -/
theorem Tells.rangeAfter {s : Series α} {entries : List (Entry α)} [OrderedScalar α]
    (h : s.Tells entries) (e : Entry α) (c : Criterion) :
    IsLeastOf (Entry.minima (entries ++ [e]) c) (s.rangeAfter (e.value c) c).min
      ∧ IsGreatestOf (Entry.maxima (entries ++ [e]) c) (s.rangeAfter (e.value c) c).max := by
  have hmin := h.globalMin_eq c
  have hmax := h.globalMax_eq c
  unfold Entry.minima Entry.maxima Series.rangeAfter
  rw [List.map_append, List.map_append, List.map_singleton, List.map_singleton]
  unfold globalMin? at hmin
  unfold globalMax? at hmax
  cases hranges : s.ranges? with
  | none =>
      rw [hranges, Option.map_none, eq_comm, Option.map_eq_none_iff, Array.back?_eq_none_iff] at hmin
      obtain rfl : entries = [] := by
        rw [← List.length_eq_zero_iff, ← h.size_eq, hmin]
        rfl
      exact ⟨isLeastOf_lesser_self _, isGreatestOf_greater_self _⟩
  | some ranges =>
      rw [hranges, Option.map_some, eq_comm, Option.map_eq_some_iff] at hmin hmax
      obtain ⟨last, hlast, hmin⟩ := hmin
      obtain ⟨last', hlast', hmax⟩ := hmax
      obtain rfl : last = last' := Option.some.inj (hlast.symm.trans hlast')
      rw [Array.back?_eq_getElem?] at hlast
      have hleast := h.least _ last hlast c
      have hgreatest := h.greatest _ last hlast c
      have hall : entries.take (s.generations.size - 1 + 1) = entries :=
        List.take_of_length_le (by rw [h.size_eq]; omega)
      rw [hall, hmin] at hleast
      rw [hall, hmax] at hgreatest
      exact ⟨hleast.concat _, hgreatest.concat _⟩

/-- The record of a further step comes last, and those before are as they were. -/
theorem getElem?_enter (s : Series α) (e : Entry α) (i : Nat) :
    (s.enter e).generations[i]?
      = if i = s.generations.size then some (s.generationOf e) else s.generations[i]? := by
  rw [generations_enter, Array.getElem?_push]

theorem back?_enter (s : Series α) (e : Entry α) :
    (s.enter e).generations.back? = some (s.generationOf e) := by
  rw [generations_enter, Array.back?_push]

theorem isOf_generationOf (s : Series α) (e : Entry α) : (s.generationOf e).IsOf e where
  step := rfl
  tally := rfl
  ruleCount := rfl
  pairRuleCount := rfl
  values c := by rw [generationOf, PerCriterion.get_ofFn]

variable [OrderedScalar α]

/-- **A further step is told like those before.** -/
theorem Tells.enter {s : Series α} {entries : List (Entry α)} (h : s.Tells entries) (e : Entry α) :
    (s.enter e).Tells (entries ++ [e]) := by
  have hstep : ∀ {i gen}, (s.enter e).generations[i]? = some gen →
      i = entries.length ∧ gen = s.generationOf e ∨ i < entries.length ∧ s.generations[i]? = some gen := by
    intro i gen hgen
    rw [getElem?_enter] at hgen
    split at hgen
    · rename_i hi
      exact Or.inl ⟨hi.trans h.size_eq, (Option.some.inj hgen).symm⟩
    · obtain ⟨hlt, -⟩ := Array.getElem?_eq_some_iff.mp hgen
      exact Or.inr ⟨h.size_eq ▸ hlt, hgen⟩
  refine ⟨?_, ?_, ?_, ?_, fun c => ?_, fun c => ?_, ?_⟩
  · rw [generations_enter, Array.size_push, h.size_eq, List.length_append, List.length_singleton]
  · intro i gen e' hgen he'
    rcases hstep hgen with ⟨rfl, rfl⟩ | ⟨hlt, hold⟩
    · rw [List.getElem?_concat_length, Option.some.injEq] at he'
      exact he' ▸ s.isOf_generationOf e
    · rw [List.getElem?_append_left hlt] at he'
      exact h.isOf i gen e' hold he'
  · intro i gen hgen c
    rcases hstep hgen with ⟨rfl, rfl⟩ | ⟨hlt, hold⟩
    · rw [List.take_of_length_le (by simp), generationOf, PerCriterion.get_ofFn]
      exact (h.rangeAfter e c).1
    · rw [List.take_append_of_le_length hlt]
      exact h.least i gen hold c
  · intro i gen hgen c
    rcases hstep hgen with ⟨rfl, rfl⟩ | ⟨hlt, hold⟩
    · rw [List.take_of_length_le (by simp), generationOf, PerCriterion.get_ofFn]
      exact (h.rangeAfter e c).2
    · rw [List.take_append_of_le_length hlt]
      exact h.greatest i gen hold c
  · rw [globalMin?_enter, back?_enter, Option.map_some]
  · rw [globalMax?_enter, back?_enter, Option.map_some]
  · rw [bestFitness?, globalMax?_enter, back?_enter, Option.map_some]
    rfl

/-- A step that is offered is told like those before, if it is recorded. -/
theorem Tells.offer {s : Series α} {entries : List (Entry α)} (h : s.Tells entries) (e : Entry α) :
    (s.offer e).Tells (entries ++ [e].filter fun e => e.tally.Fits) := by
  rw [offer_eq]
  split
  · rename_i hfits
    have hkept : [e].filter (fun e => e.tally.Fits) = [e] := by simp [hfits]
    rw [hkept]
    exact h.enter e
  · rename_i hfits
    have hdropped : [e].filter (fun e => e.tally.Fits) = [] := by simp [hfits]
    rw [hdropped, List.append_nil]
    exact h

omit [OrderedScalar α] in
/-- Offering a step leaves the records as they are. -/
theorem prefix_offer (s : Series α) (e : Entry α) :
    s.generations.toList <+: (s.offer e).generations.toList := by
  rw [offer_eq]
  split
  · rw [generations_enter, Array.toList_push]
    exact List.prefix_append _ _
  · exact List.prefix_rfl

/-- **A series keeps exact extremes.**  However many steps are offered to it, and whatever their values, the
series tells those that can be measured: the record of a step stores the extremes of all steps up to its own,
the series tells those of its last record, and further steps leave the records as they are.  A step is
recorded if its verdicts can be counted together, and otherwise not. -/
theorem tells_ofEntries (entries more : List (Entry α)) :
    (ofEntries entries).Tells (entries.filter fun e => e.tally.Fits)
      ∧ (ofEntries entries).generations.toList <+: (ofEntries (entries ++ more)).generations.toList
      ∧ ∀ (s : Series α) e, (e.tally.Fits → ∃ s', s.enter? e = .ok s' ∧ s.offer e = s')
        ∧ (¬ e.tally.Fits → s.enter? e = .error .overflow ∧ s.offer e = s) := by
  refine ⟨?_, ?_, fun s e => ⟨fun h => ?_, fun h => ?_⟩⟩
  · induction entries using List.reverseRecOn with
    | nil => exact tells_empty
    | append_singleton entries e ih =>
        rw [ofEntries, List.foldl_append, List.filter_append]
        exact ih.offer e
  · rw [ofEntries, ofEntries, List.foldl_append]
    generalize entries.foldl Series.offer empty = s
    induction more generalizing s with
    | nil => exact List.prefix_rfl
    | cons e more ih => exact (s.prefix_offer e).trans (ih (s.offer e))
  · exact ⟨s.enter e, enter?_of_fits h s, by rw [offer_eq, if_pos h]⟩
  · exact ⟨enter?_of_not_fits h s, by rw [offer_eq, if_neg h]⟩

/-- Three steps, the first and the last without a number for the fitness of rules: its extremes are those of the
second, and the accuracy of the second is the best.  A step with more verdicts than words changes nothing. -/
theorem tells_interrupted :
    let nothing : Summary Float := ⟨0 / 0, 0 / 0, 0 / 0⟩
    let entries : List (Entry Float) := [⟨1, ⟨1, 1, 1, 1⟩, nothing, 4, 2⟩,
      ⟨2, ⟨2, 2, 0, 0⟩, ⟨0.125, 0.875, 0.5⟩, 4, 2⟩, ⟨3, ⟨0, 1, 1, 2⟩, nothing, 4, 2⟩]
    let tooMany : Entry Float := ⟨4, ⟨0xFFFFFFFFFFFFFFFF, 1, 0, 0⟩, nothing, 4, 2⟩
    (ofEntries entries).Tells entries
      ∧ (ofEntries (entries.take 1)).generations.toList <+: (ofEntries entries).generations.toList
      ∧ ((ofEntries entries).globalMin? .ruleFitness).map Float.toBits = some (0.125 : Float).toBits
      ∧ ((ofEntries entries).globalMax? .ruleFitness).map Float.toBits = some (0.875 : Float).toBits
      ∧ (ofEntries entries).bestFitness?.map Float.toBits = some (1 : Float).toBits
      ∧ (ofEntries entries).enter? tooMany = .error .overflow := by
  intro nothing entries tooMany
  have htells := (tells_ofEntries entries []).1
  have hfits : entries.filter (fun e => e.tally.Fits) = entries := rfl
  rw [hfits] at htells
  refine ⟨htells, (tells_ofEntries (entries.take 1) (entries.drop 1)).2.1, ?_, ?_, ?_,
    ((tells_ofEntries entries []).2.2 _ tooMany).2 (by decide) |>.1⟩
  · decide +kernel
  · decide +kernel
  · decide +kernel

/-- Not every step is recorded: the verdicts of a step may be more than a word can count, though each count of
them is a word. -/
theorem not_recorded_of_words :
    ¬ ∀ (s : Series Float) (e : Entry Float), e.tally.truePositives < wordCount →
      e.tally.trueNegatives < wordCount → e.tally.falsePositives < wordCount →
      e.tally.falseNegatives < wordCount → ∃ s', s.enter? e = .ok s' := by
  intro hrecorded
  let e : Entry Float := ⟨1, ⟨0xFFFFFFFFFFFFFFFF, 1, 0, 0⟩, ⟨0, 0, 0⟩, 1, 1⟩
  obtain ⟨s', hs'⟩ := hrecorded empty e (by decide) (by decide) (by decide) (by decide)
  rw [enter?_of_not_fits (by decide : ¬ e.tally.Fits)] at hs'
  cases hs'

end Series

end GrammarInduction
