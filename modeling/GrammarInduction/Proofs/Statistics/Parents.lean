import Mathlib.Algebra.Ring.Nat
import GrammarInduction.Proofs.Grammar.RuleMap
import GrammarInduction.Statistics.Usage

/-!
# Counters of parents

The counters of a parent are those of its tracked rules taken together.  They are kept apart from the
counters of rules and changed alongside them, each time a rule enters, leaves or is used.  An operation
concerns one rule, so the uses that it changes are those of one parent, and there one count is put in,
taken out or raised.

* `Statistics.Event` — what may be done with statistics;
* `Statistics.usesOf` — the uses of each rule of a parent;
* `Statistics.Balanced` — the counters of parents are the sums of those of their rules;
* `Statistics.accounts_of_events` — what follows for statistics after any sequence of events;
* `Statistics.calculate_of_events` — so far as words can count the events, every fitness is found.
-/

namespace GrammarInduction

open RuleMap

variable {α : Type}

/-! ## Sums of counts -/

namespace ParentUsage

/-- The counters of a parent whose rules have the uses of a list, none without rules. -/
def sum? : List Nat → Option ParentUsage
  | [] => none
  | n :: rest => some ⟨n + rest.sum, rest.length + 1⟩

theorem sum?_perm {l l' : List Nat} (h : l.Perm l') : sum? l = sum? l' := by
  cases l with
  | nil => rw [h.nil_eq]
  | cons n rest =>
      cases l' with
      | nil => exact absurd h.length_eq (Nat.succ_ne_zero _)
      | cons n' rest' =>
          have hsum : n + rest.sum = n' + rest'.sum := by simpa using h.sum_nat
          have hlength : rest.length = rest'.length := by simpa using h.length_eq
          rw [sum?, sum?, hsum, hlength]

theorem getD_sum? (l : List Nat) : (sum? l).getD ⟨0, 0⟩ = ⟨l.sum, l.length⟩ := by
  cases l <;> simp [sum?]

theorem sum?_eq_none_iff {l : List Nat} : sum? l = none ↔ l = [] := by
  cases l <;> simp [sum?]

theorem sum?_map_zero (l : List Nat) :
    sum? (l.map fun _ => 0) = (sum? l).map fun side => ⟨0, side.rules⟩ := by
  cases l <;> simp [sum?, List.map_const']

end ParentUsage

/-- Whatever is known of the sentence, a use is counted. -/
theorem Usage.uses_record [Scalar α] (u : Usage α) (function : Fitness α) (label : Label) :
    (u.record function label).uses = u.uses + 1 := by
  cases label <;> rfl

namespace Statistics

variable {s t : Statistics α} {r : Rule} {u : Usage α}

/-- The uses of each tracked rule of a parent, in rule order. -/
def usesOf (s : Statistics α) (p : Symbol) : List Nat := (entries s.usages p).map (·.2.uses)

/-- A parent has a count of uses if it has a tracked rule. -/
theorem usesOf_ne_nil_iff {p : Symbol} :
    s.usesOf p ≠ [] ↔ ∃ r, s.tracks r = true ∧ r.parent = p := by
  rw [usesOf, ne_eq, List.map_eq_nil_iff]
  constructor
  · intro hne
    obtain ⟨⟨r, u⟩, hmem⟩ := List.exists_mem_of_ne_nil _ hne
    obtain ⟨hu, hparent⟩ := mem_entries.mp hmem
    exact ⟨r, tracks_iff.mpr (Option.isSome_of_eq_some hu), hparent⟩
  · intro htracked
    obtain ⟨r, hr, hparent⟩ := htracked
    obtain ⟨u, hu⟩ := Option.isSome_iff_exists.mp (tracks_iff.mp hr)
    exact List.ne_nil_of_mem (mem_entries.mpr ⟨hu, hparent⟩)

/-- The uses of each tracked rule that has the parent of a rule, without this one. -/
def siblingUses (s : Statistics α) (r : Rule) : List Nat :=
  (entries (s.usages.erase r) r.parent).map (·.2.uses)

theorem usesOf_perm (s : Statistics α) (r : Rule) :
    (s.usesOf r.parent).Perm (((s.usage? r).map (·.uses)).toList ++ s.siblingUses r) := by
  cases h : s.usages[r]? with
  | some u =>
      rw [usage?, h]
      exact (entries_perm_erase h).map _
  | none =>
      rw [usage?, h, siblingUses, entries_erase_of_none h]
      exact List.Perm.refl _

/-- The counters of every parent are those of its tracked rules taken together. -/
def Balanced (s : Statistics α) : Prop := ∀ p, s.parent? p = ParentUsage.sum? (s.usesOf p)

/-- The uses of a rule are among those that its parent counts. -/
theorem Balanced.parent?_eq (h : s.Balanced) (r : Rule) : s.parent? r.parent
    = ParentUsage.sum? (((s.usage? r).map (·.uses)).toList ++ s.siblingUses r) :=
  (h r.parent).trans (ParentUsage.sum?_perm (s.usesOf_perm r))

/-- An event that concerns one rule keeps the balance if it does so at the rule's parent. -/
theorem Balanced.of_rule (h : s.Balanced) (hrules : ∀ q, q ≠ r → t.usage? q = s.usage? q)
    (hparents : ∀ p, p ≠ r.parent → t.parent? p = s.parent? p)
    (hself : t.parent? r.parent
      = ParentUsage.sum? (((t.usage? r).map (·.uses)).toList ++ s.siblingUses r)) :
    t.Balanced := by
  intro p
  by_cases hp : p = r.parent
  · have hsiblings : t.siblingUses r = s.siblingUses r :=
      congrArg (List.map _) (entries_erase_congr hrules r.parent)
    rw [hp, hself, ParentUsage.sum?_perm (t.usesOf_perm r), hsiblings]
  · have huses : t.usesOf p = s.usesOf p := by
      apply congrArg (List.map _)
      apply entries_congr
      intro q hq
      exact hrules q fun heq => hp (hq ▸ heq ▸ rfl)
    rw [hparents p hp, huses, h p]

/-! ## What the balance says -/

/-- Of every rule, the valid uses and the invalid ones are among the uses. -/
def Known (s : Statistics α) : Prop := ∀ r u, s.usage? r = some u → u.valid + u.invalid ≤ u.uses

/-- The counters of parents account for those of the tracked rules. -/
structure Accounts (s : Statistics α) : Prop where
  /-- A parent has counters if it has a rule that is tracked. -/
  present : ∀ p, (s.parent? p).isSome = true ↔ ∃ r, s.tracks r = true ∧ r.parent = p
  /-- They count its rules, and all of their uses. -/
  sums : ∀ p side, s.parent? p = some side →
    side.rules = (entries s.usages p).length
      ∧ side.uses = ((entries s.usages p).map (·.2.uses)).sum
  /-- What a rule takes along when it leaves is there to be taken. -/
  covered : ∀ r u, s.usage? r = some u →
    ∃ side, s.parent? r.parent = some side ∧ 1 ≤ side.rules ∧ u.uses ≤ side.uses
  /-- Valid and invalid uses are uses. -/
  known : s.Known

theorem Balanced.accounts (h : s.Balanced) (hknown : s.Known) : s.Accounts where
  present p := by
    rw [h p, ← usesOf_ne_nil_iff, Option.isSome_iff_ne_none, ne_eq, ParentUsage.sum?_eq_none_iff]
  sums p side hside := by
    rw [h p] at hside
    have hgetD := ParentUsage.getD_sum? (s.usesOf p)
    rw [hside, Option.getD_some] at hgetD
    rw [hgetD, usesOf]
    exact ⟨List.length_map .., rfl⟩
  covered r u hu := by
    have hside := h.parent?_eq r
    rw [hu] at hside
    exact ⟨_, hside, Nat.le_add_left 1 _, Nat.le_add_right u.uses _⟩
  known := hknown

variable [Scalar α]

/-! ## One event -/

@[simp]
theorem parents_moved (s : Statistics α) (r : Rule) (old new : α) :
    (s.moved r old new).parents = s.parents := by
  unfold moved
  split <;> rfl

theorem getElem?_insert_parent (m : Std.TreeMap Symbol ParentUsage) (p q : Symbol)
    (side : ParentUsage) : (m.insert p side)[q]? = if q = p then some side else m[q]? := by
  rw [Std.TreeMap.getElem?_insert]
  simp only [Std.LawfulEqOrd.compare_eq_iff_eq, eq_comm (a := p)]

/-- A rule that is newly tracked is one more rule of its parent. -/
theorem parent?_track (h : s.tracks r = false) (p : Symbol) :
    (s.track r).parent? p = if p = r.parent
      then some ⟨((s.parent? r.parent).getD ⟨0, 0⟩).uses,
        ((s.parent? r.parent).getD ⟨0, 0⟩).rules + 1⟩
      else s.parent? p := by
  have hparents : (s.track r).parents = s.parents.insert r.parent
      ⟨((s.parents[r.parent]?).getD ⟨0, 0⟩).uses, ((s.parents[r.parent]?).getD ⟨0, 0⟩).rules + 1⟩ := by
    rw [track, if_neg (Bool.eq_false_iff.mp h)]
    split
    · rfl
    · rw [parents_moved]
  rw [parent?, hparents, getElem?_insert_parent]
  rfl

/-- A rule that leaves takes its uses along, and its parent's counters if it is the last one. -/
theorem parent?_untrack (h : s.usage? r = some u) (p : Symbol) :
    (s.untrack r).parent? p = if p = r.parent
      then (s.parent? r.parent).bind fun side =>
        if side.rules ≤ 1 then none else some ⟨side.uses - u.uses, side.rules - 1⟩
      else s.parent? p := by
  have hparents : (s.untrack r).parents = withoutRule s.parents r u.uses := by
    rw [usage?] at h
    simp only [untrack, h]
    split <;> rfl
  rw [parent?, hparents, withoutRule, parent?, parent?]
  cases hside : s.parents[r.parent]? with
  | none =>
      by_cases hp : p = r.parent
      · rw [if_pos hp, hp]
        exact hside
      · rw [if_neg hp]
  | some side =>
      dsimp only
      by_cases hp : p = r.parent
      · rw [if_pos hp, hp, Option.bind_some]
        split
        · exact Std.TreeMap.getElem?_erase_self
        · exact Std.TreeMap.getElem?_insert_self
      · rw [if_neg hp]
        split
        · rw [Std.TreeMap.getElem?_erase, if_neg]
          rw [Std.LawfulEqOrd.compare_eq_iff_eq]
          exact fun heq => hp heq.symm
        · rw [getElem?_insert_parent, if_neg hp]

/-- A use of a rule is a use of its parent. -/
theorem parent?_recordUse (h : s.usage? r = some u) (label : Label) (p : Symbol) :
    (s.recordUse r label).parent? p = if p = r.parent
      then some ⟨((s.parent? r.parent).getD ⟨0, 0⟩).uses + 1,
        ((s.parent? r.parent).getD ⟨0, 0⟩).rules⟩
      else s.parent? p := by
  have hparents : (s.recordUse r label).parents = s.parents.insert r.parent
      ⟨((s.parents[r.parent]?).getD ⟨0, 0⟩).uses + 1, ((s.parents[r.parent]?).getD ⟨0, 0⟩).rules⟩ := by
    rw [usage?] at h
    simp only [recordUse, recordUse?, h, Option.getD_some]
    split
    · rfl
    · rw [parents_moved]
  rw [parent?, hparents, getElem?_insert_parent]
  rfl

theorem Balanced.track (h : s.Balanced) (r : Rule) : (s.track r).Balanced := by
  cases htracked : s.tracks r with
  | true =>
      rw [Statistics.track, if_pos htracked]
      exact h
  | false =>
      have hnone : s.usage? r = none := by
        rw [← Option.not_isSome_iff_eq_none, ← tracks_iff, htracked]
        exact Bool.false_ne_true
      apply h.of_rule (r := r)
      · intro q hq
        rw [usage?_track, if_neg fun hand => hq hand.1]
      · intro p hp
        rw [parent?_track htracked, if_neg hp]
      · rw [parent?_track htracked, if_pos rfl, h.parent?_eq, hnone, ParentUsage.getD_sum?,
          usage?_track, if_pos ⟨rfl, htracked⟩]
        simp [ParentUsage.sum?, Usage.unused]

theorem Balanced.untrack (h : s.Balanced) (r : Rule) : (s.untrack r).Balanced := by
  cases hu : s.usage? r with
  | none =>
      rw [untrack_of_none hu]
      exact h
  | some u =>
      apply h.of_rule (r := r)
      · intro q hq
        rw [usage?_untrack, if_neg hq]
      · intro p hp
        rw [parent?_untrack hu, if_neg hp]
      · rw [parent?_untrack hu, if_pos rfl, h.parent?_eq, hu, usage?_untrack, if_pos rfl]
        -- The uses that are taken out are a summand of those that the parent counts.
        cases s.siblingUses r <;> simp [ParentUsage.sum?]

theorem Balanced.recordUse (h : s.Balanced) (r : Rule) (label : Label) :
    (s.recordUse r label).Balanced := by
  cases hu : s.usage? r with
  | none =>
      rw [recordUse_of_none hu]
      exact h
  | some u =>
      apply h.of_rule (r := r)
      · intro q hq
        rw [usage?_recordUse, if_neg hq]
      · intro p hp
        rw [parent?_recordUse hu, if_neg hp]
      · rw [parent?_recordUse hu, if_pos rfl, h.parent?_eq, usage?_recordUse, if_pos rfl, hu]
        have huses : u.uses + (s.siblingUses r).sum + 1
            = (u.record s.function label).uses + (s.siblingUses r).sum := by
          rw [Usage.uses_record]
          omega
        exact congrArg (fun n => some (ParentUsage.mk n ((s.siblingUses r).length + 1))) huses

/-- Without uses no parent has any, and none loses its rules. -/
theorem Balanced.resetUsage (h : s.Balanced) : s.resetUsage.Balanced := by
  intro p
  have huses : s.resetUsage.usesOf p = (s.usesOf p).map fun _ => 0 := by
    have hentries : entries s.resetUsage.usages p
        = (entries s.usages p).map fun entry => (entry.1, Usage.unused) :=
      entries_eq_map fun r _ => usage?_resetUsage s r
    rw [usesOf, usesOf, hentries, List.map_map, List.map_map]
    rfl
  have hparent : s.resetUsage.parent? p = (s.parent? p).map fun side => ⟨0, side.rules⟩ :=
    Std.TreeMap.getElem?_map
  rw [hparent, huses, h p, ParentUsage.sum?_map_zero]

/-- Fitness is no use. -/
theorem Balanced.updateFitness (h : s.Balanced) : s.updateFitness.Balanced := by
  intro p
  have huses : s.updateFitness.usesOf p = s.usesOf p := by
    have hentries : entries s.updateFitness.usages p = (entries s.usages p).map fun entry =>
        (entry.1, { entry.2 with
          fitness? := some (s.function.value entry.2 s.extremes.bounds) }) :=
      entries_eq_map fun r _ => usage?_updateFitness s r
    rw [usesOf, usesOf, hentries, List.map_map]
    rfl
  exact (h p).trans (congrArg ParentUsage.sum? huses.symm)

/-! ## Any sequence of events -/

/-- What may be done with statistics. -/
inductive Event where
  | track (r : Rule)
  | untrack (r : Rule)
  | recordUse (r : Rule) (label : Label)
  | resetUsage
  | updateFitness

/-- The statistics after an event. -/
def Event.run : Event → Statistics α → Statistics α
  | track r, s => s.track r
  | untrack r, s => s.untrack r
  | recordUse r label, s => s.recordUse r label
  | resetUsage, s => s.resetUsage
  | updateFitness, s => s.updateFitness

/-- The statistics after events in turn. -/
def Event.runAll (events : List Event) (s : Statistics α) : Statistics α :=
  events.foldl (fun s e => e.run s) s

theorem balanced_empty (function : Fitness α) : (empty function).Balanced := by
  intro p
  have huses : (empty function).usesOf p = [] := by
    apply Decidable.byContradiction
    intro hne
    obtain ⟨r, hr, -⟩ := usesOf_ne_nil_iff.mp hne
    cases hr
  rw [huses]
  exact Std.TreeMap.getElem?_emptyc

theorem Balanced.event (h : s.Balanced) (e : Event) : (e.run s).Balanced := by
  cases e with
  | track r => exact h.track r
  | untrack r => exact h.untrack r
  | recordUse r label => exact h.recordUse r label
  | resetUsage => exact h.resetUsage
  | updateFitness => exact h.updateFitness

/-- **What an event leaves of counters**: none, or the counters of before, perhaps with another fitness
remembered, or these with one use more. -/
theorem Event.usage?_run (e : Event) {q : Rule} (hu : (e.run s).usage? q = some u) :
    u = Usage.unused ∨ ∃ r v, s.usage? r = some v
      ∧ ((∃ f?, u = { v with fitness? := f? }) ∨ ∃ label, u = v.record s.function label) := by
  cases e with
  | track r =>
      rw [Event.run, usage?_track] at hu
      split at hu
      · exact Or.inl (Option.some.inj hu).symm
      · exact Or.inr ⟨q, u, hu, Or.inl ⟨u.fitness?, rfl⟩⟩
  | untrack r =>
      rw [Event.run, usage?_untrack] at hu
      split at hu
      · cases hu
      · exact Or.inr ⟨q, u, hu, Or.inl ⟨u.fitness?, rfl⟩⟩
  | recordUse r label =>
      rw [Event.run, usage?_recordUse] at hu
      split at hu
      · obtain ⟨v, hv, rfl⟩ := Option.map_eq_some_iff.mp hu
        exact Or.inr ⟨r, v, hv, Or.inr ⟨label, rfl⟩⟩
      · exact Or.inr ⟨q, u, hu, Or.inl ⟨u.fitness?, rfl⟩⟩
  | resetUsage =>
      rw [Event.run, usage?_resetUsage] at hu
      obtain ⟨v, -, rfl⟩ := Option.map_eq_some_iff.mp hu
      exact Or.inl rfl
  | updateFitness =>
      rw [Event.run, usage?_updateFitness] at hu
      obtain ⟨v, hv, rfl⟩ := Option.map_eq_some_iff.mp hu
      exact Or.inr ⟨q, v, hv, Or.inl ⟨_, rfl⟩⟩

/-- A use that is valid or invalid is a use. -/
theorem Known.event (h : s.Known) (e : Event) : (e.run s).Known := by
  intro q u hu
  rcases e.usage?_run hu with rfl | ⟨r, v, hv, ⟨f?, rfl⟩ | ⟨label, rfl⟩⟩
  · exact Nat.le_refl 0
  · exact h r v hv
  · have hbefore := h r v hv
    cases label <;> simp only [Usage.record] <;> omega

theorem balanced_known_runAll (function : Fitness α) (events : List Event) :
    (Event.runAll events (empty function)).Balanced
      ∧ (Event.runAll events (empty function)).Known := by
  have hrun : ∀ s : Statistics α, s.Balanced → s.Known →
      (Event.runAll events s).Balanced ∧ (Event.runAll events s).Known := by
    induction events with
    | nil => exact fun s hbalanced hknown => ⟨hbalanced, hknown⟩
    | cons e events ih =>
        exact fun s hbalanced hknown => ih (e.run s) (hbalanced.event e) (hknown.event e)
  refine hrun (empty function) (balanced_empty function) ?_
  intro r u hu
  cases (Std.TreeMap.getElem?_emptyc.symm.trans hu : none = some u)

/-- No rule has been used more often than there were events. -/
theorem uses_runAll_le (events : List Event) {n : Nat} (h : ∀ r, ∀ u ∈ s.usage? r, u.uses ≤ n) :
    ∀ r, ∀ u ∈ (Event.runAll events s).usage? r, u.uses ≤ n + events.length := by
  induction events generalizing s n with
  | nil => exact h
  | cons e events ih =>
      have hnext : ∀ r, ∀ u ∈ (e.run s).usage? r, u.uses ≤ n + 1 := by
        intro q u hu
        rcases e.usage?_run hu with rfl | ⟨r, v, hv, ⟨f?, rfl⟩ | ⟨label, rfl⟩⟩
        · exact Nat.zero_le _
        · exact Nat.le_succ_of_le (h r v hv)
        · rw [Usage.uses_record]
          exact Nat.succ_le_succ (h r v hv)
      intro r u hu
      have hle := ih hnext r u hu
      rw [List.length_cons]
      omega

/-- **Parents' counters are the sums of their rules' counters.**  After any sequence of events a parent
has counters if it has a tracked rule; they are the count of its tracked rules and the sum of their uses. -/
theorem accounts_of_events (function : Fitness α) (events : List Event) :
    (Event.runAll events (empty function)).Accounts := by
  obtain ⟨hbalanced, hknown⟩ := balanced_known_runAll function events
  exact hbalanced.accounts hknown

/-- **Counters that have been counted one by one can be added**, as long as words can count the events, so
every fitness is found. -/
theorem calculate_of_events (function : Fitness α) {events : List Event}
    (hcount : events.length < wordCount)
    (hu : (Event.runAll events (empty function)).usage? r = some u) (bounds : Bounds α) :
    function.calculate u bounds = .ok (function.value u bounds) := by
  have hknown := (balanced_known_runAll function events).2 r u hu
  have huses := uses_runAll_le events (n := 0) (fun r u hu => by cases hu) r u hu
  exact Fitness.calculate_of_lt (by omega) function bounds

end Statistics

end GrammarInduction
