import Mathlib.Data.Rat.Floor
import Mathlib.Tactic.Linarith
import GrammarInduction.Learning.Stop
import GrammarInduction.Proofs.Scalar.Value

/-!
# When relaxed thresholds stop a run

Thresholds are relaxed by raising some of them and leaving out others.  What meets a raised accuracy or
exceeds a raised count meets or exceeds the one before, and so it is with a time, as long as a machine word
counts its seconds: rounding to nanoseconds keeps the order.  More seconds than that become no time at
all, and then the run stops as soon as it has begun.

* `roundHalfEven_mono`, `nanoseconds_mono` — rounding keeps the order;
* `StopSettings.isSome_check_iff` — when a run stops;
* `StopSettings.Relaxes.isSome_check` — relaxed thresholds stop a run no sooner, unless a time is too
  long to be counted;
* `StopSettings.not_isSome_check_of_relaxes` — then they may.
-/

namespace GrammarInduction

open Scalar

/-! ## Rounding -/

/-- Rounding goes down or up to the next whole number. -/
theorem roundHalfEven_cases (q : Rat) :
    roundHalfEven q = q.floor ∧ q - q.floor ≤ 1 / 2
      ∨ roundHalfEven q = q.floor + 1 ∧ 1 / 2 ≤ q - q.floor := by
  unfold roundHalfEven
  dsimp only
  split
  · rename_i hlow
    exact Or.inl ⟨rfl, hlow.le⟩
  · rename_i hlow
    split
    · rename_i hhigh
      exact Or.inr ⟨rfl, hhigh.le⟩
    · rename_i hhigh
      split
      · exact Or.inl ⟨rfl, not_lt.mp hhigh⟩
      · exact Or.inr ⟨rfl, not_lt.mp hlow⟩

theorem roundHalfEven_mono {p q : Rat} (h : p ≤ q) : roundHalfEven p ≤ roundHalfEven q := by
  rcases (Rat.floor_monotone h).lt_or_eq with hlt | heq
  · have hp : roundHalfEven p ≤ p.floor + 1 := by
      rcases roundHalfEven_cases p with hp | hp <;> omega
    have hq : q.floor ≤ roundHalfEven q := by
      rcases roundHalfEven_cases q with hq | hq <;> omega
    omega
  · -- Within one unit only the halves matter, and two values at the middle go the same way.
    rcases roundHalfEven_cases p with ⟨hp, hrest⟩ | ⟨hp, hrest⟩ <;>
      rcases roundHalfEven_cases q with ⟨hq, hrest'⟩ | ⟨hq, hrest'⟩
    · omega
    · omega
    · have hmiddle : p = q := by
        rw [heq] at hrest
        linarith
      rw [hmiddle]
    · omega

variable {α : Type} [Scalar α]

/-- Seconds that a machine word can count. -/
def AreCountable (seconds : α) : Prop := ∃ q ∈ value? seconds, q < 0x10000000000000000

instance (x : α) : Decidable (AreCountable x) :=
  decidable_of_iff ((value? x).any fun q => decide (q < 0x10000000000000000)) (by
    simp [AreCountable, Option.any_eq_true])

theorem nanoseconds_mono [ValuedScalar α] {x y : α} (h : x ≤ y) (hy : AreCountable y) :
    nanoseconds x ≤ nanoseconds y := by
  obtain ⟨q, hq, hlt⟩ := hy
  rw [Option.mem_def] at hq
  unfold nanoseconds
  cases hp : value? x with
  | none => exact Nat.zero_le _
  | some p =>
      rw [hq]
      have hpq := ValuedScalar.value_mono hp hq h
      dsimp only
      split
      · exact Nat.zero_le _
      · rename_i hsound
        have hbounds : ¬ (q < 0 ∨ 0x10000000000000000 ≤ q) := by
          rintro (hneg | hlarge)
          · exact hsound (Or.inl (hpq.trans_lt hneg))
          · exact hlarge.not_gt hlt
        rw [if_neg hbounds]
        exact Int.toNat_le_toNat (roundHalfEven_mono (by linarith))

/-- More seconds than can be counted are no time at all. -/
theorem nanoseconds_of_not_countable {x : α} (h : ¬ AreCountable x) : nanoseconds x = 0 := by
  unfold nanoseconds
  split
  · rfl
  · rename_i q hq
    exact if_pos (Or.inr (not_lt.mp fun hlt => h ⟨q, hq, hlt⟩))

/-! ## Thresholds -/

namespace StopSettings

open StopCriterion

variable {s first second : StopSettings α} {p : Progress α}

/-- A run stops for one of the thresholds that are set. -/
theorem isSome_check_iff : (check s.criteria p).isSome = true
    ↔ (∃ t ∈ s.fitness?, ∃ f ∈ p.bestFitness?, t ≤ f) ∨ (∃ limit ∈ s.steps?, limit < p.step)
      ∨ ∃ x ∈ s.seconds?, nanoseconds x < p.elapsedNanoseconds := by
  rw [check, Option.isSome_map, List.find?_isSome]
  unfold criteria
  cases s.fitness? <;> cases s.steps? <;> cases s.seconds? <;> simp [isSatisfied, Option.any_eq_true]

/-- The second thresholds are the first, some of them raised and some left out. -/
structure Relaxes (first second : StopSettings α) : Prop where
  fitness : ∀ t' ∈ second.fitness?, ∃ t ∈ first.fitness?, t ≤ t'
  steps : ∀ limit' ∈ second.steps?, ∃ limit ∈ first.steps?, limit ≤ limit'
  seconds : ∀ x' ∈ second.seconds?, ∃ x ∈ first.seconds?, x ≤ x'

/-- **Relaxed thresholds stop a run no sooner**, if their time is one that a machine word can count, or
none has been spent.  A time that is too long to be counted stops a run as soon as some has been spent,
however far the other thresholds are. -/
theorem Relaxes.isSome_check [ValuedScalar α] (h : Relaxes first second) (p : Progress α) :
    ((∀ x ∈ second.seconds?, AreCountable x ∨ p.elapsedNanoseconds = 0) →
      (check second.criteria p).isSome = true → (check first.criteria p).isSome = true)
    ∧ ((∃ x ∈ second.seconds?, ¬ AreCountable x) → 0 < p.elapsedNanoseconds →
      (check second.criteria p).isSome = true) := by
  rw [isSome_check_iff, isSome_check_iff]
  constructor
  · rintro hcount (⟨t', ht', f, hf, hle⟩ | ⟨limit', hlimit', hlt⟩ | ⟨x', hx', hlt⟩)
    · obtain ⟨t, ht, hraised⟩ := h.fitness t' ht'
      exact Or.inl ⟨t, ht, f, hf, OrderedScalar.le_trans hraised hle⟩
    · obtain ⟨limit, hlimit, hraised⟩ := h.steps limit' hlimit'
      exact Or.inr (Or.inl ⟨limit, hlimit, Nat.lt_of_le_of_lt hraised hlt⟩)
    · obtain ⟨x, hx, hraised⟩ := h.seconds x' hx'
      have hcountable : AreCountable x' := (hcount x' hx').resolve_right (by omega)
      have hmono := nanoseconds_mono hraised hcountable
      exact Or.inr (Or.inr ⟨x, hx, Nat.lt_of_le_of_lt hmono hlt⟩)
  · rintro ⟨x, hx, hlong⟩ hspent
    refine Or.inr (Or.inr ⟨x, hx, ?_⟩)
    rwa [nanoseconds_of_not_countable hlong]

theorem relaxes_seconds {x y : α} (h : x ≤ y) (steps? : Option Nat) :
    Relaxes ⟨none, steps?, some x⟩ ⟨none, none, some y⟩ where
  fitness _ hnone := nomatch hnone
  steps _ hnone := nomatch hnone
  seconds _ hy := ⟨x, rfl, Option.mem_some_iff.mp hy ▸ h⟩

/-- A budget of one second is raised to an hour and the count of generations no longer limited: two hours
exceed both.  Raised to `10 ^ 20` seconds, the budget is exceeded in no time. -/
theorem isSome_check_hour :
    AreCountable (3600 : Float)
      ∧ (check (criteria ⟨none, none, some (3600 : Float)⟩) ⟨1, none, 7200000000000⟩).isSome = true
      ∧ (check (criteria ⟨none, some 5, some (1 : Float)⟩) ⟨1, none, 7200000000000⟩).isSome = true
      ∧ ¬ AreCountable (1e20 : Float)
      ∧ (check (criteria ⟨none, none, some (1e20 : Float)⟩) ⟨1, none, 1⟩).isSome = true := by
  have hcountable : AreCountable (3600 : Float) := by decide +kernel
  have hlong : ¬ AreCountable (1e20 : Float) := by decide +kernel
  have hexceeded : (check (criteria ⟨none, none, some (3600 : Float)⟩)
      ⟨1, none, 7200000000000⟩).isSome = true := by decide +kernel
  have hhour := (relaxes_seconds (by decide +kernel : (1 : Float) ≤ 3600) (some 5)).isSome_check
    ⟨1, none, 7200000000000⟩
  have hages := (relaxes_seconds (by decide +kernel : (1 : Float) ≤ 1e20) (some 5)).isSome_check
    ⟨1, none, 1⟩
  refine ⟨hcountable, hexceeded, hhour.1 (fun x hx => ?_) hexceeded, hlong,
    hages.2 ⟨1e20, rfl, hlong⟩ (by decide)⟩
  cases hx
  exact Or.inl hcountable

/-- A budget of a second is raised to more seconds than can be counted, and half a second has been spent:
only the raised budget stops the run. -/
theorem not_isSome_check_of_relaxes :
    ¬ ∀ (first second : StopSettings Float) (p : Progress Float), first.flaw? = none →
      second.flaw? = none → first.Relaxes second →
      (check second.criteria p).isSome = true → (check first.criteria p).isSome = true := by
  intro h
  have hstops := h ⟨none, none, some 1⟩ ⟨none, none, some 1e20⟩ ⟨1, none, 500000000⟩
    (by decide +kernel) (by decide +kernel) (relaxes_seconds (by decide +kernel) none)
    (by decide +kernel)
  exact absurd hstops (by decide +kernel)

end StopSettings

end GrammarInduction
