import GrammarInduction.Learning.Learner
import Mathlib.Logic.Relation

/-!
# What an attempt ensures

A computation over a state ends with a result or with a fault, and in either case the state it has
reached is kept.  `Attempt.Ensures` says what holds of every ending from a given state: one condition
for results, one for faults.  A fault condition that never holds makes it a statement that there is a
result; one that always holds leaves faults out of account.

* `Attempt.ensures_bind` — a sequence ensures what its second part does from wherever the first ends;
* `Attempt.Ensures.mono` — conditions may be weakened;
* `Attempt.ensures_state`, `Attempt.ensures_except`, `Attempt.ensures_attempt` — the ways in which
  smaller computations enter larger ones;
* `Attempt.Moves` — every ending, faults included, is reached by steps of a relation.
-/

namespace GrammarInduction.Attempt

variable {σ β γ : Type} {s : σ} {fault fault' : Fault → σ → Prop} {post post' : β → σ → Prop}

/-- The ending of `m` from `s` meets `post` if it is a result, and `fault` if it is a fault. -/
def Ensures (m : Attempt σ β) (s : σ) (fault : Fault → σ → Prop) (post : β → σ → Prop) : Prop :=
  match m s with
  | (.ok b, t) => post b t
  | (.error e, t) => fault e t

/-- Conditions may be weakened. -/
theorem Ensures.mono {m : Attempt σ β} (h : Ensures m s fault post)
    (hfault : ∀ e t, fault e t → fault' e t) (hpost : ∀ b t, post b t → post' b t) :
    Ensures m s fault' post' := by
  unfold Ensures at h ⊢
  split
  · rename_i b t hm
    rw [hm] at h
    exact hpost b t h
  · rename_i e t hm
    rw [hm] at h
    exact hfault e t h

theorem Ensures.imp {m : Attempt σ β} (h : Ensures m s fault post)
    (hpost : ∀ b t, post b t → post' b t) : Ensures m s fault post' :=
  h.mono (fun _ _ he => he) hpost

/-- Two accounts of one computation hold together. -/
theorem Ensures.and {m : Attempt σ β} (h : Ensures m s fault post)
    (h' : Ensures m s fault' post') :
    Ensures m s (fun e t => fault e t ∧ fault' e t) fun b t => post b t ∧ post' b t := by
  unfold Ensures at h h' ⊢
  split
  · rename_i b t hm
    rw [hm] at h h'
    exact ⟨h, h'⟩
  · rename_i e t hm
    rw [hm] at h h'
    exact ⟨h, h'⟩

/-- What is ensured holds of a result. -/
theorem Ensures.of_ok {m : Attempt σ β} (h : Ensures m s fault post) {b : β} {t : σ}
    (hm : m s = (.ok b, t)) : post b t := by
  unfold Ensures at h
  rw [hm] at h
  exact h

/-- What is ensured of faults holds of a fault. -/
theorem Ensures.of_error {m : Attempt σ β} (h : Ensures m s fault post) {e : Fault} {t : σ}
    (hm : m s = (.error e, t)) : fault e t := by
  unfold Ensures at h
  rw [hm] at h
  exact h

theorem ensures_of_eq {m : Attempt σ β} {b : β} {t : σ} (hm : m s = (.ok b, t))
    (h : post b t) : Ensures m s fault post := by
  unfold Ensures
  rw [hm]
  exact h

/-- Two computations that end alike from a state ensure the same. -/
theorem ensures_congr {m m' : Attempt σ β} (h : m s = m' s) :
    Ensures m s fault post ↔ Ensures m' s fault post := by
  unfold Ensures
  rw [h]

theorem ensures_self (m : Attempt σ β) (s : σ) :
    Ensures m s (fun _ _ => True) fun b t => m s = (.ok b, t) := by
  unfold Ensures
  split
  · rename_i hm
    exact hm
  · trivial

/-- Where no fault is allowed there is a result. -/
theorem Ensures.exists_ok {m : Attempt σ β} (h : Ensures m s (fun _ _ => False) post) :
    ∃ b t, m s = (.ok b, t) ∧ post b t := by
  unfold Ensures at h
  split at h
  · rename_i b t hm
    exact ⟨b, t, hm, h⟩
  · exact h.elim

/-- A run that is checked to end with a result of some kind has such a result. -/
theorem exists_ok_of_check {m : Attempt σ β} (check : β → σ → Bool)
    (h : (match m s with
      | (.ok b, t) => check b t
      | (.error _, _) => false) = true) : ∃ b t, m s = (.ok b, t) ∧ check b t = true := by
  split at h
  · rename_i b t hm
    exact ⟨b, t, hm, h⟩
  · cases h

/-- So it is with one that is checked to end with a fault of some kind. -/
theorem exists_error_of_check {m : Attempt σ β} (check : Fault → σ → Bool)
    (h : (match m s with
      | (.ok _, _) => false
      | (.error e, t) => check e t) = true) : ∃ e t, m s = (.error e, t) ∧ check e t = true := by
  split at h
  · cases h
  · rename_i e t hm
    exact ⟨e, t, hm, h⟩

@[simp]
theorem ensures_pure {b : β} : Ensures (pure b : Attempt σ β) s fault post ↔ post b s := Iff.rfl

@[simp]
theorem ensures_throw {e : Fault} :
    Ensures (throw e : Attempt σ β) s fault post ↔ fault e s := Iff.rfl

/-- A sequence runs its second part from where the first has ended with a result. -/
theorem bind_apply (m : Attempt σ γ) (f : γ → Attempt σ β) (s : σ) :
    (m >>= f) s = match m s with
      | (.ok c, t) => f c t
      | (.error e, t) => (.error e, t) := by
  show (ExceptT.bind m f : Attempt σ β) s = _
  simp only [ExceptT.bind, ExceptT.mk, bind, StateT.bind]
  obtain ⟨ending, t⟩ := m s
  cases ending <;> rfl

/-- A sequence that reads off the state goes on with what it has read. -/
theorem read_bind_apply {x : σ → Except Fault γ} {c : γ} (h : x s = .ok c)
    (f : γ → Attempt σ β) :
    ((get : Attempt σ σ) >>= fun s => (liftM (x s) : Attempt σ γ) >>= f) s = f c s := by
  rw [bind_apply]
  show ((liftM (x s) : Attempt σ γ) >>= f) s = _
  rw [h]
  rfl

/-- The second part of a sequence starts where the first ends. -/
theorem ensures_bind {m : Attempt σ γ} {f : γ → Attempt σ β} :
    Ensures (m >>= f) s fault post
      ↔ Ensures m s fault fun c t => Ensures (f c) t fault post := by
  unfold Ensures
  rw [bind_apply]
  obtain ⟨ending, t⟩ := m s
  cases ending <;> exact Iff.rfl

@[simp]
theorem ensures_get {post : σ → σ → Prop} :
    Ensures (get : Attempt σ σ) s fault post ↔ post s s := Iff.rfl

@[simp]
theorem ensures_modify {f : σ → σ} {post : PUnit → σ → Prop} :
    Ensures (modify f : Attempt σ PUnit) s fault post ↔ post ⟨⟩ (f s) := Iff.rfl

@[simp]
theorem ensures_state {m : StateM σ β} :
    Ensures (liftM m : Attempt σ β) s fault post ↔ post (m s).1 (m s).2 := Iff.rfl

/-- A computation that knows no state leaves it alone. -/
@[simp]
theorem ensures_except {x : Except Fault β} :
    Ensures (liftM x : Attempt σ β) s fault post
      ↔ match x with
        | .ok b => post b s
        | .error e => fault e s := by
  cases x <;> exact Iff.rfl

/-- Its two endings are treated apart, each with what it comes to. -/
theorem ensures_of_except {x : Except Fault β} (hfault : ∀ e, x = .error e → fault e s)
    (hpost : ∀ b, x = .ok b → post b s) : Ensures (liftM x : Attempt σ β) s fault post := by
  cases x with
  | ok b => exact hpost b rfl
  | error e => exact hfault e rfl

/-- A draw that a learner attempts moves its generator and nothing else. -/
theorem ensures_attempt {α : Type} [Scalar α] {d : Attempt Generator β} {s : Learner α}
    {fault : Fault → Learner α → Prop} {post : β → Learner α → Prop} :
    Ensures (Learner.attempt d) s fault post
      ↔ Ensures d s.generator (fun e g => fault e { s with generator := g })
          fun b g => post b { s with generator := g } := by
  unfold Ensures Learner.attempt
  obtain ⟨ending, g⟩ := d s.generator
  cases ending <;> exact Iff.rfl

/-! ## Computations that move along a relation -/

section Moves

open Relation

variable {R : σ → σ → Prop}

/-- Whether it ends with a result or with a fault, the computation ends in a state that is reached by
steps of `R`. -/
def Moves (R : σ → σ → Prop) (m : Attempt σ β) : Prop :=
  ∀ s, Ensures m s (fun _ t => ReflTransGen R s t) fun _ t => ReflTransGen R s t

theorem moves_pure (b : β) : Moves R (pure b) := fun _ => ensures_pure.mpr .refl

theorem moves_get : Moves R (get : Attempt σ σ) := fun _ => ensures_get.mpr .refl

theorem moves_state {m : StateM σ β} (h : ∀ s, ReflTransGen R s (m s).2) :
    Moves R (liftM m : Attempt σ β) :=
  fun s => ensures_state.mpr (h s)

theorem moves_except (x : Except Fault β) : Moves R (liftM x : Attempt σ β) := by
  intro s
  rw [ensures_except]
  cases x with
  | ok b => exact .refl
  | error e => exact .refl

/-- Steps of the first part are followed by those of the second. -/
theorem Moves.bind {m : Attempt σ γ} {f : γ → Attempt σ β} (hm : Moves R m)
    (hf : ∀ c, Moves R (f c)) : Moves R (m >>= f) := by
  intro s
  apply ensures_bind.mpr
  apply (hm s).imp
  intro c t hst
  apply (hf c t).mono
  · intro e u htu
    exact hst.trans htu
  · intro b u htu
    exact hst.trans htu

/-- The state in which it ends is reached by the steps. -/
theorem Moves.reaches {m : Attempt σ β} (h : Moves R m) (s : σ) : ReflTransGen R s (m s).2 := by
  have hend := h s
  unfold Ensures at hend
  split at hend
  · rename_i hm
    rw [hm]
    exact hend
  · rename_i hm
    rw [hm]
    exact hend

end Moves

end GrammarInduction.Attempt
