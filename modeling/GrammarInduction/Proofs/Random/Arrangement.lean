import Mathlib.Data.List.Nodup
import GrammarInduction.Random.Arrangement

/-!
# What every arrangement is

Samples and shuffled lists differ from draw to draw, but some things hold whatever is drawn: a sample
consists of different indices of its range, as many as were asked for if there are so many, and a shuffled
list has the elements that it had.  The three ways to draw a sample keep the indices apart each by its own
means.

* `Draw.Always` — what holds of the outcome of a draw from every generator;
* `Sample.growing_always`, `Sample.byExchange_always`, `Sample.byRejection_always` — the three ways;
* `Draw.sample_always`, `Draw.shuffle_always` — samples and shuffled lists.
-/

namespace GrammarInduction

/-- Exchanging two places moves elements and nothing else. -/
theorem swapIfInBounds_perm {β : Type} (xs : Array β) (i j : Nat) :
    (xs.swapIfInBounds i j).Perm xs := by
  unfold Array.swapIfInBounds
  split
  · split
    · exact Array.swap_perm _ _
    · exact .refl xs
  · exact .refl xs

/-! ## Whatever is drawn -/

namespace Draw

variable {β γ : Type}

/-- The outcome is as given, whatever is drawn. -/
def Always (d : Draw β) (post : β → Prop) : Prop := ∀ g, post (d g).1

theorem always_pure {post : β → Prop} {b : β} (h : post b) : Always (pure b) post := fun _ => h

theorem Always.bind {d : Draw β} {f : β → Draw γ} {mid : β → Prop} {post : γ → Prop}
    (h : d.Always mid) (hf : ∀ b, mid b → (f b).Always post) : (d >>= f).Always post :=
  fun g => hf (d g).1 (h g) (d g).2

theorem Always.imp {d : Draw β} {post post' : β → Prop} (h : d.Always post)
    (himp : ∀ b, post b → post' b) : d.Always post' :=
  fun g => himp _ (h g)

/-- Nothing is asked of the outcome. -/
theorem always_true (d : Draw β) : d.Always fun _ => True := fun _ => trivial

theorem number_always (width : Width) : Always (number width) (· < width.size) := number_lt width

theorem below_always {n : Nat} (hn : 0 < n) : Always (below n) (· < n) := below_lt hn

end Draw

namespace Sample

open Draw

/-! ## Growing -/

/-- An index met before gives its place to the newest one, which was not there before. -/
theorem grow_always {taken : List Nat} {top : Nat} (hnodup : taken.Nodup)
    (hbelow : ∀ i ∈ taken, i < top) : (grow taken top).Always fun after =>
      after.Nodup ∧ after.length = taken.length + 1 ∧ ∀ i ∈ after, i < top + 1 := by
  refine (below_always (Nat.succ_pos top)).bind fun i hi => always_pure ?_
  have hmapped : ∀ j ∈ taken.map (fun x => if x = i then top else x), j ≠ i ∧ j < top + 1
      ∨ j = top ∧ i ∈ taken := by
    intro j hj
    obtain ⟨x, hx, rfl⟩ := List.mem_map.mp hj
    have hxtop := hbelow x hx
    split
    · rename_i heq
      exact Or.inr ⟨rfl, heq ▸ hx⟩
    · rename_i hne
      exact Or.inl ⟨hne, by omega⟩
  refine ⟨?_, by simp, ?_⟩
  · refine List.nodup_append.mpr ⟨?_, List.nodup_singleton _, ?_⟩
    · refine hnodup.map_on fun x hx y hy hxy => ?_
      have hxtop := hbelow x hx
      have hytop := hbelow y hy
      split at hxy <;> split at hxy <;> omega
    · intro j hj k hk hjk
      cases List.mem_singleton.mp hk
      rcases hmapped j hj with hne | ⟨rfl, hmem⟩
      · exact hne.1 hjk
      · have := hbelow _ (hjk ▸ hmem)
        omega
  · intro j hj
    rcases List.mem_append.mp hj with hj | hj
    · rcases hmapped j hj with hlt | heq <;> omega
    · cases List.mem_singleton.mp hj
      exact hi

theorem growing_always {n amount : Nat} (h : amount ≤ n) : (growing n amount).Always fun taken =>
    taken.Nodup ∧ taken.length = amount ∧ ∀ i ∈ taken, i < n := by
  -- What has been taken lies below the top of the range that is reached.
  have hgrown : ∀ (amount top : Nat) (taken : List Nat), taken.Nodup → (∀ i ∈ taken, i < top) →
      ((List.range' top amount).foldlM grow taken).Always fun after =>
        after.Nodup ∧ after.length = taken.length + amount ∧ ∀ i ∈ after, i < top + amount := by
    intro amount
    induction amount with
    | zero => exact fun top taken hnodup hbelow => always_pure ⟨hnodup, rfl, hbelow⟩
    | succ amount ih =>
        intro top taken hnodup hbelow
        rw [List.range'_succ, List.foldlM_cons]
        refine (grow_always hnodup hbelow).bind fun after hafter => ?_
        obtain ⟨hnodup, hlength, hbelow⟩ := hafter
        refine (ih (top + 1) after hnodup hbelow).imp fun final hfinal => ?_
        obtain ⟨hnodup, hlength', hbelow⟩ := hfinal
        refine ⟨hnodup, by omega, fun i hi => ?_⟩
        have hlt := hbelow i hi
        omega
  refine (hgrown amount (n - amount) [] .nil (by simp)).imp fun taken htaken => ?_
  obtain ⟨hnodup, hlength, hbelow⟩ := htaken
  refine ⟨hnodup, by simpa using hlength, fun i hi => ?_⟩
  have hlt := hbelow i hi
  omega

/-! ## Exchanging -/

theorem exchange_always (xs : Array Nat) (i count : Nat) :
    (exchange xs i count).Always fun ys => ys.Perm xs := by
  induction count generalizing xs i with
  | zero => exact always_pure (.refl xs)
  | succ count ih =>
      refine (always_true _).bind fun offset _ => ?_
      exact (ih _ _).imp fun ys hys => hys.trans (swapIfInBounds_perm xs i (i + offset))

theorem byExchange_always {n amount : Nat} (h : amount ≤ n) :
    (byExchange n amount).Always fun taken =>
      taken.Nodup ∧ taken.length = amount ∧ ∀ i ∈ taken, i < n := by
  refine (exchange_always (Array.range n) 0 amount).bind fun xs hxs => always_pure ?_
  have hperm : xs.toList.Perm (List.range n) := by
    rw [← Array.toList_range]
    exact hxs.toList
  refine ⟨(hperm.nodup_iff.mpr List.nodup_range).sublist (List.take_sublist ..), ?_, ?_⟩
  · rw [List.length_take, hperm.length_eq, List.length_range]
    omega
  · intro i hi
    exact List.mem_range.mp (hperm.mem_iff.mp (List.mem_of_mem_take hi))

/-! ## Rejecting -/

/-- If fewer indices are taken than there are, one of the first is not. -/
theorem leastUntaken_spec {n : Nat} {taken : List Nat} (h : taken.length < n) :
    leastUntaken n taken < n ∧ leastUntaken n taken ∉ taken := by
  unfold leastUntaken
  cases hfind : (List.range (taken.length + 1)).find? fun i => decide (i < n ∧ i ∉ taken) with
  | some i =>
      have hfound := List.find?_some hfind
      exact of_decide_eq_true hfound
  | none =>
      have hall : List.range (taken.length + 1) ⊆ taken := by
        intro i hi
        have hnot := List.find?_eq_none.mp hfind i hi
        have hlt := List.mem_range.mp hi
        by_contra hfree
        exact hnot (decide_eq_true ⟨by omega, hfree⟩)
      have hle := List.nodup_range.length_le_of_subset hall
      rw [List.length_range] at hle
      omega

theorem untaken_always {width : Width} {n : Nat} {taken : List Nat} (h : taken.length < n)
    (tries : Nat) : (untaken width n taken tries).Always fun i => i < n ∧ i ∉ taken := by
  induction tries with
  | zero => exact always_pure (leastUntaken_spec h)
  | succ tries ih =>
      refine (number_always width).bind fun drawn hdrawn => ?_
      dsimp only
      split
      · rename_i hnew
        exact always_pure ⟨(high_lt (by omega) hdrawn).1, hnew.2⟩
      · exact ih

theorem rejecting_always {width : Width} {n : Nat} (amount : Nat) {taken : List Nat}
    (hnodup : taken.Nodup) (hbelow : ∀ i ∈ taken, i < n) (h : taken.length + amount ≤ n) :
    (rejecting width n taken amount).Always fun after =>
      after.Nodup ∧ after.length = taken.length + amount ∧ ∀ i ∈ after, i < n := by
  induction amount generalizing taken with
  | zero => exact always_pure ⟨hnodup, rfl, hbelow⟩
  | succ amount ih =>
      refine (untaken_always (by omega) 4096).bind fun i hi => ?_
      have hcons : ∀ j ∈ i :: taken, j < n := List.forall_mem_cons.mpr ⟨hi.1, hbelow⟩
      refine (ih (List.nodup_cons.mpr ⟨hi.2, hnodup⟩) hcons ?_).imp fun after hafter => ?_
      · rw [List.length_cons]
        omega
      · rw [List.length_cons] at hafter
        exact ⟨hafter.1, by omega, hafter.2.2⟩

theorem byRejection_always {n amount : Nat} (h : amount ≤ n) :
    (byRejection n amount).Always fun taken =>
      taken.Nodup ∧ taken.length = amount ∧ ∀ i ∈ taken, i < n := by
  refine (rejecting_always amount .nil (by simp) (by simpa using h)).bind fun taken htaken => ?_
  refine always_pure ⟨List.nodup_reverse.mpr htaken.1, by simpa using htaken.2.1, fun i hi => ?_⟩
  exact htaken.2.2 i (List.mem_reverse.mp hi)

end Sample

namespace Draw

/-- **A sample consists of different indices of its range**, as many as were asked for or all. -/
theorem sample_always (n amount : Nat) : (sample n amount).Always fun taken =>
    taken.Nodup ∧ taken.length = min amount n ∧ ∀ i ∈ taken, i < n := by
  have hle : min amount n ≤ n := Nat.min_le_right ..
  unfold sample
  dsimp only
  split
  · exact Sample.growing_always hle
  · exact Sample.byExchange_always hle
  · exact Sample.byRejection_always hle

theorem shuffleFrom_always {β : Type} (xs : Array β) (reserve : Reserve) (i count : Nat) :
    (shuffleFrom xs reserve i count).Always fun ys => ys.Perm xs := by
  induction count generalizing xs reserve i with
  | zero => exact always_pure (.refl xs)
  | succ count ih =>
      refine (always_true _).bind fun drawn _ => ?_
      exact (ih _ _ _).imp fun ys hys => hys.trans (swapIfInBounds_perm xs i drawn.1)

/-- **A shuffled list has the elements that it had.** -/
theorem shuffle_always {β : Type} (xs : List β) : (shuffle xs).Always fun ys => ys.Perm xs := by
  unfold shuffle
  split
  · exact always_pure (.refl xs)
  · exact (shuffleFrom_always xs.toArray _ 1 _).bind fun ys hys => always_pure hys.toList

end Draw

end GrammarInduction
