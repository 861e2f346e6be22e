import GrammarInduction.Sorting.Short

/-!
# Short lists are sorted

Whatever the comparison, a sort that has a result has the elements it was given.  Where the comparison is an
order, it has a result, in which every element is ahead of those behind it.  Equal elements are told apart by
where they stood: `before` is what the list is ordered by as it is given, `ahead` what it is to be ordered by.

* `Sorting.Lawful` — a comparison that is an order;
* `Sorting.interleave_sorts` — the steps of a merge;
* `Sorting.mergeEnds_perm`, `Sorting.exists_mergeEnds` — a merge from both ends, whose ends meet;
* `Sorting.short_keeps`, `Sorting.short_orders` — the sort of a short list.
-/

namespace GrammarInduction.Sorting

variable {β : Type} {less : β → β → Bool} {before ahead : β → β → Prop} {x y : β}
  {xs ys zs : List β}

/-- Elements of one list that `before` orders. -/
def Near (before : β → β → Prop) (x y : β) : Prop := x = y ∨ before x y ∨ before y x

theorem Near.symm (h : Near before x y) : Near before y x := h.imp Eq.symm Or.symm

theorem near_of_mem (hxs : xs.Pairwise before) (hx : x ∈ xs) (hy : y ∈ xs) : Near before x y := by
  induction xs with
  | nil => cases hx
  | cons z zs ih =>
      obtain ⟨hfirst, hrest⟩ := List.pairwise_cons.mp hxs
      rcases List.mem_cons.mp hx with hxz | hx <;> rcases List.mem_cons.mp hy with hyz | hy
      · exact Or.inl (hxz.trans hyz.symm)
      · exact Or.inr (Or.inl (hxz ▸ hfirst y hy))
      · exact Or.inr (Or.inr (hyz ▸ hfirst x hx))
      · exact ih hrest hx hy

/-- A comparison that is an order of the elements of a list: it says who is ahead, and elements that are
equal to it stay as they stand. -/
structure Lawful (less : β → β → Bool) (before ahead : β → β → Prop) : Prop where
  asymm : ∀ {x y}, ahead x y → ¬ ahead y x
  trans : ∀ {x y z}, ahead x y → ahead y z → ahead x z
  ahead_of_less : ∀ {x y}, before x y ∨ before y x → less x y = true → ahead x y
  ahead_of_not_less : ∀ {x y}, before x y → less y x = false → ahead x y
  cotrans : ∀ {x y z}, Near before x y → Near before y z → less x z = true →
    less x y = true ∨ less y z = true

/-- A list that is turned round is ordered by the comparison that is turned round. -/
theorem Lawful.flip (h : Lawful less before ahead) :
    Lawful (fun x y => less y x) (fun x y => before y x) (fun x y => ahead y x) where
  asymm := h.asymm
  trans hxy hyz := h.trans hyz hxy
  ahead_of_less := h.ahead_of_less
  ahead_of_not_less := h.ahead_of_not_less
  cotrans hxy hyz hless :=
    (h.cotrans (hyz.symm.imp id Or.symm) (hxy.symm.imp id Or.symm) hless).symm

/-- A sort whose result has the elements that it is given. -/
def Keeps (sort : List β → Option (List β)) : Prop :=
  ∀ ⦃xs ys⦄, sort xs = some ys → ys.Perm xs

/-- A sort that has a result, in which every element is ahead of those behind it. -/
def Orders (before ahead : β → β → Prop) (sort : List β → Option (List β)) : Prop :=
  ∀ ⦃xs⦄, xs.Pairwise before → ∃ ys, sort xs = some ys ∧ ys.Pairwise ahead

/-! ## Insertion -/

theorem insertBack_perm (less : β → β → Bool) (x : β) (xs : List β) :
    (insertBack less x xs).Perm (x :: xs) := by
  induction xs with
  | nil => exact List.Perm.refl _
  | cons y ys ih =>
      unfold insertBack
      split
      · exact (ih.cons y).trans (List.Perm.swap ..)
      · exact List.Perm.refl _

/-- The last comer is placed behind those that it is not ahead of. -/
theorem insertBack_sorts (h : Lawful less before ahead) (hbefore : ∀ y ∈ xs, before y x)
    (hxs : xs.Pairwise fun x y => ahead y x) :
    (insertBack less x xs).Pairwise fun x y => ahead y x := by
  induction xs with
  | nil => exact List.pairwise_singleton _ _
  | cons y ys ih =>
      rw [List.forall_mem_cons] at hbefore
      obtain ⟨hbehind, hrest⟩ := List.pairwise_cons.mp hxs
      unfold insertBack
      split
      · rename_i hless
        have hahead : ahead x y := h.ahead_of_less (Or.inr hbefore.1) hless
        refine List.pairwise_cons.mpr ⟨fun z hz => ?_, ih hbefore.2 hrest⟩
        have hmem := (insertBack_perm less x ys).mem_iff.mp hz
        exact (List.mem_cons.mp hmem).elim (fun hzx => hzx ▸ hahead) (hbehind z)
      · rename_i hless
        have hahead : ahead y x := h.ahead_of_not_less hbefore.1 (Bool.not_eq_true _ ▸ hless)
        refine List.pairwise_cons.mpr ⟨fun z hz => ?_, hxs⟩
        rcases List.mem_cons.mp hz with rfl | hold
        · exact hahead
        · exact h.trans (hbehind z hold) hahead

theorem insertAll_perm (less : β → β → Bool) (sorted xs : List β) :
    (insertAll less sorted xs).Perm (sorted ++ xs) := by
  have hfold : ∀ placed : List β,
      (xs.foldl (fun placed x => insertBack less x placed) placed).Perm (placed ++ xs) := by
    induction xs with
    | nil => simp
    | cons x rest ih =>
        intro placed
        refine (ih (insertBack less x placed)).trans ?_
        exact ((insertBack_perm less x placed).append_right rest).trans List.perm_middle.symm
  refine (List.reverse_perm _).trans ((hfold _).trans ?_)
  exact (List.reverse_perm sorted).append_right xs

/-- Insertion goes on from what is sorted. -/
theorem insertAll_sorts (h : Lawful less before ahead) (hsorted : zs.Pairwise ahead)
    (hcross : ∀ x ∈ zs, ∀ y ∈ xs, before x y) (hxs : xs.Pairwise before) :
    (insertAll less zs xs).Pairwise ahead := by
  have hfold : ∀ (xs placed : List β), (∀ x ∈ placed, ∀ y ∈ xs, before x y) → xs.Pairwise before →
      (placed.Pairwise fun x y => ahead y x) →
      (xs.foldl (fun placed x => insertBack less x placed) placed).Pairwise fun x y => ahead y x := by
    intro xs
    induction xs with
    | nil => exact fun _ _ _ hplaced => hplaced
    | cons x rest ih =>
        intro placed hcross hxs hplaced
        obtain ⟨hfirst, hrest⟩ := List.pairwise_cons.mp hxs
        have hlast : ∀ y ∈ placed, before y x := fun y hy => hcross y hy x List.mem_cons_self
        refine ih _ (fun y hy z hz => ?_) hrest (insertBack_sorts h hlast hplaced)
        rcases List.mem_cons.mp ((insertBack_perm less x placed).mem_iff.mp hy) with rfl | hold
        · exact hfirst z hz
        · exact hcross y hold z (List.mem_cons_of_mem _ hz)
  rw [insertAll, List.pairwise_reverse]
  refine hfold xs _ (fun x hx => hcross x (List.mem_reverse.mp hx)) hxs ?_
  exact List.pairwise_reverse.mpr hsorted

/-! ## The steps of a merge -/

/-- What is taken and what is left are the elements of both lists, taken from their fronts. -/
theorem interleave_parts (less : β → β → Bool) (steps : Nat) (xs ys : List β) :
    ∃ front front' : List β, xs = front ++ (interleave less steps xs ys).left
      ∧ ys = front' ++ (interleave less steps xs ys).right
      ∧ (interleave less steps xs ys).taken.Perm (front ++ front') := by
  fun_induction interleave less steps xs ys with
  | case1 steps x xs y ys hless rest ih =>
      obtain ⟨front, front', hxs, hys, hperm⟩ := ih
      refine ⟨front, y :: front', hxs, congrArg (y :: ·) hys, ?_⟩
      exact (hperm.cons y).trans List.perm_middle.symm
  | case2 steps x xs y ys hless rest ih =>
      obtain ⟨front, front', hxs, hys, hperm⟩ := ih
      exact ⟨x :: front, front', congrArg (x :: ·) hxs, hys, hperm.cons x⟩
  | case3 => exact ⟨[], [], rfl, rfl, List.Perm.refl _⟩

theorem interleave_perm (less : β → β → Bool) (steps : Nat) (xs ys : List β) :
    ((interleave less steps xs ys).taken ++ ((interleave less steps xs ys).left
      ++ (interleave less steps xs ys).right)).Perm (xs ++ ys) := by
  obtain ⟨front, front', hxs, hys, hperm⟩ := interleave_parts less steps xs ys
  generalize interleave less steps xs ys = rest at *
  rw [hxs, hys, List.append_assoc]
  refine (hperm.append_right _).trans ?_
  rw [List.append_assoc]
  refine List.Perm.append_left front ?_
  rw [← List.append_assoc, ← List.append_assoc]
  exact List.perm_append_comm.append_right _

/-- Each step takes an element, as long as neither list can end. -/
theorem length_interleave {steps : Nat} (hxs : steps ≤ xs.length) (hys : steps ≤ ys.length) :
    (interleave less steps xs ys).taken.length = steps := by
  fun_induction interleave less steps xs ys with
  | case1 steps x xs y ys hless rest ih =>
      have hlength := ih (by omega) (by simpa using hys)
      simp [rest, hlength]
  | case2 steps x xs y ys hless rest ih =>
      have hlength := ih (by simpa using hxs) (by omega)
      simp [rest, hlength]
  | case3 steps xs ys hend =>
      cases steps with
      | zero => rfl
      | succ steps =>
          obtain ⟨x, xs, rfl⟩ := List.exists_cons_of_length_pos (Nat.lt_of_lt_of_le steps.succ_pos hxs)
          obtain ⟨y, ys, rfl⟩ := List.exists_cons_of_length_pos (Nat.lt_of_lt_of_le steps.succ_pos hys)
          exact absurd rfl (hend steps x xs y ys rfl rfl)

/-- A merge that has as many steps as there are elements comes to the end of a list. -/
theorem interleave_ends (less : β → β → Bool) {steps : Nat} (hsteps : xs.length + ys.length ≤ steps) :
    (interleave less steps xs ys).left = [] ∨ (interleave less steps xs ys).right = [] := by
  fun_induction interleave less steps xs ys with
  | case1 steps x xs y ys hless rest ih =>
      exact ih (by simp only [List.length_cons] at hsteps ⊢; omega)
  | case2 steps x xs y ys hless rest ih =>
      exact ih (by simp only [List.length_cons] at hsteps ⊢; omega)
  | case3 steps xs ys hend =>
      cases xs with
      | nil => exact Or.inl rfl
      | cons x xs =>
          cases ys with
          | nil => exact Or.inr rfl
          | cons y ys =>
              cases steps with
              | zero => simp at hsteps
              | succ steps => exact absurd rfl (hend steps x xs y ys rfl rfl)

/-- What a merge has taken is sorted, and ahead of what it leaves. -/
structure Merge.Sorted (ahead : β → β → Prop) (m : Merge β) : Prop where
  taken : m.taken.Pairwise ahead
  left : ∀ x ∈ m.taken, ∀ y ∈ m.left ++ m.right, ahead x y

/-- A step that takes what is ahead of all that both lists still have. -/
theorem Merge.Sorted.cons {steps : Nat} (h : (interleave less steps xs ys).Sorted ahead)
    (hx : ∀ y ∈ xs ++ ys, ahead x y) :
    Merge.Sorted ahead { interleave less steps xs ys with
      taken := x :: (interleave less steps xs ys).taken } := by
  have hmem := fun y => (interleave_perm less steps xs ys).mem_iff (a := y)
  constructor
  · refine List.pairwise_cons.mpr ⟨fun y hy => ?_, h.taken⟩
    exact hx y ((hmem y).mp (List.mem_append_left _ hy))
  · refine List.forall_mem_cons.mpr ⟨fun y hy => ?_, h.left⟩
    exact hx y ((hmem y).mp (List.mem_append_right _ hy))

/-- **The steps of a merge sort.** -/
theorem interleave_sorts (h : Lawful less before ahead) (hcross : ∀ x ∈ xs, ∀ y ∈ ys, before x y)
    (hxs : xs.Pairwise ahead) (hys : ys.Pairwise ahead) (steps : Nat) :
    (interleave less steps xs ys).Sorted ahead := by
  fun_induction interleave less steps xs ys with
  | case1 steps x xs y ys hless rest ih =>
      obtain ⟨hbehind, -⟩ := List.pairwise_cons.mp hxs
      obtain ⟨hbehind', hys'⟩ := List.pairwise_cons.mp hys
      have hahead : ahead y x :=
        h.ahead_of_less (Or.inr (hcross x List.mem_cons_self y List.mem_cons_self)) hless
      refine (ih (fun x hx y hy => ?_) hxs hys').cons ?_
      · exact hcross x hx y (List.mem_cons_of_mem _ hy)
      · refine List.forall_mem_append.mpr ⟨List.forall_mem_cons.mpr ⟨hahead, fun w hw => ?_⟩, hbehind'⟩
        exact h.trans hahead (hbehind w hw)
  | case2 steps x xs y ys hless rest ih =>
      obtain ⟨hbehind, hxs'⟩ := List.pairwise_cons.mp hxs
      obtain ⟨hbehind', -⟩ := List.pairwise_cons.mp hys
      have hahead : ahead x y := h.ahead_of_not_less
        (hcross x List.mem_cons_self y List.mem_cons_self) (Bool.not_eq_true _ ▸ hless)
      refine (ih (fun x hx y hy => ?_) hxs' hys).cons ?_
      · exact hcross x (List.mem_cons_of_mem _ hx) y hy
      · refine List.forall_mem_append.mpr ⟨hbehind, List.forall_mem_cons.mpr ⟨hahead, fun w hw => ?_⟩⟩
        exact h.trans hahead (hbehind' w hw)
  | case3 => exact ⟨.nil, by simp⟩

/-! ## A merge from both ends -/

section Ends

variable {front rest rest' back : List β}

/-- Of a list that is taken from both ends, what is between them. -/
theorem exists_middle (hfront : xs = front ++ rest) (hback : xs = rest' ++ back)
    (hroom : xs.length ≤ rest.length + rest'.length) :
    rest = rest.take (rest.length + rest'.length - xs.length) ++ back
      ∧ rest' = front ++ rest.take (rest.length + rest'.length - xs.length) := by
  have hlength := congrArg List.length hfront
  have hlength' := congrArg List.length hback
  simp only [List.length_append] at hlength hlength'
  rcases List.append_eq_append_iff.mp (hfront.symm.trans hback) with ⟨middle, rfl, rfl⟩ | ⟨both, rfl, rfl⟩
  · have hmiddle : (middle ++ back).take ((middle ++ back).length + (front ++ middle).length - xs.length)
        = middle := by
      refine List.take_left' ?_
      simp only [List.length_append] at hlength hlength' ⊢
      omega
    rw [hmiddle]
    exact ⟨rfl, rfl⟩
  · have hboth : both = [] := by
      refine List.eq_nil_of_length_eq_zero ?_
      simp only [List.length_append] at hlength hlength' hroom
      omega
    subst hboth
    have hnone : rest.length + rest'.length - xs.length = 0 := by
      simp only [List.length_append, List.length_nil] at hlength hlength'
      omega
    rw [hnone]
    simp

/-- Of a list of which more is taken from both ends than it has, something is taken twice. -/
theorem exists_taken_twice (hfront : xs = front ++ rest) (hback : xs = rest' ++ back)
    (hroom : rest.length + rest'.length < xs.length) : ∃ x ∈ front, x ∈ back := by
  have hlength := congrArg List.length hfront
  have hlength' := congrArg List.length hback
  simp only [List.length_append] at hlength hlength'
  rcases List.append_eq_append_iff.mp (hfront.symm.trans hback) with ⟨middle, rfl, rfl⟩ | ⟨both, rfl, rfl⟩
  · simp only [List.length_append] at hlength hlength' hroom
    omega
  · cases both with
    | nil =>
        simp only [List.length_append, List.length_nil] at hlength hlength'
        omega
    | cons x both => exact ⟨x, by simp, by simp⟩

/-- Of a list of which less is taken from both ends than it has, something is left by both. -/
theorem exists_left_twice (hfront : xs = front ++ rest) (hback : xs = rest' ++ back)
    (hroom : xs.length < rest.length + rest'.length) : ∃ x ∈ rest, x ∈ rest' := by
  obtain ⟨-, hrest'⟩ := exists_middle hfront hback (Nat.le_of_lt hroom)
  have hlength := congrArg List.length hrest'
  have hlength' := congrArg List.length hfront
  simp only [List.length_append, List.length_take] at hlength hlength'
  obtain ⟨x, hx⟩ := List.exists_mem_of_length_pos
    (l := rest.take (rest.length + rest'.length - xs.length)) (by rw [List.length_take]; omega)
  exact ⟨x, List.mem_of_mem_take hx, hrest' ▸ List.mem_append_right front hx⟩

end Ends

/-- What is taken from the ends and what is left are the elements of both lists. -/
theorem interleaveBack_parts (less : β → β → Bool) (steps : Nat) (xs ys : List β) :
    ∃ back back' : List β, xs = (interleaveBack less steps xs ys).right.reverse ++ back
      ∧ ys = (interleaveBack less steps xs ys).left.reverse ++ back'
      ∧ (interleaveBack less steps xs ys).taken.reverse.Perm (back ++ back') := by
  obtain ⟨front, front', hys, hxs, hperm⟩ :=
    interleave_parts (fun x y => less y x) steps ys.reverse xs.reverse
  refine ⟨front'.reverse, front.reverse, ?_, ?_, ?_⟩
  · rw [← List.reverse_append, interleaveBack, ← hxs, List.reverse_reverse]
  · rw [← List.reverse_append, interleaveBack, ← hys, List.reverse_reverse]
  · rw [← List.reverse_append]
    exact (List.reverse_perm _).trans (hperm.trans (List.reverse_perm _).symm)

/-- The steps of a merge from the ends sort: what is taken is behind what is left. -/
theorem interleaveBack_sorts (h : Lawful less before ahead) (hcross : ∀ x ∈ xs, ∀ y ∈ ys, before x y)
    (hxs : xs.Pairwise ahead) (hys : ys.Pairwise ahead) (steps : Nat) :
    (interleaveBack less steps xs ys).Sorted fun x y => ahead y x := by
  refine interleave_sorts h.flip (fun y hy x hx => ?_) ?_ ?_ steps
  · exact hcross x (List.mem_reverse.mp hx) y (List.mem_reverse.mp hy)
  · exact List.pairwise_reverse.mpr hys
  · exact List.pairwise_reverse.mpr hxs

section Meet

variable {fore aft : Merge β} {front front' back back' : List β}
  (hxs : xs = front ++ fore.left) (hys : ys = front' ++ fore.right)
  (hxs' : xs = aft.right.reverse ++ back) (hys' : ys = aft.left.reverse ++ back')
include hxs hys hxs' hys'

/-- Where the ends of a merge meet, both leave what is between them. -/
theorem exists_ends (h : meet xs ys fore aft = some zs) :
    ∃ middle middle' : List β, fore.left = middle ++ back ∧ fore.right = middle' ++ back'
      ∧ middle ⊆ aft.right ∧ middle' ⊆ aft.left
      ∧ zs = fore.taken ++ (middle ++ middle') ++ aft.taken.reverse := by
  unfold meet at h
  split at h
  · rename_i hmeet
    cases h
    obtain ⟨hleft, hbefore⟩ := exists_middle hxs hxs' (by rw [List.length_reverse]; exact hmeet.1)
    obtain ⟨hright, hbefore'⟩ := exists_middle hys hys' (by rw [List.length_reverse]; exact hmeet.2)
    rw [List.length_reverse] at hleft hright hbefore hbefore'
    refine ⟨_, _, hleft, hright, fun x hx => ?_, fun x hx => ?_, rfl⟩
    · exact List.mem_reverse.mp (hbefore ▸ List.mem_append_right front hx)
    · exact List.mem_reverse.mp (hbefore' ▸ List.mem_append_right front' hx)
  · cases h

variable (hfront : fore.taken.Perm (front ++ front')) (hback : aft.taken.reverse.Perm (back ++ back'))
  (hfore : fore.Sorted ahead) (haft : aft.Sorted fun x y => ahead y x)
include hfront hback hfore haft

/-- Ends that take no more than there is meet: an element that both had taken would be ahead of one that
both have left, and behind it. -/
theorem exists_meet (hasymm : ∀ {x y}, ahead x y → ¬ ahead y x)
    (hroom : fore.taken.length + aft.taken.length ≤ xs.length + ys.length) :
    ∃ zs, meet xs ys fore aft = some zs := by
  have hdisjoint : (∃ x ∈ fore.taken, x ∈ aft.taken) →
      ¬ ∃ y ∈ fore.left ++ fore.right, y ∈ aft.left ++ aft.right := by
    rintro ⟨x, hx, hx'⟩ ⟨y, hy, hy'⟩
    exact hasymm (hfore.left x hx y hy) (haft.left x hx' y hy')
  have hmem : ∀ x, x ∈ fore.taken ↔ x ∈ front ∨ x ∈ front' := fun x =>
    hfront.mem_iff.trans List.mem_append
  have hmem' : ∀ x, x ∈ aft.taken ↔ x ∈ back ∨ x ∈ back' := fun x =>
    List.mem_reverse.symm.trans (hback.mem_iff.trans List.mem_append)
  have htaken : front.length + front'.length + (back.length + back'.length) ≤ xs.length + ys.length := by
    rw [← List.length_append, ← List.length_append, ← hfront.length_eq, ← hback.length_eq,
      List.length_reverse]
    exact hroom
  have hlengths : xs.length = front.length + fore.left.length
      ∧ xs.length = aft.right.length + back.length ∧ ys.length = front'.length + fore.right.length
      ∧ ys.length = aft.left.length + back'.length := by
    have h₁ := congrArg List.length hxs
    have h₂ := congrArg List.length hys
    have h₃ := congrArg List.length hxs'
    have h₄ := congrArg List.length hys'
    simp only [List.length_append, List.length_reverse] at h₁ h₂ h₃ h₄
    exact ⟨h₁, h₃, h₂, h₄⟩
  -- Where too much of one list is taken, something of the other is left by both.
  refine ⟨_, if_pos ⟨Nat.le_of_not_lt fun hmore => ?_, Nat.le_of_not_lt fun hmore => ?_⟩⟩
  · obtain ⟨x, hx, hx'⟩ := exists_taken_twice hxs hxs' (by rw [List.length_reverse]; omega)
    obtain ⟨y, hy, hy'⟩ := exists_left_twice hys hys' (by rw [List.length_reverse]; omega)
    refine hdisjoint ⟨x, (hmem x).mpr (Or.inl hx), (hmem' x).mpr (Or.inl hx')⟩ ⟨y, ?_, ?_⟩
    · exact List.mem_append_right _ hy
    · exact List.mem_append_left _ (List.mem_reverse.mp hy')
  · obtain ⟨x, hx, hx'⟩ := exists_taken_twice hys hys' (by rw [List.length_reverse]; omega)
    obtain ⟨y, hy, hy'⟩ := exists_left_twice hxs hxs' (by rw [List.length_reverse]; omega)
    refine hdisjoint ⟨x, (hmem x).mpr (Or.inr hx), (hmem' x).mpr (Or.inr hx')⟩ ⟨y, ?_, ?_⟩
    · exact List.mem_append_left _ hy
    · exact List.mem_append_right _ (List.mem_reverse.mp hy')

omit hfront in
/-- Where the ends meet and leave one element at most, all is in its place. -/
theorem meet_sorts (hone : xs.length + ys.length ≤ fore.taken.length + aft.taken.length + 1)
    (h : meet xs ys fore aft = some zs) (hperm : zs.Perm (xs ++ ys)) : zs.Pairwise ahead := by
  obtain ⟨middle, middle', hleft, hright, hsub, hsub', rfl⟩ := exists_ends hxs hys hxs' hys' h
  have hlength : (middle ++ middle').length ≤ 1 := by
    have hall := hperm.length_eq
    simp only [List.length_append, List.length_reverse] at hall ⊢
    omega
  have hrest : ∀ x, x ∈ aft.taken → x ∈ fore.left ++ fore.right := by
    intro x hx
    have hends := hback.mem_iff.mp (List.mem_reverse.mpr hx)
    rw [hleft, hright]
    exact (List.mem_append.mp hends).elim (fun h => by simp [h]) fun h => by simp [h]
  refine List.pairwise_append.mpr ⟨List.pairwise_append.mpr ⟨hfore.taken, ?_, ?_⟩, ?_, ?_⟩
  · match hmiddle : middle ++ middle', hlength with
    | [], _ => exact .nil
    | [x], _ => exact List.pairwise_singleton _ _
  · intro x hx y hy
    refine hfore.left x hx y ?_
    rw [hleft, hright]
    exact (List.mem_append.mp hy).elim (fun h => by simp [h]) fun h => by simp [h]
  · exact List.pairwise_reverse.mpr haft.taken
  · intro x hx y hy
    rcases List.mem_append.mp hx with hx | hx
    · exact hfore.left x hx y (hrest y (List.mem_reverse.mp hy))
    · refine haft.left y (List.mem_reverse.mp hy) x ?_
      exact (List.mem_append.mp hx).elim (fun h => List.mem_append_right _ (hsub h))
        fun h => List.mem_append_left _ (hsub' h)

end Meet

/-- A merge from both ends that has a result has the elements of both lists. -/
theorem mergeEnds_perm (h : mergeEnds less xs ys = some zs) : zs.Perm (xs ++ ys) := by
  let half := (xs.length + ys.length) / 2
  obtain ⟨front, front', hxs, hys, -⟩ := interleave_parts less half xs ys
  obtain ⟨back, back', hxs', hys', hback⟩ := interleaveBack_parts less half xs ys
  obtain ⟨middle, middle', hleft, hright, -, -, rfl⟩ := exists_ends hxs hys hxs' hys' h
  refine List.Perm.trans ?_ (interleave_perm less half xs ys)
  rw [hleft, hright, List.append_assoc]
  refine List.Perm.append_left _ ((hback.append_left _).trans ?_)
  rw [List.append_assoc, List.append_assoc]
  refine List.Perm.append_left middle ?_
  rw [← List.append_assoc, ← List.append_assoc]
  exact List.perm_append_comm.append_right back'

/-- **A merge of halves from both ends sorts.** -/
theorem exists_mergeEnds (h : Lawful less before ahead) (hcross : ∀ x ∈ xs, ∀ y ∈ ys, before x y)
    (hxs : xs.Pairwise ahead) (hys : ys.Pairwise ahead) (hle : xs.length ≤ ys.length)
    (hge : ys.length ≤ xs.length + 1) : ∃ zs, mergeEnds less xs ys = some zs ∧ zs.Pairwise ahead := by
  have hhalf : (xs.length + ys.length) / 2 = xs.length := by omega
  obtain ⟨front, front', hxs₁, hys₁, hfront⟩ := interleave_parts less xs.length xs ys
  obtain ⟨back, back', hxs₂, hys₂, hback⟩ := interleaveBack_parts less xs.length xs ys
  have hfore := interleave_sorts h hcross hxs hys xs.length
  have haft := interleaveBack_sorts h hcross hxs hys xs.length
  have htaken : (interleave less xs.length xs ys).taken.length = xs.length :=
    length_interleave (Nat.le_refl _) hle
  have htaken' : (interleaveBack less xs.length xs ys).taken.length = xs.length :=
    length_interleave (by rw [List.length_reverse]; exact hle)
      (Nat.le_of_eq List.length_reverse.symm)
  obtain ⟨zs, hzs⟩ := exists_meet hxs₁ hys₁ hxs₂ hys₂ hfront hback hfore haft h.asymm (by omega)
  have hmerge : mergeEnds less xs ys = some zs := by
    unfold mergeEnds
    dsimp only
    rw [hhalf, hzs]
  refine ⟨zs, hmerge, ?_⟩
  exact meet_sorts hxs₁ hys₁ hxs₂ hys₂ hback hfore haft (by omega) hzs (mergeEnds_perm hmerge)

/-! ## A few elements -/

section Few

variable {a b c d : β}

theorem pair_perm (less : β → β → Bool) (x y : β) :
    [(pair less x y).1, (pair less x y).2].Perm [x, y] := by
  unfold pair
  split
  · exact List.Perm.swap ..
  · exact List.Perm.refl _

theorem pair_sorts (h : Lawful less before ahead) (hxy : before x y) :
    ahead (pair less x y).1 (pair less x y).2 := by
  unfold pair
  split
  · rename_i hless
    exact h.ahead_of_less (Or.inr hxy) hless
  · rename_i hless
    exact h.ahead_of_not_less hxy (Bool.not_eq_true _ ▸ hless)

/-- A pair that is in order is left alone. -/
theorem pair_of_ahead (h : Lawful less before ahead) (hnear : before x y ∨ before y x)
    (hxy : ahead x y) : pair less x y = (x, y) :=
  if_neg fun hless => h.asymm hxy (h.ahead_of_less hnear.symm hless)

theorem near_pair (less : β → β → Bool) (hxy : before x y) :
    before (pair less x y).1 (pair less x y).2 ∨ before (pair less x y).2 (pair less x y).1 := by
  unfold pair
  split
  · exact Or.inr hxy
  · exact Or.inl hxy

theorem between_perm (less : β → β → Bool) (a b c d : β) :
    (between less a b c d).Perm [a, b, c, d] :=
  ((pair_perm less b c).append_right [d]).cons a

theorem between_sorts (h : Lawful less before ahead)
    (hsorted : ahead (pair less b c).1 (pair less b c).2) (hab : ahead a b) (hac : ahead a c)
    (hbd : ahead b d) (hcd : ahead c d) : (between less a b c d).Pairwise ahead := by
  have hmiddle : ∀ x ∈ [(pair less b c).1, (pair less b c).2], ahead a x ∧ ahead x d := by
    intro x hx
    have hmem := (pair_perm less b c).mem_iff.mp hx
    simp only [List.mem_cons, List.not_mem_nil, or_false] at hmem
    rcases hmem with rfl | rfl
    · exact ⟨hab, hbd⟩
    · exact ⟨hac, hcd⟩
  obtain ⟨hafter, hbefore⟩ := hmiddle _ List.mem_cons_self
  obtain ⟨hafter', hbefore'⟩ := hmiddle _ (List.mem_cons_of_mem _ List.mem_cons_self)
  simp [between, hafter, hafter', hbefore, hbefore', hsorted, h.trans hab hbd]

theorem quartet_perm (less : β → β → Bool) (a b c d : β) :
    (quartet less a b c d).Perm [a, b, c, d] := by
  have hfirst : ([c] ++ [a, b]).Perm ([a, b] ++ [c]) := List.perm_append_comm
  have hlast : ([c, d] ++ [b]).Perm ([b] ++ [c, d]) := List.perm_append_comm
  unfold quartet
  split <;> refine (between_perm ..).trans ?_
  · exact List.Perm.refl _
  · exact hlast.cons a
  · exact hfirst.append_right [d]
  · exact (List.Perm.swap a c [d, b]).trans (hlast.cons a)

/-- Two ordered pairs are sorted. -/
theorem quartet_sorts (h : Lawful less before ahead) (hab : ahead a b) (hcd : ahead c d)
    (hnear : before a b ∨ before b a) (hnear' : before c d ∨ before d c)
    (hbefore : ∀ x ∈ [a, b], ∀ y ∈ [c, d], before x y) : (quartet less a b c d).Pairwise ahead := by
  have hac : before a c := hbefore a (by simp) c (by simp)
  have had : before a d := hbefore a (by simp) d (by simp)
  have hbc : before b c := hbefore b (by simp) c (by simp)
  have hbd : before b d := hbefore b (by simp) d (by simp)
  unfold quartet
  split <;> rename_i hca hdb
  · have hfirst := h.ahead_of_not_less hac hca
    have hlast := h.ahead_of_not_less hbd hdb
    exact between_sorts h (pair_sorts h hbc) hab hfirst hlast hcd
  · have hfirst := h.ahead_of_not_less hac hca
    have hlast := h.ahead_of_less (Or.inr hbd) hdb
    have hpair : ahead (pair less c d).1 (pair less c d).2 := by
      rw [pair_of_ahead h hnear' hcd]
      exact hcd
    exact between_sorts h hpair hfirst (h.trans hfirst hcd) (h.trans hcd hlast) hlast
  · have hfirst := h.ahead_of_less (Or.inr hac) hca
    have hlast := h.ahead_of_not_less hbd hdb
    have hpair : ahead (pair less a b).1 (pair less a b).2 := by
      rw [pair_of_ahead h hnear hab]
      exact hab
    exact between_sorts h hpair hfirst (h.trans hfirst hab) (h.trans hab hlast) hlast
  · have hfirst := h.ahead_of_less (Or.inr hac) hca
    have hlast := h.ahead_of_less (Or.inr hbd) hdb
    exact between_sorts h (pair_sorts h had) hfirst hcd hab hlast

theorem four_perm (less : β → β → Bool) (xs : List β) : (four less xs).Perm xs := by
  unfold four
  split
  · rename_i a b c d
    refine (quartet_perm less _ _ _ _).trans ?_
    exact (pair_perm less a b).append (pair_perm less c d)
  · exact List.Perm.refl _

theorem four_sorts (h : Lawful less before ahead) (hxs : xs.Pairwise before) (hlength : xs.length = 4) :
    (four less xs).Pairwise ahead := by
  match xs, hlength with
  | [a, b, c, d], _ =>
      change ([a, b] ++ [c, d]).Pairwise before at hxs
      obtain ⟨hfirst, hlast, hcross⟩ := List.pairwise_append.mp hxs
      have hab : before a b := List.rel_of_pairwise_cons hfirst List.mem_cons_self
      have hcd : before c d := List.rel_of_pairwise_cons hlast List.mem_cons_self
      refine quartet_sorts h (pair_sorts h hab) (pair_sorts h hcd) (near_pair less hab)
        (near_pair less hcd) fun x hx y hy => ?_
      exact hcross x ((pair_perm less a b).mem_iff.mp hx) y ((pair_perm less c d).mem_iff.mp hy)

end Few

/-! ## A short list -/

theorem eight_perm (h : eight less xs = some zs) : zs.Perm xs := by
  refine (mergeEnds_perm h).trans ?_
  have hhalves := (four_perm less (xs.take 4)).append (four_perm less (xs.drop 4))
  rwa [List.take_append_drop] at hhalves

theorem exists_eight (h : Lawful less before ahead) (hxs : xs.Pairwise before) (hlength : xs.length = 8) :
    ∃ zs, eight less xs = some zs ∧ zs.Pairwise ahead := by
  have hparts := hxs
  rw [← List.take_append_drop 4 xs] at hparts
  obtain ⟨hfirst, hlast, hcross⟩ := List.pairwise_append.mp hparts
  have hfour : (four less (xs.take 4)).length = 4 := by
    rw [(four_perm less _).length_eq, List.length_take]
    omega
  have hfour' : (four less (xs.drop 4)).length = 4 := by
    rw [(four_perm less _).length_eq, List.length_drop]
    omega
  refine exists_mergeEnds h (fun x hx y hy => ?_) ?_ ?_ (by omega) (by omega)
  · exact hcross x ((four_perm less _).mem_iff.mp hx) y ((four_perm less _).mem_iff.mp hy)
  · exact four_sorts h hfirst (by rw [List.length_take]; omega)
  · exact four_sorts h hlast (by rw [List.length_drop]; omega)

variable {narrow : Bool} {length : Nat}

theorem halfOf_keeps (less : β → β → Bool) (narrow : Bool) (length : Nat) :
    Keeps (halfOf less narrow length) := by
  intro xs zs h
  have hinsert : ∀ (count : Nat) (first : List β), first.Perm (xs.take count) →
      (insertAll less first (xs.drop count)).Perm xs := by
    intro count first hfirst
    refine (insertAll_perm less _ _).trans ?_
    have hall := hfirst.append_right (xs.drop count)
    rwa [List.take_append_drop] at hall
  unfold halfOf at h
  split at h
  · obtain ⟨first, hfirst, h⟩ := Option.bind_eq_some_iff.mp h
    cases h
    exact hinsert 8 first (eight_perm hfirst)
  · split at h
    · cases h
      exact hinsert 4 _ (four_perm less _)
    · cases h
      exact hinsert 0 [] (List.Perm.refl _)

theorem exists_halfOf (h : Lawful less before ahead) (narrow : Bool) {length : Nat}
    (hxs : xs.Pairwise before) (hlength : length / 2 ≤ xs.length) :
    ∃ zs, halfOf less narrow length xs = some zs ∧ zs.Pairwise ahead := by
  have hinsert : ∀ (count : Nat) (first : List β), first.Perm (xs.take count) →
      first.Pairwise ahead → (insertAll less first (xs.drop count)).Pairwise ahead := by
    intro count first hperm hfirst
    have hparts := hxs
    rw [← List.take_append_drop count xs] at hparts
    obtain ⟨-, hrest, hcross⟩ := List.pairwise_append.mp hparts
    exact insertAll_sorts h hfirst (fun x hx => hcross x (hperm.mem_iff.mp hx)) hrest
  have htake : ∀ count, (xs.take count).Pairwise before := fun count =>
    hxs.sublist (List.take_sublist count xs)
  unfold halfOf
  split
  · obtain ⟨first, hfirst, hsorted⟩ := exists_eight h (htake 8) (by rw [List.length_take]; omega)
    exact ⟨_, by rw [hfirst]; rfl, hinsert 8 first (eight_perm hfirst) hsorted⟩
  · split
    · have hsorted := four_sorts h (htake 4) (by rw [List.length_take]; omega)
      exact ⟨_, rfl, hinsert 4 _ (four_perm less _) hsorted⟩
    · exact ⟨_, rfl, hinsert 0 [] (List.Perm.refl _) .nil⟩

/-- **A short list that is sorted keeps its elements**, whatever the comparison. -/
theorem short_keeps (less : β → β → Bool) (narrow : Bool) : Keeps (short less narrow) := by
  intro xs zs h
  unfold short at h
  split at h
  · cases h
    exact List.Perm.refl _
  · obtain ⟨left, hleft, h⟩ := Option.bind_eq_some_iff.mp h
    obtain ⟨right, hright, h⟩ := Option.bind_eq_some_iff.mp h
    have hhalves := (halfOf_keeps less _ _ hleft).append (halfOf_keeps less _ _ hright)
    rw [List.take_append_drop] at hhalves
    exact (mergeEnds_perm h).trans hhalves

/-- **A short list is sorted** by a comparison that is an order. -/
theorem short_orders (h : Lawful less before ahead) (narrow : Bool) :
    Orders before ahead (short less narrow) := by
  intro xs hxs
  unfold short
  split
  · match xs with
    | [] => exact ⟨[], rfl, .nil⟩
    | [x] => exact ⟨[x], rfl, List.pairwise_singleton _ _⟩
  · have hparts := hxs
    rw [← List.take_append_drop (xs.length / 2) xs] at hparts
    obtain ⟨hfirst, hlast, hcross⟩ := List.pairwise_append.mp hparts
    have htake : xs.length / 2 ≤ (xs.take (xs.length / 2)).length := by
      rw [List.length_take]
      omega
    have hdrop : xs.length / 2 ≤ (xs.drop (xs.length / 2)).length := by
      rw [List.length_drop]
      omega
    obtain ⟨left, hleft, hsorted⟩ := exists_halfOf h narrow hfirst htake
    obtain ⟨right, hright, hsorted'⟩ := exists_halfOf h narrow hlast hdrop
    have hperm := halfOf_keeps less _ _ hleft
    have hperm' := halfOf_keeps less _ _ hright
    have hlength := hperm.length_eq
    have hlength' := hperm'.length_eq
    rw [List.length_take] at hlength
    rw [List.length_drop] at hlength'
    obtain ⟨zs, hzs, hsorted⟩ := exists_mergeEnds h
      (fun x hx y hy => hcross x (hperm.mem_iff.mp hx) y (hperm'.mem_iff.mp hy)) hsorted hsorted'
      (by omega) (by omega)
    refine ⟨zs, ?_, hsorted⟩
    rw [hleft]
    show (halfOf less narrow xs.length (xs.drop (xs.length / 2)) >>= mergeEnds less left) = some zs
    rw [hright]
    exact hzs

end GrammarInduction.Sorting
