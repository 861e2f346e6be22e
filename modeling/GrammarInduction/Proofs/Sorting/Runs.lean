import GrammarInduction.Proofs.Sorting.Short
import GrammarInduction.Sorting.Runs

/-!
# A list is sorted by its runs

The runs of a list stand in a row: each is sorted, or as it was given, and its elements stand before those of
the runs that follow.  Joining neighbours keeps this, in whatever order it is done, so the one run that
remains is the list in order.  The same holds of a quicksort, whose parts follow one another already.

* `Sorting.merge_sorts` — a merge from the end that suits it;
* `Sorting.Row`, `Sorting.row_cutSome` — the runs of a list stand in a row;
* `Sorting.exists_joinAll` — so they can be joined;
* `Sorting.quick_keeps`, `Sorting.exists_quick` — the quicksort;
* `Sorting.stable_keeps`, `Sorting.stable_orders` — the whole sort.
-/

namespace GrammarInduction.Sorting

variable {β : Type} {less : β → β → Bool} {before ahead : β → β → Prop} {x y : β}
  {xs ys zs : List β}

/-! ## Merging sorted lists -/

/-- A merge to the end of a list, with what is left of the other. -/
theorem interleave_all_sorts (h : Lawful less before ahead) (hcross : ∀ x ∈ xs, ∀ y ∈ ys, before x y)
    (hxs : xs.Pairwise ahead) (hys : ys.Pairwise ahead) :
    ((interleave less (xs.length + ys.length) xs ys).taken
      ++ (interleave less (xs.length + ys.length) xs ys).left
      ++ (interleave less (xs.length + ys.length) xs ys).right).Pairwise ahead := by
  obtain ⟨front, front', hleft, hright, -⟩ := interleave_parts less (xs.length + ys.length) xs ys
  have hsorted := interleave_sorts h hcross hxs hys (xs.length + ys.length)
  have hends := interleave_ends less (Nat.le_refl (xs.length + ys.length))
  generalize interleave less (xs.length + ys.length) xs ys = rest at *
  have hrest : (rest.left ++ rest.right).Pairwise ahead := by
    rcases hends with hnone | hnone
    · rw [hnone, List.nil_append]
      exact hys.sublist (hright ▸ List.sublist_append_right ..)
    · rw [hnone, List.append_nil]
      exact hxs.sublist (hleft ▸ List.sublist_append_right ..)
  rw [List.append_assoc]
  exact List.pairwise_append.mpr ⟨hsorted.taken, hrest, hsorted.left⟩

theorem merge_perm (less : β → β → Bool) (xs ys : List β) : (merge less xs ys).Perm (xs ++ ys) := by
  unfold merge
  split
  · dsimp only
    rw [List.append_assoc]
    exact interleave_perm ..
  · refine (List.reverse_perm _).trans ?_
    rw [List.append_assoc]
    refine (interleave_perm ..).trans ?_
    rw [← List.reverse_append]
    exact List.reverse_perm _

/-- **A merge sorts**, whichever end it starts from. -/
theorem merge_sorts (h : Lawful less before ahead) (hcross : ∀ x ∈ xs, ∀ y ∈ ys, before x y)
    (hxs : xs.Pairwise ahead) (hys : ys.Pairwise ahead) : (merge less xs ys).Pairwise ahead := by
  unfold merge
  split
  · exact interleave_all_sorts h hcross hxs hys
  · have hcross' : ∀ y ∈ ys.reverse, ∀ x ∈ xs.reverse, before x y :=
      fun y hy x hx => hcross x (List.mem_reverse.mp hx) y (List.mem_reverse.mp hy)
    have hback := interleave_all_sorts h.flip hcross' (List.pairwise_reverse.mpr hys)
      (List.pairwise_reverse.mpr hxs)
    rw [List.length_reverse, List.length_reverse, Nat.add_comm] at hback
    exact List.pairwise_reverse.mpr hback

/-! ## Runs in a row -/

/-- A run is sorted if it says so, and otherwise as it was given. -/
def Run.Good (before ahead : β → β → Prop) (run : Run β) : Prop :=
  run.items.Pairwise (if run.sorted then ahead else before)

/-- The elements of several runs. -/
def items (runs : List (Run β)) : List β := runs.flatMap Run.items

/-- Good runs of which each stands before those that follow. -/
def Row (before ahead : β → β → Prop) : List (Run β) → Prop
  | [] => True
  | run :: rest => run.Good before ahead ∧ (∀ x ∈ run.items, ∀ y ∈ items rest, before x y)
      ∧ Row before ahead rest

variable {run first second : Run β} {runs rest : List (Run β)}

theorem items_append (runs rest : List (Run β)) : items (runs ++ rest) = items runs ++ items rest :=
  List.flatMap_append

theorem row_append : Row before ahead (runs ++ rest) ↔ Row before ahead runs ∧ Row before ahead rest
    ∧ ∀ x ∈ items runs, ∀ y ∈ items rest, before x y := by
  induction runs with
  | nil => simp [Row, items]
  | cons run runs ih =>
      simp only [List.cons_append, Row, ih, items, List.flatMap_append, List.mem_append, List.flatMap_cons]
      grind

theorem lead_le (follows : β → β → Bool) (xs : List β) : lead follows xs ≤ xs.length := by
  fun_induction lead follows xs with
  | case1 x y rest hfollows ih =>
      simp only [List.length_cons] at ih ⊢
      omega
  | case2 => simp
  | case3 => exact Nat.le_refl _

theorem lead_pos (follows : β → β → Bool) (x : β) (xs : List β) : 0 < lead follows (x :: xs) := by
  cases xs with
  | nil => exact Nat.one_pos
  | cons y ys =>
      unfold lead
      split
      · exact Nat.succ_pos _
      · exact Nat.one_pos

/-- The elements that a list starts with follow one another, so each follows all before it. -/
theorem take_lead_sorts {follows : β → β → Bool}
    (htrans : ∀ {x y z}, ahead x y → ahead y z → ahead x z)
    (hfollows : ∀ {x y}, before x y → follows x y = true → ahead x y) (hxs : xs.Pairwise before) :
    (xs.take (lead follows xs)).Pairwise ahead := by
  fun_induction lead follows xs with
  | case1 x y rest hnext ih =>
      obtain ⟨hfirst, hrest⟩ := List.pairwise_cons.mp hxs
      have hsorted := ih hrest
      have hahead : ahead x y := hfollows (hfirst y List.mem_cons_self) hnext
      obtain ⟨count, hcount⟩ := Nat.exists_eq_succ_of_ne_zero
        (Nat.ne_of_gt (lead_pos follows y rest))
      rw [hcount, List.take_succ_cons] at hsorted ⊢
      rw [List.take_succ_cons]
      refine List.pairwise_cons.mpr ⟨List.forall_mem_cons.mpr ⟨hahead, fun z hz => ?_⟩, hsorted⟩
      exact htrans hahead (List.rel_of_pairwise_cons hsorted hz)
  | case2 x y rest hnext => exact List.pairwise_singleton _ _
  | case3 xs hshort =>
      match xs with
      | [] => exact .nil
      | [x] => exact List.pairwise_singleton _ _
      | x :: y :: rest => exact absurd rfl (hshort x y rest)

/-- The run that a list starts with is the start of the list, or that turned round. -/
theorem naturalRun_perm (less : β → β → Bool) (xs : List β) :
    (naturalRun less xs).items.Perm (xs.take (naturalRun less xs).items.length) := by
  have hlength : ∀ follows : β → β → Bool, (xs.take (lead follows xs)).length = lead follows xs :=
    fun follows => List.length_take_of_le (lead_le follows xs)
  unfold naturalRun
  dsimp only
  split
  · rw [List.length_reverse, hlength]
    exact List.reverse_perm _
  · rw [hlength]

theorem naturalRun_sorts (h : Lawful less before ahead) (hxs : xs.Pairwise before) :
    (naturalRun less xs).Good before ahead := by
  unfold naturalRun
  dsimp only
  split
  · have hfall : (xs.take (lead (fun x y => less y x) xs)).Pairwise fun x y => ahead y x :=
      take_lead_sorts (fun hxy hyz => h.trans hyz hxy)
        (fun hxy hless => h.ahead_of_less (Or.inr hxy) hless) hxs
    exact List.pairwise_reverse.mpr hfall
  · refine take_lead_sorts h.trans (fun hxy hless => h.ahead_of_not_less hxy ?_) hxs
    exact Bool.not_eq_true' _ ▸ hless

/-! ## The runs of a list -/

theorem firstRun_perm (less : β → β → Bool) (good loose : Nat) (xs : List β) :
    (firstRun less good loose xs).items.Perm
      (xs.take (firstRun less good loose xs).items.length) := by
  unfold firstRun
  dsimp only
  split
  · exact naturalRun_perm less xs
  · rw [List.length_take, ← List.take_eq_take_min]

theorem firstRun_good (h : Lawful less before ahead) (hxs : xs.Pairwise before) (good loose : Nat) :
    (firstRun less good loose xs).Good before ahead := by
  unfold firstRun
  dsimp only
  split
  · exact naturalRun_sorts h hxs
  · exact hxs.sublist (List.take_sublist ..)

theorem items_cutSome (less : β → β → Bool) (good loose count : Nat) (xs : List β) :
    (items (cutSome less good loose count xs)).Perm xs := by
  fun_induction cutSome less good loose count xs with
  | case1 => exact List.Perm.refl _
  | case2 xs => simp [items]
  | case3 count xs hxs run ih =>
      have hall := (firstRun_perm less good loose xs).append ih
      rwa [List.take_append_drop] at hall

/-- **The runs of a list stand in a row.** -/
theorem row_cutSome (h : Lawful less before ahead) (good loose count : Nat) (hxs : xs.Pairwise before) :
    Row before ahead (cutSome less good loose count xs) := by
  fun_induction cutSome less good loose count xs with
  | case1 => trivial
  | case2 xs => exact ⟨hxs, by simp [items], trivial⟩
  | case3 count xs hnone run ih =>
      have hparts := hxs
      rw [← List.take_append_drop run.items.length xs] at hparts
      obtain ⟨-, hrest, hcross⟩ := List.pairwise_append.mp hparts
      refine ⟨firstRun_good h hxs good loose, fun x hx y hy => ?_, ih hrest⟩
      exact hcross x ((firstRun_perm less good loose xs).mem_iff.mp hx) y
        ((items_cutSome ..).mem_iff.mp hy)

/-! ## Joining runs -/

section Join

variable {room level : Nat} {sort : List β → Option (List β)} {stack : List (Run β × Nat)}

theorem inOrder_perm (hkeeps : Keeps sort) (h : run.inOrder sort = some xs) : xs.Perm run.items := by
  unfold Run.inOrder at h
  split at h
  · cases h
    exact List.Perm.refl _
  · exact hkeeps h

theorem exists_inOrder (horders : Orders before ahead sort) (hrun : run.Good before ahead) :
    ∃ xs, run.inOrder sort = some xs ∧ xs.Pairwise ahead := by
  unfold Run.Good at hrun
  unfold Run.inOrder
  split
  · rename_i hsorted
    rw [if_pos hsorted] at hrun
    exact ⟨_, rfl, hrun⟩
  · rename_i hloose
    rw [if_neg hloose] at hrun
    exact horders hrun

theorem join_perm (hkeeps : Keeps sort) (h : join less room sort first second = some run) :
    run.items.Perm (first.items ++ second.items) := by
  unfold join at h
  split at h
  · obtain ⟨xs, hxs, h⟩ := Option.bind_eq_some_iff.mp h
    obtain ⟨ys, hys, h⟩ := Option.bind_eq_some_iff.mp h
    cases h
    exact (merge_perm less xs ys).trans ((inOrder_perm hkeeps hxs).append (inOrder_perm hkeeps hys))
  · cases h
    exact List.Perm.refl _

/-- Neighbours in a row can be joined. -/
theorem exists_join (h : Lawful less before ahead) (room : Nat) (hkeeps : Keeps sort)
    (horders : Orders before ahead sort) (hfirst : first.Good before ahead)
    (hsecond : second.Good before ahead)
    (hcross : ∀ x ∈ first.items, ∀ y ∈ second.items, before x y) :
    ∃ run, join less room sort first second = some run ∧ run.Good before ahead := by
  unfold join
  split
  · obtain ⟨xs, hxs, hsorted⟩ := exists_inOrder horders hfirst
    obtain ⟨ys, hys, hsorted'⟩ := exists_inOrder horders hsecond
    refine ⟨⟨true, merge less xs ys⟩, by rw [hxs, hys]; rfl, merge_sorts h ?_ hsorted hsorted'⟩
    intro x hx y hy
    exact hcross x ((inOrder_perm hkeeps hxs).mem_iff.mp hx) y ((inOrder_perm hkeeps hys).mem_iff.mp hy)
  · rename_i hloose
    simp only [not_or, Bool.not_eq_true] at hloose
    rw [Run.Good, hloose.2.1] at hfirst
    rw [Run.Good, hloose.2.2] at hsecond
    exact ⟨_, rfl, List.pairwise_append.mpr ⟨hfirst, hsecond, hcross⟩⟩

/-- The runs of a stack, which has the last of them on top. -/
def unstack (stack : List (Run β × Nat)) : List (Run β) := (stack.map Prod.fst).reverse

theorem unstack_cons (run : Run β) (place : Nat) (stack : List (Run β × Nat)) :
    unstack ((run, place) :: stack) = unstack stack ++ [run] := by
  simp [unstack]

/-- Neighbours in a row are replaced by their join. -/
theorem row_join (h : Row before ahead (runs ++ first :: second :: rest))
    (hgood : run.Good before ahead) (hperm : run.items.Perm (first.items ++ second.items)) :
    Row before ahead (runs ++ run :: rest) := by
  obtain ⟨hruns, ⟨-, hfirst, -, hsecond, hrest⟩, hcross⟩ := row_append.mp h
  refine row_append.mpr ⟨hruns, ⟨hgood, fun x hx y hy => ?_, hrest⟩, fun x hx y hy => hcross x hx y ?_⟩
  · rcases List.mem_append.mp (hperm.mem_iff.mp hx) with hx | hx
    · exact hfirst x hx y (List.mem_append_right _ hy)
    · exact hsecond x hx y hy
  · rcases List.mem_append.mp hy with hy | hy
    · rcases List.mem_append.mp (hperm.mem_iff.mp hy) with hy | hy
      · exact List.mem_append_left _ hy
      · exact List.mem_append_right _ (List.mem_append_left _ hy)
    · exact List.mem_append_right _ (List.mem_append_right _ hy)

theorem collapse_perm (hkeeps : Keeps sort) {stack' : List (Run β × Nat)} {run' : Run β}
    (h : collapse less room sort level stack run = some (stack', run')) :
    (items (unstack stack' ++ [run'])).Perm (items (unstack stack ++ [run])) := by
  induction stack generalizing run with
  | nil =>
      cases h
      exact List.Perm.refl _
  | cons top stack ih =>
      obtain ⟨earlier, place⟩ := top
      unfold collapse at h
      split at h
      · obtain ⟨joined, hjoin, h⟩ := Option.bind_eq_some_iff.mp h
        refine (ih h).trans ?_
        rw [unstack_cons, List.append_assoc, items_append, items_append]
        refine List.Perm.append_left _ ?_
        simpa [items] using join_perm hkeeps hjoin
      · cases h
        exact List.Perm.refl _

/-- The runs on the stack can be joined. -/
theorem exists_collapse (h : Lawful less before ahead) (room level : Nat) (hkeeps : Keeps sort)
    (horders : Orders before ahead sort) (hrow : Row before ahead (unstack stack ++ run :: rest)) :
    ∃ stack' run', collapse less room sort level stack run = some (stack', run')
      ∧ Row before ahead (unstack stack' ++ run' :: rest) := by
  induction stack generalizing run with
  | nil => exact ⟨[], run, rfl, hrow⟩
  | cons top stack ih =>
      obtain ⟨earlier, place⟩ := top
      unfold collapse
      split
      · rw [unstack_cons, List.append_assoc] at hrow
        obtain ⟨-, ⟨hearlier, hcross, hgood, -⟩, -⟩ := row_append.mp hrow
        obtain ⟨joined, hjoin, hjoined⟩ := exists_join h room hkeeps horders hearlier hgood
          fun x hx y hy => hcross x hx y (List.mem_append_left _ hy)
        rw [hjoin]
        exact ih (row_join hrow hjoined (join_perm hkeeps hjoin))
      · exact ⟨_, _, rfl, hrow⟩

/-- No boundary lies above depth zero, so in the end the stack is empty. -/
theorem collapse_zero {stack' : List (Run β × Nat)} {run' : Run β}
    (h : collapse less room sort 0 stack run = some (stack', run')) : stack' = [] := by
  induction stack generalizing run with
  | nil =>
      cases h
      rfl
  | cons top stack ih =>
      obtain ⟨earlier, place⟩ := top
      rw [collapse, if_pos (Nat.zero_le place)] at h
      obtain ⟨joined, -, h⟩ := Option.bind_eq_some_iff.mp h
      exact ih h

theorem joinAll_perm (hkeeps : Keeps sort) {scale place : Nat} {run' : Run β}
    (h : joinAll less room sort scale stack place run rest = some run') :
    run'.items.Perm (items (unstack stack ++ run :: rest)) := by
  induction rest generalizing stack place run with
  | nil =>
      obtain ⟨⟨stack', joined⟩, hcollapse, h⟩ := Option.bind_eq_some_iff.mp h
      cases h
      have hperm := collapse_perm hkeeps hcollapse
      rw [collapse_zero hcollapse] at hperm
      simpa [items, unstack] using hperm
  | cons next rest ih =>
      obtain ⟨⟨stack', joined⟩, hcollapse, h⟩ := Option.bind_eq_some_iff.mp h
      refine (ih h).trans ?_
      rw [unstack_cons, items_append, List.append_cons (unstack stack), items_append (unstack stack ++ _)]
      exact (collapse_perm hkeeps hcollapse).append_right _

/-- **Runs in a row can be joined into one.** -/
theorem exists_joinAll (h : Lawful less before ahead) (room scale : Nat) (hkeeps : Keeps sort)
    (horders : Orders before ahead sort) (stack : List (Run β × Nat)) (place : Nat)
    (hrow : Row before ahead (unstack stack ++ run :: rest)) :
    ∃ run', joinAll less room sort scale stack place run rest = some run' ∧ run'.Good before ahead := by
  induction rest generalizing stack place run with
  | nil =>
      obtain ⟨stack', run', hcollapse, hrow'⟩ :=
        exists_collapse h room 0 hkeeps horders hrow
      refine ⟨run', ?_, (row_append.mp hrow').2.1.1⟩
      rw [joinAll, hcollapse]
      rfl
  | cons next rest ih =>
      obtain ⟨stack', joined, hcollapse, hrow'⟩ := exists_collapse h room
        (depth scale (place - run.items.length) place (place + next.items.length)) hkeeps horders hrow
      rw [joinAll, hcollapse]
      refine ih _ _ ?_
      rw [unstack_cons, List.append_assoc]
      exact hrow'

theorem mergeRuns_perm {length : Nat} (hkeeps : Keeps sort)
    (h : mergeRuns less room sort length runs = some xs) :
    xs.Perm (items runs) := by
  cases runs with
  | nil =>
      cases h
      exact List.Perm.refl _
  | cons first rest =>
      obtain ⟨run, hrun, h⟩ := Option.bind_eq_some_iff.mp h
      exact (inOrder_perm hkeeps h).trans (joinAll_perm hkeeps hrun)

theorem exists_mergeRuns (h : Lawful less before ahead) (room length : Nat) (hkeeps : Keeps sort)
    (horders : Orders before ahead sort) (hrow : Row before ahead runs) :
    ∃ xs, mergeRuns less room sort length runs = some xs ∧ xs.Pairwise ahead := by
  cases runs with
  | nil => exact ⟨[], rfl, .nil⟩
  | cons first rest =>
      obtain ⟨run, hrun, hgood⟩ := exists_joinAll h room ((0x4000000000000000 + length - 1) / length)
        hkeeps horders [] first.items.length hrow
      obtain ⟨xs, hxs, hsorted⟩ := exists_inOrder horders hgood
      exact ⟨xs, by rw [mergeRuns, hrun]; exact hxs, hsorted⟩

end Join

/-! ## The sort -/

section Eager

variable {sort : List β → Option (List β)}

/-- Runs that are sorted one by one keep their elements. -/
theorem items_mapM (hkeeps : Keeps sort) {runs' : List (Run β)}
    (h : runs.mapM (Run.settle sort) = some runs') : (items runs').Perm (items runs) := by
  induction runs generalizing runs' with
  | nil =>
      cases h
      exact List.Perm.refl _
  | cons run runs ih =>
      rw [List.mapM_cons] at h
      obtain ⟨sorted, hsorted, h⟩ := Option.bind_eq_some_iff.mp h
      obtain ⟨others, hothers, h⟩ := Option.bind_eq_some_iff.mp h
      cases h
      obtain ⟨xs, hxs, hrun⟩ := Option.bind_eq_some_iff.mp hsorted
      cases hrun
      exact (inOrder_perm hkeeps hxs).append (ih hothers)

/-- Runs in a row that are sorted one by one stay in a row. -/
theorem exists_mapM (hkeeps : Keeps sort) (horders : Orders before ahead sort)
    (hrow : Row before ahead runs) :
    ∃ runs', runs.mapM (Run.settle sort) = some runs' ∧ Row before ahead runs' := by
  induction runs with
  | nil => exact ⟨[], rfl, trivial⟩
  | cons run runs ih =>
      obtain ⟨hgood, hcross, hrest⟩ := hrow
      obtain ⟨xs, hxs, hsorted⟩ := exists_inOrder horders hgood
      obtain ⟨runs', hruns', hrow'⟩ := ih hrest
      refine ⟨⟨true, xs⟩ :: runs', ?_, hsorted, ?_, hrow'⟩
      · rw [List.mapM_cons, Run.settle, hxs, hruns']
        rfl
      · intro x hx y hy
        exact hcross x ((inOrder_perm hkeeps hxs).mem_iff.mp hx) y
          ((items_mapM hkeeps hruns').mem_iff.mp hy)

theorem eager_keeps (less : β → β → Bool) (bytes : Nat) : Keeps (eager less bytes) := by
  intro xs ys h
  obtain ⟨runs, hruns, h⟩ := Option.bind_eq_some_iff.mp h
  have hkeeps := short_keeps less (bytes ≤ 16)
  have hitems := items_mapM hkeeps hruns
  exact ((mergeRuns_perm hkeeps h).trans hitems).trans (items_cutSome less _ _ _ xs)

theorem eager_orders (h : Lawful less before ahead) (bytes : Nat) :
    Orders before ahead (eager less bytes) := by
  intro xs hxs
  have hkeeps := short_keeps less (bytes ≤ 16)
  have horders := short_orders h (bytes ≤ 16)
  have hrow := row_cutSome h (goodLength xs.length) 32 xs.length hxs
  obtain ⟨runs, hruns, hrow⟩ := exists_mapM hkeeps horders hrow
  obtain ⟨ys, hys, hsorted⟩ :=
    exists_mergeRuns h (room bytes xs.length) xs.length hkeeps horders hrow
  refine ⟨ys, ?_, hsorted⟩
  rw [eager, cut, hruns]
  exact hys

end Eager

theorem median_mem (less : β → β → Bool) {a b c : β} (ha : a ∈ xs) (hb : b ∈ xs) (hc : c ∈ xs) :
    median less a b c ∈ xs := by
  unfold median
  dsimp only
  split
  · split
    · exact hb
    · exact hc
  · exact ha

theorem pivot_mem (less : β → β → Bool) (x : β) (xs : List β) (place length : Nat) :
    pivot less (x :: xs) x place length ∈ x :: xs := by
  fun_induction pivot less (x :: xs) x place length with
  | case1 place length hshort =>
      rw [List.getD_eq_getElem?_getD]
      cases hx : (x :: xs)[place]? with
      | none => exact List.mem_cons_self
      | some y => exact List.mem_of_getElem? hx
  | case2 place length hlong ha hb hc => exact median_mem less ha hb hc

section Pivot

variable {p : β} (h : Lawful less before ahead) (hxs : xs.Pairwise before) (hp : p ∈ xs)
include h hxs hp

/-- What is less than the pivot is ahead of what is not. -/
theorem ahead_of_parted (hx : x ∈ xs.filter (less · p)) (hy : y ∈ xs.filter (fun y => !less y p)) :
    ahead x y := by
  obtain ⟨hx, hbelow⟩ := List.mem_filter.mp hx
  obtain ⟨hy, hnot⟩ := List.mem_filter.mp hy
  rw [Bool.not_eq_true'] at hnot
  have hnear := near_of_mem hxs hx hy
  have hless : less x y = true :=
    (h.cotrans hnear (near_of_mem hxs hy hp) hbelow).resolve_right (by rw [hnot]; exact Bool.false_ne_true)
  rcases hnear with rfl | hnear
  · rw [hbelow] at hnot
    cases hnot
  · exact h.ahead_of_less hnear hless

variable (hleast : ∀ x ∈ xs, less x p = false)
include hleast

/-- Where nothing is less than the pivot, what it is not less than equals it, and stays as it stands. -/
theorem pairwise_equal : (xs.filter fun y => !less p y).Pairwise ahead := by
  refine (hxs.sublist List.filter_sublist).imp_of_mem fun {x y} hx hy hbefore => ?_
  obtain ⟨hx, hequal⟩ := List.mem_filter.mp hx
  obtain ⟨hy, -⟩ := List.mem_filter.mp hy
  rw [Bool.not_eq_true'] at hequal
  refine h.ahead_of_not_less hbefore (Bool.eq_false_iff.mpr fun hless => ?_)
  rcases h.cotrans (near_of_mem hxs hy hp) (near_of_mem hxs hp hx) hless with hyp | hpx
  · rw [hleast y hy] at hyp
    cases hyp
  · rw [hequal] at hpx
    cases hpx

omit hleast in
/-- What the pivot is not less than is ahead of what it is less than. -/
theorem ahead_of_equal (hx : x ∈ xs.filter fun y => !less p y) (hy : y ∈ xs.filter (less p ·)) :
    ahead x y := by
  obtain ⟨hx, hequal⟩ := List.mem_filter.mp hx
  obtain ⟨hy, habove⟩ := List.mem_filter.mp hy
  rw [Bool.not_eq_true'] at hequal
  have hless : less x y = true :=
    (h.cotrans (near_of_mem hxs hp hx) (near_of_mem hxs hx hy) habove).resolve_left
      (by rw [hequal]; exact Bool.false_ne_true)
  rcases near_of_mem hxs hx hy with rfl | hnear
  · rw [habove] at hequal
    cases hequal
  · exact h.ahead_of_less hnear hless

omit hleast in
/-- Both sides of a pivot in order, one behind the other. -/
theorem parted_sorts {below notBelow : List β} (hperm : below.Perm (xs.filter (less · p)))
    (hperm' : notBelow.Perm (xs.filter fun y => !less y p)) (hsorted : below.Pairwise ahead)
    (hsorted' : notBelow.Pairwise ahead) : (below ++ notBelow).Pairwise ahead := by
  refine List.pairwise_append.mpr ⟨hsorted, hsorted', fun y hy z hz => ?_⟩
  exact ahead_of_parted h hxs hp (hperm.mem_iff.mp hy) (hperm'.mem_iff.mp hz)

/-- What equals the pivot, and behind it the rest in order. -/
theorem equal_sorts {above : List β} (hperm : above.Perm (xs.filter (less p ·)))
    (hsorted : above.Pairwise ahead) : (xs.filter (fun y => !less p y) ++ above).Pairwise ahead := by
  refine List.pairwise_append.mpr ⟨pairwise_equal h hxs hp hleast, hsorted, fun y hy z hz => ?_⟩
  exact ahead_of_equal h hxs hp hy (hperm.mem_iff.mp hz)

end Pivot

theorem quick_keeps (less : β → β → Bool) (bytes limit : Nat) (least? : Option β) :
    Keeps (quick less bytes limit least?) := by
  intro xs ys h
  induction limit generalizing least? xs ys with
  | zero =>
      unfold quick at h
      split at h
      · exact short_keeps less _ h
      · exact eager_keeps less bytes h
  | succ limit ih =>
      cases xs with
      | nil =>
          cases h
          exact List.Perm.refl _
      | cons x xs =>
          unfold quick at h
          split at h
          · exact short_keeps less _ h
          · dsimp only at h
            split at h
            · obtain ⟨above, habove, h⟩ := Option.bind_eq_some_iff.mp h
              cases h
              have hparts := List.filter_append_perm
                (fun y => !less (pivot less (x :: xs) x 0 (xs.length + 1)) y) (x :: xs)
              simp only [Bool.not_not] at hparts
              exact ((ih none habove).append_left _).trans hparts
            · obtain ⟨notBelow, hnotBelow, h⟩ := Option.bind_eq_some_iff.mp h
              obtain ⟨below, hbelow, h⟩ := Option.bind_eq_some_iff.mp h
              cases h
              exact ((ih _ hbelow).append (ih _ hnotBelow)).trans (List.filter_append_perm ..)

/-- Nothing is less than a pivot below which there is nothing, or which equals an element that nothing is
less than. -/
theorem not_less_of_equal (h : Lawful less before ahead) {p : β} {least? : Option β} (hp : p ∈ xs)
    (hleast : ∀ q ∈ least?, ∀ x ∈ xs, Near before x q ∧ less x q = false)
    (hequal : (xs.filter (less · p)).isEmpty = true
      ∨ least?.any (fun least => !less least p) = true) :
    ∀ y ∈ xs, less y p = false := by
  intro y hy
  rcases hequal with hempty | hequal
  · rw [List.isEmpty_iff, List.filter_eq_nil_iff] at hempty
    exact Bool.not_eq_true _ ▸ hempty y hy
  · obtain ⟨least, rfl, hnot⟩ := (Option.any_eq_true _ _).mp hequal
    rw [Bool.not_eq_true'] at hnot
    obtain ⟨hnear, hyleast⟩ := hleast least rfl y hy
    refine Bool.eq_false_iff.mpr fun hless => ?_
    rcases h.cotrans hnear (hleast least rfl p hp).1.symm hless with hyl | hlp
    · rw [hyleast] at hyl
      cases hyl
    · rw [hlp] at hnot
      cases hnot

/-- **The quicksort sorts.**  No element is less than the one that it may be given. -/
theorem exists_quick (h : Lawful less before ahead) (bytes limit : Nat) (least? : Option β)
    (hleast : ∀ p ∈ least?, ∀ x ∈ xs, Near before x p ∧ less x p = false) (hxs : xs.Pairwise before) :
    ∃ ys, quick less bytes limit least? xs = some ys ∧ ys.Pairwise ahead := by
  induction limit generalizing least? xs with
  | zero =>
      unfold quick
      split
      · exact short_orders h _ hxs
      · exact eager_orders h bytes hxs
  | succ limit ih =>
      cases xs with
      | nil => exact ⟨[], rfl, .nil⟩
      | cons x xs =>
          unfold quick
          split
          · exact short_orders h _ hxs
          · have hp := pivot_mem less x xs 0 (xs.length + 1)
            generalize pivot less (x :: xs) x 0 (xs.length + 1) = p at hp ⊢
            have hfilter : ∀ q : β → Bool, ((x :: xs).filter q).Pairwise before := fun q =>
              hxs.sublist List.filter_sublist
            dsimp only
            split
            · rename_i hequal
              have hnone := not_less_of_equal h hp hleast hequal
              obtain ⟨above, habove, hsorted⟩ := ih none nofun (hfilter (less p ·))
              refine ⟨_, by rw [habove]; rfl, ?_⟩
              exact equal_sorts h hxs hp hnone (quick_keeps less bytes limit none habove) hsorted
            · have hfrom : ∀ q ∈ some p, ∀ y ∈ (x :: xs).filter (fun y => !less y p),
                  Near before y q ∧ less y q = false := by
                rintro _ ⟨⟩ y hy
                obtain ⟨hy, hnot⟩ := List.mem_filter.mp hy
                exact ⟨near_of_mem hxs hy hp, Bool.not_eq_true' _ ▸ hnot⟩
              obtain ⟨notBelow, hnotBelow, hsorted'⟩ := ih (some p) hfrom (hfilter _)
              obtain ⟨below, hbelow, hsorted⟩ := ih least?
                (fun q hq y hy => hleast q hq y (List.mem_filter.mp hy).1) (hfilter (less · p))
              refine ⟨below ++ notBelow, ?_, ?_⟩
              · rw [hnotBelow]
                show (quick less bytes limit least? ((x :: xs).filter (less · p)) >>= fun below =>
                  pure (below ++ notBelow)) = some (below ++ notBelow)
                rw [hbelow]
                rfl
              · exact parted_sorts h hxs hp (quick_keeps less bytes limit least? hbelow)
                  (quick_keeps less bytes limit (some p) hnotBelow) hsorted hsorted'

/-- **A list that is sorted keeps its elements**, whatever the comparison. -/
theorem stable_keeps (less : β → β → Bool) (bytes : Nat) : Keeps (stable less bytes) := by
  intro xs ys h
  unfold stable at h
  split at h
  · cases h
    exact insertAll_perm less [] xs
  · split at h
    · exact eager_keeps less bytes h
    · have hquick : Keeps (quicksort less bytes) := fun _ _ h => quick_keeps less bytes _ none h
      exact (mergeRuns_perm hquick h).trans (items_cutSome less _ _ _ xs)

/-- **A list is sorted** by a comparison that is an order. -/
theorem stable_orders (h : Lawful less before ahead) (bytes : Nat) :
    Orders before ahead (stable less bytes) := by
  intro xs hxs
  unfold stable
  split
  · exact ⟨_, rfl, insertAll_sorts h .nil (by simp) hxs⟩
  · split
    · exact eager_orders h bytes hxs
    · have hquick : Keeps (quicksort less bytes) := fun _ _ h => quick_keeps less bytes _ none h
      refine exists_mergeRuns h _ _ hquick (fun ys hys => ?_) (row_cutSome h _ _ _ hxs)
      exact exists_quick h bytes _ none nofun hys

end GrammarInduction.Sorting
