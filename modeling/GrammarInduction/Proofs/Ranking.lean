import GrammarInduction.Proofs.Scalar.Order
import GrammarInduction.Proofs.Sorting.Runs
import GrammarInduction.Ranking

/-!
# What a ranking puts first

Over numbers a ranking is the stable sort by a key: an element stands before another if its key is
greater, or if the keys are equal and it stood before it already.  An order of the list that was ranked
decides between equal keys.  Keys that are no numbers can leave a list without a ranking, but only one of more
than twenty elements.

* `Ranking.Outranks` — who stands before whom;
* `Ranking.lawful_outranks` — numbers are compared by an order;
* `Ranking.exists_descending` — so a list with such keys has a ranking, and it is the sorted list;
* `Ranking.disorder_of_descending` — where there is no ranking.
-/

namespace GrammarInduction.Ranking

open Scalar

variable {α β : Type} [Scalar α] {key : β → α} {before : β → β → Prop} {x y z : β} {xs ys : List β}
  {bytes : Nat}

/-- An order that tells elements apart. -/
structure Strict (before : β → β → Prop) : Prop where
  asymm : ∀ {x y}, before x y → ¬ before y x
  trans : ∀ {x y z}, before x y → before y z → before x z

/-- An element has a greater key than another, or an equal key and comes before it. -/
def Outranks (key : β → α) (before : β → β → Prop) (x y : β) : Prop :=
  key y < key x ∨ key y ≤ key x ∧ key x ≤ key y ∧ before x y

/-- A ranking has the elements that are ranked. -/
theorem descending_perm (h : descending bytes key xs = .ok ys) : ys.Perm xs :=
  Sorting.stable_keeps _ _ (stable_of_descending h)

variable [StrictScalar α]

theorem Outranks.le (h : Outranks key before x y) : key y ≤ key x :=
  h.elim OrderedScalar.le_of_lt And.left

theorem Outranks.trans (hstrict : Strict before) (hxy : Outranks key before x y)
    (hyz : Outranks key before y z) : Outranks key before x z := by
  rcases hxy with hlt | ⟨hle, hge, hbefore⟩
  · exact Or.inl (lt_of_le_of_lt hyz.le hlt)
  · rcases hyz with hlt | ⟨hle', hge', hbefore'⟩
    · exact Or.inl (lt_of_lt_of_le hlt hle)
    · exact Or.inr ⟨OrderedScalar.le_trans hle' hle, OrderedScalar.le_trans hge hge',
        hstrict.trans hbefore hbefore'⟩

theorem Outranks.asymm (hstrict : Strict before) (hxy : Outranks key before x y) :
    ¬ Outranks key before y x := by
  rintro (hlt | ⟨hle, -, hbefore⟩)
  · exact StrictScalar.not_le_of_lt hlt hxy.le
  · rcases hxy with hlt | ⟨-, -, hbefore'⟩
    · exact StrictScalar.not_le_of_lt hlt hle
    · exact hstrict.asymm hbefore hbefore'

/-- **Numbers are compared by an order**, and an order of the list decides between equal ones. -/
theorem lawful_outranks (hstrict : Strict before) :
    Sorting.Lawful (fun x y => decide (key y < key x))
      (fun x y => before x y ∧ IsNumber (key x) ∧ IsNumber (key y)) (Outranks key before) where
  asymm := Outranks.asymm hstrict
  trans := Outranks.trans hstrict
  ahead_of_less _ hless := Or.inl (of_decide_eq_true hless)
  ahead_of_not_less := by
    rintro x y ⟨hbefore, hx, hy⟩ hless
    have hle := le_of_not_lt hx hy (of_decide_eq_false hless)
    by_cases hlt : key y < key x
    · exact Or.inl hlt
    · exact Or.inr ⟨hle, le_of_not_lt hy hx hlt, hbefore⟩
  cotrans := by
    intro x y z hxy hyz hless
    have hlt := of_decide_eq_true hless
    rcases hxy with rfl | hxy
    · exact Or.inr hless
    · have hy : IsNumber (key y) := hxy.elim (fun h => h.2.2) fun h => h.2.1
      have hx : IsNumber (key x) := hxy.elim (fun h => h.2.1) fun h => h.2.2
      by_cases hyx : key y < key x
      · exact Or.inl (decide_eq_true hyx)
      · exact Or.inr (decide_eq_true (lt_of_lt_of_le hlt (le_of_not_lt hy hx hyx)))

/-- **A list whose keys are numbers has a ranking, which is a stable sort**: whoever stands before another
outranks it. -/
theorem exists_descending (bytes : Nat) (hstrict : Strict before)
    (hnumber : ∀ x ∈ xs, IsNumber (key x)) (h : xs.Pairwise before) :
    ∃ ys, descending bytes key xs = .ok ys ∧ ys.Pairwise (Outranks key before) := by
  have hnumbers : xs.Pairwise fun x y => before x y ∧ IsNumber (key x) ∧ IsNumber (key y) :=
    h.imp_of_mem fun {x y} hx hy hbefore => ⟨hbefore, hnumber x hx, hnumber y hy⟩
  obtain ⟨ys, hys, hsorted⟩ := Sorting.stable_orders (lawful_outranks hstrict) bytes hnumbers
  refine ⟨ys, ?_, hsorted⟩
  rw [descending, hys]

/-- Only a list of more than twenty elements, among them one whose key is no number, can have no ranking. -/
theorem disorder_of_descending (hstrict : Strict before) (h : xs.Pairwise before) {e : Fault}
    (hfault : descending bytes key xs = .error e) :
    e = .disorder ∧ 20 < xs.length ∧ ∃ x ∈ xs, ¬ IsNumber (key x) := by
  refine ⟨?_, ?_, ?_⟩
  · unfold descending at hfault
    split at hfault <;> cases hfault
    rfl
  · refine Nat.lt_of_not_le fun hshort => ?_
    rw [descending, Sorting.stable, if_pos hshort] at hfault
    cases hfault
  · by_cases hnumber : ∀ x ∈ xs, IsNumber (key x)
    · obtain ⟨ys, hys, -⟩ := exists_descending bytes hstrict hnumber h
      rw [hys] at hfault
      cases hfault
    · simpa using hnumber

end GrammarInduction.Ranking
