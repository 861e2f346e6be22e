import GrammarInduction.Grammar.Usefulness

/-!
# Closures are least fixed points

A closure repeats rounds over a list of rules.  In its turn a rule *gives* some symbols to the set,
provided the symbols that it *needs* are there by then.  A set has no more symbols than its seed and all
the rules together can give, so within that many rounds one adds nothing, and the set is closed.

* `SymbolSet.close_closed` — enough rounds end in a set to which a further round adds nothing;
* `SymbolSet.Follows` — what the rules give, step by step;
* `SymbolSet.mem_close_iff` — the closure holds exactly what follows.
-/

namespace GrammarInduction.SymbolSet

variable {round : SymbolSet → SymbolSet} {s t : SymbolSet} {x : Symbol}

/-! ## Rounds -/

theorem nodup_toList (s : SymbolSet) : s.toList.Nodup := by
  have hdistinct := Std.TreeSet.distinct_toList (t := s)
  exact hdistinct.imp fun hne heq => hne (Std.LawfulEqCmp.compare_eq_iff_eq.mpr heq)

theorem size_le_length {bound : List Symbol} (hbound : ∀ y ∈ s, y ∈ bound) : s.size ≤ bound.length := by
  rw [← Std.TreeSet.length_toList]
  apply (nodup_toList s).length_le_of_subset
  intro y hy
  exact hbound y (Std.TreeSet.mem_toList.mp hy)

/-- A set that has gained no element over a part of it is that part. -/
theorem subset_of_size_eq (hsub : ∀ y ∈ s, y ∈ t) (hsize : t.size = s.size) (hx : x ∈ t) : x ∈ s := by
  apply Classical.byContradiction
  intro hnot
  have hmore : (x :: s.toList).Nodup :=
    List.nodup_cons.mpr ⟨fun hmem => hnot (Std.TreeSet.mem_toList.mp hmem), nodup_toList s⟩
  have hlength : (x :: s.toList).length ≤ t.toList.length := by
    apply hmore.length_le_of_subset
    intro y hy
    rcases List.mem_cons.mp hy with rfl | hy
    · exact Std.TreeSet.mem_toList.mpr hx
    · exact Std.TreeSet.mem_toList.mpr (hsub y (Std.TreeSet.mem_toList.mp hy))
  rw [List.length_cons, Std.TreeSet.length_toList, Std.TreeSet.length_toList] at hlength
  omega

/-- What every round keeps a closure keeps. -/
theorem close_keeps {P : SymbolSet → Prop} (hround : ∀ s, P s → P (round s)) (rounds : Nat)
    (hs : P s) : P (close round rounds s) := by
  induction rounds generalizing s with
  | zero => exact hs
  | succ rounds ih =>
      unfold close
      dsimp only
      split
      · exact hs
      · exact ih (hround s hs)

/-- **Enough rounds close a set.**  Where rounds keep what there is and stay within a bound, as many of
them as the bound has symbols end in a set to which a further round adds nothing. -/
theorem close_closed (round : SymbolSet → SymbolSet) (bound : List Symbol)
    (hkeeps : ∀ s, ∀ y ∈ s, y ∈ round s)
    (hbounded : ∀ s, (∀ y ∈ s, y ∈ bound) → ∀ y ∈ round s, y ∈ bound) (rounds : Nat)
    (hs : ∀ y ∈ s, y ∈ bound) (henough : bound.length < s.size + rounds) :
    ∀ y ∈ round (close round rounds s), y ∈ close round rounds s := by
  induction rounds generalizing s with
  | zero =>
      have hsize := size_le_length hs
      omega
  | succ rounds ih =>
      unfold close
      dsimp only
      split
      · rename_i hsize
        intro y hy
        exact subset_of_size_eq (hkeeps s) hsize hy
      · rename_i hsize
        have hgrown : s.size ≤ (round s).size := by
          rw [← Std.TreeSet.length_toList (t := round s)]
          apply size_le_length
          intro y hy
          exact Std.TreeSet.mem_toList.mpr (hkeeps s y hy)
        have henough' : bound.length < (round s).size + rounds := by omega
        exact ih (hbounded s hs) henough'

/-! ## What rules give -/

section Rules

variable {needs gives : Rule → List Symbol} {add : SymbolSet → Rule → SymbolSet} {rules : List Rule}
  {seed : SymbolSet}

/-- The symbols that rules give from a seed on: a rule gives its symbols once those that it needs are
given. -/
inductive Follows (needs gives : Rule → List Symbol) (rules : List Rule) (seed : SymbolSet) :
    Symbol → Prop
  | seed {x : Symbol} (hseed : x ∈ seed) : Follows needs gives rules seed x
  | rule {r : Rule} {x : Symbol} (listed : r ∈ rules)
      (needed : ∀ y ∈ needs r, Follows needs gives rules seed y) (given : x ∈ gives r) :
      Follows needs gives rules seed x

/-- One turn of a rule adds what the rule gives, if the set has what it needs. -/
def Contributes (needs gives : Rule → List Symbol) (add : SymbolSet → Rule → SymbolSet) : Prop :=
  ∀ s r x, x ∈ add s r ↔ x ∈ s ∨ (∀ y ∈ needs r, y ∈ s) ∧ x ∈ gives r

namespace Contributes

theorem mem_foldl (hadd : Contributes needs gives add) (hx : x ∈ s) : x ∈ rules.foldl add s := by
  induction rules generalizing s with
  | nil => exact hx
  | cons r rules ih => exact ih ((hadd s r x).mpr (Or.inl hx))

/-- What a round adds is given by one of the rules. -/
theorem origin (hadd : Contributes needs gives add) (hx : x ∈ rules.foldl add s) :
    x ∈ s ∨ x ∈ rules.flatMap gives := by
  induction rules generalizing s with
  | nil => exact Or.inl hx
  | cons r rules ih =>
      rw [List.flatMap_cons, List.mem_append]
      rcases ih hx with hturn | hlater
      · rcases (hadd s r x).mp hturn with hold | hgiven
        · exact Or.inl hold
        · exact Or.inr (Or.inl hgiven.2)
      · exact Or.inr (Or.inr hlater)

/-- A rule whose needs are met as a round starts has given its symbols when the round ends. -/
theorem given (hadd : Contributes needs gives add) {r : Rule} (hr : r ∈ rules)
    (hneeds : ∀ y ∈ needs r, y ∈ s) (hx : x ∈ gives r) : x ∈ rules.foldl add s := by
  induction rules generalizing s with
  | nil => cases hr
  | cons q rules ih =>
      rcases List.mem_cons.mp hr with rfl | hlater
      · have hturn : x ∈ add s r := (hadd s r x).mpr (Or.inr ⟨hneeds, hx⟩)
        have hround : x ∈ rules.foldl add (add s r) := hadd.mem_foldl hturn
        exact hround
      · apply ih hlater
        intro y hy
        exact (hadd s q y).mpr (Or.inl (hneeds y hy))

/-- Rounds add nothing but what follows. -/
theorem follows (hadd : Contributes needs gives add) {visited : List Rule}
    (hvisited : ∀ r ∈ visited, r ∈ rules)
    (hs : ∀ y ∈ s, Follows needs gives rules seed y) :
    ∀ y ∈ visited.foldl add s, Follows needs gives rules seed y := by
  induction visited generalizing s with
  | nil => exact hs
  | cons r visited ih =>
      apply ih fun q hq => hvisited q (List.mem_cons_of_mem r hq)
      intro y hy
      rcases (hadd s r y).mp hy with hold | ⟨hneeds, hgiven⟩
      · exact hs y hold
      · have hneeded : ∀ z ∈ needs r, Follows needs gives rules seed z :=
          fun z hz => hs z (hneeds z hz)
        exact .rule (hvisited r List.mem_cons_self) hneeded hgiven

end Contributes

/-- **A closure holds exactly what follows** from its seed, if it has more rounds than the rules have
symbols to give. -/
theorem mem_close_iff (hadd : Contributes needs gives add) {rounds : Nat}
    (hrounds : (rules.flatMap gives).length < rounds) :
    x ∈ close (fun s => rules.foldl add s) rounds seed ↔ Follows needs gives rules seed x := by
  constructor
  · have hall : ∀ y ∈ close (fun s => rules.foldl add s) rounds seed,
        Follows needs gives rules seed y := by
      apply close_keeps (P := fun s => ∀ y ∈ s, Follows needs gives rules seed y)
      · intro s hs
        exact hadd.follows (fun _ hr => hr) hs
      · intro y hy
        exact .seed hy
    exact hall x
  · have hclosed : ∀ y ∈ rules.foldl add (close (fun s => rules.foldl add s) rounds seed),
        y ∈ close (fun s => rules.foldl add s) rounds seed := by
      apply close_closed (fun s => rules.foldl add s) (seed.toList ++ rules.flatMap gives)
      · intro s y hy
        exact hadd.mem_foldl hy
      · intro s hs y hy
        rcases hadd.origin hy with hold | hgiven
        · exact hs y hold
        · exact List.mem_append_right _ hgiven
      · intro y hy
        exact List.mem_append_left _ (Std.TreeSet.mem_toList.mpr hy)
      · rw [List.length_append, Std.TreeSet.length_toList]
        omega
    intro hfollows
    induction hfollows with
    | seed hseed =>
        exact close_keeps (P := fun s => _ ∈ s) (fun s hs => hadd.mem_foldl hs) rounds hseed
    | rule listed _ given ih => exact hclosed _ (hadd.given listed ih given)

end Rules

end GrammarInduction.SymbolSet
