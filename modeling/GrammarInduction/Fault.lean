/-!
# Faults

A computation over a chart, with counts, with random draws or with a ranking can fail in a few ways.  Each
has one cause here; `Fault.message` words them.
-/

namespace GrammarInduction

/-- Why a parse, a trace or a draw has no result. -/
inductive Fault where
  /-- A cell was asked for that no table of this length has. -/
  | outOfBounds (row col length : Nat)
  /-- Universal coverage fired and no universal symbol is set. -/
  | noUniversalSymbol
  /-- A chance was to be drawn that is no number, or a value from a range that is not one. -/
  | undefinedDraw
  /-- A number came out that no machine word can hold. -/
  | overflow
  /-- A list was to be sorted by comparisons that contradict each other. -/
  | disorder
deriving DecidableEq, Repr

namespace Fault

/-- The wording of a fault. -/
def message : Fault → String
  | outOfBounds row col length =>
    "table coordinate (" ++ toString row ++ ", " ++ toString col
      ++ ") out of bounds for sentence length " ++ toString length
  | noUniversalSymbol => "universal coverage requires a universal symbol, none configured"
  | undefinedDraw => "a random value was asked for outside every distribution"
  | overflow => "a number is too great for a machine word"
  | disorder => "a list was sorted by comparisons that are not an order"

/-- A sequence has a result if its first part has one from which the second part goes on to it. -/
theorem bind_eq_ok {β γ : Type} {x : Except Fault β} {f : β → Except Fault γ} {c : γ} :
    (x >>= f) = .ok c ↔ ∃ b, x = .ok b ∧ f b = .ok c := by
  cases x with
  | ok b =>
    constructor
    · exact fun h => ⟨b, rfl, h⟩
    · rintro ⟨_, ⟨⟩, h⟩
      exact h
  | error e =>
    constructor
    · exact fun h => nomatch h
    · rintro ⟨_, ⟨⟩, _⟩

/-- Where every element has a result, a list has the list of the results. -/
theorem mapM_eq_ok {β γ : Type} {xs : List β} {f : β → Except Fault γ} {g : β → γ}
    (h : ∀ x ∈ xs, f x = .ok (g x)) : xs.mapM f = .ok (xs.map g) := by
  induction xs with
  | nil => rfl
  | cons x xs ih =>
    rw [List.mapM_cons, h x List.mem_cons_self, ih fun y hy => h y (List.mem_cons_of_mem _ hy)]
    rfl

end Fault

/-- A computation over a state that may end in a fault; the state it had reached by then is kept. -/
abbrev Attempt (σ β : Type) := ExceptT Fault (StateM σ) β

end GrammarInduction
