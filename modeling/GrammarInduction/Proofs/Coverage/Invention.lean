import GrammarInduction.Coverage.Operator
import GrammarInduction.Proofs.Random.Chance

/-!
# What coverage operators make up

An operator that fires at a site picks one of the site's detectors and makes up a rule with the body
of that detector.  Only the parent of the rule depends on the operator.

* `Coverage.Invents` — the rules that an operator may make up;
* `Coverage.cover_invents` — an operator makes up nothing else;
* `Coverage.cover_fires` — an operator whose chance is full makes up a rule wherever it can;
* `Coverage.cover_faults` — only the universal operator can fail.
-/

namespace GrammarInduction

open Attempt

/-- The detectors that an operator may pick at a site. -/
def CoverageSite.detectors : CoverageSite → List Detector
  | .leaf col terminal => [.leaf col terminal]
  | .splits detectors => detectors

/-- A detector looks at one of the splits of a cell of the triangle. -/
inductive Detector.Splits (n : Nat) : Detector → Prop
  | split {row col shift : Nat} {left right : Symbol} (hshift : shift < row)
      (inside : row + col < n) : Splits n (.split row col shift left right)

/-- There is something to cover at a site: a terminal, or at least one split and nothing but
splits. -/
def CoverageSite.Ready (n : Nat) : CoverageSite → Prop
  | .leaf .. => True
  | .splits detectors => detectors ≠ [] ∧ ∀ d ∈ detectors, d.Splits n

namespace Coverage

/-- An operator may make up the rule `r` for the detector `d` of a site. -/
structure Invents (limits : Limits) (kind : CoverageKind) (site : CoverageSite) (r : Rule)
    (d : Detector) : Prop where
  suits : suits kind site = true
  mem : d ∈ site.detectors
  body : r.body = d.body
  /-- The starting and the full operator derive the sentence. -/
  start : kind = .starting ∨ kind = .full → r.parent = limits.start
  universal : kind = .universal → limits.universal? = some r.parent
  /-- The other operators draw a symbol. -/
  inRange : kind = .terminal ∨ kind = .aggressive → 1 ≤ limits.symbolLimit →
    limits.InRange r.parent

/-- An operator has no parent to give: it is the universal one, and no universal symbol is set. -/
structure Unset (limits : Limits) (kind : CoverageKind) (e : Fault) : Prop where
  fault : e = .noUniversalSymbol
  kind : kind = .universal
  unset : limits.universal? = none

variable {limits : Limits} {kind : CoverageKind} {site : CoverageSite} {g : Generator} {n : Nat}

/-- The parent of a terminal's rule is the operator's own. -/
theorem leafParent_ensures {col : Nat} {terminal : Symbol}
    (hsuits : suits kind (.leaf col terminal) = true) :
    Ensures (leafParent limits kind) g (fun e _ => Unset limits kind e) fun x _ =>
        Invents limits kind (.leaf col terminal) (.terminal x terminal) (.leaf col terminal) := by
  have hmem : Detector.leaf col terminal ∈ (CoverageSite.leaf col terminal).detectors :=
    List.mem_singleton_self _
  cases kind with
  | terminal =>
      refine ensures_state.mpr ⟨hsuits, hmem, rfl, by simp, by simp, fun _ hlimit => ?_⟩
      exact Limits.inRange_randomSymbol hlimit g
  | universal =>
      unfold leafParent
      cases hu : limits.universal? with
      | none => exact ensures_throw.mpr ⟨rfl, rfl, hu⟩
      | some u => exact ensures_pure.mpr ⟨hsuits, hmem, rfl, by simp, fun _ => hu, by simp⟩
  | starting =>
      exact ensures_pure.mpr ⟨hsuits, hmem, rfl, fun _ => rfl, by simp, by simp⟩
  | aggressive => cases hsuits
  | full => cases hsuits

/-- The parent of a split's rule is the operator's own. -/
theorem splitParent_invents {detectors : List Detector} {row col shift : Nat}
    {left right : Symbol} (hsuits : suits kind (.splits detectors) = true)
    (hmem : .split row col shift left right ∈ detectors) (g : Generator) :
    Invents limits kind (.splits detectors) (.pair (splitParent limits kind g).1 left right)
      (.split row col shift left right) := by
  cases kind with
  | aggressive =>
      refine ⟨hsuits, hmem, rfl, by simp, by simp, fun _ hlimit => ?_⟩
      exact Limits.inRange_randomSymbol hlimit g
  | full => exact ⟨hsuits, hmem, rfl, fun _ => rfl, by simp, by simp⟩
  | terminal => cases hsuits
  | universal => cases hsuits
  | starting => cases hsuits

/-- Once it fires, an operator makes up one of its rules, if there is something to cover. -/
theorem invent_ensures (hsuits : suits kind site = true) :
    Ensures (invent limits kind site) g (fun e _ => Unset limits kind e)
      fun made _ => (∀ r d, made = some (r, d) → Invents limits kind site r d)
        ∧ (site.Ready n → made.isSome = true) := by
  cases site with
  | leaf col terminal =>
      refine ensures_bind.mpr ((leafParent_ensures hsuits).imp fun x g' hx => ensures_pure.mpr ?_)
      refine ⟨?_, fun _ => rfl⟩
      intro r d hmade
      cases hmade
      exact hx
  | splits detectors =>
      refine ensures_bind.mpr (ensures_state.mpr ?_)
      -- A choice draws only from a list that is not empty; a leaf among splits is passed over.
      by_cases hempty : detectors = []
      · subst hempty
        refine ensures_pure.mpr ⟨fun _ _ hmade => (nomatch hmade), fun hready => ?_⟩
        exact absurd rfl hready.1
      · obtain ⟨d, hd, hchoose⟩ := Draw.exists_choose hempty g
        rw [hchoose]
        cases d with
        | leaf col terminal =>
            refine ensures_pure.mpr ⟨fun _ _ hmade => (nomatch hmade), fun hready => ?_⟩
            cases hready.2 _ hd
        | split row col shift left right =>
            refine ensures_bind.mpr (ensures_state.mpr (ensures_pure.mpr ⟨?_, fun _ => rfl⟩))
            intro r d hmade
            cases hmade
            exact splitParent_invents hsuits hd _

variable {α : Type} [Scalar α] {setting : CoverageSetting α}

/-- An operator makes up nothing but its rules. -/
theorem cover_invents : Ensures (cover limits kind setting site) g (fun _ _ => True)
    fun made _ => ∀ r d, made = some (r, d) → Invents limits kind site r d := by
  have hnothing : ∀ r d, (none : Option (Rule × Detector)) = some (r, d) →
      Invents limits kind site r d := fun _ _ hmade => (nomatch hmade)
  unfold cover
  split
  · rename_i hsuits
    refine ensures_bind.mpr ?_
    unfold Ensures
    split
    · rename_i fires g' _
      cases fires with
      | true =>
          exact (invent_ensures (n := 0) hsuits).mono (fun _ _ _ => trivial) fun _ _ h => h.1
      | false => exact hnothing
    · trivial
  · exact ensures_pure.mpr hnothing

/-- An operator whose chance never comes up makes up nothing and draws nothing. -/
theorem cover_of_le_zero (h : setting.chance ≤ 0) :
    cover limits kind setting site g = (.ok none, g) := by
  unfold cover
  split
  · rw [bind_apply, Draw.chance_of_le_zero h]
    rfl
  · rfl

/-- An operator whose chance is a number does not fail, and where its chance is full it makes up a
rule for every site that suits it and has something to cover. -/
theorem cover_fires [LawfulScalar α] (hkind : kind ≠ .universal)
    (hchance : Scalar.IsNumber setting.chance ∨ 1 ≤ setting.chance) :
    Ensures (cover limits kind setting site) g (fun _ _ => False) fun made _ =>
      1 ≤ setting.chance → suits kind site = true → site.Ready n → made.isSome = true := by
  unfold cover
  split
  · rename_i hsuits
    refine ensures_bind.mpr ((Draw.chance_ensures hchance).imp fun fires g' hfires => ?_)
    cases fires with
    | true =>
        refine (invent_ensures (n := n) hsuits).mono (fun _ _ h => hkind h.kind) ?_
        exact fun _ _ h _ _ hready => h.2 hready
    | false => exact ensures_pure.mpr fun hone => nomatch hfires hone
  · rename_i hsuits
    exact ensures_pure.mpr fun _ h => absurd h hsuits

/-- An operator whose chance is a number fails only if it is the universal one, it can fire, and no
universal symbol is set. -/
theorem cover_faults [LawfulScalar α] (hchance : Scalar.IsNumber setting.chance) :
    Ensures (cover limits kind setting site) g
      (fun e _ => Unset limits kind e ∧ ¬ setting.chance ≤ 0) fun _ _ => True := by
  by_cases hzero : setting.chance ≤ 0
  · exact ensures_of_eq (cover_of_le_zero hzero) trivial
  · unfold cover
    split
    · rename_i hsuits
      apply ensures_bind.mpr
      apply (Draw.chance_ensures (Or.inl hchance)).mono (fun _ _ h => h.elim)
      intro fires g' _
      cases fires with
      | true =>
          apply (invent_ensures (n := 0) hsuits).mono
          · intro e _ hunset
            exact ⟨hunset, hzero⟩
          · exact fun _ _ _ => trivial
      | false => exact ensures_pure.mpr trivial
    · exact ensures_pure.mpr trivial

end Coverage

end GrammarInduction
