import GrammarInduction.Proofs.Breeding.Totality
import GrammarInduction.Proofs.Scalar.Sum

/-!
# Weighted picks

A weighted pick draws one threshold below the total of the weights and takes the first candidate at which the
running sum passes it.  The total of fitness is that running sum, and the total of places is at most the sum of
the places, so a threshold below the total is passed by some candidate: nothing is left to a fallback.  A weight
of zero leaves the running sum as it is, so the candidate that passes has some fitness.

* `Draw.InRange` — a number drawn below a bound is below it, and not below zero;
* `Selector.Passes` — a pick by one threshold;
* `Selector.exists_firstAbove`, `Selector.exists_weight_ne_zero` — a threshold below the sum is passed, where a
  weight is added;
* `Selector.byFitness_passes`, `Selector.byFitness_undrawn`, `Selector.byFitness_uniform` — a pick by fitness;
* `Selector.rank_passes` — a pick by rank;
* `Selector.select_weighted` — both, from two candidates on.
-/

namespace GrammarInduction

open Attempt Draw Scalar

variable {α : Type} [Scalar α] {g g' : Generator}

/-- A number that is drawn below a bound is below it, and not below zero.  A product that is rounded can come
to the bound. -/
def Draw.InRange (bound : α) (g : Generator) : Prop :=
  Ensures (real bound) g (fun _ _ => True) fun x _ => 0 ≤ x ∧ x < bound

instance (bound : α) (g : Generator) : Decidable (Draw.InRange bound g) :=
  match h : real bound g with
  | (.ok x, g') => decidable_of_iff (0 ≤ x ∧ x < bound) (by
      unfold Draw.InRange Ensures
      rw [h])
  | (.error e, g') => isTrue (by
      unfold Draw.InRange Ensures
      rw [h]
      trivial)

namespace Selector

variable {β : Type} {fitness : Rule → α} {candidates : List Rule} {x running total : α}
  {weighted : List (β × α)}

/-- The candidates with their fitness, where what is below zero counts as nothing. -/
def weighed (fitness : Rule → α) (candidates : List Rule) : List (Rule × α) :=
  candidates.map fun r => (r, nonNegative (fitness r))

/-- Ranked candidates with their places counted from the last. -/
def placed (α : Type) [Scalar α] (ranked : List Rule) : List (Rule × α) :=
  ranked.zipIdx.map fun (r, place) => (r, ofCount (ranked.length - place))

/-- The total of the fitness. -/
def weightTotal (fitness : Rule → α) (candidates : List Rule) : α :=
  sum ((weighed fitness candidates).map (·.2))

/-- The total of the places of as many candidates. -/
def placeTotal (α : Type) [Scalar α] (n : Nat) : α :=
  ofCount (n * (n + 1) % wordCount) / ofCount 2

/-- One threshold is drawn below the total, and the running sum of the weights passes it at an element. -/
def Passes (total : α) (weighted : List (β × α)) (g : Generator) (y : β) (g' : Generator) : Prop :=
  ∃ threshold, real total g = (.ok threshold, g') ∧ firstAbove threshold 0 weighted = some y

/-! ## The running sum -/

/-- A threshold below the sum of the weights is passed. -/
theorem exists_firstAbove (h : x < (weighted.map (·.2)).foldl (· + ·) running) (hstart : ¬ x < running) :
    ∃ y, firstAbove x running weighted = some y := by
  induction weighted generalizing running with
  | nil => exact absurd h hstart
  | cons entry rest ih =>
      obtain ⟨y, weight⟩ := entry
      rw [firstAbove]
      split
      · exact ⟨y, rfl⟩
      · rename_i hnot
        exact ih h hnot

/-- Where a threshold is passed there is a weight that is not zero. -/
theorem exists_weight_ne_zero [SummingScalar α] (hweights : ∀ entry ∈ weighted, 0 ≤ entry.2)
    (hrunning : 0 ≤ running) (hstart : ¬ x < running) {y : β}
    (h : firstAbove x running weighted = some y) : ∃ weight, (y, weight) ∈ weighted ∧ weight ≠ 0 := by
  induction weighted generalizing running with
  | nil => cases h
  | cons entry rest ih =>
      obtain ⟨y', weight⟩ := entry
      rw [List.forall_mem_cons] at hweights
      rw [firstAbove] at h
      split at h
      · rename_i hpassed
        cases h
        refine ⟨weight, List.mem_cons_self, ?_⟩
        rintro rfl
        exact hstart (lt_of_lt_of_le hpassed (SummingScalar.add_zero_le hrunning))
      · rename_i hnot
        have hnext := OrderedScalar.le_trans hrunning (SummingScalar.le_add_right hrunning hweights.1)
        obtain ⟨weight', hmem, hne⟩ := ih hweights.2 hnext hnot h
        exact ⟨weight', List.mem_cons_of_mem _ hmem, hne⟩

/-! ## The two selectors -/

theorem placed_weights (ranked : List Rule) : (placed α ranked).map (·.2) = places α ranked.length := by
  have hplaces := congrArg (List.map fun place => (ofCount (ranked.length - place) : α))
    (List.zipIdx_map_snd 0 ranked)
  rw [← List.range_eq_range', List.map_map] at hplaces
  rw [placed, List.map_map]
  exact hplaces

variable [SummingScalar α]

/-- A pick in proportion to weights comes to an element by its threshold if their sum reaches the total. -/
theorem proportional_passes (hpos : 0 < total) (hvalue : (value? total).isSome = true)
    (hrange : InRange total g) (htotal : total ≤ sum (weighted.map (·.2)))
    (fallback : Draw (Option β)) :
    ∃ y g', Passes total weighted g y g' ∧ proportional total weighted fallback g = (.ok (some y), g') := by
  obtain ⟨threshold, g', hdraw, hlow, hhigh⟩ := ((real_ensures total).and hrange).mono
    (fun _ _ h => h.1.2 ⟨hpos, hvalue⟩) (fun _ _ => And.right) |>.exists_ok
  obtain ⟨y, hpassed⟩ := exists_firstAbove (lt_of_lt_of_le hhigh htotal)
    fun hbelow => SummingScalar.not_le_of_lt hbelow hlow
  refine ⟨y, g', ⟨threshold, hdraw, hpassed⟩, ?_⟩
  rw [proportional, bind_apply, hdraw]
  dsimp only
  rw [hpassed]
  rfl

theorem weights_nonneg {w : α} (hw : w ∈ (weighed fitness candidates).map (·.2)) : 0 ≤ w := by
  obtain ⟨entry, hentry, rfl⟩ := List.mem_map.mp hw
  obtain ⟨r, -, rfl⟩ := List.mem_map.mp hentry
  exact nonNegative_nonneg _

/-- A total that the fitness of no candidate adds to is not above zero. -/
theorem weightTotal_le_zero (hnone : ∀ r ∈ candidates, ¬ 0 < fitness r) :
    weightTotal fitness candidates ≤ 0 := by
  have hzero : ∀ w ∈ (weighed fitness candidates).map (·.2), w = 0 := by
    intro w hw
    obtain ⟨entry, hentry, rfl⟩ := List.mem_map.mp hw
    obtain ⟨r, hr, rfl⟩ := List.mem_map.mp hentry
    exact if_neg (hnone r hr)
  exact sum_le_zero hzero

/-- The fitness of a candidate is part of the total. -/
theorem weightTotal_pos {r : Rule} (hr : r ∈ candidates) (hfit : 0 < fitness r) :
    ¬ weightTotal fitness candidates ≤ 0 := by
  have hmem : fitness r ∈ (weighed fitness candidates).map (·.2) := by
    have hentry : (r, nonNegative (fitness r)) ∈ weighed fitness candidates := List.mem_map_of_mem hr
    rw [nonNegative, if_pos hfit] at hentry
    exact List.mem_map_of_mem hentry
  exact SummingScalar.not_le_of_lt (lt_of_lt_of_le hfit (le_sum (fun _ => weights_nonneg) hmem))

/-- If some candidate has fitness, a threshold decides, and the pick has fitness. -/
theorem byFitness_passes (hfinite : CanDraw fitness candidates .roulette)
    (hrange : InRange (weightTotal fitness candidates) g) (hfit : ∃ r ∈ candidates, 0 < fitness r) :
    ∃ r g', Passes (weightTotal fitness candidates) (weighed fitness candidates) g r g'
      ∧ byFitness fitness candidates g = (.ok (some r), g') ∧ 0 < fitness r := by
  obtain ⟨r₀, hr₀, hfit₀⟩ := hfit
  have hpos := weightTotal_pos hr₀ hfit₀
  have hvalue : (value? (weightTotal fitness candidates)).isSome = true := by
    rw [weightTotal, weighed, List.map_map]
    exact hfinite
  have htotal : weightTotal fitness candidates ≤ sum ((weighed fitness candidates).map (·.2)) :=
    ValuedScalar.isNumber_of_value? (Option.eq_some_of_isSome hvalue)
  obtain ⟨r, g', hpasses, hpick⟩ := proportional_passes (pos_of_not_le_zero hvalue hpos) hvalue hrange htotal
    (pure candidates.getLast?)
  refine ⟨r, g', hpasses, ?_, ?_⟩
  · show (if weightTotal fitness candidates ≤ 0 then _ else proportional (weightTotal fitness candidates)
      (weighed fitness candidates) (pure candidates.getLast?) : Attempt Generator (Option Rule)) g = _
    rw [if_neg hpos]
    exact hpick
  · obtain ⟨threshold, hdraw, hpassed⟩ := hpasses
    have hstart : ¬ threshold < 0 := fun hbelow =>
      SummingScalar.not_le_of_lt hbelow (hrange.of_ok hdraw).1
    obtain ⟨weight, hentry, hne⟩ := exists_weight_ne_zero
      (fun entry hentry => weights_nonneg (List.mem_map_of_mem hentry)) zero_le_zero hstart hpassed
    obtain ⟨r', -, heq⟩ := List.mem_map.mp hentry
    cases heq
    by_contra hunfit
    exact hne (if_neg hunfit)

/-- If no candidate has fitness, one place is drawn. -/
theorem byFitness_uniform (hne : candidates ≠ []) (hnone : ∀ r ∈ candidates, ¬ 0 < fitness r) :
    byFitness fitness candidates g
      = (.ok candidates[(below candidates.length g).1]?, (below candidates.length g).2) := by
  show (if weightTotal fitness candidates ≤ 0 then (choose candidates : Draw (Option Rule)) else _ :
    Attempt Generator (Option Rule)) g = _
  rw [if_pos (weightTotal_le_zero hnone), choose, if_neg (by rwa [List.isEmpty_iff])]
  rfl

/-- If the fitness of the candidates has no finite sum, no threshold can be drawn. -/
theorem byFitness_undrawn (hinfinite : ¬ CanDraw fitness candidates .roulette)
    (hfit : ∃ r ∈ candidates, 0 < fitness r) :
    byFitness fitness candidates g = (.error .undefinedDraw, g) := by
  obtain ⟨r₀, hr₀, hfit₀⟩ := hfit
  have hvalue : ¬ (0 < weightTotal fitness candidates
      ∧ (value? (weightTotal fitness candidates)).isSome = true) := by
    rw [weightTotal, weighed, List.map_map]
    exact fun h => hinfinite h.2
  show (if weightTotal fitness candidates ≤ 0 then _ else proportional (weightTotal fitness candidates)
    (weighed fitness candidates) (pure candidates.getLast?) : Attempt Generator (Option Rule)) g = _
  rw [if_neg (weightTotal_pos hr₀ hfit₀), proportional, real, if_neg hvalue]
  rfl

/-- **By rank a threshold decides**, whatever the sum of the fitness: candidates whose fitness is a number are
ranked, and one of them is picked by its place. -/
theorem rank_passes (hmany : 2 ≤ candidates.length) (hlength : candidates.length < 2 ^ 63)
    (hnumber : ∀ r ∈ candidates, IsNumber (fitness r))
    (hrange : InRange (placeTotal α candidates.length) g) :
    ∃ ranked, ranking fitness candidates = .ok ranked ∧ ∃ r ∈ candidates, ∃ g',
      Passes (placeTotal α candidates.length) (placed α ranked) g r g'
        ∧ select .rank fitness candidates g = (.ok (some r), g') := by
  have hpositive : 0 < candidates.length := by omega
  obtain ⟨ranked, hranked⟩ : ∃ ranked, ranking fitness candidates = .ok ranked := by
    cases hranked : ranking fitness candidates with
    | ok ranked => exact ⟨ranked, rfl⟩
    | error e =>
        obtain ⟨-, -, r, hr, hnone⟩ := unranked_of_ranking hranked
        exact absurd (hnumber r hr) hnone
  have hsame := (ranking_perm hranked).length_eq
  obtain ⟨hpos, hvalue⟩ := HalvingScalar.half_count (α := α) (mod_wordCount_ne_zero hpositive hlength)
    (Nat.mod_lt _ (by decide))
  have htotal : placeTotal α candidates.length ≤ Scalar.sum ((placed α ranked).map (·.2)) := by
    rw [placed_weights, hsame]
    exact SummingScalar.half_le_sum_places hpositive hlength
  obtain ⟨r, g', hpasses, hpick⟩ := proportional_passes hpos hvalue hrange htotal (choose ranked)
  have hselect : select .rank fitness candidates g = (.ok (some r), g') := by
    rw [select, if_neg (by omega), byRank, bind_apply, hranked]
    rw [placed, hsame] at hpick
    exact hpick
  exact ⟨ranked, hranked, r, (select_ensures ..).of_ok hselect r rfl, g', hpasses, hselect⟩

/-- **Weighted selectors pick by one threshold.**  From two candidates or more, as many as fit into memory, one
number is drawn, and if it comes out below the total then some candidate passes it.  By fitness this is one that
has some, where any has; a total that is not finite has no numbers below it, and where none has fitness one place
is drawn instead.  By rank the sum of the fitness is of no account. -/
theorem select_weighted (fitness : Rule → α) (candidates : List Rule) (g : Generator)
    (hmany : 2 ≤ candidates.length) (hlength : candidates.length < 2 ^ 63) :
    ((∃ r ∈ candidates, 0 < fitness r) → CanDraw fitness candidates .roulette →
        InRange (weightTotal fitness candidates) g →
        ∃ r ∈ candidates, 0 < fitness r ∧ ∃ g',
          Passes (weightTotal fitness candidates) (weighed fitness candidates) g r g'
            ∧ select .roulette fitness candidates g = (.ok (some r), g'))
      ∧ ((∃ r ∈ candidates, 0 < fitness r) → ¬ CanDraw fitness candidates .roulette →
        select .roulette fitness candidates g = (.error .undefinedDraw, g))
      ∧ ((¬ ∃ r ∈ candidates, 0 < fitness r) →
        ∃ r ∈ candidates, candidates[(below candidates.length g).1]? = some r
          ∧ select .roulette fitness candidates g = (.ok (some r), (below candidates.length g).2))
      ∧ ((∀ r ∈ candidates, IsNumber (fitness r)) → InRange (placeTotal α candidates.length) g →
        ∃ ranked, ranking fitness candidates = .ok ranked ∧ ∃ r ∈ candidates, ∃ g',
          Passes (placeTotal α candidates.length) (placed α ranked) g r g'
            ∧ select .rank fitness candidates g = (.ok (some r), g')) := by
  have hne : candidates ≠ [] := by
    rintro rfl
    exact absurd hmany (by decide)
  have hroulette : select .roulette fitness candidates g = byFitness fitness candidates g := by
    rw [select, if_neg (by omega)]
  refine ⟨fun hfit hfinite hrange => ?_, fun hfit hinfinite => ?_, fun hnone => ?_,
    rank_passes hmany hlength⟩
  · obtain ⟨r, g', hpasses, hpick, hfitness⟩ := byFitness_passes hfinite hrange hfit
    rw [← hroulette] at hpick
    exact ⟨r, (select_ensures ..).of_ok hpick r rfl, hfitness, g', hpasses, hpick⟩
  · rw [hroulette]
    exact byFitness_undrawn hinfinite hfit
  · have hplace := below_lt (List.length_pos_iff.mpr hne) g
    refine ⟨candidates[(below candidates.length g).1], List.getElem_mem hplace,
      List.getElem?_eq_getElem hplace, ?_⟩
    rw [hroulette, byFitness_uniform hne fun r hr hfit => hnone ⟨r, hr, hfit⟩,
      List.getElem?_eq_getElem hplace]

/-- Three candidates, of which the first and the last have no fitness. -/
def barren (r : Rule) : Float := if r = .pair 1 2 2 then 1 else 0

/-- By fitness the one candidate that has some is picked, and by places one of the three. -/
theorem select_weighted_barren :
    let candidates : List Rule := [.pair 1 1 1, .pair 1 2 2, .pair 1 3 3]
    (∃ g', select .roulette barren candidates (.ofSeed 7) = (.ok (some (.pair 1 2 2)), g'))
      ∧ ∃ ranked, ranking barren candidates = .ok ranked ∧ ∃ r ∈ candidates, ∃ g',
        Passes (placeTotal Float 3) (placed Float ranked) (.ofSeed 7) r g'
          ∧ select .rank barren candidates (.ofSeed 7) = (.ok (some r), g') := by
  intro candidates
  obtain ⟨hfitness, -, -, hrank⟩ := select_weighted barren candidates (.ofSeed 7) (by decide) (by decide)
  obtain ⟨r, hr, hfit, g', -, hpick⟩ := hfitness ⟨.pair 1 2 2, by decide, by decide +kernel⟩
    (by decide +kernel) (by decide +kernel)
  have honly : ∀ r ∈ candidates, 0 < barren r → r = .pair 1 2 2 := by decide +kernel
  rw [honly r hr hfit] at hpick
  exact ⟨⟨g', hpick⟩, hrank (by decide +kernel) (by decide +kernel)⟩

end Selector

end GrammarInduction
