import GrammarInduction.Chart.Traceback
import GrammarInduction.Proofs.Chart.Filling
import Mathlib.Logic.Relation

/-!
# The search through a table ends

A search takes a node from its stack, notes the rules of the node's productions, and puts the nodes they
lead to on the stack.  A node that it has visited before it drops.  Every production is opened once, with
the first visit of the node that it derives, and puts at most two nodes on the stack; so there are fewer
steps than two for each production of the table, and one more.

* `Table.Leads`, `Table.Applies` — where a node leads, and by which rules;
* `Table.Searched` — what holds while a search goes on;
* `Table.search_ok` — a search with enough steps empties its stack;
* `Table.allRules_ok` — so the rules found are those of the nodes that the root leads to.
-/

namespace GrammarInduction.Table

open Relation

variable {α : Type} {t : Table α} {root a b : Node} {s : Search} {stack : List Node}

/-! ## Where a node leads -/

/-- The children of a production, none for that of a terminal rule. -/
def childrenOf (t : Table α) (p : Production α) : Option (Node × Node) :=
  match t.childNodes p with
  | .ok children => children
  | .error _ => none

theorem childrenOf_of_ok {p : Production α} {children : Option (Node × Node)}
    (h : t.childNodes p = .ok children) : t.childrenOf p = children := by
  rw [childrenOf, h]

/-- The nodes of the children of a production. -/
def successors (t : Table α) (p : Production α) : List Node :=
  match t.childrenOf p with
  | some (left, right) => [left, right]
  | none => []

/-- The productions of a node. -/
def productionsOf (t : Table α) (a : Node) : List (Production α) :=
  (t.poolAt a.row a.col).productionsFor a.symbol

/-- Some production of the node `a` has the node `b` for a child. -/
def Leads (t : Table α) (a b : Node) : Prop := ∃ p ∈ t.productionsOf a, b ∈ t.successors p

/-- Some production of the node `a` has the rule `r`. -/
def Applies (t : Table α) (a : Node) (r : Rule) : Prop := ∃ p ∈ t.productionsOf a, p.rule? = some r

/-! ## One visit -/

theorem mem_pushChildren {visited : Std.TreeSet Node} {p : Production α} :
    b ∈ pushChildren visited stack (t.childrenOf p)
      ↔ b ∈ stack ∨ b ∈ t.successors p ∧ b ∉ visited := by
  cases hchildren : t.childrenOf p with
  | none => simp [pushChildren, successors, hchildren]
  | some children =>
      simp only [pushChildren, successors, hchildren, List.mem_append, List.mem_filter,
        List.mem_cons, List.not_mem_nil, or_false, Bool.not_eq_true', ← Bool.not_eq_true,
        ← Std.TreeSet.mem_iff_contains]
      rw [or_comm, or_comm (a := b = children.2)]

theorem length_pushChildren_le (visited : Std.TreeSet Node) (stack : List Node)
    (children : Option (Node × Node)) :
    (pushChildren visited stack children).length ≤ stack.length + 2 := by
  cases children with
  | none =>
      rw [pushChildren]
      omega
  | some children =>
      have hfilter := List.length_filter_le (fun n => !visited.contains n)
        [children.2, children.1]
      simp only [pushChildren, List.length_append]
      simp only [List.length_cons, List.length_nil] at hfilter
      omega

/-- The stack gets the children of all productions but those that have been visited. -/
theorem mem_foldl_pushChildren {visited : Std.TreeSet Node} (ps : List (Production α)) :
    b ∈ (ps.map t.childrenOf).foldl (pushChildren visited) stack
      ↔ b ∈ stack ∨ (∃ p ∈ ps, b ∈ t.successors p) ∧ b ∉ visited := by
  induction ps generalizing stack with
  | nil => simp
  | cons p ps ih =>
      rw [List.map_cons, List.foldl_cons, ih, mem_pushChildren, or_assoc, ← or_and_right]
      simp

theorem length_foldl_pushChildren_le (visited : Std.TreeSet Node) (stack : List Node)
    (children : List (Option (Node × Node))) :
    (children.foldl (pushChildren visited) stack).length ≤ stack.length + 2 * children.length := by
  induction children generalizing stack with
  | nil => exact Nat.le_refl _
  | cons first rest ih =>
      have hrest := ih (pushChildren visited stack first)
      have hfirst := length_pushChildren_le visited stack first
      rw [List.foldl_cons, List.length_cons]
      omega

/-- The rules of all productions are noted. -/
theorem mem_foldl_used {used : Std.TreeSet Rule} {r : Rule} (ps : List (Production α)) :
    r ∈ ps.foldl (fun used p => used.insertMany p.rule?.toList) used
      ↔ r ∈ used ∨ ∃ p ∈ ps, p.rule? = some r := by
  induction ps generalizing used with
  | nil => simp
  | cons p ps ih =>
      rw [List.foldl_cons, ih, Std.TreeSet.mem_insertMany_list, or_assoc]
      simp

theorem mem_insert_node {visited : Std.TreeSet Node} : b ∈ visited.insert a ↔ b = a ∨ b ∈ visited := by
  rw [Std.TreeSet.mem_insert, Std.LawfulEqCmp.compare_eq_iff_eq, eq_comm]

/-! ## Productions still to be opened -/

/-- For every production of a cell with a rule, the node that it derives. -/
def nodesOf (row col : Nat) (pool : Pool α) : List Node :=
  pool.productions.toList.filterMap fun p => p.parent?.map fun x => ⟨row, col, x⟩

/-- The nodes of pools that stand in the given places of a table for `n` symbols. -/
def ownersIn (n : Nat) (pools : List (Pool α × Nat)) : List Node :=
  pools.flatMap fun entry => nodesOf (entry.2 / n) (entry.2 % n) entry.1

/-- For every production of the table the node that it derives. -/
def owners (t : Table α) : List Node := ownersIn t.length t.cells.toList.zipIdx

/-- How many productions derive a node that has not been visited. -/
def unopened (t : Table α) (visited : Std.TreeSet Node) : Nat :=
  t.owners.countP fun n => !visited.contains n

theorem length_owners_le (t : Table α) : t.owners.length ≤ t.productionCount := by
  have hsum : ∀ (pools : List (Pool α)) (i count : Nat),
      count + (ownersIn t.length (pools.zipIdx i)).length
        ≤ pools.foldl (fun count pool => count + pool.productions.size) count := by
    intro pools
    induction pools with
    | nil => exact fun _ _ => Nat.le_refl _
    | cons pool pools ih =>
        intro i count
        have hhead : (nodesOf (i / t.length) (i % t.length) pool).length
            ≤ pool.productions.size := by
          rw [← Array.length_toList]
          exact List.length_filterMap_le _ _
        have htail := ih (i + 1) (count + pool.productions.size)
        rw [ownersIn] at htail
        rw [List.zipIdx_cons, List.foldl_cons, ownersIn, List.flatMap_cons, List.length_append]
        dsimp only
        omega
  have hall := hsum t.cells.toList 0 0
  rw [owners, productionCount, ← Array.foldl_toList]
  omega

/-- A node derives no more productions than there are to be opened with it. -/
theorem length_productionsOf_le (inside : a.row + a.col < t.length) :
    (t.productionsOf a).length ≤ t.owners.count a := by
  obtain ⟨row, col, x⟩ := a
  have hcol : col < t.length := by
    have hinside : row + col < t.length := inside
    omega
  have hdiv : (row * t.length + col) / t.length = row := by
    rw [Nat.mul_comm, Nat.mul_add_div (by omega), Nat.div_eq_of_lt hcol, Nat.add_zero]
  have hmod : (row * t.length + col) % t.length = col := by
    rw [Nat.mul_comm, Nat.mul_add_mod, Nat.mod_eq_of_lt hcol]
  have hcell : (t.poolAt row col, row * t.length + col) ∈ t.cells.toList.zipIdx := by
    have hplace : row * t.length + col < t.cells.size := by
      rw [t.size_cells]
      exact lt_of_inside inside
    rw [List.mem_zipIdx_iff_getElem?, Array.getElem?_toList, Array.getElem?_eq_getElem hplace,
      poolAt, Array.getD_eq_getD_getElem?, Array.getElem?_eq_getElem hplace, Option.getD_some]
  have hsub : (nodesOf row col (t.poolAt row col)).Sublist t.owners := by
    rw [owners, ownersIn, List.flatMap_def]
    apply List.sublist_flatten_of_mem
    refine List.mem_map.mpr ⟨_, hcell, ?_⟩
    simp only [hdiv, hmod]
  have hcount : (nodesOf row col (t.poolAt row col)).count ⟨row, col, x⟩
      = (t.productionsOf ⟨row, col, x⟩).length := by
    rw [productionsOf, Pool.productionsFor, nodesOf, List.count_filterMap,
      ← List.countP_eq_length_filter]
    apply List.countP_congr
    intro p _
    cases p.parent? with
    | none => simp
    | some y => simp
  rw [← hcount]
  exact hsub.count_le _

/-- Of a list of nodes, a first visit visits as many as are the node. -/
theorem countP_insert {visited : Std.TreeSet Node} (hnew : a ∉ visited) (nodes : List Node) :
    nodes.countP (fun n => !(visited.insert a).contains n) + nodes.count a
      = nodes.countP fun n => !visited.contains n := by
  induction nodes with
  | nil => rfl
  | cons n nodes ih =>
      rw [List.countP_cons, List.countP_cons, List.count_cons]
      by_cases hn : n = a
      · subst hn
        have hin : (visited.insert n).contains n = true :=
          Std.TreeSet.mem_iff_contains.mp (mem_insert_node.mpr (Or.inl rfl))
        have hout : visited.contains n = false :=
          Bool.eq_false_iff.mpr fun h => hnew (Std.TreeSet.mem_iff_contains.mpr h)
        simp only [hin, hout, Bool.not_true, Bool.not_false, beq_self_eq_true, if_true]
        simp only [Bool.false_eq_true, if_false]
        omega
      · have hsame : (visited.insert a).contains n = visited.contains n := by
          rw [Bool.eq_iff_iff, ← Std.TreeSet.mem_iff_contains, ← Std.TreeSet.mem_iff_contains,
            mem_insert_node]
          exact or_iff_right hn
        have hne : (n == a) = false := beq_eq_false_iff_ne.mpr hn
        rw [hsame, hne]
        simp only [Bool.false_eq_true, if_false]
        omega

/-- A first visit opens the productions of its node. -/
theorem unopened_insert {visited : Std.TreeSet Node} (inside : a.row + a.col < t.length)
    (hnew : a ∉ visited) :
    t.unopened (visited.insert a) + (t.productionsOf a).length ≤ t.unopened visited := by
  have hopened := length_productionsOf_le inside
  have hall := countP_insert hnew t.owners
  rw [unopened, unopened]
  omega

/-! ## The whole search -/

/-- What holds while a search from `root` goes on: all that is visited or on the stack comes from the
root; where a visited node leads is visited or on the stack; and the rules noted are those of the visited
nodes. -/
structure Searched (t : Table α) (root : Node) (s : Search) (stack : List Node) : Prop where
  come : ∀ n, n ∈ s.visited ∨ n ∈ stack → ReflTransGen t.Leads root n
  closed : ∀ a ∈ s.visited, ∀ b, t.Leads a b → b ∈ s.visited ∨ b ∈ stack
  used : ∀ r, r ∈ s.used ↔ ∃ a ∈ s.visited, t.Applies a r
  root : root ∈ s.visited ∨ root ∈ stack

/-- A node that has been visited before may be dropped. -/
theorem Searched.drop (h : t.Searched root s (a :: stack)) (hold : a ∈ s.visited) :
    t.Searched root s stack := by
  have hmem : ∀ {n}, n ∈ s.visited ∨ n ∈ a :: stack → n ∈ s.visited ∨ n ∈ stack := by
    intro n hn
    rcases hn with hvisited | hstack
    · exact Or.inl hvisited
    · rcases List.mem_cons.mp hstack with rfl | hrest
      · exact Or.inl hold
      · exact Or.inr hrest
  refine ⟨?_, ?_, h.used, hmem h.root⟩
  · intro n hn
    exact h.come n (hn.imp_right (List.mem_cons_of_mem a))
  · intro n hn b hb
    exact hmem (h.closed n hn b hb)

/-- A visit keeps what holds while a search goes on. -/
theorem Searched.visit (h : t.Searched root s (a :: stack)) :
    t.Searched root ⟨s.visited.insert a,
        (t.productionsOf a).foldl (fun used p => used.insertMany p.rule?.toList) s.used⟩
      (((t.productionsOf a).map t.childrenOf).foldl (pushChildren (s.visited.insert a)) stack) := by
  have ha : ReflTransGen t.Leads root a := h.come a (Or.inr List.mem_cons_self)
  -- What was visited or on the stack still is.
  have hkept : ∀ {n}, n ∈ s.visited ∨ n ∈ a :: stack → n ∈ s.visited.insert a
      ∨ n ∈ ((t.productionsOf a).map t.childrenOf).foldl (pushChildren (s.visited.insert a)) stack := by
    intro n hn
    rcases hn with hvisited | hstack
    · exact Or.inl (mem_insert_node.mpr (Or.inr hvisited))
    · rcases List.mem_cons.mp hstack with rfl | hrest
      · exact Or.inl (mem_insert_node.mpr (Or.inl rfl))
      · exact Or.inr ((mem_foldl_pushChildren _).mpr (Or.inl hrest))
  refine ⟨?_, ?_, ?_, hkept h.root⟩
  · intro n hn
    rcases hn with hvisited | hstack
    · rcases mem_insert_node.mp hvisited with rfl | hold
      · exact ha
      · exact h.come n (Or.inl hold)
    · rcases (mem_foldl_pushChildren _).mp hstack with hrest | ⟨hchild, -⟩
      · exact h.come n (Or.inr (List.mem_cons_of_mem a hrest))
      · exact ha.tail hchild
  · intro n hn b hb
    rcases mem_insert_node.mp hn with rfl | hold
    · by_cases hseen : b ∈ s.visited.insert n
      · exact Or.inl hseen
      · exact Or.inr ((mem_foldl_pushChildren _).mpr (Or.inr ⟨hb, hseen⟩))
    · exact hkept (h.closed n hold b hb)
  · intro r
    rw [mem_foldl_used, h.used]
    constructor
    · intro hr
      rcases hr with ⟨n, hn, happlies⟩ | happlies
      · exact ⟨n, mem_insert_node.mpr (Or.inr hn), happlies⟩
      · exact ⟨a, mem_insert_node.mpr (Or.inl rfl), happlies⟩
    · intro hr
      obtain ⟨n, hn, happlies⟩ := hr
      rcases mem_insert_node.mp hn with rfl | hold
      · exact Or.inr happlies
      · exact Or.inl ⟨n, hold, happlies⟩

/-- **A search with enough steps empties its stack.** -/
theorem search_ok (hinside : ∀ n, ReflTransGen t.Leads root n → n.row + n.col < t.length)
    (hopens : ∀ n, ReflTransGen t.Leads root n → ∀ p ∈ t.productionsOf n,
      t.childNodes p = .ok (t.childrenOf p)) (steps : Nat) (h : t.Searched root s stack)
    (henough : stack.length + 2 * t.unopened s.visited ≤ steps) :
    ∃ s', t.search steps s stack = .ok s' ∧ t.Searched root s' [] := by
  induction steps generalizing s stack with
  | zero =>
      have hnil : stack = [] := List.eq_nil_of_length_eq_zero (by omega)
      subst hnil
      exact ⟨s, rfl, h⟩
  | succ steps ih =>
      cases stack with
      | nil => exact ⟨s, rfl, h⟩
      | cons a stack =>
          rw [List.length_cons] at henough
          unfold search
          by_cases hold : a ∈ s.visited
          · rw [if_pos (Std.TreeSet.mem_iff_contains.mp hold)]
            exact ih (h.drop hold) (by omega)
          · rw [if_neg (mt Std.TreeSet.mem_iff_contains.mpr hold)]
            have hcomes := h.come a (Or.inr List.mem_cons_self)
            have inside := hinside a hcomes
            have hopened := unopened_insert inside hold
            have hpushed := length_foldl_pushChildren_le (s.visited.insert a) stack
              ((t.productionsOf a).map t.childrenOf)
            rw [List.length_map] at hpushed
            obtain ⟨s', hrest, hsearched⟩ := ih h.visit (by dsimp only; omega)
            have hchildren : (t.productionsOf a).mapM t.childNodes
                = .ok ((t.productionsOf a).map t.childrenOf) :=
              Fault.mapM_eq_ok (hopens a hcomes)
            refine ⟨s', ?_, hsearched⟩
            rw [cell_eq_poolAt inside]
            exact Fault.bind_eq_ok.mpr ⟨_, rfl, Fault.bind_eq_ok.mpr ⟨_, hchildren, hrest⟩⟩

/-- **The rules found are those of the nodes that the root leads to**, in ascending order, as long as
these nodes lie in the table and their productions lead somewhere. -/
theorem allRules_ok {x : Symbol} (hlength : t.length ≠ 0)
    (hinside : ∀ n, ReflTransGen t.Leads (t.root x) n → n.row + n.col < t.length)
    (hopens : ∀ n, ReflTransGen t.Leads (t.root x) n → ∀ p ∈ t.productionsOf n,
      t.childNodes p = .ok (t.childrenOf p)) :
    ∃ rules, t.allRules x = .ok rules ∧ rules.Pairwise (fun r r' => compare r r' = .lt)
      ∧ ∀ r, r ∈ rules ↔ ∃ a, ReflTransGen t.Leads (t.root x) a ∧ t.Applies a r := by
  have hfirst : t.Searched (t.root x) ⟨∅, ∅⟩ [t.root x] := by
    refine ⟨?_, ?_, ?_, Or.inr (List.mem_singleton_self _)⟩
    · intro n hn
      rcases hn with hvisited | hstack
      · exact absurd hvisited Std.TreeSet.not_mem_emptyc
      · cases List.mem_singleton.mp hstack
        exact .refl
    · intro n hn
      exact absurd hn Std.TreeSet.not_mem_emptyc
    · intro r
      simp
  have hsteps : [t.root x].length + 2 * t.unopened ∅ ≤ t.searchSteps := by
    have hcount : t.unopened ∅ ≤ t.owners.length := List.countP_le_length
    have howners := length_owners_le t
    have hproduct : t.productionCount ≤ t.length * t.productionCount :=
      Nat.le_mul_of_pos_left _ (Nat.pos_of_ne_zero hlength)
    rw [searchSteps, Nat.mul_assoc, List.length_singleton]
    omega
  obtain ⟨s, hsearch, hsearched⟩ := search_ok hinside hopens t.searchSteps hfirst hsteps
  have hvisited : ∀ a, a ∈ s.visited ↔ ReflTransGen t.Leads (t.root x) a := by
    intro a
    constructor
    · intro ha
      exact hsearched.come a (Or.inl ha)
    · intro hcomes
      induction hcomes with
      | refl => exact hsearched.root.resolve_right List.not_mem_nil
      | tail _ hleads ih => exact (hsearched.closed _ ih _ hleads).resolve_right List.not_mem_nil
  refine ⟨s.used.toList, ?_, Std.TreeSet.ordered_toList, ?_⟩
  · rw [allRules, if_neg hlength, hsearch]
    rfl
  · intro r
    rw [Std.TreeSet.mem_toList, hsearched.used]
    exact exists_congr fun a => and_congr_left fun _ => hvisited a

end GrammarInduction.Table
