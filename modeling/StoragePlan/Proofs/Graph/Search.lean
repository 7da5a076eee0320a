import Mathlib.Logic.Relation
import StoragePlan.Graph.Dependency

set_option autoImplicit false

namespace StoragePlan

section Insertion

variable {nodes : List Nat} {node : Nat}

/-- What is less stands in front of the place, what is greater from there on. -/
structure Gap (nodes : List Nat) (node place : Nat) : Prop where
  inside : place ≤ nodes.length
  below : ∀ other ∈ nodes.take place, other < node
  above : ∀ other ∈ nodes.drop place, node < other

theorem insertIdx_eq_append {place : Nat} (inside : place ≤ nodes.length) (node : Nat) :
    nodes.insertIdx place node = nodes.take place ++ node :: nodes.drop place := by
  induction nodes generalizing place with
  | nil =>
    obtain rfl := Nat.le_zero.mp inside
    rfl
  | cons head rest ih =>
    cases place with
    | zero => rfl
    | succ place => simp [ih (Nat.le_of_succ_le_succ inside)]

theorem bisect_spec (ascending : nodes.Pairwise (· < ·)) {low high : Nat} (ordered : low ≤ high)
    (inside : high ≤ nodes.length) (below : ∀ other ∈ nodes.take low, other < node)
    (above : ∀ other ∈ nodes.drop high, node < other) :
    match bisect nodes node low high with
    | .ok place => nodes[place]? = some node
    | .error place => Gap nodes node place := by
  fun_induction bisect nodes node low high with
  | case1 low high less middle outside =>
    have short := List.getElem?_eq_none_iff.mp outside
    omega
  | case2 low high less middle found => exact found
  | case3 low high less middle head here different smaller ih =>
    refine ih (by omega) inside ?_ above
    have split : nodes.take (middle + 1) = nodes.take middle ++ [head] := by
      rw [List.take_add_one, here]
      rfl
    have ascending' := ascending.take (i := middle + 1)
    rw [split] at ascending' ⊢
    intro other member
    rcases List.mem_append.mp member with before | last
    next => exact Nat.lt_trans ((List.pairwise_append.mp ascending').2.2 other before head (by simp)) smaller
    next => exact List.mem_singleton.mp last ▸ smaller
  | case4 low high less middle head here different notSmaller ih =>
    refine ih (by omega) (by omega) below ?_
    obtain ⟨length, same⟩ := List.getElem?_eq_some_iff.mp here
    have split : nodes.drop middle = head :: nodes.drop (middle + 1) := by
      rw [List.drop_eq_getElem_cons length, same]
    have ascending' := ascending.drop (i := middle)
    rw [split] at ascending' ⊢
    have larger : node < head := by omega
    intro other member
    rcases List.mem_cons.mp member with same | after
    next => exact same ▸ larger
    next => exact Nat.lt_trans larger ((List.pairwise_cons.mp ascending').1 other after)
  | case5 low high notLess =>
    obtain rfl : low = high := by omega
    exact ⟨inside, below, above⟩

theorem insertNode_cases (ascending : nodes.Pairwise (· < ·)) (node : Nat) :
    node ∈ nodes ∧ insertNode nodes node = nodes ∨
      ∃ place, Gap nodes node place ∧
        insertNode nodes node = nodes.take place ++ node :: nodes.drop place := by
  have found := bisect_spec ascending (Nat.zero_le nodes.length) (Nat.le_refl _) (by simp : ∀ other ∈ nodes.take 0, other < node)
    (by simp)
  cases known : bisect nodes node 0 nodes.length with
  | ok place =>
    rw [known] at found
    exact .inl ⟨List.mem_of_getElem? found, by rw [insertNode, known]⟩
  | error place =>
    rw [known] at found
    refine .inr ⟨place, found, ?_⟩
    rw [insertNode, known]
    exact insertIdx_eq_append found.inside node

theorem mem_insertNode (ascending : nodes.Pairwise (· < ·)) {other : Nat} :
    other ∈ insertNode nodes node ↔ other = node ∨ other ∈ nodes := by
  rcases insertNode_cases ascending node with ⟨known, same⟩ | ⟨place, -, same⟩
  next =>
    rw [same]
    exact ⟨.inr, fun either => either.elim (fun equal => equal ▸ known) id⟩
  next =>
    have parts : other ∈ nodes.take place ∨ other ∈ nodes.drop place ↔ other ∈ nodes := by
      rw [← List.mem_append, List.take_append_drop]
    rw [same, List.mem_append, List.mem_cons, ← parts]
    exact or_left_comm

theorem insertNode_ascending (ascending : nodes.Pairwise (· < ·)) (node : Nat) :
    (insertNode nodes node).Pairwise (· < ·) := by
  rcases insertNode_cases ascending node with ⟨-, same⟩ | ⟨place, gap, same⟩
  next => rwa [same]
  next =>
    rw [same, List.pairwise_append, List.pairwise_cons]
    refine ⟨ascending.take, ⟨gap.above, ascending.drop⟩, fun first before second after => ?_⟩
    rcases List.mem_cons.mp after with rfl | after
    next => exact gap.below first before
    next => exact Nat.lt_trans (gap.below first before) (gap.above second after)

end Insertion

namespace DependencyGraph

section Search

variable {succs : List (List Nat)} {target : Nat} {marks : List Bool} {stack : List Nat}

def Points (succs : List (List Nat)) (producer consumer : Nat) : Prop :=
  consumer ∈ (succs[producer]?).getD []

theorem mem_unmarked {node other : Nat} :
    other ∈ unmarked succs marks node ↔ Points succs node other ∧ marks[other]? ≠ some true := by
  simp [unmarked, Points]

theorem getElem?_set_mark {node other : Nat} (fresh : marks[node]? = some false) :
    (marks.set node true)[other]? = some true ↔ other = node ∨ marks[other]? = some true := by
  have inside : node < marks.length := (List.getElem?_eq_some_iff.mp fresh).1
  by_cases same : node = other
  next => simp [← same, inside]
  next => simp [List.getElem?_set_ne same, Ne.symm same]

theorem search_ok (rows : ∀ i j, Points succs i j → j < marks.length)
    (waiting : ∀ node ∈ stack, node < marks.length) :
    ∃ found, search succs target marks stack = .ok found := by
  fun_induction search succs target marks stack with
  | case1 marks => exact ⟨false, rfl⟩
  | case2 marks stack => exact ⟨true, rfl⟩
  | case3 marks node stack different outside =>
    exact absurd (waiting node List.mem_cons_self) (by simpa using outside)
  | case4 marks node stack different known ih => exact ih rows (List.forall_mem_cons.mp waiting).2
  | case5 marks node stack different fresh ih =>
    refine ih (by simpa using rows) fun other member => ?_
    rw [List.length_set]
    rcases List.mem_append.mp member with new | old
    next => exact rows node other (mem_unmarked.mp (List.mem_reverse.mp new)).1
    next => exact waiting other (List.mem_cons_of_mem _ old)

theorem path_of_search (found : search succs target marks stack = .ok true) :
    ∃ node ∈ stack, Relation.ReflTransGen (Points succs) node target := by
  fun_induction search succs target marks stack with
  | case1 marks => simp at found
  | case2 marks stack => exact ⟨target, List.mem_cons_self, .refl⟩
  | case3 marks node stack different outside => simp at found
  | case4 marks node stack different known ih =>
    obtain ⟨other, member, path⟩ := ih found
    exact ⟨other, List.mem_cons_of_mem _ member, path⟩
  | case5 marks node stack different fresh ih =>
    obtain ⟨other, member, path⟩ := ih found
    rcases List.mem_append.mp member with new | old
    next =>
      exact ⟨node, List.mem_cons_self, path.head (mem_unmarked.mp (List.mem_reverse.mp new)).1⟩
    next => exact ⟨other, List.mem_cons_of_mem _ old, path⟩

/-- The marked nodes have been expanded, and none of them is the target. -/
structure Searched (succs : List (List Nat)) (target : Nat) (marks : List Bool) (stack : List Nat) :
    Prop where
  covered : ∀ i j, marks[i]? = some true → Points succs i j → marks[j]? = some true ∨ j ∈ stack
  missed : marks[target]? ≠ some true

theorem Searched.skip {node : Nat} (searched : Searched succs target marks (node :: stack))
    (known : marks[node]? = some true) : Searched succs target marks stack where
  covered i j marked points := by
    rcases searched.covered i j marked points with done | waits
    next => exact .inl done
    next =>
      rcases List.mem_cons.mp waits with rfl | waits
      next => exact .inl known
      next => exact .inr waits
  missed := searched.missed

theorem Searched.expand {node : Nat} (searched : Searched succs target marks (node :: stack))
    (fresh : marks[node]? = some false) (different : node ≠ target) :
    Searched succs target (marks.set node true)
      ((unmarked succs (marks.set node true) node).reverse ++ stack) where
  covered i j marked points := by
    by_cases done : (marks.set node true)[j]? = some true
    next => exact .inl done
    next =>
      refine .inr (List.mem_append.mpr ?_)
      rcases (getElem?_set_mark fresh).mp marked with rfl | marked
      next => exact .inl (List.mem_reverse.mpr (mem_unmarked.mpr ⟨points, done⟩))
      next =>
        obtain ⟨other, unmarked⟩ := not_or.mp (mt (getElem?_set_mark fresh).mpr done)
        rcases List.mem_cons.mp ((searched.covered i j marked points).resolve_left unmarked) with same | waits
        next => exact absurd same other
        next => exact .inr waits
  missed marked := ((getElem?_set_mark fresh).mp marked).elim (fun same => different same.symm) searched.missed

-- The marks at the end are closed under edges, so no path leads from them to the target.
theorem no_path_of_search (searched : Searched succs target marks stack)
    (missed : search succs target marks stack = .ok false) (node : Nat)
    (seen : marks[node]? = some true ∨ node ∈ stack) :
    ¬ Relation.ReflTransGen (Points succs) node target := by
  fun_induction search succs target marks stack with
  | case1 marks =>
    intro path
    have closed {i : Nat} (marked : marks[i]? = some true) (path : Relation.ReflTransGen (Points succs) i target) :
        marks[target]? = some true := by
      induction path using Relation.ReflTransGen.head_induction_on with
      | refl => exact marked
      | head edge _ ih => exact ih ((searched.covered _ _ marked edge).resolve_right (by simp))
    exact searched.missed (closed (seen.resolve_right (by simp)) path)
  | case2 marks stack => simp at missed
  | case3 marks node stack different outside => simp at missed
  | case4 marks top stack different known ih =>
    refine ih (searched.skip known) missed ?_
    rcases seen with marked | member
    next => exact .inl marked
    next =>
      rcases List.mem_cons.mp member with rfl | waits
      next => exact .inl known
      next => exact .inr waits
  | case5 marks top stack different fresh ih =>
    refine ih (searched.expand fresh different) missed ?_
    rcases seen with marked | member
    next => exact .inl ((getElem?_set_mark fresh).mpr (.inr marked))
    next =>
      rcases List.mem_cons.mp member with same | waits
      next => exact .inl ((getElem?_set_mark fresh).mpr (.inl same))
      next => exact .inr (List.mem_append_right _ waits)

end Search

-- The search ends with an answer, and it is the right one.
theorem reaches_spec {g : DependencyGraph} (rows : ∀ i j, Points g.succs i j → j < g.size)
    {start : Nat} (inside : start < g.size) (target : Nat) :
    ∃ found, g.reaches start target = .ok found ∧
      (found = true ↔ Relation.ReflTransGen (Points g.succs) start target) := by
  let marks := List.replicate g.size false
  have length : marks.length = g.size := List.length_replicate
  have ⟨found, ended⟩ : ∃ found, search g.succs target marks [start] = .ok found :=
    search_ok (by simpa only [length] using rows) (by simpa [length] using inside)
  refine ⟨found, ended, ?_⟩
  have unmarked (i : Nat) : marks[i]? ≠ some true := by simp [marks, List.getElem?_replicate]
  cases found with
  | true => simpa using path_of_search ended
  | false =>
    have searched : Searched g.succs target marks [start] :=
      ⟨fun i j marked => absurd marked (unmarked i), unmarked target⟩
    simpa using no_path_of_search searched ended start (.inr (by simp))

end DependencyGraph

end StoragePlan
