import StoragePlan.Proofs.Graph.Dependency
import StoragePlan.Proofs.Order.Linear
import StoragePlan.Proofs.Order.Reorder

set_option autoImplicit false

namespace StoragePlan

namespace Graph

def placesOf (size : Nat) (front : List Nat) : List (Option Nat) :=
  (List.range size).map fun node => if node ∈ front then some (front.idxOf node) else none

section Places

variable {size : Nat} {front order : List Nat} {node other : Nat}

theorem placesOf_nil (size : Nat) : placesOf size [] = List.replicate size none := by
  simp [placesOf, List.map_const']

theorem getElem?_placesOf (inside : node < size) :
    (placesOf size front)[node]? = some (if node ∈ front then some (front.idxOf node) else none) := by
  simp [placesOf, inside]

theorem free_placesOf_iff :
    (placesOf size front)[node]? = some none ↔ node < size ∧ node ∉ front := by
  by_cases inside : node < size
  next => by_cases placed : node ∈ front <;> simp [getElem?_placesOf, inside, placed]
  next => simp [placesOf, inside]

theorem placesOf_concat (fresh : node ∉ front) :
    (placesOf size front).set node (some front.length) = placesOf size (front ++ [node]) := by
  apply List.ext_getElem
  next => simp [placesOf]
  next =>
    intro other inside inside'
    by_cases same : node = other
    next =>
      subst same
      simp [placesOf, fresh, List.idxOf_append]
    next =>
      by_cases placed : other ∈ front <;>
        simp [placesOf, same, Ne.symm same, placed, List.idxOf_append]

theorem placeNodes_iff (distinct : DistinctBelow size front) (rest : List Nat)
    {places : List (Option Nat)} :
    placeNodes (placesOf size front) (rest.zipIdx front.length) = some places ↔
      DistinctBelow size (front ++ rest) ∧ placesOf size (front ++ rest) = places := by
  -- The places are those of the front that has been gone through, and a node is free if it is not in it.
  induction rest generalizing front with
  | nil => simp [placeNodes, distinct]
  | cons node rest ih =>
    rw [List.zipIdx_cons, placeNodes]
    by_cases free : node < size ∧ node ∉ front
    next =>
      have further := ih (distinctBelow_concat.mpr ⟨distinct, free⟩)
      simpa [free_placesOf_iff.mpr free, placesOf_concat free.2] using further
    next =>
      have stopped : ¬ DistinctBelow size (front ++ node :: rest) := fun all =>
        free (distinctBelow_concat.mp (all.of_prefix ⟨rest, by simp⟩)).2
      split
      next available => exact absurd (free_placesOf_iff.mp available) free
      next => simp [stopped]

theorem standsBefore_placesOf (perm : order.Perm (List.range size)) (inside : node < size)
    (inside' : other < size) :
    standsBefore (placesOf size order) node other = true ↔ order.idxOf node < order.idxOf other := by
  have first : node ∈ order := perm.mem_iff.mpr (List.mem_range.mpr inside)
  have second : other ∈ order := perm.mem_iff.mpr (List.mem_range.mpr inside')
  simp [standsBefore, getElem?_placesOf, inside, inside', first, second]

end Places

section Line

variable {g : Graph} {order : List Nat} (built : g.Built)

include built

theorem standsBefore_edges_iff (perm : order.Perm g.nodes) :
    (∀ edge ∈ g.edges, standsBefore (placesOf g.size order) edge.producer edge.consumer = true) ↔
      ∀ producer consumer, g.hasEdge producer consumer = true →
        order.idxOf producer < order.idxOf consumer := by
  simp only [hasEdge_iff]
  constructor
  next =>
    intro all producer consumer leads
    obtain ⟨edge, member, rfl, rfl⟩ := leads_iff_edge.mp leads
    exact (standsBefore_placesOf perm leads.inside (built.valid leads)).mp (all edge member)
  next =>
    intro forward edge member
    have leads := leads_iff_edge.mpr ⟨edge, member, rfl, rfl⟩
    exact (standsBefore_placesOf perm leads.inside (built.valid leads)).mpr (forward _ _ leads)

theorem isTopologicalOrder_iff : g.isTopologicalOrder order = true ↔ g.Linear order := by
  have pass (places : List (Option Nat)) :
      placeNodes (List.replicate g.size none) order.zipIdx = some places ↔
        DistinctBelow g.size order ∧ placesOf g.size order = places := by
    simpa [placesOf_nil] using placeNodes_iff (distinctBelow_nil g.size) order
  simp only [isTopologicalOrder, Bool.and_eq_true, decide_eq_true_eq]
  constructor
  next =>
    rintro ⟨length, passed⟩
    split at passed
    next => simp at passed
    next places found =>
      obtain ⟨distinct, rfl⟩ := (pass places).mp found
      have perm : order.Perm g.nodes := perm_range_iff.mpr ⟨length, distinct⟩
      exact ⟨perm, (standsBefore_edges_iff built perm).mp (List.all_eq_true.mp passed)⟩
  next =>
    intro linear
    have ⟨length, distinct⟩ := perm_range_iff.mp linear.perm
    rw [(pass _).mpr ⟨distinct, rfl⟩]
    exact ⟨length, List.all_eq_true.mpr ((standsBefore_edges_iff built linear.perm).mpr linear.forward)⟩

end Line

end Graph

theorem order_checks_outcome :
    (∀ g : Graph, g.Built → ∀ order, g.isTopologicalOrder order = true ↔ g.Linear order) ∧
    ∀ (ops : List Op) (order : List Nat),
      ((∃ ops', reorderOps ops order = .ok ops') ↔ order.Perm (List.range ops.length)) ∧
      (∀ ops', reorderOps ops order = .ok ops' → ops'.length = ops.length ∧
        ∀ position number : Nat, order[position]? = some number → ops'[position]? = ops[number]?) ∧
      (order.length ≠ ops.length →
        reorderOps ops order = .error (.shapeMismatch .opOrder ops.length order.length)) ∧
      (order.length = ops.length → ¬ order.Perm (List.range ops.length) →
        ∃ front, LongestFront ops.length order front ∧ reorderOps ops order =
          .error (.shapeMismatch .distinctOpIndices ops.length front.length)) := by
  refine ⟨fun g built order => Graph.isTopologicalOrder_iff built, fun ops order => ?_⟩
  refine ⟨reorderOps_isOk_iff, fun ops' brought => ?_, reorderOps_of_length_ne, reorderOps_of_clash⟩
  obtain ⟨length, -, each⟩ := schedule_of_reorderOps brought
  have perm := reorderOps_isOk_iff.mp ⟨ops', brought⟩
  constructor
  next => simpa [length] using perm.length_eq
  next =>
    intro position number here
    simp [each, here]

-- The last operation hands over to the other two. The first order that is refused names it twice.
theorem order_checks_outcome_fork :
    let ops : List Op := [⟨"Relu", ["a"], [], []⟩, ⟨"Tanh", ["a"], [], []⟩, ⟨"Fill", [], ["a"], []⟩]
    (∃ g, Graph.ofOps ops = .ok g ∧ g.Built ∧ g.Linear [2, 1, 0] ∧ ¬ g.Linear [1, 2, 0]) ∧
      (∃ ops', reorderOps ops [2, 1, 0] = .ok ops' ∧ ops'[0]? = ops[2]?) ∧
      LongestFront ops.length [2, 0, 2] [2, 0] ∧
      reorderOps ops [2, 0] = .error (.shapeMismatch .opOrder 3 2) := by
  intro ops
  obtain ⟨lines, placed⟩ := order_checks_outcome
  refine ⟨?_, ?_, ?_, (placed ops [2, 0]).2.2.1 (by decide)⟩
  next =>
    obtain ⟨g, planned, checked⟩ : ∃ g, Graph.ofOps ops = .ok g ∧
        (g.isTopologicalOrder [2, 1, 0], g.isTopologicalOrder [1, 2, 0]) = (true, false) :=
      exists_ok_of_view (by decide +kernel)
    have built := Graph.built_ofOps planned
    obtain ⟨passes, fails⟩ := Prod.mk.inj checked
    refine ⟨g, planned, built, (lines g built _).mp passes, fun linear => ?_⟩
    simp [(lines g built _).mpr linear] at fails
  next =>
    have perm : [2, 1, 0].Perm (List.range ops.length) := by decide
    obtain ⟨ops', brought⟩ := (placed ops [2, 1, 0]).1.mpr perm
    exact ⟨ops', brought, ((placed ops [2, 1, 0]).2.1 ops' brought).2 0 2 rfl⟩
  next =>
    have clash : ¬ [2, 0, 2].Perm (List.range ops.length) := by decide
    obtain ⟨front, longest, stopped⟩ := (placed ops [2, 0, 2]).2.2.2 rfl clash
    have evaluated : reorderOps ops [2, 0, 2] = .error (.shapeMismatch .distinctOpIndices 3 2) := rfl
    have ⟨_, two⟩ : 3 = ops.length ∧ front.length = 2 := by simpa [evaluated, eq_comm] using stopped
    obtain rfl : front = [2, 0] := by simpa [two] using List.prefix_iff_eq_take.mp longest.part
    exact longest

end StoragePlan
