import StoragePlan.Proofs.Graph.Cycles
import StoragePlan.Proofs.Graph.Search

set_option autoImplicit false

namespace StoragePlan

namespace Graph

theorem ext_label {g g' : Graph} (size : g.size = g'.size)
    (labels : ∀ i j, g.label? i j = g'.label? i j) : g = g' := by
  have rows : g.rows = g'.rows := by
    refine List.ext_getElem size fun i inside inside' => Table.ext_get? fun j => ?_
    simpa [label?, row, inside, inside'] using labels i j
  cases g
  cases g'
  cases rows
  rfl

def setLabels (g : Graph) (entries : List (Arc × Names)) : Graph :=
  entries.foldl (fun graph entry => graph.setLabel entry.1.producer entry.1.consumer entry.2) g

@[simp] theorem size_setLabels (g : Graph) (entries : List (Arc × Names)) :
    (g.setLabels entries).size = g.size := by
  induction entries generalizing g with
  | nil => rfl
  | cons entry rest ih => exact (ih _).trans (size_setLabel ..)

theorem label?_setLabels {g : Graph} {entries : List (Arc × Names)}
    (inside : ∀ entry ∈ entries, entry.1.producer < g.size) (i j : Nat) :
    (g.setLabels entries).label? i j = (entries.reverse.lookup ⟨i, j⟩).or (g.label? i j) := by
  induction entries generalizing g with
  | nil => rfl
  | cons entry rest ih =>
    obtain ⟨⟨producer, consumer⟩, blobs⟩ := entry
    have ⟨here, later⟩ := List.forall_mem_cons.mp inside
    have rest' := ih (g := g.setLabel producer consumer blobs) (by simpa using later)
    rw [setLabels, List.foldl_cons, ← setLabels, rest', label?_setLabel blobs here, List.reverse_cons,
      List.lookup_append, List.lookup_cons, List.lookup_nil]
    by_cases same : i = producer ∧ j = consumer
    next => simp [same]
    next =>
      have other : (Arc.mk i j == ⟨producer, consumer⟩) = false := by simpa using same
      simp [same, other]

end Graph

namespace DependencyGraph

/-- The lists of neighbours hold what the edges say, and nothing leads out of the graph. -/
structure Mirrored (g : DependencyGraph) : Prop where
  length : g.preds.length = g.size
  inside : ∀ i j, g.hasEdge i j = true → i < g.size ∧ j < g.size
  ascending : ∀ i, (g.successors i).Pairwise (· < ·)
  ascending' : ∀ j, (g.predecessors j).Pairwise (· < ·)
  successors : ∀ i j, j ∈ g.successors i ↔ g.hasEdge i j = true
  predecessors : ∀ i j, i ∈ g.predecessors j ↔ g.hasEdge i j = true

@[simp] theorem label?_putLabel (g : DependencyGraph) (producer consumer : Nat) (blobs : Names)
    (succs preds : List (List Nat)) (i j : Nat) :
    label? ⟨succs, preds, g.edges.put ⟨producer, consumer⟩ blobs⟩ i j =
      if i = producer ∧ j = consumer then some blobs else g.label? i j := by
  rw [label?, Table.get?_put, label?]
  simp [eq_comm]

theorem mirrored_withNodes (size : Nat) : (withNodes size).Mirrored := by
  have row (i : Nat) : ((List.replicate size ([] : List Nat))[i]?).getD [] = [] := by
    rw [List.getElem?_replicate]
    split <;> rfl
  have successors (i : Nat) : (withNodes size).successors i = [] := row i
  have predecessors (i : Nat) : (withNodes size).predecessors i = [] := row i
  have no (i j : Nat) : (withNodes size).hasEdge i j = false := rfl
  constructor
  case length => rfl
  case inside => simp [no]
  case ascending => simp [successors]
  case ascending' => simp [predecessors]
  case successors => simp [successors, no]
  case predecessors => simp [predecessors, no]

theorem eq_of_ascending {nodes nodes' : List Nat} (ascending : nodes.Pairwise (· < ·))
    (ascending' : nodes'.Pairwise (· < ·)) (same : ∀ node, node ∈ nodes ↔ node ∈ nodes') : nodes = nodes' := by
  have : Std.Irrefl fun a b : Nat => a < b := ⟨Nat.lt_irrefl⟩
  exact ascending.eq_of_mem_iff ascending' same

section View

variable {g : DependencyGraph}

@[simp] theorem size_view (g : DependencyGraph) : g.view.size = g.size := by
  rw [view, ← Graph.setLabels, Graph.size_setLabels, Graph.empty, Graph.size, List.length_replicate]

variable (mirrored : g.Mirrored)

include mirrored

theorem label?_view (i j : Nat) : g.view.label? i j = g.label? i j := by
  have inside : ∀ entry ∈ g.edges.entries, entry.1.producer < (Graph.empty g.size).size := by
    intro entry member
    have known : g.edges.get? entry.1 = some entry.2 := Table.get?_eq_some_iff.mpr member
    have edge := (mirrored.inside entry.1.producer entry.1.consumer (by simp [hasEdge, label?, known])).1
    simpa [Graph.empty, Graph.size] using edge
  have unlabelled : (Graph.empty g.size).label? i j = none := by
    have no := Graph.not_leads_empty g.size i j
    rwa [Graph.leads_iff_label, ← Option.isSome_iff_exists, Option.not_isSome_iff_eq_none] at no
  have looked := Table.get?_putAll .empty g.edges.entries ⟨i, j⟩
  rw [← Table.ofList, Table.ofList_entries] at looked
  rw [view, ← Graph.setLabels, Graph.label?_setLabels inside, unlabelled, label?, looked]
  rfl

theorem leads_view {i j : Nat} : g.view.Leads i j ↔ g.hasEdge i j = true := by
  rw [← Graph.hasEdge_iff, Graph.hasEdge, label?_view mirrored, hasEdge]

theorem points_iff {i j : Nat} : Points g.succs i j ↔ g.view.Leads i j :=
  (mirrored.successors i j).trans (leads_view mirrored).symm

theorem successors_view (i : Nat) : g.view.successors i = g.successors i :=
  eq_of_ascending (g.view.successors_ascending i) (mirrored.ascending i) fun j =>
    (leads_view mirrored).trans (mirrored.successors i j).symm

theorem predecessors_view (j : Nat) : g.view.predecessors j = g.predecessors j :=
  eq_of_ascending (g.view.predecessors_ascending j) (mirrored.ascending' j) fun i =>
    (Graph.mem_predecessors.trans (leads_view mirrored)).trans (mirrored.predecessors i j).symm

theorem sources_view : g.view.sources = g.sources := by
  simp only [Graph.sources, Graph.nodes, sources, size_view, predecessors_view mirrored]

theorem sinks_view : g.view.sinks = g.sinks := by
  simp only [Graph.sinks, Graph.nodes, sinks, size_view, successors_view mirrored]

theorem view_setLabel {g' : DependencyGraph} (mirrored' : g'.Mirrored) (size : g'.size = g.size)
    {producer consumer : Nat} {blobs : Names} (inside : producer < g.size)
    (labels : ∀ i j, g'.label? i j = if i = producer ∧ j = consumer then some blobs else g.label? i j) :
    g.view.setLabel producer consumer blobs = g'.view := by
  refine Graph.ext_label (by simp [size]) fun i j => ?_
  rw [Graph.label?_setLabel blobs (by simpa using inside), label?_view mirrored, label?_view mirrored', labels]

end View

section Insertion

variable {g : DependencyGraph} (mirrored : g.Mirrored) {producer consumer : Nat} {blobs : Names}

def withEdge (g : DependencyGraph) (producer consumer : Nat) (blobs : Names) : DependencyGraph where
  succs := g.succs.set producer (insertNode (g.successors producer) consumer)
  preds := g.preds.set consumer (insertNode (g.predecessors consumer) producer)
  edges := g.edges.put ⟨producer, consumer⟩ blobs

@[simp] theorem size_withEdge : (g.withEdge producer consumer blobs).size = g.size := List.length_set

theorem getD_set_row {rows : List (List Nat)} {node : Nat} (inside : node < rows.length) (row : List Nat)
    (other : Nat) :
    ((rows.set node row)[other]?).getD [] = if other = node then row else (rows[other]?).getD [] := by
  by_cases same : node = other
  next => simp [← same, inside]
  next => simp [List.getElem?_set_ne same, Ne.symm same]

theorem label?_withEdge (i j : Nat) : (g.withEdge producer consumer blobs).label? i j =
    if i = producer ∧ j = consumer then some blobs else g.label? i j :=
  label?_putLabel ..

theorem hasEdge_withEdge {i j : Nat} : (g.withEdge producer consumer blobs).hasEdge i j = true ↔
    i = producer ∧ j = consumer ∨ g.hasEdge i j = true := by
  rw [hasEdge, label?_withEdge]
  split
  next same => simp [same]
  next other => simp [other, hasEdge]

include mirrored

theorem Mirrored.putLabel (known : g.hasEdge producer consumer = true) (blobs : Names) :
    Mirrored ⟨g.succs, g.preds, g.edges.put ⟨producer, consumer⟩ blobs⟩ := by
  have same (i j : Nat) : hasEdge ⟨g.succs, g.preds, g.edges.put ⟨producer, consumer⟩ blobs⟩ i j =
      g.hasEdge i j := by
    rw [hasEdge, label?_putLabel, hasEdge]
    split
    next here => simpa [here.1, here.2, hasEdge] using known.symm
    next => rfl
  constructor
  case length => exact mirrored.length
  case inside => exact fun i j edge => mirrored.inside i j (same i j ▸ edge)
  case ascending => exact mirrored.ascending
  case ascending' => exact mirrored.ascending'
  case successors => exact fun i j => same i j ▸ mirrored.successors i j
  case predecessors => exact fun i j => same i j ▸ mirrored.predecessors i j

variable (first : producer < g.size) (second : consumer < g.size)

include first second

theorem Mirrored.withEdge (blobs : Names) : (g.withEdge producer consumer blobs).Mirrored := by
  have successors (i : Nat) : (g.withEdge producer consumer blobs).successors i =
      if i = producer then insertNode (g.successors producer) consumer else g.successors i :=
    getD_set_row first _ i
  have predecessors (j : Nat) : (g.withEdge producer consumer blobs).predecessors j =
      if j = consumer then insertNode (g.predecessors consumer) producer else g.predecessors j :=
    getD_set_row (mirrored.length ▸ second) _ j
  constructor
  case length => exact List.length_set.trans (mirrored.length.trans List.length_set.symm)
  case inside =>
    intro i j edge
    rw [size_withEdge]
    rcases hasEdge_withEdge.mp edge with ⟨rfl, rfl⟩ | old
    next => exact ⟨first, second⟩
    next => exact mirrored.inside i j old
  case ascending =>
    intro i
    rw [successors]
    split
    next => exact insertNode_ascending (mirrored.ascending producer) consumer
    next => exact mirrored.ascending i
  case ascending' =>
    intro j
    rw [predecessors]
    split
    next => exact insertNode_ascending (mirrored.ascending' consumer) producer
    next => exact mirrored.ascending' j
  case successors =>
    intro i j
    rw [successors, hasEdge_withEdge]
    split
    next same =>
      rw [mem_insertNode (mirrored.ascending producer), mirrored.successors, same]
      simp
    next other => simp [other, mirrored.successors]
  case predecessors =>
    intro i j
    rw [predecessors, hasEdge_withEdge]
    split
    next same =>
      rw [mem_insertNode (mirrored.ascending' consumer), mirrored.predecessors, same]
      simp
    next other => simp [other, mirrored.predecessors]

theorem addEdge_of_unreached (new : g.label? producer consumer = none) (different : producer ≠ consumer)
    (unreached : g.reaches consumer producer = .ok false) :
    g.addEdge producer consumer blobs = .ok () (g.withEdge producer consumer blobs) := by
  have succs : addTo g.succs producer consumer =
      .ok (g.succs.set producer (insertNode (g.successors producer) consumer)) := by
    simp only [addTo, DependencyGraph.successors, List.getElem?_eq_getElem (show producer < g.succs.length from first),
      Option.getD_some]
  have preds : addTo g.preds consumer producer =
      .ok (g.preds.set consumer (insertNode (g.predecessors consumer) producer)) := by
    have inside : consumer < g.preds.length := mirrored.length ▸ second
    simp only [addTo, DependencyGraph.predecessors, List.getElem?_eq_getElem inside, Option.getD_some]
  simp only [addEdge, new, different, if_false, unreached, insertEdge, succs, preds]
  rfl

end Insertion

-- Adding an edge does to the rows of the view what it does to the three parts, and a refusal, by a cycle or
-- by a node that there is not, comes before the first of them is touched.
theorem addEdge_refines {g : DependencyGraph} (mirrored : g.Mirrored) (producer consumer : Nat)
    (blobs : Names) :
    match g.addEdge producer consumer blobs with
    | .ok () g' => g'.Mirrored ∧ g.view.addEdge producer consumer blobs = .ok g'.view
    | .error error g' => g' = g ∧ g.view.addEdge producer consumer blobs = .error error := by
  cases known : g.label? producer consumer with
  | some label =>
    have edge : g.hasEdge producer consumer = true := by simp [hasEdge, known]
    have mirrored' := mirrored.putLabel edge (label.union blobs)
    have present := (label?_view mirrored producer consumer).trans known
    simp only [addEdge, known]
    refine ⟨mirrored', ?_⟩
    have labels := label?_putLabel g producer consumer (label.union blobs) g.succs g.preds
    rw [Graph.addEdge_known blobs present,
      view_setLabel mirrored mirrored' rfl (mirrored.inside producer consumer edge).1 labels]
  | none =>
    have absent : g.view.label? producer consumer = none :=
      (label?_view mirrored producer consumer).trans known
    by_cases same : producer = consumer
    next =>
      subst same
      simp [addEdge, known, Graph.addEdge, absent]
    next =>
      by_cases second : consumer < g.size
      next =>
        have rows (i j : Nat) (points : Points g.succs i j) : j < g.size :=
          (mirrored.inside i j ((mirrored.successors i j).mp points)).2
        have leads : Points g.succs = g.view.Leads := funext₂ fun i j => propext (points_iff mirrored)
        obtain ⟨found, ended, path⟩ := reaches_spec rows second producer
        by_cases first : producer < g.size
        next =>
          have reached : g.view.reaches consumer producer = found := by
            rw [Bool.eq_iff_iff, path, leads]
            exact Graph.reaches_iff (fun i j edge => by simpa using rows i j (leads ▸ edge)) (by simpa using second)
          cases found with
          | true =>
            simp [addEdge, known, same, ended, Graph.addEdge, absent, reached, Nat.not_le_of_lt first,
              Nat.not_le_of_lt second]
          | false =>
            have mirrored' := mirrored.withEdge first second blobs
            rw [addEdge_of_unreached mirrored first second known same ended]
            refine ⟨mirrored', ?_⟩
            rw [← view_setLabel mirrored mirrored' size_withEdge first label?_withEdge]
            simp [Graph.addEdge, same, absent, reached, Nat.not_le_of_lt first, Nat.not_le_of_lt second]
        next =>
          -- Nothing leads to a node that there is not.
          obtain rfl : found = false := by
            rw [← Bool.not_eq_true, path]
            intro way
            rcases Relation.ReflTransGen.cases_tail way with equal | ⟨middle, -, edge⟩
            next => exact same equal
            next => exact first (mirrored.inside _ _ ((mirrored.successors _ _).mp edge)).2
          have row : g.succs[producer]? = none := List.getElem?_eq_none (Nat.le_of_not_lt first)
          simp [addEdge, known, same, ended, insertEdge, addTo, row, Graph.addEdge,
            absent, Nat.le_of_not_lt first, Nat.not_le_of_lt second]
      next =>
        have outside : g.reaches consumer producer = .error (.noSuchNode consumer) := by
          have unmarked : (List.replicate g.size false)[consumer]? = none := by simp [second]
          rw [reaches, search, if_neg (Ne.symm same)]
          split
          next => rfl
          next marked => simp [unmarked] at marked
          next marked => simp [unmarked] at marked
        simp [addEdge, known, same, Graph.addEdge, absent, outside, Nat.le_of_not_lt second]

end DependencyGraph

end StoragePlan
