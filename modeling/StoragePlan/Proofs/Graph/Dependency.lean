import StoragePlan.Proofs.Graph.Labels
import StoragePlan.Proofs.Graph.Session

set_option autoImplicit false

namespace StoragePlan

def FeedsInto (ops : List Op) (i j : Nat) : Prop :=
  i ≠ j ∧ ∃ blob, WrittenAt ops blob i ∧ ReadAt ops blob j

def FeedsUpTo (ops : List Op) (last : Nat × Nat) (i j : Nat) : Prop :=
  FeedsInto ops i j ∧ toLex (i, j) ≤ toLex last

section Operations

variable {ops : List Op}

theorem mem_handedOver_at {edge : Edge} (dependency : edge ∈ dependencies ops) {blob : String} :
    blob ∈ edge.blobs.toList ↔ WrittenAt ops blob edge.producer ∧ ReadAt ops blob edge.consumer := by
  obtain ⟨-, producer, consumer, first, second, blobs, -⟩ := mem_dependencies.mp dependency
  simp [blobs, mem_handedOver, WrittenAt, ReadAt, first, second]

theorem linked_dependencies {i j : Nat} : Linked (dependencies ops) i j ↔ FeedsInto ops i j := by
  constructor
  next =>
    rintro ⟨edge, dependency, rfl, rfl⟩
    obtain ⟨different, -, -, -, -, -, something⟩ := mem_dependencies.mp dependency
    obtain ⟨blob, inside⟩ := List.exists_mem_of_ne_nil _ something
    exact ⟨different, blob, (mem_handedOver_at dependency).mp inside⟩
  next =>
    rintro ⟨different, blob, ⟨producer, first, output⟩, consumer, second, input⟩
    have inside := mem_handedOver.mpr ⟨output, input⟩
    exact ⟨⟨i, j, handedOver producer consumer⟩, mem_dependencies.mpr
      ⟨different, producer, consumer, first, second, rfl, List.ne_nil_of_mem inside⟩, rfl, rfl⟩

theorem dependency_inside {edge : Edge} (dependency : edge ∈ dependencies ops) :
    edge.producer < ops.length ∧ edge.consumer < ops.length := by
  obtain ⟨-, producer, consumer, first, second, -⟩ := mem_dependencies.mp dependency
  exact ⟨(List.getElem?_eq_some_iff.mp first).1, (List.getElem?_eq_some_iff.mp second).1⟩

theorem label_of_dependencies {g : Graph} (sound : Graph.Session.Sound ⟨g, dependencies ops⟩ ops.length)
    {i j : Nat} {label : Names} (known : g.label? i j = some label) {blob : String} :
    blob ∈ label.toList ↔ WrittenAt ops blob i ∧ ReadAt ops blob j := by
  rw [sound.labels i j label known]
  constructor
  next =>
    rintro ⟨edge, dependency, rfl, rfl, inside⟩
    exact (mem_handedOver_at dependency).mp inside
  next =>
    intro handed
    obtain ⟨edge, dependency, rfl, rfl⟩ :=
      (sound.leads i j).mp (Graph.leads_iff_label.mpr ⟨label, known⟩)
    exact ⟨edge, dependency, rfl, rfl, (mem_handedOver_at dependency).mpr handed⟩

variable {front back : List Edge} {edge : Edge} (split : dependencies ops = front ++ edge :: back)

include split

-- The list is ascending, so what stands in front of an edge is what is less than it.
theorem mem_front_iff {other : Edge} :
    other ∈ front ↔ other ∈ dependencies ops ∧ other.place < edge.place := by
  have ascending := dependencies_ascending ops
  rw [split] at ascending ⊢
  obtain ⟨-, later, cross⟩ := List.pairwise_append.mp ascending
  refine ⟨fun inside => ⟨by simp [inside], cross other inside edge List.mem_cons_self⟩, ?_⟩
  rintro ⟨inside, less⟩
  rcases List.mem_append.mp inside with inside | inside
  next => exact inside
  next =>
    rcases List.mem_cons.mp inside with same | after
    next => exact absurd less (same ▸ lt_irrefl _)
    next => exact absurd less (lt_asymm ((List.pairwise_cons.mp later).1 other after))

theorem linked_front {i j : Nat} :
    Linked front i j ↔ FeedsInto ops i j ∧ toLex (i, j) < edge.place := by
  rw [← linked_dependencies]
  constructor
  next =>
    rintro ⟨other, inside, rfl, rfl⟩
    have ⟨dependency, less⟩ := (mem_front_iff split).mp inside
    exact ⟨⟨other, dependency, rfl, rfl⟩, less⟩
  next =>
    rintro ⟨⟨other, dependency, rfl, rfl⟩, less⟩
    exact ⟨other, (mem_front_iff split).mpr ⟨dependency, less⟩, rfl, rfl⟩

theorem linked_up_to {i j : Nat} :
    Linked (front ++ [edge]) i j ↔ FeedsUpTo ops (edge.producer, edge.consumer) i j := by
  have here : FeedsInto ops edge.producer edge.consumer :=
    linked_dependencies.mp ⟨edge, by simp [split], rfl, rfl⟩
  rw [linked_concat, linked_front split, FeedsUpTo, le_iff_lt_or_eq, and_or_left]
  refine or_congr Iff.rfl ⟨?_, ?_⟩
  next =>
    rintro ⟨rfl, rfl⟩
    exact ⟨here, rfl⟩
  next => exact fun ⟨_, same⟩ => Prod.mk.inj (toLex.injective same)

-- An earlier dependency would have closed its cycle before.
theorem place_le_of_cyclic (acyclic : ¬ Cyclic (Linked front)) {i j : Nat}
    (cyclic : Cyclic (FeedsUpTo ops (i, j))) : edge.place ≤ toLex (i, j) := by
  by_contra less
  refine acyclic (cyclic.mono fun a b ⟨feeds, below⟩ => ?_)
  exact (linked_front split).mpr ⟨feeds, lt_of_le_of_lt below (not_le.mp less)⟩

end Operations

theorem ofOps_cases (ops : List Op) :
    (∃ g, Graph.ofOps ops = .ok g ∧ Graph.Session.Sound ⟨g, dependencies ops⟩ ops.length ∧
      ¬ Cyclic (FeedsInto ops)) ∨
    ∃ front edge back, dependencies ops = front ++ edge :: back ∧
      Graph.ofOps ops = .error (.closesCycle edge.producer edge.consumer edge.blobs) ∧
      ¬ Cyclic (Linked front) ∧ Cyclic (FeedsUpTo ops (edge.producer, edge.consumer)) := by
  have same : Linked (dependencies ops) = FeedsInto ops :=
    funext₂ fun i j => propext linked_dependencies
  rw [Graph.ofOps_eq]
  rcases (Graph.Session.start_sound ops.length).addEdges fun edge => dependency_inside with
    ⟨g, built, sound⟩ | ⟨front, edge, back, split, refused, acyclic, cyclic⟩
  next => exact .inl ⟨g, built, sound, same ▸ sound.acyclic⟩
  next =>
    exact .inr ⟨front, edge, back, split, refused, acyclic, cyclic.mono fun i j => (linked_up_to split).mp⟩

/-- One node for each operation, one edge for each pair that feeds, with all blobs handed over. -/
structure DependencyGraph.IsGraphOf (g : DependencyGraph) (ops : List Op) : Prop where
  nodes : g.succs.length = ops.length ∧ g.preds.length = ops.length
  edges : ∀ i j, g.hasEdge i j = true ↔ FeedsInto ops i j
  successors : ∀ i, (g.successors i).Pairwise (· < ·) ∧ ∀ j, j ∈ g.successors i ↔ FeedsInto ops i j
  predecessors : ∀ j, (g.predecessors j).Pairwise (· < ·) ∧ ∀ i, i ∈ g.predecessors j ↔ FeedsInto ops i j
  labels : ∀ i j label, g.label? i j = some label →
    ∀ blob, blob ∈ label.toList ↔ WrittenAt ops blob i ∧ ReadAt ops blob j

/-- The least of the pairs that close a cycle with those before them, with all blobs handed over. -/
structure ClosesFirst (ops : List Op) (i j : Nat) (blobs : Names) : Prop where
  feeds : FeedsInto ops i j
  closes : Cyclic (FeedsUpTo ops (i, j))
  least : ∀ i' j', FeedsInto ops i' j' → Cyclic (FeedsUpTo ops (i', j')) → toLex (i, j) ≤ toLex (i', j')
  label : ∀ blob, blob ∈ blobs.toList ↔ WrittenAt ops blob i ∧ ReadAt ops blob j

theorem build_outcome (ops : List Op) :
    (¬ Cyclic (FeedsInto ops) → ∃ g, DependencyGraph.build ops = .ok g ∧ g.IsGraphOf ops) ∧
      (Cyclic (FeedsInto ops) → ∃ i j blobs,
        DependencyGraph.build ops = .error (.closesCycle i j blobs) ∧ ClosesFirst ops i j blobs) := by
  rcases ofOps_cases ops with
    ⟨rows, viewed, sound, acyclic⟩ | ⟨front, edge, back, split, refused, acyclic, closed⟩
  next =>
    refine ⟨fun _ => ?_, fun cyclic => absurd cyclic acyclic⟩
    obtain ⟨g, built, rfl⟩ := map_eq_ok.mp viewed
    obtain ⟨_, built', mirrored, -⟩ | ⟨error, refused, -⟩ := DependencyGraph.build_refines ops
    next =>
      obtain rfl := Except.ok.inj (built.symm.trans built')
      have edges (i j : Nat) : g.hasEdge i j = true ↔ FeedsInto ops i j :=
        (DependencyGraph.leads_view mirrored).symm.trans ((sound.leads i j).trans linked_dependencies)
      have size : g.size = ops.length := (DependencyGraph.size_view g).symm.trans sound.size
      refine ⟨g, built, ⟨⟨size, mirrored.length.trans size⟩, edges, fun i => ?_, fun j => ?_, ?_⟩⟩
      next => exact ⟨mirrored.ascending i, fun j => (mirrored.successors i j).trans (edges i j)⟩
      next => exact ⟨mirrored.ascending' j, fun i => (mirrored.predecessors i j).trans (edges i j)⟩
      next =>
        intro i j label known blob
        exact label_of_dependencies sound ((DependencyGraph.label?_view mirrored i j).trans known)
    next => simp [built] at refused
  next =>
    have dependency : edge ∈ dependencies ops := by simp [split]
    have all : Cyclic (FeedsInto ops) := closed.mono fun i j => And.left
    have stopped : DependencyGraph.build ops =
        .error (.closesCycle edge.producer edge.consumer edge.blobs) := by
      cases built : DependencyGraph.build ops with
      | ok g => simp [Graph.ofOps, built, Except.map] at refused
      | error error => simpa [Graph.ofOps, built, Except.map] using refused
    refine ⟨fun acyclic => absurd all acyclic, fun _ => ⟨_, _, _, stopped, ?_⟩⟩
    constructor
    case feeds => exact linked_dependencies.mp ⟨edge, dependency, rfl, rfl⟩
    case closes => exact closed
    case least => exact fun i j _ => place_le_of_cyclic split acyclic
    case label => exact fun blob => mem_handedOver_at dependency

namespace Graph

section Operations

variable {ops : List Op} {g : Graph} (planned : ofOps ops = .ok g)

include planned

theorem sound_ofOps : Session.Sound ⟨g, dependencies ops⟩ ops.length := by
  rcases ofOps_cases ops with ⟨g', built, sound, -⟩ | ⟨_, _, _, -, refused, -⟩
  next => exact Except.ok.inj (built.symm.trans planned) ▸ sound
  next => simp [planned] at refused

theorem size_ofOps : g.size = ops.length := (sound_ofOps planned).size

theorem built_ofOps : g.Built := (sound_ofOps planned).built

theorem leads_ofOps {i j : Nat} : g.Leads i j ↔ i ≠ j ∧ ∃ producer consumer, ops[i]? = some producer ∧
    ops[j]? = some consumer ∧ ∃ blob ∈ producer.outputs, blob ∈ consumer.inputs := by
  refine (((sound_ofOps planned).leads i j).trans linked_dependencies).trans (and_congr_right fun _ => ?_)
  constructor
  next =>
    rintro ⟨blob, ⟨producer, first, written⟩, consumer, second, read⟩
    exact ⟨producer, consumer, first, second, blob, written, read⟩
  next =>
    rintro ⟨producer, consumer, first, second, blob, written, read⟩
    exact ⟨blob, ⟨producer, first, written⟩, consumer, second, read⟩

end Operations

end Graph

end StoragePlan
