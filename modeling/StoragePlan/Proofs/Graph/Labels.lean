import Mathlib.Data.List.Induction
import Mathlib.Data.Prod.Lex
import StoragePlan.Proofs.Graph.Mirror
import StoragePlan.Proofs.Run.Basic

set_option autoImplicit false

namespace StoragePlan

def handedOver (producer consumer : Op) : Names :=
  .ofList (producer.outputs.filter consumer.inputs.contains)

def dependencies (ops : List Op) : List Edge :=
  ops.zipIdx.flatMap fun (producer, i) =>
    ops.zipIdx.filterMap fun (consumer, j) =>
      let blobs := handedOver producer consumer
      if i = j ∨ blobs.toList = [] then none else some ⟨i, j, blobs⟩

theorem mem_handedOver {producer consumer : Op} {blob : String} :
    blob ∈ (handedOver producer consumer).toList ↔
      blob ∈ producer.outputs ∧ blob ∈ consumer.inputs := by
  simp [handedOver, Names.mem_ofList]

theorem mem_dependencies {ops : List Op} {edge : Edge} :
    edge ∈ dependencies ops ↔ edge.producer ≠ edge.consumer ∧
      ∃ producer consumer, ops[edge.producer]? = some producer ∧
        ops[edge.consumer]? = some consumer ∧ edge.blobs = handedOver producer consumer ∧
        edge.blobs.toList ≠ [] := by
  simp only [dependencies, List.mem_flatMap, List.mem_filterMap, Prod.exists,
    List.mem_zipIdx_iff_getElem?]
  constructor
  next =>
    rintro ⟨producer, i, first, consumer, j, second, given⟩
    split at given
    next => simp at given
    next relevant =>
      obtain rfl := Option.some.inj given
      obtain ⟨different, something⟩ := not_or.mp relevant
      exact ⟨different, producer, consumer, first, second, rfl, something⟩
  next =>
    rintro ⟨different, producer, consumer, first, second, blobs, something⟩
    refine ⟨producer, edge.producer, first, consumer, edge.consumer, second, ?_⟩
    rw [← blobs, if_neg (not_or.mpr ⟨different, something⟩)]

def Edge.place (edge : Edge) : Nat ×ₗ Nat := toLex (edge.producer, edge.consumer)

theorem dependencies_ascending (ops : List Op) :
    (dependencies ops).Pairwise fun a b => a.place < b.place := by
  have place {numbered : Op × Nat} {i : Nat} {producer : Op} {edge : Edge}
      (given : (let blobs := handedOver producer numbered.1
        if i = numbered.2 ∨ blobs.toList = [] then none else some (Edge.mk i numbered.2 blobs)) =
          some edge) : edge.producer = i ∧ edge.consumer = numbered.2 := by
    dsimp only at given
    split at given
    next => simp at given
    next => exact Option.some.inj given ▸ ⟨rfl, rfl⟩
  refine List.pairwise_flatMap.mpr ⟨fun numbered _ => ?_, ?_⟩
  next =>
    refine List.pairwise_filterMap.mpr ((pairwise_zipIdx ops).imp fun less edge given other given' => ?_)
    obtain ⟨same, consumer⟩ := place given
    obtain ⟨same', consumer'⟩ := place given'
    refine Prod.Lex.toLex_lt_toLex.mpr (.inr ⟨same.trans same'.symm, ?_⟩)
    rwa [consumer, consumer']
  next =>
    refine (pairwise_zipIdx ops).imp fun less edge inside other inside' => ?_
    obtain ⟨_, -, given⟩ := List.mem_filterMap.mp inside
    obtain ⟨_, -, given'⟩ := List.mem_filterMap.mp inside'
    refine Prod.Lex.toLex_lt_toLex.mpr (.inl ?_)
    rwa [(place given).1, (place given').1]

section Index

variable {ops : List Op} {blob : String}

theorem mem_readings {i : Nat} : (blob, i) ∈ readings ops ↔ ReadAt ops blob i := by
  simp [readings, ReadAt, List.mem_zipIdx_iff_getElem?, and_comm]

theorem readings_rising (ops : List Op) : (readings ops).Pairwise fun a b => a.2 ≤ b.2 := by
  refine List.pairwise_flatMap.mpr ⟨fun numbered _ => ?_, (pairwise_zipIdx ops).imp ?_⟩
  next => exact List.pairwise_map.mpr (List.pairwise_of_forall fun _ _ => Nat.le_refl _)
  next =>
    intro a b less first member second member'
    obtain ⟨_, -, rfl⟩ := List.mem_map.mp member
    obtain ⟨_, -, rfl⟩ := List.mem_map.mp member'
    exact Nat.le_of_lt less

theorem getLast?_eq_of_mem {nodes : List Nat} (ascending : nodes.Pairwise (· < ·)) {node : Nat}
    (inside : node ∈ nodes) (greatest : ∀ other ∈ nodes, other ≤ node) : nodes.getLast? = some node := by
  obtain ⟨front, last, rfl⟩ := (List.eq_nil_or_concat' nodes).resolve_left (List.ne_nil_of_mem inside)
  rw [List.getLast?_concat]
  rcases List.mem_append.mp inside with before | same
  next =>
    have less := (List.pairwise_append.mp ascending).2.2 node before last (by simp)
    exact absurd (greatest last (by simp)) (Nat.not_le_of_lt less)
  next => rw [List.mem_singleton.mp same]

theorem readersIn_noteReader (consumers : Table String (List Nat)) (reading : String × Nat) (blob : String) :
    readersIn (noteReader consumers reading) blob =
      if reading.1 = blob ∧ (readersIn consumers blob).getLast? ≠ some reading.2 then
        readersIn consumers blob ++ [reading.2]
      else readersIn consumers blob := by
  by_cases same : reading.1 = blob
  next =>
    subst same
    unfold noteReader
    dsimp only
    split
    next last => simp [last]
    next other =>
      rw [if_pos ⟨rfl, other⟩]
      simp [readersIn, Table.get?_put]
  next =>
    unfold noteReader
    dsimp only
    split
    next => simp [same]
    next => simp [readersIn, Table.get?_put, same]

-- The readings come by operation, so a reader that is known already is the last one of its blob.
theorem readersIn_foldl {readings : List (String × Nat)} (rising : readings.Pairwise fun a b => a.2 ≤ b.2)
    (blob : String) :
    (readersIn (readings.foldl noteReader .empty) blob).Pairwise (· < ·) ∧
      ∀ i, i ∈ readersIn (readings.foldl noteReader .empty) blob ↔ (blob, i) ∈ readings := by
  induction readings using List.reverseRecOn with
  | nil => simp [readersIn]
  | append_singleton front reading ih =>
    obtain ⟨earlier, -, later⟩ := List.pairwise_append.mp rising
    obtain ⟨ascending, members⟩ := ih earlier
    have greatest (i : Nat) (known : i ∈ readersIn (front.foldl noteReader .empty) blob) : i ≤ reading.2 :=
      later (blob, i) ((members i).mp known) reading (by simp)
    rw [List.foldl_append, List.foldl_cons, List.foldl_nil, readersIn_noteReader]
    split
    next new =>
      obtain ⟨same, other⟩ := new
      have fresh : reading.2 ∉ readersIn (front.foldl noteReader .empty) blob :=
        fun known => other (getLast?_eq_of_mem ascending known greatest)
      refine ⟨List.pairwise_append.mpr ⟨ascending, by simp, fun i known j last => ?_⟩, fun i => ?_⟩
      next =>
        obtain rfl := List.mem_singleton.mp last
        exact Nat.lt_of_le_of_ne (greatest i known) fun equal => fresh (equal ▸ known)
      next => simp [members, Prod.ext_iff, same]
    next old =>
      refine ⟨ascending, fun i => (members i).trans ?_⟩
      rw [List.mem_append, List.mem_singleton]
      refine ⟨.inl, fun either => either.elim id ?_⟩
      rintro rfl
      exact (members i).mp (List.mem_of_getLast? (by simpa using old))

theorem readersIn_consumersOf (ops : List Op) (blob : String) :
    (readersIn (consumersOf ops) blob).Pairwise (· < ·) ∧
      ∀ i, i ∈ readersIn (consumersOf ops) blob ↔ ReadAt ops blob i := by
  have indexed := readersIn_foldl (readings_rising ops) blob
  exact ⟨indexed.1, fun i => (indexed.2 i).trans mem_readings⟩

theorem mem_handovers {arc : Arc} : (arc, blob) ∈ handovers ops ↔
    arc.producer ≠ arc.consumer ∧ WrittenAt ops blob arc.producer ∧ ReadAt ops blob arc.consumer := by
  obtain ⟨i, j⟩ := arc
  simp only [handovers, List.mem_flatMap, List.mem_filterMap, Prod.exists, List.mem_zipIdx_iff_getElem?,
    (readersIn_consumersOf ops _).2]
  constructor
  next =>
    rintro ⟨op, producer, here, output, written, consumer, read, given⟩
    split at given
    next => simp at given
    next different =>
      simp only [Option.some.injEq, Prod.mk.injEq, Arc.mk.injEq] at given
      obtain ⟨⟨rfl, rfl⟩, rfl⟩ := given
      exact ⟨Ne.symm different, ⟨op, here, written⟩, read⟩
  next =>
    rintro ⟨different, ⟨op, here, written⟩, read⟩
    exact ⟨op, i, here, blob, written, j, read, if_neg (Ne.symm different)⟩

end Index

section Labels

variable {handovers : List (Arc × String)} {arc : Arc}

theorem labelIn_noteHandover (labels : Table Arc Names) (handover : Arc × String) (arc : Arc) :
    labelIn (noteHandover labels handover) arc =
      if handover.1 = arc then (labelIn labels arc).insert handover.2 else labelIn labels arc := by
  rw [labelIn, noteHandover, Table.get?_put]
  split
  next same => rw [same, Option.getD_some]
  next => rfl

theorem mem_labelIn_foldl {blob : String} :
    blob ∈ (labelIn (handovers.foldl noteHandover .empty) arc).toList ↔ (arc, blob) ∈ handovers := by
  induction handovers using List.reverseRecOn with
  | nil => simp [labelIn, Names.empty]
  | append_singleton front handover ih =>
    rw [List.foldl_append, List.foldl_cons, List.foldl_nil, labelIn_noteHandover, List.mem_append,
      List.mem_singleton, ← ih, Prod.ext_iff]
    split
    next same => simp [Names.mem_insert, same, or_comm]
    next other => simp [Ne.symm other]

theorem isSome_get?_foldl :
    ((handovers.foldl noteHandover .empty).get? arc).isSome ↔ ∃ blob, (arc, blob) ∈ handovers := by
  induction handovers using List.reverseRecOn with
  | nil => simp
  | append_singleton front handover ih =>
    rw [List.foldl_append, List.foldl_cons, List.foldl_nil, noteHandover, Table.get?_put]
    simp only [List.mem_append, List.mem_singleton, exists_or, ← ih, Prod.ext_iff]
    split
    next same => simp [same]
    next other => simp [Ne.symm other]

end Labels

theorem labelIn_labelsOf {ops : List Op} {i j : Nat} {producer consumer : Op} (first : ops[i]? = some producer)
    (second : ops[j]? = some consumer) (different : i ≠ j) :
    labelIn (labelsOf ops) ⟨i, j⟩ = handedOver producer consumer := by
  refine Names.ext_iff.mpr fun blob => mem_labelIn_foldl.trans ?_
  rw [mem_handovers, mem_handedOver]
  simp [different, WrittenAt, ReadAt, first, second]

def Edge.ofEntry (entry : Arc × Names) : Edge := ⟨entry.1.producer, entry.1.consumer, entry.2⟩

theorem mem_entries_labelsOf {ops : List Op} {edge : Edge} :
    edge ∈ (labelsOf ops).entries.map Edge.ofEntry ↔ edge ∈ dependencies ops := by
  obtain ⟨i, j, blobs⟩ := edge
  have listed : ⟨i, j, blobs⟩ ∈ (labelsOf ops).entries.map Edge.ofEntry ↔
      (labelsOf ops).get? ⟨i, j⟩ = some blobs := by
    rw [Table.get?_eq_some_iff, List.mem_map]
    constructor
    next =>
      rintro ⟨⟨arc, label⟩, member, same⟩
      simp only [Edge.ofEntry, Edge.mk.injEq] at same
      obtain ⟨rfl, rfl, rfl⟩ := same
      exact member
    next => exact fun member => ⟨_, member, rfl⟩
  rw [listed, mem_dependencies]
  constructor
  next =>
    intro known
    obtain ⟨blob, handover⟩ := isSome_get?_foldl.mp (by rw [← labelsOf, known]; rfl)
    obtain ⟨different, ⟨producer, first, -⟩, consumer, second, -⟩ := mem_handovers.mp handover
    have label : labelIn (labelsOf ops) ⟨i, j⟩ = blobs := by rw [labelIn, known, Option.getD_some]
    have inside : blob ∈ blobs.toList := label ▸ mem_labelIn_foldl.mpr handover
    exact ⟨different, producer, consumer, first, second,
      label.symm.trans (labelIn_labelsOf first second different), List.ne_nil_of_mem inside⟩
  next =>
    rintro ⟨different, producer, consumer, first, second, same, something⟩
    obtain ⟨blob, inside⟩ := List.exists_mem_of_ne_nil _ something
    have label : labelIn (labelsOf ops) ⟨i, j⟩ = blobs :=
      (labelIn_labelsOf first second different).trans same.symm
    have handover : ((⟨i, j⟩ : Arc), blob) ∈ handovers ops := mem_labelIn_foldl.mp (label ▸ inside)
    obtain ⟨known, present⟩ := Option.isSome_iff_exists.mp (isSome_get?_foldl.mpr ⟨blob, handover⟩)
    rw [← labelsOf] at present
    rw [present, ← label, labelIn, present, Option.getD_some]

-- The labels gathered from the index of readers are the dependencies, in the same order.
theorem entries_labelsOf (ops : List Op) :
    (labelsOf ops).entries.map Edge.ofEntry = dependencies ops := by
  have ascending : ((labelsOf ops).entries.map Edge.ofEntry).Pairwise fun a b => a.place < b.place :=
    List.pairwise_map.mpr ((labelsOf ops).ascending.imp Prod.Lex.toLex_lt_toLex.mpr)
  have : Std.Irrefl fun a b : Edge => a.place < b.place := ⟨fun _ => lt_irrefl _⟩
  exact ascending.eq_of_mem_iff (dependencies_ascending ops) fun edge => mem_entries_labelsOf

namespace DependencyGraph

theorem addEdges_refines {g : DependencyGraph} (mirrored : g.Mirrored) (entries : List (Arc × Names)) :
    let added := (entries.map Edge.ofEntry).foldlM
      (fun graph edge => graph.addEdge edge.producer edge.consumer edge.blobs) g.view
    match g.addEdges entries with
    | .ok () g' => g'.Mirrored ∧ added = .ok g'.view
    | .error error _ => added = .error error := by
  induction entries generalizing g with
  | nil => exact ⟨mirrored, rfl⟩
  | cons entry rest ih =>
    have step := addEdge_refines mirrored entry.1.producer entry.1.consumer entry.2
    simp only [addEdges, List.map_cons, List.foldlM_cons]
    cases added : g.addEdge entry.1.producer entry.1.consumer entry.2 with
    | ok _ g' =>
      rw [added] at step
      simp only [Edge.ofEntry, step.2, ok_bind]
      exact ih step.1
    | error error g' =>
      rw [added] at step
      simp only [Edge.ofEntry, step.2, error_bind]

theorem build_refines (ops : List Op) :
    let added := (dependencies ops).foldlM
      (fun graph edge => graph.addEdge edge.producer edge.consumer edge.blobs) (Graph.empty ops.length)
    (∃ g, build ops = .ok g ∧ g.Mirrored ∧ added = .ok g.view) ∨
      ∃ error, build ops = .error error ∧ added = .error error := by
  have start : (withNodes ops.length).view = Graph.empty ops.length := by
    simp [view, withNodes, Table.empty, size]
  have all := addEdges_refines (mirrored_withNodes ops.length) (labelsOf ops).entries
  rw [entries_labelsOf, start] at all
  cases added : (withNodes ops.length).addEdges (labelsOf ops).entries with
  | ok _ g =>
    rw [added] at all
    exact .inl ⟨g, by rw [build, added], all⟩
  | error error g =>
    rw [added] at all
    exact .inr ⟨error, by rw [build, added], all⟩

end DependencyGraph

theorem Graph.ofOps_eq (ops : List Op) : ofOps ops = (dependencies ops).foldlM
    (fun graph edge => graph.addEdge edge.producer edge.consumer edge.blobs) (.empty ops.length) := by
  rcases DependencyGraph.build_refines ops with ⟨g, built, -, added⟩ | ⟨error, refused, added⟩
  next => rw [ofOps, built, added]; rfl
  next => rw [ofOps, refused, added]; rfl

end StoragePlan
