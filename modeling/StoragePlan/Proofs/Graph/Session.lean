import StoragePlan.Proofs.Graph.Mirror

set_option autoImplicit false

namespace StoragePlan

namespace Graph

structure Session where
  graph : Graph
  taken : List Edge

namespace Session

def start (size : Nat) : Session := ⟨.empty size, []⟩

def call (s : Session) (edge : Edge) : Session :=
  match s.graph.addEdge edge.producer edge.consumer edge.blobs with
  | .ok graph => ⟨graph, s.taken ++ [edge]⟩
  | .error _ => s

def run (size : Nat) (calls : List Edge) : Session := calls.foldl call (start size)

structure Sound (s : Session) (size : Nat) : Prop where
  built : s.graph.Built
  size : s.graph.size = size
  leads : ∀ i j, s.graph.Leads i j ↔ Linked s.taken i j
  labels : ∀ i j label, s.graph.label? i j = some label → ∀ blob, blob ∈ label.toList ↔
    ∃ call ∈ s.taken, call.producer = i ∧ call.consumer = j ∧ blob ∈ call.blobs.toList

theorem start_sound (size : Nat) : (start size).Sound size where
  built := .isolated size
  size := List.length_replicate
  leads i j := by simp [Linked, start, Graph.not_leads_empty]
  labels i j label known :=
    absurd (Graph.leads_iff_label.mpr ⟨label, known⟩) (Graph.not_leads_empty size i j)

section Calls

variable {s : Session} {size : Nat} {edge : Edge}

theorem call_of_ok {graph : Graph}
    (taken : s.graph.addEdge edge.producer edge.consumer edge.blobs = .ok graph) :
    s.call edge = ⟨graph, s.taken ++ [edge]⟩ := by
  simp [call, taken]

theorem call_of_error {error : PlanError}
    (refused : s.graph.addEdge edge.producer edge.consumer edge.blobs = .error error) :
    s.call edge = s := by
  simp [call, refused]

variable (sound : s.Sound size) (first : edge.producer < size) (second : edge.consumer < size)

include sound

theorem Sound.acyclic : ¬ Cyclic (Linked s.taken) := fun cyclic =>
  sound.built.acyclic (cyclic.mono fun i j link => (sound.leads i j).mpr link)

include first

theorem Sound.taken {graph : Graph} {label : Names}
    (added : s.graph.addEdge edge.producer edge.consumer edge.blobs = .ok graph)
    (same : graph = s.graph.setLabel edge.producer edge.consumer label)
    (holds : ∀ blob, blob ∈ label.toList ↔ blob ∈ edge.blobs.toList ∨ ∃ call ∈ s.taken,
      call.producer = edge.producer ∧ call.consumer = edge.consumer ∧ blob ∈ call.blobs.toList) :
    Sound ⟨graph, s.taken ++ [edge]⟩ size where
  built := .addEdge sound.built added
  size := (Graph.size_addEdge added).trans sound.size
  leads i j := by
    rw [Graph.leads_addEdge added, linked_concat, sound.leads]
  labels i j other known blob := by
    rw [same, Graph.label?_setLabel label (sound.size ▸ first)] at known
    simp only [List.mem_append, List.mem_singleton, or_and_right, exists_or, exists_eq_left]
    split at known
    next here =>
      obtain ⟨rfl, rfl⟩ := here
      obtain rfl := Option.some.inj known
      simp [holds, or_comm]
    next elsewhere =>
      have apart : ¬ (edge.producer = i ∧ edge.consumer = j ∧ blob ∈ edge.blobs.toList) :=
        fun ⟨same, same', _⟩ => elsewhere ⟨same.symm, same'.symm⟩
      simp [apart, sound.labels i j other known blob]

include second

theorem Sound.addEdge :
    (∃ graph, s.graph.addEdge edge.producer edge.consumer edge.blobs = .ok graph ∧
      Sound ⟨graph, s.taken ++ [edge]⟩ size) ∨
    s.graph.addEdge edge.producer edge.consumer edge.blobs =
        .error (.closesCycle edge.producer edge.consumer edge.blobs) ∧
      ¬ Linked s.taken edge.producer edge.consumer ∧
      Relation.ReflTransGen (Linked s.taken) edge.consumer edge.producer := by
  have same : s.graph.Leads = Linked s.taken := funext₂ fun i j => propext (sound.leads i j)
  have first' : edge.producer < s.graph.size := sound.size ▸ first
  have second' : edge.consumer < s.graph.size := sound.size ▸ second
  by_cases known : s.graph.Leads edge.producer edge.consumer
  next =>
    obtain ⟨label, present⟩ := Graph.leads_iff_label.mp known
    have added := Graph.addEdge_known edge.blobs present
    refine .inl ⟨_, added, sound.taken first added rfl fun blob => ?_⟩
    rw [Names.mem_union, or_comm, sound.labels _ _ label present]
  next =>
    by_cases path : Relation.ReflTransGen s.graph.Leads edge.consumer edge.producer
    next =>
      have refused := Graph.addEdge_refused edge.blobs sound.built first' second' known path
      rw [same] at known path
      exact .inr ⟨refused, known, path⟩
    next =>
      have added := Graph.addEdge_taken edge.blobs sound.built first' second' known path
      refine .inl ⟨_, added, sound.taken first added rfl fun blob => ?_⟩
      have none_ : ¬ ∃ call ∈ s.taken, call.producer = edge.producer ∧
          call.consumer = edge.consumer ∧ blob ∈ call.blobs.toList := by
        rintro ⟨call, member, same, same', -⟩
        exact known ((sound.leads _ _).mpr ⟨call, member, same, same'⟩)
      simp [none_]

theorem Sound.refused_iff :
    (∃ error, s.graph.addEdge edge.producer edge.consumer edge.blobs = .error error) ↔
      ¬ Linked s.taken edge.producer edge.consumer ∧
        Relation.ReflTransGen (Linked s.taken) edge.consumer edge.producer := by
  rcases sound.addEdge first second with ⟨graph, added, later⟩ | ⟨refused, new, path⟩
  next =>
    refine ⟨fun ⟨error, refused⟩ => by simp [added] at refused, fun ⟨_, path⟩ => ?_⟩
    -- With the edge the path would be a cycle.
    exact absurd ((cyclic_with_edge (linked_concat s.taken edge)).mpr (.inr path)) later.acyclic
  next => exact ⟨fun _ => ⟨new, path⟩, fun _ => ⟨_, refused⟩⟩

theorem Sound.call : (s.call edge).Sound size := by
  rcases sound.addEdge first second with ⟨graph, added, later⟩ | ⟨refused, -⟩
  next => rwa [call_of_ok added]
  next => rwa [call_of_error refused]

end Calls

theorem Sound.addEdges {size : Nat} {s : Session} (sound : s.Sound size) {edges : List Edge}
    (inside : ∀ edge ∈ edges, edge.producer < size ∧ edge.consumer < size) :
    let added := edges.foldlM
      (fun graph edge => graph.addEdge edge.producer edge.consumer edge.blobs) s.graph
    (∃ graph, added = .ok graph ∧ Sound ⟨graph, s.taken ++ edges⟩ size) ∨
    ∃ front edge back, edges = front ++ edge :: back ∧
      added = .error (.closesCycle edge.producer edge.consumer edge.blobs) ∧
      ¬ Cyclic (Linked (s.taken ++ front)) ∧ Cyclic (Linked (s.taken ++ front ++ [edge])) := by
  induction edges generalizing s with
  | nil => exact .inl ⟨s.graph, rfl, by simpa using sound⟩
  | cons edge rest ih =>
    have ⟨here, later⟩ := List.forall_mem_cons.mp inside
    simp only [List.foldlM_cons]
    rcases sound.addEdge here.1 here.2 with ⟨graph, added, next⟩ | ⟨refused, -, path⟩
    next =>
      rw [added]
      rcases ih next later with ⟨final, all, sound'⟩ | ⟨front, last, back, split, stopped, cycles⟩
      next => exact .inl ⟨final, all, by simpa using sound'⟩
      next =>
        refine .inr ⟨edge :: front, last, back, by simp [split], stopped, ?_⟩
        simpa using cycles
    next =>
      have closed := (cyclic_with_edge (linked_concat s.taken edge)).mpr (.inr path)
      refine .inr ⟨[], edge, rest, rfl, by rw [refused]; rfl, ?_⟩
      simpa using ⟨sound.acyclic, closed⟩

theorem run_sound {size : Nat} {calls : List Edge}
    (inside : ∀ call ∈ calls, call.producer < size ∧ call.consumer < size) :
    (run size calls).Sound size := by
  have all (s : Session) (sound : s.Sound size) : (calls.foldl call s).Sound size := by
    induction calls generalizing s with
    | nil => exact sound
    | cons edge rest ih =>
      have ⟨first, later⟩ := List.forall_mem_cons.mp inside
      exact ih later (s.call edge) (sound.call first.1 first.2)
  exact all (start size) (start_sound size)

end Session

end Graph

/-- Calls that add edges, with those that were accepted. A refused call goes on with the state in which
it stopped. -/
structure Session where
  graph : DependencyGraph
  taken : List Edge

namespace Session

open DependencyGraph

def start (size : Nat) : Session := ⟨.withNodes size, []⟩

def call (s : Session) (edge : Edge) : Session :=
  match s.graph.addEdge edge.producer edge.consumer edge.blobs with
  | .ok () graph => ⟨graph, s.taken ++ [edge]⟩
  | .error _ graph => ⟨graph, s.taken⟩

def run (size : Nat) (calls : List Edge) : Session := calls.foldl call (start size)

def view (s : Session) : Graph.Session := ⟨s.graph.view, s.taken⟩

def joined (s : Session) (i j : Nat) : Prop := s.graph.hasEdge i j = true

theorem call_view {s : Session} (mirrored : s.graph.Mirrored) (edge : Edge) :
    (s.call edge).graph.Mirrored ∧ (s.call edge).view = s.view.call edge := by
  have step := addEdge_refines mirrored edge.producer edge.consumer edge.blobs
  unfold call
  split
  next graph added =>
    rw [added] at step
    obtain ⟨mirrored', added'⟩ := step
    have called : s.view.call edge = _ := Graph.Session.call_of_ok added'
    exact ⟨mirrored', called.symm⟩
  next error graph refused =>
    rw [refused] at step
    obtain ⟨rfl, refused'⟩ := step
    have called : s.view.call edge = _ := Graph.Session.call_of_error refused'
    exact ⟨mirrored, called.symm⟩

theorem run_view (size : Nat) (calls : List Edge) :
    (run size calls).graph.Mirrored ∧ (run size calls).view = Graph.Session.run size calls := by
  have all (s : Session) (mirrored : s.graph.Mirrored) :
      (calls.foldl call s).graph.Mirrored ∧ (calls.foldl call s).view = calls.foldl Graph.Session.call s.view := by
    induction calls generalizing s with
    | nil => exact ⟨mirrored, rfl⟩
    | cons edge rest ih =>
      obtain ⟨mirrored', same⟩ := call_view mirrored edge
      rw [List.foldl_cons, List.foldl_cons, ← same]
      exact ih (s.call edge) mirrored'
  have first : (start size).view = Graph.Session.start size := by
    simp [view, start, Graph.Session.start, DependencyGraph.view, withNodes, Table.empty, DependencyGraph.size]
  rw [Graph.Session.run, ← first]
  exact all (start size) (mirrored_withNodes size)

structure Faithful (s : Session) (size : Nat) : Prop where
  nodes : s.graph.succs.length = size ∧ s.graph.preds.length = size
  successors : ∀ i, (s.graph.successors i).Pairwise (· < ·) ∧ ∀ j, j ∈ s.graph.successors i ↔ s.joined i j
  predecessors : ∀ j, (s.graph.predecessors j).Pairwise (· < ·) ∧
    ∀ i, i ∈ s.graph.predecessors j ↔ s.joined i j
  acyclic : ¬ Cyclic s.joined
  edges : ∀ i j, s.joined i j ↔ Linked s.taken i j
  labels : ∀ i j label, s.graph.label? i j = some label → ∀ blob, blob ∈ label.toList ↔
    ∃ call ∈ s.taken, call.producer = i ∧ call.consumer = j ∧ blob ∈ call.blobs.toList
  refused : ∀ i j blobs, i < size → j < size →
    ((∃ error g, s.graph.addEdge i j blobs = .error error g) ↔
      ¬ s.joined i j ∧ (i = j ∨ Relation.TransGen s.joined j i))
  unchanged : ∀ i j blobs error g, s.graph.addEdge i j blobs = .error error g → g = s.graph

theorem run_faithful {size : Nat} {calls : List Edge}
    (inside : ∀ call ∈ calls, call.producer < size ∧ call.consumer < size) :
    (run size calls).Faithful size := by
  obtain ⟨mirrored, same⟩ := run_view size calls
  have sound : (run size calls).view.Sound size := same ▸ Graph.Session.run_sound inside
  have leads : (run size calls).graph.view.Leads = (run size calls).joined :=
    funext₂ fun i j => propext (leads_view mirrored)
  have linked : (run size calls).joined = Linked (run size calls).taken :=
    leads ▸ funext₂ fun i j => propext (sound.leads i j)
  have size' : (run size calls).graph.size = size := (size_view _).symm.trans sound.size
  constructor
  case nodes => exact ⟨size', mirrored.length.trans size'⟩
  case successors => exact fun i => ⟨mirrored.ascending i, mirrored.successors i⟩
  case predecessors => exact fun j => ⟨mirrored.ascending' j, fun i => mirrored.predecessors i j⟩
  case acyclic => exact leads ▸ sound.built.acyclic
  case edges => exact fun i j => linked ▸ Iff.rfl
  case labels => exact fun i j label known => sound.labels i j label ((label?_view mirrored i j).trans known)
  case refused =>
    intro i j blobs first second
    have step := addEdge_refines mirrored i j blobs
    let edge : Edge := ⟨i, j, blobs⟩
    have refused : (∃ error, _ = Except.error error) ↔ ¬ Linked _ i j ∧ Relation.ReflTransGen (Linked _) j i :=
      sound.refused_iff (show edge.producer < size from first) (show edge.consumer < size from second)
    rw [linked, ← Relation.reflTransGen_iff_eq_or_transGen]
    refine Iff.trans ⟨?_, ?_⟩ refused
    next =>
      rintro ⟨error, graph, stopped⟩
      rw [stopped] at step
      exact ⟨error, step.2⟩
    next =>
      rintro ⟨error, stopped⟩
      split at step
      next graph added => cases step.2.symm.trans stopped
      next error' graph added => exact ⟨error', graph, added⟩
  case unchanged =>
    intro i j blobs error g refused
    have step := addEdge_refines mirrored i j blobs
    rw [refused] at step
    exact step.1

-- The third call would lead back to the start; the last one adds to the label of the first.
theorem run_faithful_triangle :
    let calls : List Edge :=
      [⟨0, 1, .ofList ["a"]⟩, ⟨1, 2, .ofList ["b"]⟩, ⟨2, 0, .ofList ["c"]⟩, ⟨0, 1, .ofList ["d"]⟩]
    let s := run 3 calls
    (∀ call ∈ calls, call.producer < 3 ∧ call.consumer < 3) ∧ s.Faithful 3 ∧
      s.graph.succs = [[1], [2], []] ∧ s.graph.preds = [[], [0], [1]] ∧
      s.graph.label? 0 1 = some (.ofList ["a", "d"]) ∧
      ∃ error g, s.graph.addEdge 2 0 .empty = .error error g := by
  intro calls s
  have inside : ∀ call ∈ calls, call.producer < 3 ∧ call.consumer < 3 := by decide
  have faithful : s.Faithful 3 := run_faithful inside
  have first : s.joined 0 1 := by
    show s.graph.hasEdge 0 1 = true
    decide +kernel
  have second : s.joined 1 2 := by
    show s.graph.hasEdge 1 2 = true
    decide +kernel
  have new : ¬ s.joined 2 0 := by
    show ¬ s.graph.hasEdge 2 0 = true
    decide +kernel
  have refused := (faithful.refused 2 0 .empty (by decide) (by decide)).mpr
    ⟨new, .inr (.head first (.single second))⟩
  exact ⟨inside, faithful, by decide +kernel, by decide +kernel, by decide +kernel, refused⟩

end Session

end StoragePlan
