import Mathlib.Logic.Relation
import StoragePlan.Graph.Basic
import StoragePlan.Proofs.Ascending

set_option autoImplicit false

namespace StoragePlan.Graph

def Leads (g : Graph) (producer consumer : Nat) : Prop := consumer ∈ g.successors producer

theorem hasEdge_iff {g : Graph} {producer consumer : Nat} :
    g.hasEdge producer consumer = true ↔ g.Leads producer consumer :=
  Table.mem_keys_iff.symm

theorem Leads.inside {g : Graph} {producer consumer : Nat} (edge : g.Leads producer consumer) :
    producer < g.size := by
  refine Nat.lt_of_not_le fun outside => ?_
  simp [Leads, successors, row, List.getElem?_eq_none outside, Table.keys, Table.empty] at edge

theorem leads_iff_edge {g : Graph} {producer consumer : Nat} :
    g.Leads producer consumer ↔
      ∃ edge ∈ g.edges, edge.producer = producer ∧ edge.consumer = consumer := by
  simp only [edges, nodes, List.mem_flatMap, List.mem_range, List.mem_map]
  constructor
  next =>
    intro leads
    obtain ⟨entry, member, rfl⟩ := List.mem_map.mp leads
    exact ⟨⟨producer, entry.1, entry.2⟩, ⟨producer, leads.inside, entry, member, rfl⟩, rfl, rfl⟩
  next =>
    rintro ⟨_, ⟨producer, _, entry, member, rfl⟩, rfl, rfl⟩
    exact List.mem_map_of_mem member

theorem mem_predecessors {g : Graph} {producer consumer : Nat} :
    producer ∈ g.predecessors consumer ↔ g.Leads producer consumer := by
  simp only [predecessors, nodes, List.mem_filter, List.mem_range, hasEdge_iff]
  exact ⟨And.right, fun edge => ⟨edge.inside, edge⟩⟩

theorem successors_ascending (g : Graph) (node : Nat) : (g.successors node).Pairwise (· < ·) :=
  (g.row node).keys_ascending

theorem predecessors_ascending (g : Graph) (node : Nat) : (g.predecessors node).Pairwise (· < ·) :=
  List.pairwise_lt_range.filter _

theorem mem_sources {g : Graph} {node : Nat} :
    node ∈ g.sources ↔ node < g.size ∧ ∀ producer, ¬ g.Leads producer node := by
  simp [sources, nodes, List.isEmpty_iff, List.eq_nil_iff_forall_not_mem, mem_predecessors]

theorem mem_sinks {g : Graph} {node : Nat} :
    node ∈ g.sinks ↔ node < g.size ∧ ∀ consumer, ¬ g.Leads node consumer := by
  simp [sinks, nodes, List.isEmpty_iff, List.eq_nil_iff_forall_not_mem, Leads]

theorem not_leads_empty (size producer consumer : Nat) : ¬ (empty size).Leads producer consumer := by
  intro edge
  have inside := edge.inside
  simp only [Graph.size, empty, List.length_replicate] at inside
  simp [Leads, successors, row, empty, inside, Table.keys, Table.empty] at edge

@[simp] theorem size_setLabel (g : Graph) (producer consumer : Nat) (blobs : Names) :
    (g.setLabel producer consumer blobs).size = g.size := by
  simp [Graph.size, setLabel]

theorem leads_setLabel {g : Graph} {producer consumer : Nat} {blobs : Names}
    (inside : producer < g.size) {a b : Nat} :
    (g.setLabel producer consumer blobs).Leads a b ↔
      g.Leads a b ∨ a = producer ∧ b = consumer := by
  have length : producer < g.rows.length := inside
  by_cases same : a = producer
  next =>
    subst same
    simp only [Leads, successors, row, setLabel, List.getElem?_modify, if_true,
      List.getElem?_eq_getElem length, Option.map_eq_map, Option.map_some, Option.getD_some,
      Table.mem_keys_put, true_and]
    exact Or.comm
  next =>
    have other : (g.rows.modify producer fun row => row.put consumer blobs)[a]? = g.rows[a]? := by
      simp [Ne.symm same]
    simp only [Leads, successors, row, setLabel, other, same, false_and, or_false]

theorem label?_setLabel {g : Graph} {producer consumer : Nat} (blobs : Names)
    (inside : producer < g.size) (a b : Nat) :
    (g.setLabel producer consumer blobs).label? a b =
      if a = producer ∧ b = consumer then some blobs else g.label? a b := by
  have length : producer < g.rows.length := inside
  by_cases same : a = producer
  next =>
    subst same
    simp only [label?, row, setLabel, List.getElem?_modify, if_true, List.getElem?_eq_getElem length,
      Option.map_eq_map, Option.map_some, Option.getD_some, Table.get?_put, true_and, eq_comm]
  next =>
    have other : (g.rows.modify producer fun row => row.put consumer blobs)[a]? = g.rows[a]? := by
      simp [Ne.symm same]
    simp only [label?, row, setLabel, other, same, false_and, if_false]

def Covered (g : Graph) (known pending : List Nat) : Prop :=
  ∀ node ∈ known, ∀ next, g.Leads node next → next ∈ known ∨ next ∈ pending ∨ g.size ≤ next

theorem Covered.skip {g : Graph} {known pending : List Nat} {node : Nat}
    (covered : g.Covered known (node :: pending)) (done : node ∈ known ∨ g.size ≤ node) :
    g.Covered known pending := by
  intro other inside next edge
  rcases covered other inside next edge with found | waiting | outside
  next => exact .inl found
  next =>
    rcases List.mem_cons.mp waiting with same | waiting
    next => exact same ▸ done.imp_right .inr
    next => exact .inr (.inl waiting)
  next => exact .inr (.inr outside)

theorem Covered.visit {g : Graph} {known pending : List Nat} {node : Nat}
    (covered : g.Covered known (node :: pending)) :
    g.Covered (node :: known) (g.successors node ++ pending) := by
  intro other inside next edge
  rcases List.mem_cons.mp inside with same | inside
  next =>
    subst same
    exact .inr (.inl (List.mem_append_left _ edge))
  next =>
    rcases covered other inside next edge with found | waiting | outside
    next => exact .inl (List.mem_cons_of_mem _ found)
    next =>
      rcases List.mem_cons.mp waiting with same | waiting
      next => exact .inl (same ▸ List.mem_cons_self)
      next => exact .inr (.inl (List.mem_append_right _ waiting))
    next => exact .inr (.inr outside)

theorem explore_closed (g : Graph) (seen pending : List Nat) (covered : g.Covered seen pending) :
    (∀ node ∈ seen, node ∈ g.explore seen pending) ∧
      (∀ node ∈ pending, node < g.size → node ∈ g.explore seen pending) ∧
      g.Covered (g.explore seen pending) [] := by
  fun_induction explore g seen pending with
  | case1 seen => exact ⟨fun _ inside => inside, by simp, covered⟩
  | case2 seen node pending done ih =>
    obtain ⟨kept, reached, closed⟩ := ih (covered.skip done)
    refine ⟨kept, fun other waiting inside => ?_, closed⟩
    rcases List.mem_cons.mp waiting with same | waiting
    next =>
      subst same
      exact kept other (done.resolve_right (Nat.not_le_of_lt inside))
    next => exact reached other waiting inside
  | case3 seen node pending fresh ih =>
    obtain ⟨kept, reached, closed⟩ := ih covered.visit
    refine ⟨fun other inside => kept other (List.mem_cons_of_mem _ inside), ?_, closed⟩
    intro other waiting inside
    rcases List.mem_cons.mp waiting with same | waiting
    next => exact kept other (same ▸ List.mem_cons_self)
    next => exact reached other (List.mem_append_right _ waiting) inside

theorem reaches_of_path {g : Graph} (valid : ∀ a b, g.Leads a b → b < g.size) {start target : Nat}
    (inside : start < g.size) (path : Relation.ReflTransGen g.Leads start target) :
    g.reaches start target = true := by
  -- What is found is closed under edges, so a path cannot leave it.
  obtain ⟨-, reached, closed⟩ := explore_closed g [] [start] (by simp [Covered])
  have found : target ∈ g.explore [] [start] := by
    induction path with
    | refl => exact reached start (by simp) inside
    | tail _ edge ih =>
      rcases closed _ ih _ edge with found | waiting | outside
      next => exact found
      next => simp at waiting
      next => exact absurd (valid _ _ edge) (Nat.not_lt_of_le outside)
  simpa [reaches] using found

theorem explore_within {g : Graph} {known : Nat → Prop}
    (closed : ∀ a b, known a → g.Leads a b → known b) (seen pending : List Nat)
    (before : ∀ node ∈ seen, known node) (next : ∀ node ∈ pending, known node) :
    ∀ node ∈ g.explore seen pending, known node := by
  fun_induction explore g seen pending with
  | case1 seen => exact before
  | case2 seen node pending done ih => exact ih before (List.forall_mem_cons.mp next).2
  | case3 seen node pending fresh ih =>
    have ⟨here, later⟩ := List.forall_mem_cons.mp next
    refine ih (List.forall_mem_cons.mpr ⟨here, before⟩) fun other waiting => ?_
    rcases List.mem_append.mp waiting with edge | waiting
    next => exact closed node other here edge
    next => exact later other waiting

theorem reaches_iff {g : Graph} (valid : ∀ a b, g.Leads a b → b < g.size) {start target : Nat}
    (inside : start < g.size) :
    g.reaches start target = true ↔ Relation.ReflTransGen g.Leads start target := by
  refine ⟨fun found => ?_, reaches_of_path valid inside⟩
  have here : ∀ node ∈ [start], Relation.ReflTransGen g.Leads start node := by
    intro node same
    exact List.mem_singleton.mp same ▸ .refl
  exact explore_within (fun _ _ path edge => path.tail edge) [] [start] (by simp) here target
    (by simpa [reaches] using found)

end StoragePlan.Graph
