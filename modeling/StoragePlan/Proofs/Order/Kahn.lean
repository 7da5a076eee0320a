import Mathlib.Data.List.Sort
import StoragePlan.Order.Plain
import StoragePlan.Proofs.Graph.Built

set_option autoImplicit false

namespace StoragePlan

namespace Graph

def waiting (g : Graph) : List (Nat × List Nat) :=
  g.nodes.map fun node => (node, g.predecessors node)

def release (placed : Nat) (waiting : List (Nat × List Nat)) : List (Nat × List Nat) :=
  (waiting.filter fun entry => entry.1 ≠ placed).map fun entry =>
    (entry.1, entry.2.filter (· ≠ placed))

def drain : Nat → List (Nat × List Nat) → List Nat × List (Nat × List Nat)
  | 0, waiting => ([], waiting)
  | steps + 1, waiting =>
    match waiting.find? fun entry => entry.2.isEmpty with
    | none => ([], waiting)
    | some (node, _) =>
      let (order, stuck) := drain steps (release node waiting)
      (node :: order, stuck)

/-- The first node that keeps waiting, with the first one it waits for. -/
def stuckEdge (g : Graph) : List (Nat × List Nat) → PlanError
  | (consumer, producer :: _) :: _ =>
    .closesCycle producer consumer ((g.label? producer consumer).getD .empty)
  | _ => .closesCycle 0 0 ((g.label? 0 0).getD .empty)

def unplaced (g : Graph) (placed : List Nat) : List Nat :=
  g.nodes.filter fun node => !placed.contains node

theorem mem_unplaced {g : Graph} {placed : List Nat} {node : Nat} :
    node ∈ g.unplaced placed ↔ node < g.size ∧ node ∉ placed := by
  simp [unplaced, nodes]

theorem unplaced_cons (g : Graph) (placed : List Nat) (node : Nat) :
    g.unplaced (node :: placed) = (g.unplaced placed).filter fun other => other ≠ node := by
  rw [unplaced, unplaced, List.filter_filter]
  refine congrArg (g.nodes.filter ·) (funext fun other => ?_)
  by_cases same : other = node <;> simp [same]

theorem unplaced_cons_length {g : Graph} {placed : List Nat} {node : Nat}
    (waits : node ∈ g.unplaced placed) :
    (g.unplaced (node :: placed)).length < (g.unplaced placed).length := by
  rw [unplaced_cons]
  exact List.length_filter_lt_length_iff_exists.mpr ⟨node, waits, by simp⟩

abbrev remaining (g : Graph) (placed : List Nat) (node : Nat) : List Nat :=
  (g.predecessors node).filter fun producer => !placed.contains producer

def stillWaiting (g : Graph) (placed : List Nat) : List (Nat × List Nat) :=
  (g.unplaced placed).map fun node => (node, g.remaining placed node)

theorem waiting_eq (g : Graph) : g.waiting = g.stillWaiting [] := by
  simp [waiting, stillWaiting, unplaced, remaining]

theorem mem_stillWaiting {g : Graph} {placed : List Nat} {node : Nat} {producers : List Nat} :
    (node, producers) ∈ g.stillWaiting placed ↔ node ∈ g.unplaced placed ∧
      producers = (g.predecessors node).filter fun producer => !placed.contains producer := by
  rw [stillWaiting, List.mem_map]
  constructor
  next =>
    rintro ⟨other, member, same⟩
    obtain ⟨rfl, rfl⟩ := Prod.mk.inj same
    exact ⟨member, rfl⟩
  next =>
    rintro ⟨member, rfl⟩
    exact ⟨node, member, rfl⟩

theorem release_stillWaiting (g : Graph) (placed : List Nat) (node : Nat) :
    release node (g.stillWaiting placed) = g.stillWaiting (node :: placed) := by
  rw [release, stillWaiting, stillWaiting, unplaced_cons, List.filter_map, List.map_map]
  refine List.map_congr_left fun other _ => ?_
  simp only [Function.comp_apply, List.filter_filter, Prod.mk.injEq, true_and]
  refine congrArg ((g.predecessors other).filter ·) (funext fun producer => ?_)
  by_cases same : producer = node <;> simp [same]

theorem mem_remaining {g : Graph} {placed : List Nat} {node producer : Nat} :
    producer ∈ g.remaining placed node ↔ g.Leads producer node ∧ producer ∉ placed := by
  simp [remaining, mem_predecessors]

theorem remaining_cons (g : Graph) (placed : List Nat) (node other : Nat) :
    g.remaining (node :: placed) other = (g.remaining placed other).filter (· ≠ node) := by
  rw [remaining, remaining, List.filter_filter]
  refine congrArg ((g.predecessors other).filter ·) (funext fun producer => ?_)
  by_cases same : producer = node <;> simp [same]

theorem length_remaining_cons {g : Graph} {placed : List Nat} {node : Nat} (fresh : node ∉ placed)
    (other : Nat) : (g.remaining (node :: placed) other).length =
      if other ∈ g.successors node then (g.remaining placed other).length - 1
      else (g.remaining placed other).length := by
  have nodup : (g.remaining placed other).Nodup := (List.nodup_range.filter _).filter _
  have erased : (g.remaining placed other).filter (· ≠ node) = (g.remaining placed other).erase node := by
    rw [nodup.erase_eq_filter]
    exact List.filter_congr fun producer _ => by rw [Bool.eq_iff_iff]; simp
  have among : node ∈ g.remaining placed other ↔ other ∈ g.successors node :=
    mem_remaining.trans (and_iff_left fresh)
  rw [remaining_cons, erased, List.length_erase]
  simp only [among]

theorem find?_stillWaiting (g : Graph) (placed : List Nat) :
    ((g.stillWaiting placed).find? fun entry => entry.2.isEmpty) =
      ((g.unplaced placed).filter fun node => (g.remaining placed node).isEmpty).head?.map
        fun node => (node, g.remaining placed node) := by
  rw [stillWaiting, List.find?_map, List.head?_filter]
  rfl

end Graph

namespace Kahn

section Arrive

variable {s : Kahn} {node : Nat}

theorem getElem?_arrive (s : Kahn) (node other : Nat) : (s.arrive node).indegree[other]? =
    if node = other then s.indegree[other]?.map (· - 1) else s.indegree[other]? := by
  have same : (s.arrive node).indegree = s.indegree.modify node (· - 1) := by
    unfold arrive
    simp only
    split
    next => rfl
    next => rfl
  rw [same, List.getElem?_modify]
  split
  next => rfl
  next => exact Option.map_id'

theorem mem_ready_arrive {other : Nat} : other ∈ (s.arrive node).ready ↔
    other ∈ s.ready ∨ other = node ∧ s.indegree[node]?.map (· - 1) = some 0 := by
  have lowered : (s.indegree.modify node (· - 1))[node]? = s.indegree[node]?.map (· - 1) := by
    simp
  unfold arrive
  simp only [lowered]
  split
  next free => rw [(insertSorted_perm _ node s.ready).mem_iff, List.mem_cons, and_iff_left free, or_comm]
  next busy => simp only [busy, and_false, or_false]

theorem ascending_arrive (ascending : s.ready.Pairwise (· < ·)) (fresh : node ∉ s.ready) :
    (s.arrive node).ready.Pairwise (· < ·) := by
  unfold arrive
  simp only
  split
  next =>
    have sorted : s.ready.Pairwise fun a b =>
        decide (a ≤ b) = true ∧ (decide (b ≤ a) = true → a ≠ b) :=
      ascending.imp fun {a b} less => by simp; omega
    have apart : ∀ other ∈ s.ready, node ≠ other := by
      rintro other inside rfl
      exact fresh inside
    refine (insertSorted_stable (by simp; omega) (by simp; omega) node apart sorted).imp fun {a b} both => ?_
    simp only [decide_eq_true_eq] at both
    omega
  next => exact ascending

structure Arrived (s : Kahn) (nodes : List Nat) (s' : Kahn) : Prop where
  indegree : ∀ other : Nat, s'.indegree[other]? =
    s.indegree[other]?.map fun count => if other ∈ nodes then count - 1 else count
  ascending : s'.ready.Pairwise (· < ·)
  mem_ready : ∀ other, other ∈ s'.ready ↔
    other ∈ s.ready ∨ other ∈ nodes ∧ s.indegree[other]?.map (· - 1) = some 0

theorem arrived_foldl {nodes : List Nat} (nodup : nodes.Nodup) (ascending : s.ready.Pairwise (· < ·))
    (fresh : ∀ node ∈ nodes, node ∉ s.ready) : Arrived s nodes (nodes.foldl arrive s) := by
  induction nodes generalizing s with
  | nil => exact ⟨by simp, ascending, by simp⟩
  | cons node rest ih =>
    obtain ⟨distinct, nodup⟩ := List.nodup_cons.mp nodup
    obtain ⟨here, later⟩ := List.forall_mem_cons.mp fresh
    have untouched (other : Nat) (inside : other ∈ rest) :
        (s.arrive node).indegree[other]? = s.indegree[other]? := by
      rw [getElem?_arrive, if_neg (ne_of_mem_of_not_mem inside distinct).symm]
    have arrived := ih nodup (ascending_arrive ascending here) fun other inside ready => by
      rcases mem_ready_arrive.mp ready with old | ⟨rfl, -⟩
      next => exact later other inside old
      next => exact distinct inside
    refine ⟨fun other => ?_, arrived.ascending, fun other => ?_⟩
    next =>
      rw [List.foldl_cons, arrived.indegree]
      by_cases inside : other ∈ rest
      next => simp [untouched other inside, inside]
      next =>
        rw [getElem?_arrive]
        by_cases same : node = other
        next => simp [same, inside, Function.comp_def]
        next => simp [same, Ne.symm same, inside]
    next =>
      rw [List.foldl_cons, arrived.mem_ready, mem_ready_arrive, List.mem_cons, or_assoc]
      refine or_congr_right ?_
      by_cases inside : other ∈ rest
      next =>
        have apart : other ≠ node := fun same => distinct (same ▸ inside)
        simp only [untouched other inside, inside, apart, false_and, false_or, or_true]
      next =>
        simp only [inside, or_false, false_and]
        constructor <;> rintro ⟨rfl, free⟩ <;> exact ⟨rfl, free⟩

end Arrive

structure Counts (g : Graph) (placed : List Nat) (s : Kahn) : Prop where
  indegree : ∀ node : Nat, s.indegree[node]? =
    if node < g.size then some (g.remaining placed node).length else none
  ready : s.ready = (g.unplaced placed).filter fun node => (g.remaining placed node).isEmpty
  done : ∀ node ∈ placed, g.remaining placed node = []

section Run

variable {g : Graph} {placed : List Nat} {s : Kahn} {node : Nat}

theorem counts_start (g : Graph) : Counts g [] (start g) := by
  have indegree (node : Nat) : (start g).indegree[node]? =
      if node < g.size then some (g.remaining [] node).length else none := by
    simp only [start, List.getElem?_map, Graph.nodes]
    split
    next inside => simp [List.getElem?_range inside, Graph.remaining]
    next outside => simp [List.getElem?_eq_none (l := List.range g.size) (by simpa using outside)]
  refine ⟨indegree, ?_, by simp⟩
  have all : g.unplaced [] = g.nodes := by simp [Graph.unplaced]
  rw [all]
  refine List.filter_congr fun node among => ?_
  have counted := indegree node
  rw [if_pos (List.mem_range.mp among)] at counted
  rw [show (g.nodes.map fun node => (g.predecessors node).length)[node]? = _ from counted]
  rw [Bool.eq_iff_iff]
  simp

theorem Counts.mem_ready (counts : Counts g placed s) :
    node ∈ s.ready ↔ node < g.size ∧ node ∉ placed ∧ g.remaining placed node = [] := by
  simp [counts.ready, Graph.mem_unplaced, and_assoc]

theorem Counts.ascending (counts : Counts g placed s) : s.ready.Pairwise (· < ·) := by
  rw [counts.ready]
  exact (List.pairwise_lt_range.filter _).filter _

theorem Counts.place (counts : Counts g placed s) {ready : List Nat} (front : s.ready = node :: ready) :
    Counts g (node :: placed) ((g.successors node).foldl arrive { s with ready }) := by
  obtain ⟨inside, fresh, free⟩ := counts.mem_ready.mp (front ▸ List.mem_cons_self)
  obtain ⟨least, ascending⟩ := List.pairwise_cons.mp (front ▸ counts.ascending)
  have waiting (other : Nat) (next : other ∈ g.successors node) : node ∈ g.remaining placed other :=
    Graph.mem_remaining.mpr ⟨next, fresh⟩
  have busy (other : Nat) (next : other ∈ g.successors node) : other ∉ s.ready := fun among => by
    have nothing := (counts.mem_ready.mp among).2.2 ▸ waiting other next
    simp at nothing
  have arrived : Arrived { s with ready } (g.successors node) _ :=
    arrived_foldl ((g.successors_ascending node).imp Nat.ne_of_lt) ascending
      fun other next among => busy other next (front ▸ List.mem_cons_of_mem _ among)
  refine ⟨fun other => ?indegree, ?ready, fun other inside => ?done⟩
  case indegree =>
    rw [arrived.indegree, counts.indegree, Graph.length_remaining_cons fresh]
    split <;> simp
  case ready =>
    have expected : ((g.unplaced (node :: placed)).filter
        fun node' => (g.remaining (node :: placed) node').isEmpty).Pairwise (· < ·) :=
      (List.pairwise_lt_range.filter _).filter _
    refine arrived.ascending.eq_of_mem_iff expected fun other => ?_
    rw [arrived.mem_ready, counts.indegree]
    simp only [List.mem_filter, Graph.mem_unplaced, List.isEmpty_iff, List.mem_cons, not_or]
    rw [← List.length_eq_zero_iff, Graph.length_remaining_cons fresh]
    by_cases next : other ∈ g.successors node
    next =>
      have old : other ∉ ready := fun among => busy other next (front ▸ List.mem_cons_of_mem _ among)
      have apart : other ≠ node := by
        rintro rfl
        have nothing := free ▸ waiting other next
        simp at nothing
      have unplaced : other ∉ placed := fun placed => by
        have nothing := counts.done other placed ▸ waiting other next
        simp at nothing
      by_cases bound : other < g.size <;> simp [next, old, apart, unplaced, bound]
    next =>
      have others : other ∈ ready ↔ other ∈ s.ready ∧ other ≠ node := by
        rw [front, List.mem_cons]
        refine ⟨fun among => ⟨.inr among, (least other among).ne'⟩, fun both => both.1.resolve_left both.2⟩
      simp only [others, counts.mem_ready, next, ↓reduceIte, false_and, or_false, List.length_eq_zero_iff]
      tauto
  case done =>
    rw [Graph.remaining_cons]
    rcases List.mem_cons.mp inside with rfl | old
    next => rw [free, List.filter_nil]
    next => rw [counts.done other old, List.filter_nil]

theorem Counts.run (counts : Counts g placed s) (steps : Nat) : ∃ placed',
    Graph.drain steps (g.stillWaiting placed) = ((Kahn.run g steps s).1, g.stillWaiting placed') ∧
      Counts g placed' (Kahn.run g steps s).2 ∧
      ((Kahn.run g steps s).1.length = steps ∨ (Kahn.run g steps s).2.ready = []) := by
  induction steps generalizing placed s with
  | zero => exact ⟨placed, rfl, counts, .inl rfl⟩
  | succ steps ih =>
    have first := g.find?_stillWaiting placed
    rw [← counts.ready] at first
    rw [Graph.drain, Kahn.run, first]
    cases front : s.ready with
    | nil => exact ⟨placed, rfl, counts, .inr front⟩
    | cons node ready =>
      obtain ⟨placed', drained, counts', ended⟩ := ih (counts.place front)
      refine ⟨placed', ?_, counts', ended.imp_left fun full => by simp [full]⟩
      simp [Graph.release_stillWaiting, drained]

theorem Counts.waits_eq (counts : Counts g placed s) (stuck : s.ready = []) (inside : node < g.size) :
    s.waits node = !placed.contains node := by
  have count : s.waits node = true ↔ g.remaining placed node ≠ [] := by
    simp [waits, counts.indegree, inside, List.length_pos_iff]
  have left : g.remaining placed node = [] ↔ node ∈ placed := by
    refine ⟨fun free => ?_, counts.done node⟩
    by_contra fresh
    have among := counts.mem_ready.mpr ⟨inside, fresh, free⟩
    rw [stuck] at among
    simp at among
  rw [Bool.eq_iff_iff, count, Ne, left]
  simp

theorem Counts.stuckPair (counts : Counts g placed s) (stuck : s.ready = []) :
    PlanError.closesCycle (s.stuckPair g).1 (s.stuckPair g).2
      ((g.label? (s.stuckPair g).1 (s.stuckPair g).2).getD .empty) = g.stuckEdge (g.stillWaiting placed) := by
  have consumers : g.nodes.find? s.waits = (g.unplaced placed).head? := by
    rw [← List.head?_filter, Graph.unplaced]
    exact congrArg _ (List.filter_congr fun node among => counts.waits_eq stuck (List.mem_range.mp among))
  have producers (consumer : Nat) : (g.predecessors consumer).find? s.waits =
      (g.remaining placed consumer).head? := by
    rw [← List.head?_filter]
    exact congrArg _ (List.filter_congr fun node among =>
      counts.waits_eq stuck (Graph.mem_predecessors.mp among).inside)
  rw [Kahn.stuckPair, consumers, Graph.stillWaiting]
  cases g.unplaced placed with
  | nil => rfl
  | cons consumer rest =>
    simp only [List.head?_cons, producers, List.map_cons]
    cases g.remaining placed consumer with
    | nil => rfl
    | cons producer rest => rfl

end Run

end Kahn

theorem Graph.plainOrder_eq (g : Graph) : g.plainOrder =
    let (order, stuck) := drain g.size g.waiting
    if order.length = g.size then .ok order else .error (g.stuckEdge stuck) := by
  obtain ⟨placed, drained, counts, ended⟩ := (Kahn.counts_start g).run g.size
  rw [waiting_eq, drained, plainOrder]
  simp only
  split
  next => rfl
  next short => rw [← counts.stuckPair (ended.resolve_left short)]

end StoragePlan
