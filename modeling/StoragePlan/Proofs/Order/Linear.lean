import Mathlib.Data.List.Basic
import StoragePlan.Proofs.Order.Kahn

set_option autoImplicit false

namespace StoragePlan

theorem idxOf_lt_of_pairwise {line : List Nat} {r : Nat → Nat → Prop} (pairwise : line.Pairwise r)
    {a b : Nat} (first : a ∈ line) (second : b ∈ line) (different : a ≠ b) (never : ¬ r b a) :
    line.idxOf a < line.idxOf b := by
  have inside := List.idxOf_lt_length_of_mem first
  have inside' := List.idxOf_lt_length_of_mem second
  rcases Nat.lt_trichotomy (line.idxOf a) (line.idxOf b) with less | same | more
  next => exact less
  next => exact absurd ((List.idxOf_inj first).mp same) different
  next =>
    have related := List.pairwise_iff_getElem.mp pairwise _ _ inside' inside more
    simp only [List.getElem_idxOf] at related
    exact absurd related never

namespace Graph

structure Linear (g : Graph) (order : List Nat) : Prop where
  perm : order.Perm g.nodes
  forward : ∀ producer consumer, g.hasEdge producer consumer = true →
    order.idxOf producer < order.idxOf consumer

theorem Linear.mem_iff {g : Graph} {order : List Nat} (linear : g.Linear order) {node : Nat} :
    node ∈ order ↔ node < g.size := by
  rw [linear.perm.mem_iff, nodes, List.mem_range]

theorem Linear.nodup {g : Graph} {order : List Nat} (linear : g.Linear order) : order.Nodup :=
  linear.perm.nodup_iff.mpr List.nodup_range

theorem Linear.length {g : Graph} {order : List Nat} (linear : g.Linear order) :
    order.length = g.size := by
  rw [linear.perm.length_eq, nodes, List.length_range]

theorem Linear.apart {g : Graph} {order : List Nat} (linear : g.Linear order) :
    order.Pairwise fun a b => ¬ g.Leads b a := by
  refine (pairwise_idxOf linear.nodup).imp fun less edge => ?_
  exact Nat.lt_asymm less (linear.forward _ _ (hasEdge_iff.mpr edge))

theorem linear_of_pairwise {g : Graph} {rank : Nat → Nat} (ranked : g.Ranked rank)
    (valid : ∀ a b, g.Leads a b → b < g.size) {order : List Nat} (nodup : order.Nodup)
    (all : ∀ node, node ∈ order ↔ node < g.size)
    (apart : order.Pairwise fun a b => ¬ g.Leads b a) : g.Linear order where
  perm := by
    refine (List.perm_ext_iff_of_nodup nodup List.nodup_range).mpr fun node => ?_
    rw [all, List.mem_range]
  forward producer consumer present := by
    have edge := hasEdge_iff.mp present
    have different : producer ≠ consumer := fun same =>
      Nat.lt_irrefl _ (same ▸ ranked _ _ edge)
    exact idxOf_lt_of_pairwise apart ((all producer).mpr edge.inside)
      ((all consumer).mpr (valid _ _ edge)) different (not_not_intro edge)

theorem mem_unplaced_of_left {g : Graph} {placed : List Nat} {node producer : Nat}
    (left : producer ∈ (g.predecessors node).filter fun producer => !placed.contains producer) :
    g.Leads producer node ∧ producer ∈ g.unplaced placed := by
  have ⟨before, fresh⟩ := List.mem_filter.mp left
  have edge := mem_predecessors.mp before
  exact ⟨edge, mem_unplaced.mpr ⟨edge.inside, by simpa using fresh⟩⟩

theorem exists_ready {g : Graph} {rank : Nat → Nat} (ranked : g.Ranked rank) {placed : List Nat}
    {node : Nat} (waits : node ∈ g.unplaced placed) : ∃ ready, (ready, []) ∈ g.stillWaiting placed := by
  -- Of the nodes that are left, one of least rank is ready.
  induction found : rank node using Nat.strongRecOn generalizing node with
  | _ bound ih =>
    cases left : (g.predecessors node).filter fun producer => !placed.contains producer with
    | nil => exact ⟨node, mem_stillWaiting.mpr ⟨waits, left.symm⟩⟩
    | cons producer rest =>
      obtain ⟨edge, earlier⟩ := mem_unplaced_of_left (left ▸ List.mem_cons_self)
      exact ih (rank producer) (found ▸ ranked _ _ edge) earlier rfl

theorem drain_stillWaiting {g : Graph} {rank : Nat → Nat} (ranked : g.Ranked rank) (steps : Nat)
    (placed : List Nat) (enough : (g.unplaced placed).length ≤ steps) :
    ∃ order, drain steps (g.stillWaiting placed) = (order, []) ∧ order.Nodup ∧
      (∀ node, node ∈ order ↔ node ∈ g.unplaced placed) ∧
      order.Pairwise fun a b => ¬ g.Leads b a := by
  induction steps generalizing placed with
  | zero =>
    have nothing : g.unplaced placed = [] := List.length_eq_zero_iff.mp (Nat.le_zero.mp enough)
    exact ⟨[], by simp [drain, stillWaiting, nothing], .nil, by simp [nothing], .nil⟩
  | succ steps ih =>
    cases ready : (g.stillWaiting placed).find? fun entry => entry.2.isEmpty with
    | none =>
      -- As long as a node is left, one of them is ready.
      have nothing : g.unplaced placed = [] := by
        rw [List.eq_nil_iff_forall_not_mem]
        intro node waits
        obtain ⟨free, member⟩ := exists_ready ranked waits
        simpa using List.find?_eq_none.mp ready _ member
      refine ⟨[], ?_, .nil, by simp [nothing], .nil⟩
      rw [drain, ready, stillWaiting, nothing, List.map_nil]
    | some entry =>
      obtain ⟨node, producers⟩ := entry
      obtain ⟨waits, left⟩ := mem_stillWaiting.mp (List.mem_of_find?_eq_some ready)
      have free : producers = [] := by simpa using List.find?_some ready
      obtain ⟨order, drained, nodup, all, apart⟩ :=
        ih (node :: placed) (Nat.le_of_lt_succ (Nat.lt_of_lt_of_le (unplaced_cons_length waits) enough))
      simp only [unplaced_cons, List.mem_filter, decide_eq_true_eq] at all
      refine ⟨node :: order, ?_, ?_, ?_, ?_⟩
      next => simp only [drain, ready, release_stillWaiting, drained]
      next => exact List.nodup_cons.mpr ⟨fun member => ((all node).mp member).2 rfl, nodup⟩
      next =>
        intro other
        by_cases same : other = node
        next => simpa [same] using waits
        next => simp [same, all]
      next =>
        -- Whatever is placed later still waits now, so it cannot be what this node waits for.
        refine List.pairwise_cons.mpr ⟨fun later member edge => ?_, apart⟩
        have fresh := (mem_unplaced.mp ((all later).mp member).1).2
        have waited : later ∈ (g.predecessors node).filter fun producer => !placed.contains producer :=
          List.mem_filter.mpr ⟨mem_predecessors.mpr edge, by simpa using fresh⟩
        rw [← left, free] at waited
        simp at waited

theorem plainOrder_linear {g : Graph} (built : g.Built) :
    ∃ order, g.plainOrder = .ok order ∧ g.Linear order := by
  obtain ⟨rank, ranked⟩ := built.ranked
  obtain ⟨order, drained, nodup, all, apart⟩ := drain_stillWaiting ranked g.size []
    (by simp [unplaced, nodes])
  have linear : g.Linear order :=
    linear_of_pairwise ranked (fun _ _ => built.valid) nodup (by simpa [mem_unplaced] using all) apart
  refine ⟨order, ?_, linear⟩
  simp [plainOrder_eq, waiting_eq, drained, linear.length]

end Graph

end StoragePlan
