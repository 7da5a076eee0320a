import StoragePlan.Proofs.Order.Kahn
import StoragePlan.Order.Strategy
import StoragePlan.Proofs.Relabel.Graph

set_option autoImplicit false

namespace StoragePlan

variable (ρ : String → String)

section Edges

variable (g : Graph) (producer consumer : Nat)

theorem relabel_closesCycle :
    PlanError.closesCycle producer consumer (((g.relabel ρ).label? producer consumer).getD .empty) =
      (PlanError.closesCycle producer consumer ((g.label? producer consumer).getD .empty)).relabel ρ := by
  rw [Graph.label?_relabel, PlanError.relabel]
  cases g.label? producer consumer with
  | none => rfl
  | some blobs => rfl

end Edges

namespace Graph

variable (g : Graph)

@[simp] theorem waiting_relabel : (g.relabel ρ).waiting = g.waiting := by
  simp [waiting]

theorem stuckEdge_relabel (stuck : List (Nat × List Nat)) :
    (g.relabel ρ).stuckEdge stuck = (g.stuckEdge stuck).relabel ρ := by
  unfold stuckEdge
  split
  next => exact relabel_closesCycle ρ g _ _
  next => exact relabel_closesCycle ρ g 0 0

theorem plainOrder_relabel : (g.relabel ρ).plainOrder = relabelOutcome ρ id g.plainOrder := by
  simp only [plainOrder_eq, size_relabel, waiting_relabel, stuckEdge_relabel]
  split
  next => rfl
  next => rfl

@[simp] theorem virtualSink?_relabel : (g.relabel ρ).virtualSink? = g.virtualSink? := by
  simp [virtualSink?]

@[simp] theorem treeRoot_relabel : (g.relabel ρ).treeRoot = g.treeRoot := by
  simp [treeRoot]

@[simp] theorem sourcePaths_relabel (routes : Routes) :
    (g.relabel ρ).sourcePaths routes = g.sourcePaths routes := by
  simp [sourcePaths]

theorem routeVia_relabel (sink : Option Nat) (routes : Routes) (node : Nat) :
    (g.relabel ρ).routeVia sink routes node = g.routeVia sink routes node := by
  simp only [routeVia, onward, successors_relabel, size_relabel]

@[simp] theorem routes_relabel (sink : Option Nat) (order : List Nat) :
    (g.relabel ρ).routes sink order = g.routes sink order := by
  simp only [routes, routeVia_relabel]

theorem pathTree_relabel : (g.relabel ρ).pathTree = relabelOutcome ρ id g.pathTree := by
  simp only [pathTree, size_relabel, virtualSink?_relabel, treeRoot_relabel, sourcePaths_relabel,
    routes_relabel, plainOrder_relabel]
  split
  next => rfl
  next => exact relabelOutcome_bind rfl fun _ _ => rfl

end Graph

namespace Search

variable (g : Graph) (distance : Nat → Nat) (s : Search)

theorem isSettled_relabel (node : Nat) : s.isSettled (g.relabel ρ) node = s.isSettled g node := by
  rw [isSettled, Graph.size_relabel, isSettled]

theorem ahead_relabel (node : Nat) : s.ahead (g.relabel ρ) node = s.ahead g node := by
  simp only [ahead, Graph.successors_relabel, isSettled_relabel]

theorem step_relabel : s.step (g.relabel ρ) distance = relabelOutcome ρ id (s.step g distance) := by
  unfold step
  simp only [isSettled_relabel, ahead_relabel, relabel_closesCycle]
  split
  next => rfl
  next =>
    split
    next => rfl
    next =>
      split
      next => rfl
      next =>
        split
        next => rfl
        next => rfl

theorem run_eq : s.run g distance =
    s.step g distance >>= fun next? => next?.elim (.ok s) (run g distance) := by
  rw [run]
  split
  next stopped => rw [stopped, error_bind]
  next stopped => rw [stopped, ok_bind, Option.elim_none]
  next next taken => rw [taken, ok_bind, Option.elim_some]

theorem run_relabel : s.run (g.relabel ρ) distance = relabelOutcome ρ id (s.run g distance) := by
  fun_induction Search.run g distance s with
  | case1 s error stopped =>
    rw [run_eq, step_relabel, stopped]
    rfl
  | case2 s stopped =>
    rw [run_eq, step_relabel, stopped]
    rfl
  | case3 s next taken ih =>
    rw [run_eq, step_relabel, taken]
    exact ih

end Search

namespace Graph

variable (g : Graph)

theorem depthFirstOrder_relabel (distance : Nat → Nat) (starts : List Nat) :
    (g.relabel ρ).depthFirstOrder distance starts =
      relabelOutcome ρ id (g.depthFirstOrder distance starts) := by
  let search (g : Graph) (s : Search) (node : Nat) : Except PlanError Search :=
    Search.run g distance { s with fringe := [node] }
  have same (s : Search) (node : Nat) :
      search (g.relabel ρ) (id s) (id node) = relabelOutcome ρ id (search g s node) :=
    Search.run_relabel ρ g distance _
  have searches := relabelOutcome_foldlM same starts Search.start
  rw [List.map_id] at searches
  exact relabelOutcome_bind searches fun _ _ => rfl

theorem checkLeaves_relabel (sources leaves : List Nat) :
    checkLeaves sources leaves = relabelOutcome ρ id (checkLeaves sources leaves) :=
  checkCount_relabel ρ _ _ _

theorem longestPathOrder_relabel :
    (g.relabel ρ).longestPathOrder = relabelOutcome ρ id g.longestPathOrder := by
  simp only [longestPathOrder, size_relabel, sources_relabel]
  split
  next => rfl
  next =>
    refine relabelOutcome_bind (pathTree_relabel ρ g) fun tree _ => ?_
    refine relabelOutcome_bind (checkLeaves_relabel ρ _ _) fun _ _ => ?_
    refine relabelOutcome_bind (depthFirstOrder_relabel ρ g _ _) fun order _ => ?_
    exact relabelOutcome_bind (checkCount_relabel ρ _ _ _) fun _ _ => rfl

theorem linearize_relabel (strategy : Strategy) :
    (g.relabel ρ).linearize strategy = relabelOutcome ρ id (g.linearize strategy) := by
  have counted (order : List Nat) :
      (checkCount .linearizedOrder g.size (id order).length >>= fun _ => .ok (id order)) =
        relabelOutcome ρ id (checkCount .linearizedOrder g.size order.length >>= fun _ => .ok order) :=
    relabelOutcome_bind (checkCount_relabel ρ _ _ _) fun _ _ => rfl
  simp only [linearize, size_relabel]
  cases strategy with
  | plain => exact relabelOutcome_bind (plainOrder_relabel ρ g) fun order _ => counted order
  | longestPath => exact relabelOutcome_bind (longestPathOrder_relabel ρ g) fun order _ => counted order

end Graph

theorem placeOps_relabel (ops : List Op) (placed order : List Nat) :
    placeOps (ops.map (Op.relabel ρ)) placed order =
      relabelOutcome ρ (List.map (Op.relabel ρ)) (placeOps ops placed order) := by
  induction order generalizing placed with
  | nil => rfl
  | cons index rest ih =>
    simp only [placeOps, List.getElem?_map, List.length_map]
    cases ops[index]? with
    | none => rfl
    | some op =>
      simp only [Option.map_some, ih]
      split
      next => rfl
      next => cases placeOps ops (index :: placed) rest <;> rfl

theorem reorderOps_relabel (ops : List Op) (order : List Nat) :
    reorderOps (ops.map (Op.relabel ρ)) order =
      relabelOutcome ρ (List.map (Op.relabel ρ)) (reorderOps ops order) := by
  rw [reorderOps, reorderOps, List.length_map]
  exact relabelOutcome_bind (checkCount_relabel ρ _ _ _) fun _ _ => placeOps_relabel ρ ops [] order

end StoragePlan
