import Mathlib.Logic.Relation
import Mathlib.Order.Bounds.Defs
import StoragePlan.Proofs.Order.Branches

set_option autoImplicit false

namespace StoragePlan

open Relation (ReflTransGen)

namespace Routes

theorem farthest?_congr {routes routes' : Routes} {nodes : List Nat}
    (same : ∀ node ∈ nodes, routes.route node = routes'.route node) :
    routes.farthest? nodes = routes'.farthest? nodes := by
  induction nodes with
  | nil => rfl
  | cons head rest ih =>
    have ⟨here, later⟩ := List.forall_mem_cons.mp same
    have equal := ih later
    simp only [farthest?, equal]
    split
    next => rfl
    next other found =>
      have member := mem_of_farthest? (equal.trans found)
      unfold distance
      rw [here, later other member]

theorem farthest?_greatest {routes : Routes} {nodes : List Nat} {node : Nat}
    (ascending : nodes.Pairwise (· < ·)) (found : routes.farthest? nodes = some node) :
    ∀ other ∈ nodes, routes.distance other < routes.distance node ∨
      routes.distance other = routes.distance node ∧ node ≤ other := by
  induction nodes generalizing node with
  | nil => simp
  | cons head rest ih =>
    have ⟨least, later⟩ := List.pairwise_cons.mp ascending
    simp only [farthest?] at found
    split at found
    next alone =>
      have nothing := farthest?_eq_none.mp alone
      simp_all
    next best farthest =>
      have greatest := ih later farthest
      split at found
      next less =>
        obtain rfl := Option.some.inj found
        exact List.forall_mem_cons.mpr ⟨.inl less, greatest⟩
      next notLess =>
        obtain rfl := Option.some.inj found
        refine List.forall_mem_cons.mpr ⟨.inr ⟨rfl, Nat.le_refl _⟩, fun other inside => ?_⟩
        have bound := greatest other inside
        have behind := least other inside
        omega

end Routes

namespace Graph

theorem routeVia_congr {g : Graph} {sink : Option Nat} {routes routes' : Routes} {node : Nat}
    (same : ∀ next ∈ g.onward sink node, routes.route next = routes'.route next) :
    g.routeVia sink routes node = g.routeVia sink routes' node := by
  simp only [routeVia, Routes.farthest?_congr same]
  split
  next => rfl
  next next found =>
    have member := Routes.mem_of_farthest? found
    simp only [Routes.distance, same next member]

def extent (g : Graph) : Nat := if 1 < g.sinks.length then g.size + 1 else g.size

def Onward (g : Graph) (node next : Nat) : Prop :=
  g.Leads node next ∨ 1 < g.sinks.length ∧ node ∈ g.sinks ∧ next = g.size

inductive Trail (g : Graph) : Nat → Nat → List Nat → Prop
  | arrived (node : Nat) : Trail g node node [node]
  | onward {node next last : Nat} {rest : List Nat} (edge : g.Onward node next)
      (trail : Trail g next last rest) : Trail g node last (node :: rest)

theorem Trail.eq_cons {g : Graph} {node last : Nat} {nodes : List Nat}
    (trail : g.Trail node last nodes) : ∃ rest, nodes = node :: rest := by
  cases trail with
  | arrived => exact ⟨[], rfl⟩
  | @onward _ _ _ rest => exact ⟨rest, rfl⟩

theorem mem_onward_iff {g : Graph} {node next : Nat} :
    next ∈ g.onward g.virtualSink? node ↔ g.Onward node next := by
  have sink : node ∈ g.sinks ↔ node < g.size ∧ g.successors node = [] := by
    simp [sinks, nodes, List.isEmpty_iff]
  rw [Onward, Leads, sink, onward]
  split
  next bare =>
    by_cases several : 1 < g.sinks.length
    next =>
      by_cases inside : node < g.size
      next => simp [bare, virtualSink?, several, inside]
      next => simp [bare, inside]
    next => simp [bare, virtualSink?, several]
  next some_ =>
    have leads : g.successors node ≠ [] := some_
    simp [leads]

theorem onward_ascending (g : Graph) (node : Nat) :
    (g.onward g.virtualSink? node).Pairwise (· < ·) := by
  unfold onward
  split
  next =>
    cases g.virtualSink? with
    | none => simp
    | some sink => split <;> simp
  next => exact g.successors_ascending node

theorem Onward.inside {g : Graph} {node next : Nat} (edge : g.Onward node next) : node < g.size := by
  rcases edge with edge | ⟨-, sink, -⟩
  next => exact edge.inside
  next => exact (mem_sinks.mp sink).1

theorem lt_extent_of_lt {g : Graph} {node : Nat} (inside : node < g.size) : node < g.extent := by
  unfold extent
  split <;> omega

theorem Onward.lt_extent {g : Graph} (built : g.Built) {node next : Nat}
    (edge : g.Onward node next) : next < g.extent := by
  rcases edge with edge | ⟨several, -, rfl⟩
  next => exact lt_extent_of_lt (built.valid edge)
  next => simp [extent, several]

theorem sinks_ne_nil {g : Graph} (built : g.Built) (nonempty : g.size ≠ 0) : g.sinks ≠ [] := by
  -- The last node of a linear order is a sink.
  obtain ⟨order, -, linear⟩ := plainOrder_linear built
  rcases List.eq_nil_or_concat order with rfl | ⟨front, last, rfl⟩
  next => exact absurd linear.length.symm nonempty
  next =>
    have member : last ∈ front.concat last := by simp
    refine List.ne_nil_of_mem (mem_sinks.mpr ⟨linear.mem_iff.mp member, fun consumer edge => ?_⟩)
    have placed := linear.mem_iff.mpr (built.valid edge)
    have apart := linear.apart
    rw [List.concat_eq_append] at placed apart
    rcases List.mem_append.mp placed with before | same
    next => exact (List.pairwise_append.mp apart).2.2 consumer before last List.mem_cons_self edge
    next =>
      have later := linear.forward _ _ (hasEdge_iff.mpr edge)
      exact Nat.lt_irrefl _ (List.mem_singleton.mp same ▸ later)

theorem treeRoot_of_several {g : Graph} (several : 1 < g.sinks.length) : g.treeRoot = g.size := by
  simp [treeRoot, virtualSink?, several]

theorem eq_treeRoot_iff {g : Graph} (built : g.Built) (nonempty : g.size ≠ 0) {node : Nat} :
    node = g.treeRoot ↔ node < g.extent ∧ ∀ next, ¬ g.Onward node next := by
  by_cases several : 1 < g.sinks.length
  next =>
    rw [treeRoot_of_several several, extent, if_pos several]
    constructor
    next =>
      rintro rfl
      exact ⟨Nat.lt_succ_self _, fun next edge => Nat.lt_irrefl _ edge.inside⟩
    next =>
      intro ⟨bound, last⟩
      by_contra different
      have sink : node ∈ g.sinks :=
        mem_sinks.mpr ⟨by omega, fun consumer edge => last consumer (.inl edge)⟩
      exact last g.size (.inr ⟨several, sink, rfl⟩)
  next =>
    have sinks (other : Nat) : other = g.treeRoot ↔ other ∈ g.sinks := by
      rw [sinks_of_few several (sinks_ne_nil built nonempty), List.mem_singleton]
    rw [sinks, mem_sinks, extent, if_neg several]
    simp [Onward, several]

end Graph

structure Routes.Longest (routes : Routes) (g : Graph) : Prop where
  stop : ∀ node, (routes.route node).next = none →
    routes.distance node = 0 ∧ ∀ next, ¬ g.Onward node next
  step : ∀ node next, (routes.route node).next = some next →
    g.Onward node next ∧ routes.distance node = routes.distance next + 1 ∧
      ∀ other, g.Onward node other → routes.distance other < routes.distance next ∨
        routes.distance other = routes.distance next ∧ next ≤ other

namespace Graph

theorem Linear.route_eq {g : Graph} {order : List Nat} (linear : g.Linear order) {node : Nat}
    (member : node ∈ order) :
    (g.toRoot order).route node = g.routeVia g.virtualSink? (g.toRoot order) node := by
  obtain ⟨front, rest, split⟩ := List.append_of_mem member
  have sorted : (front ++ node :: rest).Pairwise fun a b => order.idxOf a < order.idxOf b := by
    rw [← split]
    exact pairwise_idxOf linear.nodup
  have earlier : ∀ other ∈ front, order.idxOf other < order.idxOf node := fun other inside =>
    (List.pairwise_append.mp sorted).2.2 other inside node List.mem_cons_self
  have fresh : node ∉ front := fun inside => Nat.lt_irrefl _ (earlier node inside)
  have here : (g.toRoot order).route node =
      g.routeVia g.virtualSink? (g.routes g.virtualSink? rest) node := by
    rw [toRoot, split, route_append fresh, route_cons, if_pos rfl]
  rw [here]
  refine routeVia_congr fun next onward => ?_
  -- The next nodes stand further back, so their routes were known by then.
  have later := linear.onward_later member onward
  have behind : next ∉ front ++ [node] := by
    intro inside
    rcases List.mem_append.mp inside with inside | same
    next => exact Nat.lt_asymm later (earlier next inside)
    next => exact Nat.lt_irrefl _ (List.mem_singleton.mp same ▸ later)
  rw [toRoot, split, List.append_cons, route_append behind]

theorem Linear.longest {g : Graph} {order : List Nat} (linear : g.Linear order) :
    (g.toRoot order).Longest g where
  stop node stop := by
    by_cases member : node ∈ order
    next =>
      have route := linear.route_eq member
      rw [route, next_routeVia] at stop
      refine ⟨by rw [Routes.distance, route, routeVia, stop], fun next edge => ?_⟩
      have onward := mem_onward_iff.mpr edge
      simp [Routes.farthest?_eq_none.mp stop] at onward
    next =>
      have bare : (g.toRoot order).distance node = 0 := by
        rw [Routes.distance, toRoot, route_of_not_mem member]
      exact ⟨bare, fun next edge => member (linear.mem_iff.mpr edge.inside)⟩
  step node next step := by
    obtain ⟨member, onward⟩ := inside_of_next step
    have route := linear.route_eq member
    rw [route, next_routeVia] at step
    refine ⟨mem_onward_iff.mp onward, by rw [Routes.distance, route, routeVia, step], ?_⟩
    intro other edge
    exact Routes.farthest?_greatest (g.onward_ascending node) step other (mem_onward_iff.mpr edge)

theorem Linear.distance_le {g : Graph} {order : List Nat} (linear : g.Linear order) (node : Nat) :
    order.idxOf node + (g.toRoot order).distance node ≤ order.length := by
  induction found : (g.toRoot order).distance node generalizing node with
  | zero => exact List.idxOf_le_length
  | succ steps ih =>
    cases step : ((g.toRoot order).route node).next with
    | none =>
      have stopped := (linear.longest.stop node step).1
      omega
    | some next =>
      have further := (linear.longest.step node next step).2.1
      have later := linear.next_later step
      have bound := ih next (by omega)
      omega

end Graph

namespace Routes

def Goes (routes : Routes) (node next : Nat) : Prop := (routes.route node).next = some next

def path (routes : Routes) (node : Nat) : List Nat := routes.pathFrom (routes.distance node) node

theorem path_eq_cons (routes : Routes) (node : Nat) : ∃ rest, routes.path node = node :: rest :=
  routes.pathFrom_eq_cons (routes.distance node) node

section Longest

variable {routes : Routes} {g : Graph} (longest : routes.Longest g) {node next : Nat}

include longest

theorem Longest.path_stop (stop : (routes.route node).next = none) : routes.path node = [node] := by
  rw [path, (longest.stop node stop).1, pathFrom]

theorem Longest.path_step (step : (routes.route node).next = some next) :
    routes.path node = node :: routes.path next := by
  rw [path, (longest.step node next step).2.1, pathFrom, step, path]

theorem Longest.pathFrom_eq {steps : Nat} (enough : routes.distance node ≤ steps) :
    routes.pathFrom steps node = routes.path node := by
  induction steps generalizing node with
  | zero => rw [path, Nat.le_zero.mp enough]
  | succ steps ih =>
    cases step : (routes.route node).next with
    | none => simp only [pathFrom, step, longest.path_stop step]
    | some next =>
      have further := (longest.step node next step).2.1
      have rest : routes.pathFrom steps next = routes.path next := ih (by omega)
      simp only [pathFrom, step, longest.path_step step, rest]

theorem Longest.getElem?_path {position : Nat} :
    (routes.path node)[position]? = some next →
      routes.distance node = routes.distance next + position := by
  induction position generalizing node with
  | zero =>
    intro here
    cases step : (routes.route node).next with
    | none => simp_all [longest.path_stop step]
    | some other => simp_all [longest.path_step step]
  | succ position ih =>
    intro later
    cases step : (routes.route node).next with
    | none => simp [longest.path_stop step] at later
    | some other =>
      have further := (longest.step node other step).2.1
      rw [longest.path_step step, List.getElem?_cons_succ] at later
      have remaining := ih later
      omega

theorem Longest.lt_of_onward (edge : g.Onward node next) :
    routes.distance next < routes.distance node := by
  cases step : (routes.route node).next with
  | none => exact absurd edge ((longest.stop node step).2 next)
  | some best =>
    have ⟨_, further, greatest⟩ := longest.step node best step
    have bound := greatest next edge
    omega

theorem Longest.length_le {last : Nat} {nodes : List Nat} (trail : g.Trail node last nodes) :
    nodes.length ≤ routes.distance node + 1 := by
  induction trail with
  | arrived node => simp
  | onward edge trail ih =>
    have closer := longest.lt_of_onward edge
    rw [List.length_cons]
    omega

theorem Longest.mem_path_iff : next ∈ routes.path node ↔ ReflTransGen routes.Goes node next := by
  constructor
  next =>
    intro member
    induction found : routes.distance node generalizing node with
    | zero =>
      rw [path, found, pathFrom, List.mem_singleton] at member
      exact member ▸ .refl
    | succ steps ih =>
      cases step : (routes.route node).next with
      | none =>
        have stopped := (longest.stop node step).1
        omega
      | some other =>
        have further := (longest.step node other step).2.1
        rw [longest.path_step step] at member
        rcases List.mem_cons.mp member with rfl | later
        next => exact .refl
        next => exact .head step (ih later (by omega))
  next =>
    intro reached
    induction reached using ReflTransGen.head_induction_on with
    | refl =>
      obtain ⟨rest, same⟩ := routes.path_eq_cons next
      simp [same]
    | head step _ ih => exact longest.path_step step ▸ List.mem_cons_of_mem _ ih

theorem Longest.distance_le (reached : ReflTransGen routes.Goes node next) :
    routes.distance next ≤ routes.distance node := by
  induction reached with
  | refl => exact Nat.le_refl _
  | tail _ step ih =>
    have further := (longest.step _ _ step).2.1
    omega

theorem Longest.eq_of_distance {a b : Nat} (first : ReflTransGen routes.Goes node a)
    (second : ReflTransGen routes.Goes node b) (same : routes.distance a = routes.distance b) :
    a = b := by
  obtain ⟨i, here⟩ := List.mem_iff_getElem?.mp (longest.mem_path_iff.mpr first)
  obtain ⟨j, there⟩ := List.mem_iff_getElem?.mp (longest.mem_path_iff.mpr second)
  have place := longest.getElem?_path here
  have place' := longest.getElem?_path there
  obtain rfl : i = j := by omega
  exact Option.some.inj (here.symm.trans there)

theorem Longest.onward {a b : Nat} (first : ReflTransGen routes.Goes node a)
    (second : ReflTransGen routes.Goes node b) (closer : routes.distance b ≤ routes.distance a) :
    ReflTransGen routes.Goes a b := by
  have unique : Relator.RightUnique routes.Goes := fun _ _ _ step step' =>
    Option.some.inj (step.symm.trans step')
  rcases ReflTransGen.total_of_right_unique unique first second with forth | back
  next => exact forth
  next =>
    have same := Nat.le_antisymm closer (longest.distance_le back)
    exact longest.eq_of_distance first second same.symm ▸ .refl

theorem Longest.path_split (reached : ReflTransGen routes.Goes node next) :
    ∃ front, routes.path node = front ++ routes.path next ∧
      ∀ other ∈ front, routes.distance next < routes.distance other := by
  induction reached using ReflTransGen.head_induction_on with
  | refl => exact ⟨[], rfl, by simp⟩
  | @head node other step reached ih =>
    obtain ⟨front, split, farther⟩ := ih
    have closer := longest.distance_le reached
    have further := (longest.step node other step).2.1
    refine ⟨node :: front, by rw [longest.path_step step, split, List.cons_append], ?_⟩
    exact List.forall_mem_cons.mpr ⟨by omega, farther⟩

theorem Longest.goes_of_split {a b : Nat} {front back : List Nat}
    (split : routes.path node = front ++ a :: b :: back) : routes.Goes a b := by
  induction front generalizing node with
  | nil =>
    cases step : (routes.route node).next with
    | none => simp [longest.path_stop step] at split
    | some next =>
      obtain ⟨rest, same⟩ := routes.path_eq_cons next
      rw [longest.path_step step, same, List.nil_append, List.cons.injEq, List.cons.injEq] at split
      exact split.1 ▸ split.2.1 ▸ step
  | cons head front ih =>
    cases step : (routes.route node).next with
    | none => simp [longest.path_stop step] at split
    | some next =>
      rw [longest.path_step step, List.cons_append, List.cons.injEq] at split
      exact ih split.2

theorem Longest.path_least {last : Nat} {nodes : List Nat} (trail : g.Trail node last nodes)
    (length : nodes.length = routes.distance node + 1) :
    nodes = routes.path node ∨ List.Lex (· < ·) (routes.path node) nodes := by
  induction trail with
  | arrived node =>
    have bare : routes.distance node = 0 := by simpa using length.symm
    simp [path, bare, pathFrom]
  | @onward node next last rest edge trail ih =>
    cases step : (routes.route node).next with
    | none => exact absurd edge ((longest.stop node step).2 next)
    | some best =>
      obtain ⟨-, further, greatest⟩ := longest.step node best step
      have bound := longest.length_le trail
      have choice := greatest next edge
      rw [List.length_cons] at length
      rw [longest.path_step step]
      -- The rest is as long as possible, so the next node is as far away as the best one.
      have least : best ≤ next := by omega
      rcases Nat.lt_or_eq_of_le least with less | rfl
      next =>
        obtain ⟨rest, rfl⟩ := trail.eq_cons
        obtain ⟨rest', same⟩ := routes.path_eq_cons best
        exact .inr (same ▸ .cons (.rel less))
      next => exact (ih (by omega)).imp (congrArg _) .cons

theorem Longest.trail_path (built : g.Built) (nonempty : g.size ≠ 0) (inside : node < g.extent) :
    g.Trail node g.treeRoot (routes.path node) ∧
      (routes.path node).length = routes.distance node + 1 := by
  induction found : routes.distance node generalizing node with
  | zero =>
    cases step : (routes.route node).next with
    | none =>
      have root := (Graph.eq_treeRoot_iff built nonempty).mpr ⟨inside, (longest.stop node step).2⟩
      rw [longest.path_stop step]
      exact ⟨root ▸ .arrived node, rfl⟩
    | some next =>
      have further := (longest.step node next step).2.1
      omega
  | succ steps ih =>
    cases step : (routes.route node).next with
    | none =>
      have stopped := (longest.stop node step).1
      omega
    | some next =>
      have ⟨edge, further, _⟩ := longest.step node next step
      have ⟨trail, length⟩ := ih (edge.lt_extent built) (by omega)
      rw [longest.path_step step, List.length_cons, length]
      exact ⟨.onward edge trail, rfl⟩

theorem Longest.isGreatest_distance (built : g.Built) (nonempty : g.size ≠ 0)
    (inside : node < g.extent) :
    IsGreatest {steps | ∃ nodes, g.Trail node g.treeRoot nodes ∧ nodes.length = steps + 1}
      (routes.distance node) := by
  refine ⟨⟨_, longest.trail_path built nonempty inside⟩, ?_⟩
  intro steps ⟨nodes, trail, length⟩
  have bound := longest.length_le trail
  omega

end Longest

end Routes

namespace Graph

theorem Linear.pathFrom_size {g : Graph} {order : List Nat} (linear : g.Linear order) (node : Nat) :
    (g.toRoot order).pathFrom g.size node = (g.toRoot order).path node := by
  have bound := linear.distance_le node
  rw [linear.length] at bound
  exact linear.longest.pathFrom_eq (Nat.le_trans (Nat.le_add_left _ _) bound)

theorem get?_sourcePaths {g : Graph} {routes : Routes} {source : Nat} {path : List Nat} :
    (Table.ofList (g.sourcePaths routes)).get? source = some path ↔
      source ∈ g.sources ∧ path = routes.pathFrom g.size source := by
  constructor
  next =>
    intro found
    obtain ⟨other, start, same⟩ := mem_sourcePaths.mp (Table.mem_of_get?_ofList found)
    obtain ⟨rfl, rfl⟩ := Prod.mk.inj same
    exact ⟨start, rfl⟩
  next =>
    rintro ⟨start, rfl⟩
    cases found : (Table.ofList (g.sourcePaths routes)).get? source with
    | none =>
      have entry : (source, routes.pathFrom g.size source) ∈ g.sourcePaths routes :=
        mem_sourcePaths.mpr ⟨source, start, rfl⟩
      exact absurd rfl (Table.get?_ofList_eq_none.mp found _ entry)
    | some path =>
      obtain ⟨other, -, same⟩ := mem_sourcePaths.mp (Table.mem_of_get?_ofList found)
      obtain ⟨rfl, rfl⟩ := Prod.mk.inj same
      rfl

structure Tree (g : Graph) (tree : PathTree) (order : List Nat) : Prop where
  linear : g.Linear order
  root : tree.root = g.treeRoot
  distance : tree.distance = (List.range g.extent).map (g.toRoot order).distance
  path : ∀ source path, tree.paths.get? source = some path ↔
    source ∈ g.sources ∧ path = (g.toRoot order).path source
  heights : tree.heights = treeHeights ((g.toRoot order).childrenIn (g.members order)) (g.members order)
  leaves : tree.sortedLeaves = leavesBelow
    (fun node => sortBy (beforeInTree tree.heights)
      ((g.toRoot order).childrenIn (g.members order) node)) (g.size + 1) g.treeRoot

theorem pathTree_cases {g : Graph} (built : g.Built) (nonempty : g.size ≠ 0) :
    ∃ tree order, g.pathTree = .ok tree ∧ g.Tree tree order := by
  obtain ⟨order, planned, linear⟩ := plainOrder_linear built
  have extent : g.extent = (g.candidates order).length := by
    rw [candidates, List.length_append, linear.length]
    unfold extent virtualSink?
    split <;> rfl
  refine ⟨_, order, pathTree_eq built nonempty linear planned, linear, rfl, ?_, ?_, rfl, rfl⟩
  next => rw [extent]; rfl
  next =>
    intro source path
    rw [treeAlong, get?_sourcePaths]
    exact linear.pathFrom_size source ▸ Iff.rfl

theorem Tree.getElem?_distance {g : Graph} {tree : PathTree} {order : List Nat}
    (planted : g.Tree tree order) {node steps : Nat} : tree.distance[node]? = some steps ↔
      node < g.extent ∧ steps = (g.toRoot order).distance node := by
  rw [planted.distance, List.getElem?_map]
  by_cases inside : node < g.extent
  next => simp [inside, eq_comm]
  next => simp [inside]

structure LongestPaths (g : Graph) (tree : PathTree) : Prop where
  root : ∀ node, node = tree.root ↔ node < g.extent ∧ ∀ next, ¬ g.Onward node next
  size : tree.distance.length = g.extent
  distances : ∀ node distance, tree.distance[node]? = some distance →
    IsGreatest {steps | ∃ nodes, g.Trail node tree.root nodes ∧ nodes.length = steps + 1} distance
  sources : ∀ node, node ∈ tree.paths.keys ↔ node ∈ g.sources
  trail : ∀ source path, tree.paths.get? source = some path → g.Trail source tree.root path
  length : ∀ source path, tree.paths.get? source = some path →
    ∃ distance, tree.distance[source]? = some distance ∧ path.length = distance + 1
  least : ∀ source path, tree.paths.get? source = some path →
    ∀ other, g.Trail source tree.root other → other.length = path.length →
      other = path ∨ List.Lex (· < ·) path other

theorem pathTree_longest {g : Graph} (built : g.Built) (nonempty : g.size ≠ 0) :
    ∃ tree, g.pathTree = .ok tree ∧ g.LongestPaths tree := by
  obtain ⟨tree, order, found, planted⟩ := pathTree_cases built nonempty
  have longest := planted.linear.longest
  have taken {source : Nat} {path : List Nat} (given : tree.paths.get? source = some path) :
      source < g.extent ∧ path = (g.toRoot order).path source := by
    obtain ⟨start, same⟩ := (planted.path source path).mp given
    exact ⟨lt_extent_of_lt (mem_sources.mp start).1, same⟩
  refine ⟨tree, found, ?root, ?size, ?distances, ?sources, ?trail, ?length, ?least⟩
  case root => exact fun node => planted.root ▸ eq_treeRoot_iff built nonempty
  case size => rw [planted.distance, List.length_map, List.length_range]
  case distances =>
    intro node distance given
    obtain ⟨inside, rfl⟩ := planted.getElem?_distance.mp given
    exact planted.root ▸ longest.isGreatest_distance built nonempty inside
  case sources =>
    intro node
    rw [Table.mem_keys_iff, Option.isSome_iff_exists]
    simp only [planted.path, exists_and_left, exists_eq, and_true]
  case trail =>
    intro source path given
    obtain ⟨inside, rfl⟩ := taken given
    exact planted.root ▸ (longest.trail_path built nonempty inside).1
  case length =>
    intro source path given
    obtain ⟨inside, rfl⟩ := taken given
    exact ⟨_, planted.getElem?_distance.mpr ⟨inside, rfl⟩, (longest.trail_path built nonempty inside).2⟩
  case least =>
    intro source path given other trail same
    obtain ⟨inside, rfl⟩ := taken given
    exact longest.path_least trail (same.trans (longest.trail_path built nonempty inside).2)

theorem pathTree_longest_fork :
    let fork := ((empty 3).setLabel 0 1 .empty).setLabel 0 2 .empty
    fork.Built ∧ fork.size ≠ 0 ∧ ∃ tree, fork.pathTree = .ok tree ∧ tree.root = 3 ∧
      tree.paths.get? 0 = some [0, 1, 3] ∧ fork.Trail 0 3 [0, 1, 3] ∧
      ∀ other, fork.Trail 0 3 other → other.length = 3 →
        other = [0, 1, 3] ∨ List.Lex (· < ·) [0, 1, 3] other := by
  intro fork
  have first : (empty 3).addEdge 0 1 .empty = .ok ((empty 3).setLabel 0 1 .empty) := by
    decide +kernel
  have second : ((empty 3).setLabel 0 1 .empty).addEdge 0 2 .empty = .ok fork := by decide +kernel
  have built : fork.Built := .addEdge (.addEdge (.isolated 3) first) second
  have nonempty : fork.size ≠ 0 := by decide +kernel
  obtain ⟨evaluated, known, view⟩ : ∃ tree, fork.pathTree = .ok tree ∧
      (tree.root, tree.paths.get? 0) = (3, some [0, 1, 3]) :=
    exists_ok_of_view (by decide +kernel)
  obtain ⟨root, path⟩ := Prod.mk.inj view
  obtain ⟨tree, found, longest⟩ := pathTree_longest built nonempty
  obtain rfl : evaluated = tree := Except.ok.inj (known.symm.trans found)
  have trail := longest.trail 0 _ path
  have least := longest.least 0 _ path
  rw [root] at trail least
  exact ⟨built, nonempty, evaluated, known, root, path, trail, least⟩

end Graph

end StoragePlan
