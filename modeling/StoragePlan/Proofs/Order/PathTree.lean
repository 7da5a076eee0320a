import StoragePlan.Order.PathTree
import StoragePlan.Proofs.Order.Linear

set_option autoImplicit false

namespace StoragePlan

theorem Routes.mem_of_farthest? {routes : Routes} {nodes : List Nat} {node : Nat}
    (found : routes.farthest? nodes = some node) : node ∈ nodes := by
  induction nodes generalizing node with
  | nil => simp [Routes.farthest?] at found
  | cons head rest ih =>
    simp only [Routes.farthest?] at found
    split at found
    next => simp_all
    next other farther =>
      split at found
      next => exact List.mem_cons_of_mem _ (ih (farther.trans found))
      next => simp_all

theorem Routes.farthest?_eq_none {routes : Routes} {nodes : List Nat} :
    routes.farthest? nodes = none ↔ nodes = [] := by
  cases nodes with
  | nil => simp [Routes.farthest?]
  | cons head rest =>
    simp only [Routes.farthest?, reduceCtorEq, iff_false]
    split
    next => simp
    next => split <;> simp

def Routes.childrenIn (routes : Routes) (members : List Nat) (parent : Nat) : List Nat :=
  members.filter fun node => (routes.route node).next = some parent

theorem Routes.mem_childrenIn {routes : Routes} {members : List Nat} {parent node : Nat} :
    node ∈ routes.childrenIn members parent ↔
      node ∈ members ∧ (routes.route node).next = some parent := by
  simp [Routes.childrenIn]

theorem Routes.mem_pathFrom {routes : Routes} {steps start node : Nat}
    (member : node ∈ routes.pathFrom steps start) :
    node = start ∨
      ∃ earlier ∈ routes.pathFrom steps start, (routes.route earlier).next = some node := by
  induction steps generalizing start with
  | zero => exact .inl (by simpa [Routes.pathFrom] using member)
  | succ steps ih =>
    simp only [Routes.pathFrom] at member ⊢
    split at member
    next => exact .inl (by simpa using member)
    next next_ step =>
      rcases List.mem_cons.mp member with same | later
      next => exact .inl same
      next =>
        right
        rcases ih later with rfl | ⟨earlier, before, leads⟩
        next => exact ⟨start, List.mem_cons_self, step⟩
        next => exact ⟨earlier, List.mem_cons_of_mem _ before, leads⟩

theorem Routes.pathFrom_eq_cons (routes : Routes) (steps start : Nat) :
    ∃ rest, routes.pathFrom steps start = start :: rest := by
  cases steps with
  | zero => exact ⟨[], rfl⟩
  | succ steps =>
    simp only [pathFrom]
    split
    next => exact ⟨[], rfl⟩
    next => exact ⟨_, rfl⟩

theorem Routes.isChain_pathFrom (routes : Routes) (steps start : Nat) :
    (routes.pathFrom steps start).IsChain fun node next => (routes.route node).next = some next := by
  induction steps generalizing start with
  | zero => exact .singleton start
  | succ steps ih =>
    simp only [pathFrom]
    split
    next => exact .singleton start
    next next leads =>
      obtain ⟨rest, same⟩ := routes.pathFrom_eq_cons steps next
      exact same ▸ .cons_cons leads (same ▸ ih next)

namespace Graph

theorem next_routeVia (g : Graph) (sink : Option Nat) (routes : Routes) (node : Nat) :
    (g.routeVia sink routes node).next = routes.farthest? (g.onward sink node) := by
  unfold routeVia
  split <;> simp_all

theorem route_cons (g : Graph) (sink : Option Nat) (head : Nat) (rest : List Nat) (node : Nat) :
    (g.routes sink (head :: rest)).route node =
      if node = head then g.routeVia sink (g.routes sink rest) head
      else (g.routes sink rest).route node := by
  simp only [routes, List.foldr_cons, Routes.route, List.lookup_cons]
  by_cases same : node = head
  next => simp [same]
  next => simp [same, beq_eq_false_iff_ne.mpr same]

theorem next_routes {g : Graph} {sink : Option Nat} {order : List Nat} {node : Nat}
    (member : node ∈ order) : ∃ later : Routes,
      ((g.routes sink order).route node).next = later.farthest? (g.onward sink node) := by
  induction order with
  | nil => simp at member
  | cons head rest ih =>
    rw [route_cons]
    split
    next same =>
      subst same
      exact ⟨_, next_routeVia g sink _ node⟩
    next different => exact ih ((List.mem_cons.mp member).resolve_left different)

theorem route_append {g : Graph} {sink : Option Nat} {front rest : List Nat} {node : Nat}
    (behind : node ∉ front) :
    (g.routes sink (front ++ rest)).route node = (g.routes sink rest).route node := by
  induction front with
  | nil => rfl
  | cons head front ih =>
    rw [List.mem_cons, not_or] at behind
    rw [List.cons_append, route_cons, if_neg behind.1, ih behind.2]

theorem route_of_not_mem {g : Graph} {sink : Option Nat} {order : List Nat} {node : Nat}
    (outside : node ∉ order) : (g.routes sink order).route node = ⟨0, none⟩ := by
  rw [← List.append_nil order, route_append outside]
  rfl

theorem mem_onward {g : Graph} {sink : Option Nat} {node next : Nat}
    (member : next ∈ g.onward sink node) : g.Leads node next ∨ node < g.size ∧ sink = some next := by
  unfold onward at member
  split at member
  next =>
    split at member
    next inside =>
      right
      exact ⟨inside, by simpa using member⟩
    next => simp at member
  next => exact .inl member

theorem eq_of_mem_virtualSink {g : Graph} {node : Nat} (virtual : g.virtualSink? = some node) :
    node = g.size ∧ g.treeRoot = node := by
  refine ⟨?_, by simp [treeRoot, virtual]⟩
  unfold virtualSink? at virtual
  split at virtual <;> simp_all

theorem sinks_of_few {g : Graph} (few : ¬ 1 < g.sinks.length) (present : g.sinks ≠ []) :
    g.sinks = [g.treeRoot] := by
  cases found : g.sinks with
  | nil => exact absurd found present
  | cons head rest =>
    have alone : rest = [] := List.length_eq_zero_iff.mp (by simpa [found] using few)
    simp [treeRoot, virtualSink?, found, alone]

def candidates (g : Graph) (order : List Nat) : List Nat := order ++ g.virtualSink?.toList

def toRoot (g : Graph) (order : List Nat) : Routes := g.routes g.virtualSink? order

theorem inside_of_next {g : Graph} {order : List Nat} {node next : Nat}
    (step : ((g.toRoot order).route node).next = some next) :
    node ∈ order ∧ next ∈ g.onward g.virtualSink? node := by
  by_cases member : node ∈ order
  next =>
    obtain ⟨later, found⟩ := @next_routes g g.virtualSink? order node member
    exact ⟨member, Routes.mem_of_farthest? (found ▸ step)⟩
  next => simp [toRoot, route_of_not_mem member] at step

theorem next_of_late {g : Graph} {order : List Nat} {node : Nat}
    (late : order.length ≤ order.idxOf node) : ((g.toRoot order).route node).next = none := by
  have outside : node ∉ order := fun member =>
    Nat.not_lt.mpr late (List.idxOf_lt_length_of_mem member)
  rw [toRoot, route_of_not_mem outside]

theorem source_of_no_step {g : Graph} {order : List Nat} {members : List Nat} {source : Nat}
    (member : source ∈ g.sources) : (g.toRoot order).childrenIn members source = [] := by
  obtain ⟨inside, first⟩ := mem_sources.mp member
  rw [List.eq_nil_iff_forall_not_mem]
  intro child below
  have ⟨_, onward⟩ := inside_of_next (Routes.mem_childrenIn.mp below).2
  rcases mem_onward onward with edge | ⟨-, virtual⟩
  next => exact first child edge
  next => exact Nat.ne_of_lt inside (eq_of_mem_virtualSink virtual).1

section Tree

variable {g : Graph} {order : List Nat} (linear : g.Linear order)

include linear

theorem Linear.onward_later {node next : Nat} (member : node ∈ order)
    (onward : next ∈ g.onward g.virtualSink? node) : order.idxOf node < order.idxOf next := by
  rcases mem_onward onward with edge | ⟨-, virtual⟩
  next => exact linear.forward _ _ (hasEdge_iff.mpr edge)
  next =>
    -- The virtual sink is no node of the graph and counts as standing behind all of them.
    have outside : next ∉ order := by
      rw [linear.mem_iff, (eq_of_mem_virtualSink virtual).1]
      exact Nat.lt_irrefl _
    rw [List.idxOf_eq_length_iff.mpr outside]
    exact List.idxOf_lt_length_of_mem member

theorem Linear.next_later {node next : Nat}
    (step : ((g.toRoot order).route node).next = some next) : order.idxOf node < order.idxOf next :=
  have ⟨member, onward⟩ := inside_of_next step
  linear.onward_later member onward

theorem Linear.candidates_sorted :
    (g.candidates order).Pairwise fun a b => a ≠ b ∧ ((g.toRoot order).route b).next ≠ some a := by
  have sink : ∀ node ∈ g.virtualSink?.toList, node ∉ order := by
    intro node virtual member
    have outside := (eq_of_mem_virtualSink (Option.mem_toList.mp virtual)).1
    exact Nat.ne_of_lt (linear.mem_iff.mp member) outside
  refine List.pairwise_append.mpr ⟨?_, ?_, fun a first b second => ⟨?_, fun step => ?_⟩⟩
  next =>
    refine (pairwise_idxOf linear.nodup).imp fun {a b} less => ⟨fun same => ?_, fun step => ?_⟩
    next => exact Nat.lt_irrefl _ (same ▸ less)
    next => exact Nat.lt_asymm less (linear.next_later step)
  next => cases g.virtualSink? with
    | none => exact .nil
    | some sink => exact List.pairwise_singleton _ _
  next => exact fun same => sink b second (same ▸ first)
  next => exact sink b second (inside_of_next step).1

theorem Linear.next_candidate (built : g.Built) {node next : Nat}
    (step : ((g.toRoot order).route node).next = some next) : next ∈ g.candidates order := by
  obtain ⟨-, onward⟩ := inside_of_next step
  rcases mem_onward onward with edge | ⟨-, virtual⟩
  next => exact List.mem_append_left _ (linear.mem_iff.mpr (built.valid edge))
  next => exact List.mem_append_right _ (by simp [virtual])

theorem Linear.root_of_no_step {node : Nat} (candidate : node ∈ g.candidates order)
    (stop : ((g.toRoot order).route node).next = none) : node = g.treeRoot := by
  rcases List.mem_append.mp candidate with member | virtual
  next =>
    have inside := linear.mem_iff.mp member
    obtain ⟨later, found⟩ := @next_routes g g.virtualSink? order node member
    have nothing : g.onward g.virtualSink? node = [] :=
      Routes.farthest?_eq_none.mp (found.symm.trans stop)
    simp only [onward] at nothing
    split at nothing
    next bare =>
      -- A sink that does not lead on to a virtual one is the only sink.
      have absent : g.virtualSink? = none := by simpa [inside] using nothing
      have few : ¬ 1 < g.sinks.length := fun several => by simp [virtualSink?, several] at absent
      have sink : node ∈ g.sinks := mem_sinks.mpr ⟨inside, by simp [Leads, bare]⟩
      rw [sinks_of_few few (List.ne_nil_of_mem sink)] at sink
      exact List.mem_singleton.mp sink
    next some_ => exact absurd nothing some_
  next => exact (eq_of_mem_virtualSink (by simpa using virtual)).2.symm

theorem Linear.path_candidates (built : g.Built) {steps start node : Nat}
    (candidate : start ∈ g.candidates order)
    (member : node ∈ (g.toRoot order).pathFrom steps start) : node ∈ g.candidates order := by
  rcases Routes.mem_pathFrom member with rfl | ⟨earlier, -, step⟩
  next => exact candidate
  next => exact linear.next_candidate built step

theorem Linear.exists_stop {steps start : Nat} (enough : order.length ≤ order.idxOf start + steps) :
    ∃ node ∈ (g.toRoot order).pathFrom steps start, ((g.toRoot order).route node).next = none := by
  -- Each step leads further back in the order, so there are enough of them.
  induction steps generalizing start with
  | zero => exact ⟨start, List.mem_singleton_self start, next_of_late enough⟩
  | succ steps ih =>
    simp only [Routes.pathFrom]
    split
    next stop => exact ⟨start, List.mem_singleton_self start, stop⟩
    next next step =>
      have later := linear.next_later step
      obtain ⟨node, on, stop⟩ := @ih next (by omega)
      exact ⟨node, List.mem_cons_of_mem _ on, stop⟩

theorem Linear.root_mem_pathFrom (built : g.Built) {steps start : Nat}
    (candidate : start ∈ g.candidates order) (enough : order.length ≤ order.idxOf start + steps) :
    g.treeRoot ∈ (g.toRoot order).pathFrom steps start := by
  obtain ⟨node, on, stop⟩ := linear.exists_stop enough
  exact linear.root_of_no_step (linear.path_candidates built candidate on) stop ▸ on

end Tree

end Graph

def leavesBelow (children : Nat → List Nat) : Nat → Nat → List Nat
  | 0, node => [node]
  | depth + 1, node =>
    match children node with
    | [] => [node]
    | below => below.flatMap (leavesBelow children depth)

section Leaves

variable {children : Nat → List Nat}

theorem leavesBelow_succ {leaf : Nat} (bare : children leaf = []) {depth node : Nat}
    (member : leaf ∈ leavesBelow children depth node) :
    leaf ∈ leavesBelow children (depth + 1) node := by
  induction depth generalizing node with
  | zero =>
    obtain rfl : leaf = node := by simpa [leavesBelow] using member
    simp [leavesBelow, bare]
  | succ depth ih =>
    rw [leavesBelow] at member ⊢
    split at member
    next => exact member
    next =>
      obtain ⟨child, below, inside⟩ := List.mem_flatMap.mp member
      exact List.mem_flatMap.mpr ⟨child, below, ih inside⟩

theorem leavesBelow_child {leaf depth parent child : Nat} (below : child ∈ children parent)
    (member : leaf ∈ leavesBelow children depth child) :
    leaf ∈ leavesBelow children (depth + 1) parent := by
  rw [leavesBelow]
  split
  next bare => simp [bare] at below
  next => exact List.mem_flatMap.mpr ⟨child, below, member⟩

theorem children_of_mem_leavesBelow {place : Nat → Nat}
    (lower : ∀ parent, ∀ child ∈ children parent, place child < place parent) {leaf depth node : Nat}
    (enough : place node < depth) (member : leaf ∈ leavesBelow children depth node) :
    children leaf = [] ∧ (leaf = node ∨ ∃ parent, leaf ∈ children parent) := by
  -- Children have lower places, so the depth is never used up.
  induction depth generalizing node with
  | zero => omega
  | succ depth ih =>
    rw [leavesBelow] at member
    split at member
    next bare =>
      obtain rfl : leaf = node := by simpa using member
      exact ⟨bare, .inl rfl⟩
    next =>
      obtain ⟨child, below, inside⟩ := List.mem_flatMap.mp member
      have less := lower node child below
      obtain ⟨bare, same | parent⟩ := ih (by omega) inside
      next => exact ⟨bare, .inr ⟨node, same ▸ below⟩⟩
      next => exact ⟨bare, .inr parent⟩

end Leaves

namespace Graph

def treeMembers (root : Nat) (paths : List (Nat × List Nat)) (candidates : List Nat) : List Nat :=
  candidates.filter fun node => node = root || paths.any fun path => path.2.contains node

theorem mem_treeMembers {root node : Nat} {paths : List (Nat × List Nat)} {candidates : List Nat} :
    node ∈ treeMembers root paths candidates ↔
      node ∈ candidates ∧ (node = root ∨ ∃ path ∈ paths, node ∈ path.2) := by
  simp [treeMembers]

theorem mem_sourcePaths {g : Graph} {routes : Routes} {path : Nat × List Nat} :
    path ∈ g.sourcePaths routes ↔
      ∃ source ∈ g.sources, path = (source, routes.pathFrom g.size source) := by
  simp [sourcePaths, eq_comm]

def members (g : Graph) (order : List Nat) : List Nat :=
  treeMembers g.treeRoot (g.sourcePaths (g.toRoot order)) (g.candidates order)

section Tree

variable {g : Graph} {order : List Nat} (linear : g.Linear order) (built : g.Built)
  {children : Nat → List Nat}
  (below : ∀ parent child, child ∈ children parent ↔
    child ∈ (g.toRoot order).childrenIn (g.members order) parent)

include linear built

omit built in
theorem Linear.source_candidate {source : Nat} (start : source ∈ g.sources) :
    source ∈ g.candidates order :=
  List.mem_append_left _ (linear.mem_iff.mpr (mem_sources.mp start).1)

theorem Linear.path_members {source node : Nat} (start : source ∈ g.sources)
    (member : node ∈ (g.toRoot order).pathFrom g.size source) : node ∈ g.members order :=
  mem_treeMembers.mpr ⟨linear.path_candidates built (linear.source_candidate start) member,
    .inr ⟨_, mem_sourcePaths.mpr ⟨source, start, rfl⟩, member⟩⟩

theorem Linear.root_mem_path {source : Nat} (start : source ∈ g.sources) :
    g.treeRoot ∈ (g.toRoot order).pathFrom g.size source :=
  linear.root_mem_pathFrom built (linear.source_candidate start) (linear.length ▸ Nat.le_add_left _ _)

omit built linear in
theorem Linear.head_source {first : Nat} {rest : List Nat} (linear : g.Linear (first :: rest)) :
    first ∈ g.sources := by
  refine mem_sources.mpr ⟨linear.mem_iff.mp List.mem_cons_self, fun producer edge => ?_⟩
  have before := linear.forward _ _ (hasEdge_iff.mpr edge)
  simp at before

omit built in
theorem Linear.exists_source (nonempty : g.size ≠ 0) : ∃ source, source ∈ g.sources := by
  cases order with
  | nil => exact absurd linear.length.symm nonempty
  | cons first rest => exact ⟨first, linear.head_source⟩

theorem Linear.mem_members_iff_on_path (nonempty : g.size ≠ 0) {node : Nat} : node ∈ g.members order ↔
    ∃ source ∈ g.sources, node ∈ (g.toRoot order).pathFrom g.size source := by
  constructor
  next =>
    intro member
    rcases (mem_treeMembers.mp member).2 with rfl | ⟨path, given, on⟩
    next =>
      obtain ⟨source, start⟩ := linear.exists_source nonempty
      exact ⟨source, start, linear.root_mem_path built start⟩
    next =>
      obtain ⟨source, start, rfl⟩ := mem_sourcePaths.mp given
      exact ⟨source, start, on⟩
  next =>
    intro given
    obtain ⟨source, start, on⟩ := given
    exact linear.path_members built start on

theorem Linear.root_mem_members (nonempty : g.size ≠ 0) : g.treeRoot ∈ g.members order := by
  obtain ⟨source, start⟩ := linear.exists_source nonempty
  exact linear.path_members built start (linear.root_mem_path built start)

include below

theorem Linear.mem_leavesBelow_root {leaf : Nat} (bare : children leaf = []) {depth steps start : Nat}
    (candidate : start ∈ g.candidates order) (enough : order.length ≤ order.idxOf start + steps)
    (path : ∀ node ∈ (g.toRoot order).pathFrom steps start, node ∈ g.members order)
    (member : leaf ∈ leavesBelow children depth start) :
    leaf ∈ leavesBelow children (depth + steps) g.treeRoot := by
  -- A leaf below a node of a path is found from the end of the path as well.
  induction steps generalizing start depth with
  | zero => exact linear.root_of_no_step candidate (next_of_late enough) ▸ member
  | succ steps ih =>
    simp only [Routes.pathFrom] at path
    split at path
    next stop =>
      have root := linear.root_of_no_step candidate stop
      have waiting (more : Nat) : leaf ∈ leavesBelow children (depth + more) start := by
        induction more with
        | zero => exact member
        | succ more deeper => exact leavesBelow_succ bare deeper
      exact root ▸ waiting (steps + 1)
    next next_ step =>
      have later := linear.next_later step
      have child : start ∈ children next_ :=
        (below next_ start).mpr (Routes.mem_childrenIn.mpr ⟨path start List.mem_cons_self, step⟩)
      have further := ih (linear.next_candidate built step) (by omega)
        (fun node inside => path node (List.mem_cons_of_mem _ inside)) (leavesBelow_child child member)
      rwa [Nat.add_right_comm, Nat.add_assoc] at further

theorem Linear.source_mem_leaves {source : Nat} (start : source ∈ g.sources) :
    source ∈ leavesBelow children (g.size + 1) g.treeRoot := by
  have bare : children source = [] := by
    rw [List.eq_nil_iff_forall_not_mem]
    intro child inside
    rw [below, source_of_no_step start] at inside
    simp at inside
  have found := linear.mem_leavesBelow_root built below bare (linear.source_candidate start)
    (by rw [linear.length]; exact Nat.le_add_left _ _) (fun _ => linear.path_members built start)
    (show source ∈ leavesBelow children 1 source by simp [leavesBelow, bare])
  rwa [Nat.add_comm] at found

theorem Linear.source_of_mem_leaves (nonempty : g.size ≠ 0) {leaf : Nat}
    (member : leaf ∈ leavesBelow children (g.size + 1) g.treeRoot) : leaf ∈ g.sources := by
  have lower (parent child : Nat) (inside : child ∈ children parent) :
      order.idxOf child < order.idxOf parent :=
    linear.next_later (Routes.mem_childrenIn.mp ((below parent child).mp inside)).2
  have shallow : order.idxOf g.treeRoot < g.size + 1 :=
    Nat.lt_succ_of_le (linear.length ▸ List.idxOf_le_length)
  obtain ⟨bare, inside⟩ := children_of_mem_leavesBelow lower shallow member
  have tree : leaf ∈ g.members order := by
    rcases inside with rfl | ⟨parent, child⟩
    next => exact linear.root_mem_members built nonempty
    next => exact (Routes.mem_childrenIn.mp ((below parent leaf).mp child)).1
  obtain ⟨source, start, on⟩ := (linear.mem_members_iff_on_path built nonempty).mp tree
  rcases Routes.mem_pathFrom on with rfl | ⟨earlier, before, step⟩
  next => exact start
  next =>
    -- The node before it on the path would be a child.
    have child : earlier ∈ children leaf :=
      (below leaf earlier).mpr (Routes.mem_childrenIn.mpr ⟨linear.path_members built start before, step⟩)
    simp [bare] at child

end Tree

end Graph

end StoragePlan
