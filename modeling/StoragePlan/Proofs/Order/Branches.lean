import Mathlib.Data.List.Perm.Subperm
import Mathlib.Data.List.Sort
import Mathlib.Logic.Relation
import StoragePlan.Proofs.Order.PathTree

set_option autoImplicit false

namespace StoragePlan

open Relation (ReflTransGen)

namespace Branches

/-- Of each node that is attached, the route tells what it is attached to. -/
structure Follows (branches : Branches) (routes : Routes) : Prop where
  nodup : ∀ parent, (branches.below parent).Nodup
  mem_below : ∀ parent child, child ∈ branches.below parent ↔
    child ∈ branches.inTree ∧ (routes.route child).next = some parent

section Attach

variable {routes : Routes} {branches : Branches}

theorem mem_inTree_attach {child parent node : Nat} :
    node ∈ (branches.attach child parent).inTree ↔ node = child ∨ node ∈ branches.inTree := by
  unfold attach
  split
  next known =>
    have member : child ∈ branches.inTree := by simpa using known
    exact ⟨.inr, fun either => either.elim (fun same => same ▸ member) id⟩
  next => exact List.mem_cons

theorem mem_inTree_attachPath {path : List Nat} {node : Nat} :
    node ∈ (branches.attachPath path).inTree ↔ node ∈ path.dropLast ∨ node ∈ branches.inTree := by
  induction path generalizing branches with
  | nil => simp [attachPath]
  | cons first rest ih =>
    cases rest with
    | nil => simp [attachPath]
    | cons second rest =>
      have step : branches.attachPath (first :: second :: rest) =
          (branches.attach first second).attachPath (second :: rest) := rfl
      rw [step, ih, mem_inTree_attach, List.dropLast_cons_cons, List.mem_cons, or_left_comm, or_assoc]

theorem Follows.attach (follows : branches.Follows routes) {child parent : Nat}
    (step : (routes.route child).next = some parent) :
    (branches.attach child parent).Follows routes := by
  unfold Branches.attach
  split
  next => exact follows
  next unknown =>
    have fresh : child ∉ branches.inTree := by simpa using unknown
    have below (other : Nat) : Branches.below ⟨child :: branches.inTree,
        branches.children.put parent (branches.below parent ++ [child])⟩ other =
          if parent = other then branches.below parent ++ [child] else branches.below other := by
      simp only [Branches.below, Table.get?_put]
      split <;> rfl
    constructor
    case nodup =>
      intro other
      rw [below]
      split
      next =>
        refine List.nodup_append.mpr ⟨follows.nodup parent, List.nodup_singleton child, ?_⟩
        rintro known inside _ here rfl
        have member := ((follows.mem_below parent known).mp inside).1
        exact fresh (List.mem_singleton.mp here ▸ member)
      next => exact follows.nodup other
    case mem_below =>
      intro other node
      rw [below, List.mem_cons]
      split
      next same =>
        subst same
        rw [List.mem_append, List.mem_singleton, follows.mem_below]
        constructor
        next =>
          rintro (known | rfl)
          next => exact ⟨.inr known.1, known.2⟩
          next => exact ⟨.inl rfl, step⟩
        next =>
          rintro ⟨rfl | known, leads⟩
          next => exact .inr rfl
          next => exact .inl ⟨known, leads⟩
      next different =>
        rw [follows.mem_below]
        refine and_congr_left fun leads => (or_iff_right ?_).symm
        rintro rfl
        exact different (Option.some.inj (step.symm.trans leads))

theorem Follows.attachPath (follows : branches.Follows routes) {path : List Nat}
    (chain : path.IsChain fun node next => (routes.route node).next = some next) :
    (branches.attachPath path).Follows routes := by
  induction path generalizing branches with
  | nil => exact follows
  | cons first rest ih =>
    cases rest with
    | nil => exact follows
    | cons second rest =>
      have ⟨step, later⟩ := List.isChain_cons_cons.mp chain
      exact ih (follows.attach step) later

end Attach

section Grow

variable {routes : Routes} {root : Nat} {paths : List (Nat × List Nat)}

theorem mem_inTree_grow {node : Nat} : node ∈ (grow root paths).inTree ↔
    node = root ∨ ∃ path ∈ paths, node ∈ path.2.dropLast := by
  have fold (start : Branches) :
      node ∈ (paths.foldl (fun branches path => branches.attachPath path.2) start).inTree ↔
        node ∈ start.inTree ∨ ∃ path ∈ paths, node ∈ path.2.dropLast := by
    induction paths generalizing start with
    | nil => simp
    | cons path rest ih =>
      rw [List.foldl_cons, ih, mem_inTree_attachPath, List.exists_mem_cons_iff, or_right_comm, or_comm]
  exact (fold _).trans (or_congr_left List.mem_singleton)

theorem follows_grow (stop : (routes.route root).next = none) (chained : ∀ path ∈ paths,
    path.2.IsChain fun node next => (routes.route node).next = some next) :
    (grow root paths).Follows routes := by
  have fold (start : Branches) (follows : start.Follows routes) :
      (paths.foldl (fun branches path => branches.attachPath path.2) start).Follows routes := by
    induction paths generalizing start with
    | nil => exact follows
    | cons path rest ih =>
      have ⟨here, later⟩ := List.forall_mem_cons.mp chained
      exact ih later _ (follows.attachPath here)
  refine fold _ ⟨fun _ => List.nodup_nil, fun parent child => ⟨fun inside => ?_, ?_⟩⟩
  next => simp [below] at inside
  next =>
    rintro ⟨inside, leads⟩
    rw [List.mem_singleton.mp inside, stop] at leads
    simp at leads

end Grow

end Branches

section Pop

variable {children : Nat → List Nat}

def nodesBelow (children : Nat → List Nat) : Nat → Nat → List Nat
  | 0, node => [node]
  | depth + 1, node => node :: (children node).flatMap (nodesBelow children depth)

theorem popLeaves_cons {place : Nat → Nat}
    (lower : ∀ parent, ∀ child ∈ children parent, place child < place parent) {depth node : Nat}
    (enough : place node < depth) (steps : Nat) (stack : List Nat) :
    popLeaves children ((nodesBelow children depth node).length + steps) (node :: stack) =
      leavesBelow children depth node ++ popLeaves children steps stack := by
  -- Every node below takes one step, whatever lies under it on the stack.
  induction depth generalizing node steps stack with
  | zero => omega
  | succ depth ih =>
    have rest (below : List Nat) (shallow : ∀ child ∈ below, place child < depth) :
        popLeaves children ((below.flatMap (nodesBelow children depth)).length + steps) (below ++ stack) =
          below.flatMap (leavesBelow children depth) ++ popLeaves children steps stack := by
      induction below with
      | nil => simp
      | cons child later ih' =>
        have ⟨here, others⟩ := List.forall_mem_cons.mp shallow
        rw [List.flatMap_cons, List.length_append, Nat.add_assoc, List.cons_append, ih here, ih' others,
          List.flatMap_cons, List.append_assoc]
    have shallow (child : Nat) (below : child ∈ children node) : place child < depth := by
      have less := lower node child below
      omega
    rw [nodesBelow, List.length_cons, Nat.add_right_comm, popLeaves, leavesBelow]
    cases found : children node with
    | nil => simp
    | cons child later => exact rest (child :: later) (found ▸ shallow)

theorem popLeaves_nil (steps : Nat) : popLeaves children steps [] = [] := by
  cases steps <;> rfl

theorem reaches_of_mem_nodesBelow {depth node other : Nat}
    (member : other ∈ nodesBelow children depth node) :
    ReflTransGen (fun child parent => child ∈ children parent) other node := by
  induction depth generalizing node with
  | zero =>
    obtain rfl : other = node := by simpa [nodesBelow] using member
    exact .refl
  | succ depth ih =>
    rcases List.mem_cons.mp member with rfl | further
    next => exact .refl
    next =>
      obtain ⟨child, below, inside⟩ := List.mem_flatMap.mp further
      exact (ih inside).tail below

section Lower

variable {place : Nat → Nat} (lower : ∀ parent, ∀ child ∈ children parent, place child < place parent)

include lower

theorem place_le_of_reaches {node other : Nat}
    (reaches : ReflTransGen (fun child parent => child ∈ children parent) other node) :
    place other ≤ place node := by
  induction reaches with
  | refl => exact Nat.le_refl _
  | tail _ below ih => exact Nat.le_trans ih (Nat.le_of_lt (lower _ _ below))

variable (single : ∀ node parent parent', node ∈ children parent → node ∈ children parent' →
    parent = parent')

include single

theorem eq_of_common_node {node parent left right : Nat}
    (first : left ∈ children parent) (second : right ∈ children parent)
    (reaches : ReflTransGen (fun child parent => child ∈ children parent) node left)
    (reaches' : ReflTransGen (fun child parent => child ∈ children parent) node right) :
    left = right := by
  -- One of the two lies on the way of the other, which leads through their parent first.
  have onward {a b : Nat} (below : a ∈ children parent) (below' : b ∈ children parent)
      (way : ReflTransGen (fun child parent => child ∈ children parent) a b) : a = b := by
    rcases way.cases_head with same | ⟨next, step, rest⟩
    next => exact same
    next =>
      obtain rfl := single a next parent step below
      have up := place_le_of_reaches lower rest
      have down := lower _ b below'
      omega
  have unique : Relator.RightUnique fun child parent => child ∈ children parent :=
    fun {node parent parent'} below below' => single node parent parent' below below'
  rcases ReflTransGen.total_of_right_unique unique reaches reaches' with way | way
  next => exact onward first second way
  next => exact (onward second first way).symm

theorem nodup_nodesBelow (nodup : ∀ parent, (children parent).Nodup) (depth node : Nat) :
    (nodesBelow children depth node).Nodup := by
  induction depth generalizing node with
  | zero => exact List.nodup_singleton node
  | succ depth ih =>
    refine List.nodup_cons.mpr ⟨fun inside => ?_, List.nodup_flatMap.mpr ⟨fun child _ => ih child, ?_⟩⟩
    next =>
      obtain ⟨child, below, further⟩ := List.mem_flatMap.mp inside
      have up := place_le_of_reaches lower (reaches_of_mem_nodesBelow further)
      have down := lower node child below
      omega
    next =>
      refine (nodup node).imp_of_mem fun {left right} first second different other inside inside' => ?_
      exact different (eq_of_common_node lower single first second (reaches_of_mem_nodesBelow inside)
        (reaches_of_mem_nodesBelow inside'))

theorem popLeaves_eq (nodup : ∀ parent, (children parent).Nodup) {nodes : List Nat} {depth root : Nat}
    (enough : place root < depth) (known : root ∈ nodes)
    (inside : ∀ parent, ∀ child ∈ children parent, child ∈ nodes) :
    popLeaves children nodes.length [root] = leavesBelow children depth root := by
  have among : nodesBelow children depth root ⊆ nodes := fun node below => by
    rcases (reaches_of_mem_nodesBelow below).cases_head with rfl | ⟨parent, child, -⟩
    next => exact known
    next => exact inside parent node child
  have count := ((nodup_nodesBelow lower single nodup depth root).subperm among).length_le
  have steps := popLeaves_cons lower enough (nodes.length - (nodesBelow children depth root).length) []
  rw [Nat.add_sub_cancel' count] at steps
  rw [steps, popLeaves_nil, List.append_nil]

end Lower

end Pop

def Table.height (heights : Table Nat Nat) (node : Nat) : Nat := (heights.get? node).getD 0

section Before

variable {heights : Table Nat Nat}

theorem beforeInTree_iff {a b : Nat} : beforeInTree heights a b = true ↔
    heights.height a < heights.height b ∨ heights.height a = heights.height b ∧ a ≤ b := by
  simp [beforeInTree, Table.height]

theorem beforeInTree_total (a b : Nat) :
    beforeInTree heights a b = true ∨ beforeInTree heights b a = true := by
  rw [beforeInTree_iff, beforeInTree_iff]
  omega

theorem beforeInTree_trans (a b c : Nat) : beforeInTree heights a b = true →
    beforeInTree heights b c = true → beforeInTree heights a c = true := by
  rw [beforeInTree_iff, beforeInTree_iff, beforeInTree_iff]
  omega

theorem sortBy_perm_eq {nodes nodes' : List Nat} (perm : nodes.Perm nodes') :
    sortBy (beforeInTree heights) nodes = sortBy (beforeInTree heights) nodes' := by
  have same : (sortBy (beforeInTree heights) nodes).Perm (sortBy (beforeInTree heights) nodes') :=
    ((sortBy_perm _ nodes).trans perm).trans (sortBy_perm _ nodes').symm
  have sorted := sortBy_pairwise (@beforeInTree_total heights) beforeInTree_trans
  refine same.eq_of_pairwise (fun a b _ _ before after => ?_) (sorted nodes) (sorted nodes')
  rw [beforeInTree_iff] at before after
  omega

end Before

namespace Graph

theorem treeHeights_congr {children children' : Nat → List Nat}
    (perm : ∀ node, (children node).Perm (children' node)) :
    treeHeights children = treeHeights children' := by
  funext members
  unfold treeHeights
  congr
  funext heights node
  exact congrArg (heights.put node) (((perm node).map _).foldl_eq 0)

def branches (g : Graph) (order : List Nat) : Branches :=
  .grow g.treeRoot (g.sourcePaths (g.toRoot order))

section Tree

variable {g : Graph} {order : List Nat} (linear : g.Linear order) (built : g.Built)

include linear built

theorem Linear.dropLast_pathFrom {steps start : Nat} (candidate : start ∈ g.candidates order)
    (enough : order.length ≤ order.idxOf start + steps) {node : Nat}
    (member : node ∈ (g.toRoot order).pathFrom steps start) :
    node = g.treeRoot ∨ node ∈ ((g.toRoot order).pathFrom steps start).dropLast := by
  induction steps generalizing start with
  | zero =>
    have root := linear.root_of_no_step candidate (next_of_late enough)
    exact .inl ((List.mem_singleton.mp member).trans root)
  | succ steps ih =>
    simp only [Routes.pathFrom] at member ⊢
    split at member
    next stop => exact .inl ((List.mem_singleton.mp member).trans (linear.root_of_no_step candidate stop))
    next next step =>
      have later := linear.next_later step
      have nonempty : (g.toRoot order).pathFrom steps next ≠ [] := by
        obtain ⟨rest, same⟩ := (g.toRoot order).pathFrom_eq_cons steps next
        exact same ▸ List.cons_ne_nil next rest
      rw [List.dropLast_cons_of_ne_nil nonempty, List.mem_cons]
      rcases List.mem_cons.mp member with here | further
      next => exact .inr (.inl here)
      next => exact (ih (linear.next_candidate built step) (by omega) further).imp_right .inr

variable (nonempty : g.size ≠ 0)

include nonempty

theorem Linear.next_treeRoot : ((g.toRoot order).route g.treeRoot).next = none := by
  obtain ⟨source, start⟩ := linear.exists_source nonempty
  obtain ⟨node, on, stop⟩ := linear.exists_stop (linear.length ▸ Nat.le_add_left g.size (order.idxOf source))
  have candidate := linear.path_candidates built (linear.source_candidate start) on
  exact linear.root_of_no_step candidate stop ▸ stop

theorem Linear.mem_inTree {node : Nat} :
    node ∈ (g.branches order).inTree ↔ node ∈ g.members order := by
  rw [branches, Branches.mem_inTree_grow, linear.mem_members_iff_on_path built nonempty]
  constructor
  next =>
    rintro (rfl | ⟨path, given, on⟩)
    next =>
      obtain ⟨source, start⟩ := linear.exists_source nonempty
      exact ⟨source, start, linear.root_mem_path built start⟩
    next =>
      obtain ⟨source, start, rfl⟩ := mem_sourcePaths.mp given
      exact ⟨source, start, List.dropLast_subset _ on⟩
  next =>
    rintro ⟨source, start, on⟩
    have enough : order.length ≤ order.idxOf source + g.size := linear.length ▸ Nat.le_add_left _ _
    refine (linear.dropLast_pathFrom built (linear.source_candidate start) enough on).imp_right ?_
    exact fun before => ⟨_, mem_sourcePaths.mpr ⟨source, start, rfl⟩, before⟩

omit built nonempty in
theorem Linear.nodup_childrenIn (node : Nat) : ((g.toRoot order).childrenIn (g.members order) node).Nodup :=
  ((linear.candidates_sorted.imp And.left).filter _).filter _

theorem Linear.perm_childrenIn (node : Nat) :
    ((g.branches order).below node).Perm ((g.toRoot order).childrenIn (g.members order) node) := by
  have follows : (g.branches order).Follows (g.toRoot order) := by
    refine Branches.follows_grow (linear.next_treeRoot built nonempty) fun path given => ?_
    obtain ⟨source, -, rfl⟩ := mem_sourcePaths.mp given
    exact (g.toRoot order).isChain_pathFrom g.size source
  refine (List.perm_ext_iff_of_nodup (follows.nodup node) (linear.nodup_childrenIn node)).mpr fun child => ?_
  rw [follows.mem_below, linear.mem_inTree built nonempty, Routes.mem_childrenIn]

theorem Linear.filter_inTree :
    (g.candidates order).filter (g.branches order).inTree.contains = g.members order := by
  refine List.filter_congr fun node candidate => ?_
  rw [Bool.eq_iff_iff, List.contains_iff_mem, linear.mem_inTree built nonempty, members, mem_treeMembers]
  simp [candidate]

theorem Linear.popLeaves_eq (heights : Table Nat Nat) :
    popLeaves (fun node => sortBy (beforeInTree heights)
        ((g.toRoot order).childrenIn (g.members order) node)) (g.candidates order).length [g.treeRoot] =
      leavesBelow (fun node => sortBy (beforeInTree heights)
        ((g.toRoot order).childrenIn (g.members order) node)) (g.size + 1) g.treeRoot := by
  have below {parent child : Nat} (inside : child ∈ sortBy (beforeInTree heights)
      ((g.toRoot order).childrenIn (g.members order) parent)) :
      child ∈ g.members order ∧ ((g.toRoot order).route child).next = some parent :=
    Routes.mem_childrenIn.mp ((mem_sortBy _).mp inside)
  have shallow : order.idxOf g.treeRoot < g.size + 1 :=
    Nat.lt_succ_of_le (linear.length ▸ List.idxOf_le_length)
  have candidate {node : Nat} (member : node ∈ g.members order) : node ∈ g.candidates order :=
    (mem_treeMembers.mp member).1
  refine @StoragePlan.popLeaves_eq _ order.idxOf ?lower ?single ?nodup _ _ _ shallow
    (candidate (linear.root_mem_members built nonempty)) fun _ _ inside => candidate (below inside).1
  case lower => exact fun _ _ inside => linear.next_later (below inside).2
  case single =>
    exact fun _ _ _ inside inside' => Option.some.inj ((below inside).2.symm.trans (below inside').2)
  case nodup => exact fun parent => (sortBy_perm _ _).nodup_iff.mpr (linear.nodup_childrenIn parent)

end Tree

/-- The tree read off the routes at once, without attaching paths and without a stack. -/
def treeAlong (g : Graph) (order : List Nat) : PathTree :=
  let children := (g.toRoot order).childrenIn (g.members order)
  let heights := treeHeights children (g.members order)
  { root := g.treeRoot
    virtualSink := g.virtualSink?
    paths := .ofList (g.sourcePaths (g.toRoot order))
    distance := (List.range (g.candidates order).length).map (g.toRoot order).distance
    heights
    sortedLeaves :=
      leavesBelow (fun node => sortBy (beforeInTree heights) (children node)) (g.size + 1) g.treeRoot }

theorem pathTree_eq {g : Graph} {order : List Nat} (built : g.Built) (nonempty : g.size ≠ 0)
    (linear : g.Linear order) (planned : g.plainOrder = .ok order) :
    g.pathTree = .ok (g.treeAlong order) := by
  have count : g.size + g.virtualSink?.toList.length = (g.candidates order).length := by
    rw [candidates, List.length_append, linear.length]
  have heights : treeHeights (g.branches order).below
      ((g.candidates order).filter (g.branches order).inTree.contains) = (g.treeAlong order).heights := by
    rw [linear.filter_inTree built nonempty, treeHeights_congr (linear.perm_childrenIn built nonempty)]
    rfl
  have leaves : popLeaves (fun node => sortBy (beforeInTree (g.treeAlong order).heights)
      ((g.branches order).below node)) (g.candidates order).length [g.treeRoot] =
        (g.treeAlong order).sortedLeaves := by
    simp only [sortBy_perm_eq (linear.perm_childrenIn built nonempty _)]
    exact linear.popLeaves_eq built nonempty _
  rw [← heights, ← count] at leaves
  simp only [pathTree, nonempty, if_false, planned]
  refine congrArg Except.ok ((PathTree.mk.injEq ..).mpr ⟨rfl, rfl, rfl, ?_, heights, leaves⟩)
  rw [count]
  rfl

theorem pathTree_leaves {g : Graph} (built : g.Built) (nonempty : g.size ≠ 0) :
    ∃ tree, g.pathTree = .ok tree ∧ ∀ leaf, leaf ∈ tree.sortedLeaves ↔ leaf ∈ g.sources := by
  obtain ⟨order, planned, linear⟩ := plainOrder_linear built
  refine ⟨_, pathTree_eq built nonempty linear planned, fun leaf => ?_⟩
  exact ⟨linear.source_of_mem_leaves built (fun _ _ => mem_sortBy _) nonempty,
    linear.source_mem_leaves built (fun _ _ => mem_sortBy _)⟩

end Graph

end StoragePlan
