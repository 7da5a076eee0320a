import StoragePlan.Order.Plain
import StoragePlan.Sorting

set_option autoImplicit false

namespace StoragePlan

structure Route where
  distance : Nat
  next : Option Nat
deriving DecidableEq

abbrev Routes := List (Nat × Route)

def Routes.route (routes : Routes) (node : Nat) : Route := (routes.lookup node).getD ⟨0, none⟩

def Routes.distance (routes : Routes) (node : Nat) : Nat := (routes.route node).distance

def Routes.farthest? (routes : Routes) : List Nat → Option Nat
  | [] => none
  | node :: rest =>
    match farthest? routes rest with
    | none => some node
    | some other => if routes.distance node < routes.distance other then some other else some node

structure PathTree where
  root : Nat
  virtualSink : Option Nat
  -- The longest path from each source to the root; of several, the lexicographically least.
  paths : Table Nat (List Nat)
  distance : List Nat
  -- The height of the subtree of every node of the tree; leaves have height zero.
  heights : Table Nat Nat
  -- The leaves from left to right, lower subtrees first.
  sortedLeaves : List Nat
deriving DecidableEq

namespace Graph

def virtualSink? (g : Graph) : Option Nat := if 1 < g.sinks.length then some g.size else none

def onward (g : Graph) (sink : Option Nat) (node : Nat) : List Nat :=
  match g.successors node with
  | [] => if node < g.size then sink.toList else []
  | successors => successors

def routeVia (g : Graph) (sink : Option Nat) (routes : Routes) (node : Nat) : Route :=
  match routes.farthest? (g.onward sink node) with
  | none => ⟨0, none⟩
  | some next => ⟨routes.distance next + 1, some next⟩

def routes (g : Graph) (sink : Option Nat) (order : List Nat) : Routes :=
  order.foldr (fun node routes => (node, g.routeVia sink routes node) :: routes) []

end Graph

def Routes.pathFrom (routes : Routes) : Nat → Nat → List Nat
  | 0, node => [node]
  | steps + 1, node =>
    match (routes.route node).next with
    | none => [node]
    | some next => node :: routes.pathFrom steps next

/-- Lower subtrees come first, and of equal ones the node of lesser number. -/
def beforeInTree (heights : Table Nat Nat) (a b : Nat) : Bool :=
  let height (node : Nat) : Nat := (heights.get? node).getD 0
  height a < height b || (height a = height b && a ≤ b)

/-- The nodes in the tree so far and, for each of them, those that lead on to it. -/
structure Branches where
  inTree : List Nat
  children : Table Nat (List Nat)
deriving DecidableEq

namespace Branches

def below (branches : Branches) (node : Nat) : List Nat := (branches.children.get? node).getD []

/-- A node that is in the tree already is not attached again. -/
def attach (branches : Branches) (child parent : Nat) : Branches :=
  if branches.inTree.contains child then branches
  else ⟨child :: branches.inTree, branches.children.put parent (branches.below parent ++ [child])⟩

def attachPath (branches : Branches) (path : List Nat) : Branches :=
  (path.zip path.tail).foldl (fun branches step => branches.attach step.1 step.2) branches

def grow (root : Nat) (paths : List (Nat × List Nat)) : Branches :=
  paths.foldl (fun branches path => branches.attachPath path.2) ⟨[root], .empty⟩

end Branches

/-- Every step takes one node off the stack, so there are as many steps as nodes in the tree. -/
def popLeaves (children : Nat → List Nat) : Nat → List Nat → List Nat
  | 0, _ => []
  | _ + 1, [] => []
  | steps + 1, node :: stack =>
    match children node with
    | [] => node :: popLeaves children steps stack
    | below => popLeaves children steps (below ++ stack)

namespace Graph

/-- The height of every node of the tree, from the heights of its children, which come before it. -/
def treeHeights (children : Nat → List Nat) (members : List Nat) : Table Nat Nat :=
  members.foldl
    (fun heights node =>
      let below := (children node).map fun child => (heights.get? child).getD 0 + 1
      heights.put node (below.foldl max 0))
    .empty

def treeRoot (g : Graph) : Nat := g.virtualSink?.getD (g.sinks.headD 0)

def sourcePaths (g : Graph) (routes : Routes) : List (Nat × List Nat) :=
  g.sources.map fun source => (source, routes.pathFrom g.size source)

def pathTree (g : Graph) : Except PlanError PathTree := do
  if g.size = 0 then return ⟨0, none, .empty, [], .empty, []⟩
  let sink := g.virtualSink?
  let root := g.treeRoot
  let order ← g.plainOrder
  let routes := g.routes sink order
  let paths := g.sourcePaths routes
  let branches := Branches.grow root paths
  let heights := treeHeights branches.below
    ((order ++ sink.toList).filter branches.inTree.contains)
  return {
    root
    virtualSink := sink
    paths := .ofList paths
    distance := (List.range (g.size + sink.toList.length)).map routes.distance
    heights
    sortedLeaves :=
      popLeaves (fun node => sortBy (beforeInTree heights) (branches.below node))
        (g.size + sink.toList.length) [root] }

end Graph

end StoragePlan
