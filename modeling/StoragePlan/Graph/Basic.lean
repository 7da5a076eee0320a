import StoragePlan.Error
import StoragePlan.Weight

set_option autoImplicit false

namespace StoragePlan

/-- For each node, its consumers in ascending order, each with the label of the edge to it. -/
structure Graph where
  rows : List (Table Nat Names)
deriving DecidableEq

structure Edge where
  producer : Nat
  consumer : Nat
  blobs : Names
deriving DecidableEq

namespace Graph

def empty (size : Nat) : Graph := ⟨List.replicate size .empty⟩

def size (g : Graph) : Nat := g.rows.length

def nodes (g : Graph) : List Nat := List.range g.size

def row (g : Graph) (node : Nat) : Table Nat Names := (g.rows[node]?).getD .empty

def successors (g : Graph) (node : Nat) : List Nat := (g.row node).keys

def label? (g : Graph) (producer consumer : Nat) : Option Names := (g.row producer).get? consumer

def hasEdge (g : Graph) (producer consumer : Nat) : Bool := (g.label? producer consumer).isSome

def predecessors (g : Graph) (node : Nat) : List Nat :=
  g.nodes.filter fun producer => g.hasEdge producer node

def sources (g : Graph) : List Nat := g.nodes.filter fun node => (g.predecessors node).isEmpty

def sinks (g : Graph) : List Nat := g.nodes.filter fun node => (g.successors node).isEmpty

def edges (g : Graph) : List Edge :=
  g.nodes.flatMap fun producer =>
    (g.row producer).entries.map fun entry => ⟨producer, entry.1, entry.2⟩

/-- What the nodes not yet seen may still add to a search: themselves and their successors. -/
def unseenWeight (g : Graph) (seen : List Nat) : Nat :=
  weightOf (fun node => (g.successors node).length + 1) (fun node => !seen.contains node) g.nodes

theorem unseenWeight_cons (g : Graph) {seen : List Nat} {node : Nat} (inside : node < g.size)
    (fresh : node ∉ seen) :
    g.unseenWeight (node :: seen) + ((g.successors node).length + 1) ≤ g.unseenWeight seen :=
  weightOf_add_le (fun other h => by simp at h; simp [h]) (List.mem_range.mpr inside)
    (by simpa using fresh) (by simp)

def explore (g : Graph) (seen : List Nat) : List Nat → List Nat
  | [] => seen
  | node :: pending =>
    if _ : node ∈ seen ∨ g.size ≤ node then explore g seen pending
    else explore g (node :: seen) (g.successors node ++ pending)
termination_by pending => g.unseenWeight seen + pending.length
decreasing_by
  next => simp
  next known =>
    have ⟨fresh, inside⟩ := not_or.mp known
    have lighter := g.unseenWeight_cons (Nat.lt_of_not_le inside) fresh
    simp only [List.length_append, List.length_cons]
    omega

def reaches (g : Graph) (start target : Nat) : Bool := (g.explore [] [start]).contains target

def setLabel (g : Graph) (producer consumer : Nat) (blobs : Names) : Graph :=
  ⟨g.rows.modify producer fun row => row.put consumer blobs⟩

/-- An edge that exists already takes up the new blobs into its label. -/
def addEdge (g : Graph) (producer consumer : Nat) (blobs : Names) : Except PlanError Graph :=
  match g.label? producer consumer with
  | some known => .ok (g.setLabel producer consumer (known.union blobs))
  | none =>
    if producer = consumer then .error (.closesCycle producer consumer blobs)
    else if g.size ≤ consumer then .error (.noSuchNode consumer)
    else if g.size ≤ producer then .error (.noSuchNode producer)
    else if g.reaches consumer producer then .error (.closesCycle producer consumer blobs)
    else .ok (g.setLabel producer consumer blobs)

/-- The first list tells where each node stands so far. The pass ends without result at an entry that
is no node or that has a place already. -/
def placeNodes : List (Option Nat) → List (Nat × Nat) → Option (List (Option Nat))
  | places, [] => some places
  | places, (node, position) :: rest =>
    match places[node]? with
    | some none => placeNodes (places.set node (some position)) rest
    | _ => none

def standsBefore (places : List (Option Nat)) (node other : Nat) : Bool :=
  match places[node]?, places[other]? with
  | some (some position), some (some position') => position < position'
  | _, _ => false

def isTopologicalOrder (g : Graph) (order : List Nat) : Bool :=
  order.length = g.size &&
    match placeNodes (List.replicate g.size none) order.zipIdx with
    | none => false
    | some places => g.edges.all fun edge => standsBefore places edge.producer edge.consumer

end Graph

end StoragePlan
