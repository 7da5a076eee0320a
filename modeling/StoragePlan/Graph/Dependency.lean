import StoragePlan.Graph.Basic
import StoragePlan.Net.Basic

set_option autoImplicit false

namespace StoragePlan

structure Arc where
  producer : Nat
  consumer : Nat
deriving DecidableEq

namespace Arc

instance : LT Arc where
  lt a b := a.producer < b.producer ∨ a.producer = b.producer ∧ a.consumer < b.consumer

instance : LE Arc where
  le a b := a.producer < b.producer ∨ a.producer = b.producer ∧ a.consumer ≤ b.consumer

theorem lt_iff {a b : Arc} :
    a < b ↔ a.producer < b.producer ∨ a.producer = b.producer ∧ a.consumer < b.consumer := Iff.rfl

theorem le_iff {a b : Arc} :
    a ≤ b ↔ a.producer < b.producer ∨ a.producer = b.producer ∧ a.consumer ≤ b.consumer := Iff.rfl

instance : DecidableLT Arc := fun a b =>
  inferInstanceAs (Decidable (a.producer < b.producer ∨ a.producer = b.producer ∧ a.consumer < b.consumer))

instance : Std.IsLinearOrder Arc where
  le_refl a := by simp [le_iff]
  le_trans a b c := by simp only [le_iff]; omega
  le_antisymm a b := by
    cases a
    cases b
    simp only [le_iff, mk.injEq]
    omega
  le_total a b := by simp only [le_iff]; omega

instance : Std.LawfulOrderLT Arc where
  lt_iff a b := by simp only [le_iff, lt_iff]; omega

end Arc

/-- Where the node stands in an ascending list, or the place where it would have to. -/
def bisect (nodes : List Nat) (node low high : Nat) : Except Nat Nat :=
  if low < high then
    let middle := (low + high) / 2
    match nodes[middle]? with
    | none => .error low
    | some found =>
      if found = node then .ok middle
      else if found < node then bisect nodes node (middle + 1) high
      else bisect nodes node low middle
  else .error low
termination_by high - low

def insertNode (nodes : List Nat) (node : Nat) : List Nat :=
  match bisect nodes node 0 nodes.length with
  | .ok _ => nodes
  | .error place => nodes.insertIdx place node

/-- Both directions of the edges, in ascending rows, and the label of each edge. -/
structure DependencyGraph where
  succs : List (List Nat)
  preds : List (List Nat)
  edges : Table Arc Names
deriving DecidableEq

namespace DependencyGraph

def withNodes (size : Nat) : DependencyGraph :=
  ⟨List.replicate size [], List.replicate size [], .empty⟩

def size (g : DependencyGraph) : Nat := g.succs.length

def successors (g : DependencyGraph) (node : Nat) : List Nat := (g.succs[node]?).getD []

def predecessors (g : DependencyGraph) (node : Nat) : List Nat := (g.preds[node]?).getD []

def label? (g : DependencyGraph) (producer consumer : Nat) : Option Names :=
  g.edges.get? ⟨producer, consumer⟩

def hasEdge (g : DependencyGraph) (producer consumer : Nat) : Bool :=
  (g.label? producer consumer).isSome

def sources (g : DependencyGraph) : List Nat :=
  (List.range g.size).filter fun node => (g.predecessors node).isEmpty

def sinks (g : DependencyGraph) : List Nat :=
  (List.range g.size).filter fun node => (g.successors node).isEmpty

/-- What the nodes not yet marked may still put on the stack of a search. -/
def unmarkedWeight (succs : List (List Nat)) (marks : List Bool) : Nat :=
  total (List.zipWith (fun row marked => if marked then 0 else row.length) succs marks)

theorem unmarkedWeight_set {succs : List (List Nat)} {marks : List Bool} {node : Nat}
    (fresh : marks[node]? = some false) :
    unmarkedWeight succs (marks.set node true) + ((succs[node]?).getD []).length ≤
      unmarkedWeight succs marks := by
  induction succs generalizing marks node with
  | nil => simp [unmarkedWeight]
  | cons row rest ih =>
    cases marks with
    | nil => simp at fresh
    | cons mark others =>
      cases node with
      | zero =>
        obtain rfl : mark = false := by simpa using fresh
        simp [unmarkedWeight, Nat.add_comm]
      | succ node =>
        have later := ih (by simpa using fresh : others[node]? = some false)
        simp only [unmarkedWeight, List.set_cons_succ, List.zipWith_cons_cons, total_cons,
          List.getElem?_cons_succ] at later ⊢
        omega

def unmarked (succs : List (List Nat)) (marks : List Bool) (node : Nat) : List Nat :=
  ((succs[node]?).getD []).filter fun other => marks[other]? ≠ some true

def search (succs : List (List Nat)) (target : Nat) (marks : List Bool) :
    List Nat → Except PlanError Bool
  | [] => .ok false
  | node :: stack =>
    if node = target then .ok true
    else
      match _ : marks[node]? with
      | none => .error (.noSuchNode node)
      | some true => search succs target marks stack
      | some false =>
        search succs target (marks.set node true)
          ((unmarked succs (marks.set node true) node).reverse ++ stack)
termination_by stack => unmarkedWeight succs marks + stack.length
decreasing_by
  next => simp
  next fresh =>
    have lighter : unmarkedWeight succs (marks.set node true) + _ ≤ _ := unmarkedWeight_set fresh
    have fewer : (unmarked succs (marks.set node true) node).length ≤ ((succs[node]?).getD []).length :=
      List.length_filter_le _ _
    simp only [List.length_append, List.length_reverse, List.length_cons]
    omega

def reaches (g : DependencyGraph) (start target : Nat) : Except PlanError Bool :=
  search g.succs target (List.replicate g.size false) [start]

/-- A change that fails tells the state that it leaves behind. -/
abbrev Outcome := EStateM.Result PlanError DependencyGraph Unit

def addTo (rows : List (List Nat)) (node other : Nat) : Except PlanError (List (List Nat)) :=
  match rows[node]? with
  | none => .error (.noSuchNode node)
  | some row => .ok (rows.set node (insertNode row other))

def insertEdge (g : DependencyGraph) (producer consumer : Nat) (blobs : Names) : Outcome :=
  match addTo g.succs producer consumer with
  | .error error => .error error g
  | .ok succs =>
    match addTo g.preds consumer producer with
    | .error error => .error error { g with succs }
    | .ok preds => .ok () ⟨succs, preds, g.edges.put ⟨producer, consumer⟩ blobs⟩

/-- An edge that exists already takes up the new blobs into its label. -/
def addEdge (g : DependencyGraph) (producer consumer : Nat) (blobs : Names) : Outcome :=
  match g.label? producer consumer with
  | some known => .ok () { g with edges := g.edges.put ⟨producer, consumer⟩ (known.union blobs) }
  | none =>
    if producer = consumer then .error (.closesCycle producer consumer blobs) g
    else
      match g.reaches consumer producer with
      | .error error => .error error g
      | .ok true => .error (.closesCycle producer consumer blobs) g
      | .ok false => g.insertEdge producer consumer blobs

def addEdges (g : DependencyGraph) : List (Arc × Names) → Outcome
  | [] => .ok () g
  | (arc, blobs) :: rest =>
    match g.addEdge arc.producer arc.consumer blobs with
    | .ok () g => addEdges g rest
    | .error error g => .error error g

/-- The rows of the nodes with the labels of the edges in them. -/
def view (g : DependencyGraph) : Graph :=
  g.edges.entries.foldl
    (fun graph entry => graph.setLabel entry.1.producer entry.1.consumer entry.2) (.empty g.size)

end DependencyGraph

/-- One read for each operand, by operation. -/
def readings (ops : List Op) : List (String × Nat) :=
  ops.zipIdx.flatMap fun (op, index) => op.inputs.map (·, index)

def readersIn (consumers : Table String (List Nat)) (blob : String) : List Nat :=
  (consumers.get? blob).getD []

/-- An operation that reads a blob more than once is noted once. -/
def noteReader (consumers : Table String (List Nat)) (reading : String × Nat) :
    Table String (List Nat) :=
  let known := readersIn consumers reading.1
  if known.getLast? = some reading.2 then consumers
  else consumers.put reading.1 (known ++ [reading.2])

def consumersOf (ops : List Op) : Table String (List Nat) := (readings ops).foldl noteReader .empty

def handovers (ops : List Op) : List (Arc × String) :=
  let consumers := consumersOf ops
  ops.zipIdx.flatMap fun (op, producer) =>
    op.outputs.flatMap fun output =>
      (readersIn consumers output).filterMap fun consumer =>
        if consumer = producer then none else some (⟨producer, consumer⟩, output)

def labelIn (labels : Table Arc Names) (arc : Arc) : Names := (labels.get? arc).getD .empty

def noteHandover (labels : Table Arc Names) (handover : Arc × String) : Table Arc Names :=
  labels.put handover.1 ((labelIn labels handover.1).insert handover.2)

def labelsOf (ops : List Op) : Table Arc Names := (handovers ops).foldl noteHandover .empty

def DependencyGraph.build (ops : List Op) : Except PlanError DependencyGraph :=
  match (withNodes ops.length).addEdges (labelsOf ops).entries with
  | .ok () g => .ok g
  | .error error _ => .error error

def Graph.ofOps (ops : List Op) : Except PlanError Graph :=
  (DependencyGraph.build ops).map DependencyGraph.view

end StoragePlan
