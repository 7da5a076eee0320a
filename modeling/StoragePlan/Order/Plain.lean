import StoragePlan.Graph.Basic
import StoragePlan.Sorting

set_option autoImplicit false

namespace StoragePlan

structure Kahn where
  -- How many producers each node still waits for.
  indegree : List Nat
  -- The nodes that wait for none, in ascending order.
  ready : List Nat
deriving DecidableEq

namespace Kahn

def start (g : Graph) : Kahn :=
  let indegree := g.nodes.map fun node => (g.predecessors node).length
  ⟨indegree, g.nodes.filter fun node => indegree[node]? = some 0⟩

def arrive (s : Kahn) (node : Nat) : Kahn :=
  let indegree := s.indegree.modify node (· - 1)
  if indegree[node]? = some 0 then ⟨indegree, insertSorted (fun a b => a ≤ b) node s.ready⟩
  else ⟨indegree, s.ready⟩

def run (g : Graph) : Nat → Kahn → List Nat × Kahn
  | 0, s => ([], s)
  | steps + 1, s =>
    match s.ready with
    | [] => ([], s)
    | node :: ready =>
      let (order, final) := run g steps ((g.successors node).foldl arrive { s with ready })
      (node :: order, final)

def waits (s : Kahn) (node : Nat) : Bool := 0 < s.indegree[node]?.getD 0

/-- The first node that keeps waiting, and the first one it waits for that does so too. -/
def stuckPair (g : Graph) (s : Kahn) : Nat × Nat :=
  match g.nodes.find? s.waits with
  | none => (0, 0)
  | some consumer =>
    match (g.predecessors consumer).find? s.waits with
    | none => (0, 0)
    | some producer => (producer, consumer)

end Kahn

def Graph.plainOrder (g : Graph) : Except PlanError (List Nat) :=
  let (order, final) := Kahn.run g g.size (.start g)
  if order.length = g.size then .ok order
  else
    let (producer, consumer) := final.stuckPair g
    .error (.closesCycle producer consumer ((g.label? producer consumer).getD .empty))

end StoragePlan
