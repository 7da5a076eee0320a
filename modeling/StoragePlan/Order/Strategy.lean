import StoragePlan.Net.Basic
import StoragePlan.Order.DepthFirst

set_option autoImplicit false

namespace StoragePlan

inductive Strategy
  | plain
  | longestPath
deriving DecidableEq

namespace Strategy

def name : Strategy → String
  | .plain => "plain"
  | .longestPath => "longest_path"

def ofText (s : String) : Except String Strategy :=
  let name := Text.lowerCase (Text.trim s)
  if name ∈ ["plain", "topological"] then .ok .plain
  else if name ∈ ["longest_path", "longest-path", "longestpath"] then .ok .longestPath
  else .error name

def unknownMessage (name : String) : String := "unknown ordering strategy '" ++ name ++ "'"

end Strategy

def Graph.linearize (g : Graph) (strategy : Strategy) : Except PlanError (List Nat) := do
  let order ← match strategy with
    | .plain => g.plainOrder
    | .longestPath => g.longestPathOrder
  checkCount .linearizedOrder g.size order.length
  return order

/-- Places the operations one by one; the first list holds the numbers placed so far. -/
def placeOps (ops : List Op) : List Nat → List Nat → Except PlanError (List Op)
  | _, [] => .ok []
  | placed, index :: rest =>
    match ops[index]? with
    | none => .error (.shapeMismatch .distinctOpIndices ops.length placed.length)
    | some op =>
      if placed.contains index then
        .error (.shapeMismatch .distinctOpIndices ops.length placed.length)
      else (placeOps ops (index :: placed) rest).map (op :: ·)

def reorderOps (ops : List Op) (order : List Nat) : Except PlanError (List Op) := do
  checkCount .opOrder ops.length order.length
  placeOps ops [] order

end StoragePlan
