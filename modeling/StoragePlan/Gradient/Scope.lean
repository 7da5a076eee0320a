import StoragePlan.Ascending
import StoragePlan.Net.Basic
import StoragePlan.Slot.Naming

set_option autoImplicit false

namespace StoragePlan

def occursIn (pattern : List Char) : List Char → Bool
  | [] => pattern.isEmpty
  | c :: cs => pattern.isPrefixOf (c :: cs) || occursIn pattern cs

structure GradientScope where
  scope : String
  parameters : Names

namespace GradientScope

/-- Gradients that were split automatically have an underscore in front of the scope. -/
def isGradient (s : GradientScope) (blob : String) : Bool :=
  occursIn "_grad".toList blob.toList &&
    (s.scope.toList.isPrefixOf blob.toList || ("_" ++ s.scope).toList.isPrefixOf blob.toList) &&
    !s.parameters.contains blob

def isGradientOp (s : GradientScope) (op : Op) : Bool := op.operands.any s.isGradient

end GradientScope

structure Backward where
  scope : GradientScope
  losses : List String
  ops : List Op

namespace Backward

def ofNet (scope : GradientScope) (losses : List String) (net : Net) : Backward :=
  ⟨scope, losses, net.ops.filter scope.isGradientOp⟩

def waitsFor (b : Backward) (op : Op) (blob : String) : Bool :=
  (b.scope.isGradient blob || b.losses.contains blob) && !op.outputs.contains blob

def needed (b : Backward) (index : Nat) : Nat :=
  match b.ops[index]? with
  | none => 0
  | some op => (op.inputs.filter (b.waitsFor op)).length

/-- The operations that wait for the blob, as often as they read it. -/
def readers (b : Backward) (blob : String) : List Nat :=
  b.ops.zipIdx.flatMap fun (op, index) =>
    (op.inputs.filter fun input => input = blob && b.waitsFor op input).map fun _ => index

def branches (b : Backward) (index : Nat) : List Nat :=
  match b.ops[index]? with
  | none => []
  | some op => op.outputs.flatMap b.readers

end Backward

end StoragePlan
