import StoragePlan.Gradient.Walk
import StoragePlan.Rename

set_option autoImplicit false

namespace StoragePlan

def gradientScopeName (scope : String) : String := if endsInSlash scope then scope else scope ++ "/"

def walkGradients (b : Backward) : Walk := (Walk.start b).run b

/-- Storage that is used more than once is numbered in ascending order of its first owner. -/
def sharedStorage (scope : String) (w : Walk) : List (String × String) :=
  (Names.ofList (w.donors.map (·.2))).toList.zipIdx.map fun (storage, index) =>
    (storage, sharedName scope index)

def takenNames (scope : String) (w : Walk) : List (String × String) :=
  let names := sharedStorage scope w
  w.donors.map fun (blob, donor) => (blob, (names.lookup donor).getD donor)

def gradientNames (scope : String) (w : Walk) : Renaming :=
  (Table.ofList (takenNames scope w)).putAll (sharedStorage scope w)

structure GradientPlan where
  net : Net
  names : Renaming

def shareGradients (net : Net) (losses : List String) (parameters : Names) (scope : String) :
    Journal GradientPlan := do
  .emit (.experimental .gradients "executing experimental gradient memory sharing")
  let scope := gradientScopeName scope
  let walk := walkGradients (.ofNet ⟨scope, parameters⟩ losses net)
  let names := gradientNames scope walk
  .emit (.remapped names.size (sharedStorage scope walk).length)
  let renamed ← net.rename names
  .emit (.finished .gradients none)
  return ⟨renamed, names⟩

def deviceScope (device : Nat) : String := normalizeScope ("gpu_" ++ device.repr)

def shareDeviceGradients (net : Net) (losses : Table Nat (List String)) (parameters : Names) :
    Journal Net :=
  losses.entries.foldlM
    (fun net (device, losses) => do
      return (← shareGradients net losses parameters (deviceScope device)).net) net

end StoragePlan
