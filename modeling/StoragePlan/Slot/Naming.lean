import StoragePlan.Slot.Basic

set_option autoImplicit false

namespace StoragePlan

abbrev Renaming := Table String String

def Renaming.apply (mapping : Renaming) (blob : String) : String := (mapping.get? blob).getD blob

inductive Naming
  -- The last blob of a slot names it.
  | lastMember
  | scoped (scope : String)
deriving DecidableEq

def endsInSlash (s : String) : Bool := s.toList.getLast? = some '/'

def normalizeScope (scope : String) : String :=
  if scope = "" ∨ endsInSlash scope then scope else scope ++ "/"

def sharedName (scope : String) (index : Nat) : String := scope ++ "__m" ++ index.repr ++ "_"

def Naming.nameOf {τ : Type} (naming : Naming) (slot : Slot τ) (index : Nat) : String :=
  match naming with
  | .lastMember => (slot.getLast?.map (·.blob)).getD ""
  | .scoped scope => sharedName (normalizeScope scope) index

def canonicalNames {τ : Type} (naming : Naming) (slots : List (Slot τ)) : Renaming :=
  .ofList ((sharedSlots slots).zipIdx.flatMap fun (slot, index) =>
    slot.map fun entry => (entry.blob, naming.nameOf slot index))

end StoragePlan
