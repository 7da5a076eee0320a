import StoragePlan.Slot.Basic

set_option autoImplicit false

namespace StoragePlan

/-- Sums of sizes wrap around. -/
def totalBytes : List UInt64 → UInt64
  | [] => 0
  | size :: rest => size + totalBytes rest

structure Footprint where
  baseline : UInt64
  optimized : UInt64
deriving DecidableEq

def Footprint.saved (footprint : Footprint) : UInt64 :=
  if footprint.optimized ≤ footprint.baseline then footprint.baseline - footprint.optimized else 0

section Slots

variable {τ : Type}

def memoryUsage (slots : List (Slot τ)) : UInt64 := totalBytes (slots.map Slot.bytes)

/-- By the sizes that the ranges record; an unknown size counts as nothing. -/
def footprint (slots : List (Slot τ)) : Footprint :=
  ⟨totalBytes (slots.flatten.map Entry.bytes), memoryUsage slots⟩

def requireSize (sizes : Sizes) (blob : String) : Except PlanError (String × UInt64) :=
  match sizes blob with
  | some size => .ok (blob, size)
  | none => .error (.missingSize blob)

/-- By the given sizes. A blob counts once, in how many slots it may be. -/
def footprintBy (sizes : Sizes) (slots : List (Slot τ)) : Except PlanError Footprint := do
  let sized ← slots.mapM fun slot => slot.mapM fun entry => requireSize sizes entry.blob
  return ⟨totalBytes (sized.flatten.eraseDups.map (·.2)),
    totalBytes (sized.map fun slot => (slot.map (·.2)).foldr max 0)⟩

end Slots

def Net.blobSizes (net : Net) (sizes : Sizes) : Except PlanError (List (String × UInt64)) :=
  net.blobNames.mapM (requireSize sizes)

end StoragePlan
