import StoragePlan.Graph.Dependency
import StoragePlan.Order.Strategy
import StoragePlan.Rename
import StoragePlan.Settings

set_option autoImplicit false

namespace StoragePlan

structure Plan where
  -- The operations in line, with canonical names. Another order could overwrite a blob too early.
  net : Net
  slots : List Slot
  names : Renaming
  footprint : Footprint
  -- The line, as numbers of the operations of the given net.
  order : List Nat

/-- Static blobs keep their slot and their name. Sizes, if given, must cover all blobs. -/
def planSharing (net : Net) (statics : Names) (sizes : Option Sizes) (settings : Settings) :
    Journal Plan := do
  .emit (.started net.name net.ops.length statics.size)
  let graph ← .ofExcept (Graph.ofOps net.ops)
  let order ← .ofExcept (graph.linearize settings.ordering)
  .emit (.ordered settings.ordering order)
  let ops ← .ofExcept (reorderOps net.ops order)
  let table ← .ofExcept (LiveTable.ofOps sizes ops)
  .emit (.rangesComputed table.size)
  .emit (.sharableBlobs (sharableCount table statics))
  let slots := assignSlots table statics
  .ofExcept (if settings.verify then verifySlots slots else .ok ())
  .emit (.assigned slots.length (sharedSlots slots).length)
  let names := canonicalNames settings.naming slots
  .emit (.remapped names.size names.values.eraseDups.length)
  let renamed ← { net with ops := ops }.rename names
  .emit (.finished .interference (some (footprint slots)))
  return ⟨renamed, slots, names, footprint slots, order⟩

end StoragePlan
