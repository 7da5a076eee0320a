import StoragePlan.Proofs.Capture
import StoragePlan.Proofs.Rename.Twice

set_option autoImplicit false

namespace StoragePlan

section Unmoved

variable {mapping : Renaming}

theorem Op.NotedBy.eq_nil {op : Op} {notes : List Arg} (noted : op.NotedBy mapping notes)
    (unmoved : ∀ blob ∈ op.operands, mapping.apply blob = blob) : notes = [] := by
  have again := notedBy_iff.mp (Op.notedBy_nil unmoved)
  rw [notedBy_iff.mp noted, ← again]

end Unmoved

section Extent

variable {net : Net} {losses : List String} {parameters : Names} {scope : String} {plan : GradientPlan}

end Extent

end StoragePlan
