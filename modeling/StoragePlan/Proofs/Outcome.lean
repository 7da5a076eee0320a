import StoragePlan.Proofs.Accounts
import StoragePlan.Proofs.Graph.Dependency
import StoragePlan.Proofs.Nesting

set_option autoImplicit false

namespace StoragePlan

section Sizes

def lacks (sizes : Option Sizes) (blob : String) : Bool := sizes.any fun known => (known blob).isNone

variable {sizes : Option Sizes} {blob : String}

theorem sizeOf?_of_lacks (missing : lacks sizes blob = true) :
    sizeOf? sizes blob = .error (.missingSize blob) := by
  cases sizes with
  | none => simp [lacks] at missing
  | some known =>
    have absent : known blob = none := by simpa [lacks] using missing
    simp [sizeOf?, absent]

theorem sizeOf?_of_not_lacks (present : lacks sizes blob = false) :
    ∃ size, sizeOf? sizes blob = .ok size := by
  cases sizes with
  | none => exact ⟨none, rfl⟩
  | some known =>
    have given : (known blob).isSome = true := by simpa [lacks] using present
    obtain ⟨size, here⟩ := Option.isSome_iff_exists.mp given
    exact ⟨some size, by simp [sizeOf?, here]⟩

theorem blobs_accesses (ops : List Op) : (accesses ops).map (·.blob) = ops.flatMap Op.operands := by
  have each (numbered : Op × Nat) :
      (numbered.1.inputs.map (Access.mk numbered.2 · .read) ++
        numbered.1.outputs.map (Access.mk numbered.2 · .write)).map (·.blob) = numbered.1.operands := by
    simp [Op.operands, Function.comp_def]
  calc (accesses ops).map (·.blob)
    _ = ops.zipIdx.flatMap fun numbered => numbered.1.operands := by
      simp only [accesses, List.map_flatMap, each]
    _ = (ops.zipIdx.map (·.1)).flatMap Op.operands := (List.flatMap_map ..).symm
    _ = ops.flatMap Op.operands := by rw [List.zipIdx_map_fst]

theorem records_outcome (sizes : Option Sizes) (more : List Access) (table : LiveTable) :
    match (more.map (·.blob)).find? (lacks sizes) with
    | some blob => more.foldlM (LiveTable.record sizes) table = .error (.missingSize blob)
    | none => ∃ table', more.foldlM (LiveTable.record sizes) table = .ok table' := by
  induction more generalizing table with
  | nil => exact ⟨table, rfl⟩
  | cons access rest ih =>
    rw [List.map_cons, List.find?_cons, List.foldlM_cons]
    cases missing : lacks sizes access.blob with
    | true => simp [LiveTable.record, sizeOf?_of_lacks missing]
    | false =>
      obtain ⟨size, given⟩ := sizeOf?_of_not_lacks missing
      have later := ih (table.update access.blob (·.touch access size))
      simpa [LiveTable.record, given, pure, Except.pure] using later

theorem LiveTable.ofOps_outcome (sizes : Option Sizes) (ops : List Op) :
    match (ops.flatMap Op.operands).find? (lacks sizes) with
    | some blob => (ofOps sizes ops : Except PlanError LiveTable) = .error (.missingSize blob)
    | none => ∃ table : LiveTable, ofOps sizes ops = .ok table := by
  rw [ofOps_eq, ← blobs_accesses]
  exact records_outcome sizes (accesses ops) .empty

end Sizes

theorem linearize_brought {ops : List Op} {graph : Graph} (built : Graph.ofOps ops = .ok graph)
    (strategy : Strategy) :
    ∃ order line, graph.linearize strategy = .ok order ∧ graph.Linear order ∧
      reorderOps ops order = .ok line ∧ line.Perm ops := by
  obtain ⟨order, sorted, linear⟩ := Graph.linearize_linear (Graph.built_ofOps built) strategy
  have perm : order.Perm (List.range ops.length) := Graph.size_ofOps built ▸ linear.perm
  obtain ⟨line, brought, same⟩ := reorderOps_ok perm
  exact ⟨order, line, sorted, linear, brought, same⟩

section Plans

variable {net : Net} {statics : Names} {sizes : Option Sizes} {settings : Settings} {line : List Op}

-- The stages without what they report; what is verified on the way always holds.
theorem outcome_planSharing (net : Net) (statics : Names) (sizes : Option Sizes) (settings : Settings) :
    (planSharing net statics sizes settings).outcome =
      Graph.ofOps net.ops >>= fun graph => graph.linearize settings.ordering >>= fun order =>
        reorderOps net.ops order >>= fun line => LiveTable.ofOps sizes line >>= fun table =>
          let slots := assignSlots table statics
          let names := canonicalNames settings.naming slots
          ({ net with ops := line }.rename names).outcome >>= fun renamed =>
            .ok (Plan.mk renamed slots names (footprint slots) order) := by
  simp only [planSharing, Journal.outcome_bind_eq, Journal.outcome_emit, Journal.outcome_ofExcept,
    verifySlots_assignSlots, ite_self, ok_bind]
  rfl

end Plans

end StoragePlan
