import StoragePlan.Proofs.Run.Basic
import StoragePlan.Rename

set_option autoImplicit false

namespace StoragePlan

theorem renameOps_renamed {mapping : Renaming} {renameText : TextRenamer} {ops ops' : List Op}
    (renamed : (renameOps mapping renameText ops).outcome = .ok ops') :
    List.Forall₂ (Op.RenamedBy mapping.apply) ops ops' := by
  induction ops generalizing ops' with
  | nil =>
    obtain rfl : [] = ops' := by simpa [renameOps] using renamed
    exact .nil
  | cons op rest ih =>
    obtain ⟨opType, inputs, outputs, args⟩ := op
    rw [renameOps] at renamed
    split at renamed
    all_goals
      simp only [Journal.outcome_bind, Journal.outcome_pure, Except.ok.injEq] at renamed
    next =>
      obtain ⟨args', -, noted, -, rest', later, rfl⟩ := renamed
      exact .cons ⟨rfl, rfl⟩ (ih later)
    next =>
      obtain ⟨args', -, rest', later, rfl⟩ := renamed
      exact .cons ⟨rfl, rfl⟩ (ih later)

theorem Net.rename_renamed {net net' : Net} {mapping : Renaming}
    (renamed : (net.rename mapping).outcome = .ok net') :
    List.Forall₂ (Op.RenamedBy mapping.apply) net.ops net'.ops := by
  simp only [Net.rename, Journal.outcome_bind, Journal.outcome_pure, Except.ok.injEq] at renamed
  obtain ⟨ops', later, rfl⟩ := renamed
  exact renameOps_renamed later

def Op.relabel (name : String → String) (op : Op) : Op :=
  { op with inputs := op.inputs.map name, outputs := op.outputs.map name }

theorem renameOps_plain {mapping : Renaming} {renameText : TextRenamer} {ops : List Op}
    (plain : ∀ op ∈ ops, op.isRecurrent = false) :
    (renameOps mapping renameText ops).outcome = .ok (ops.map (Op.relabel mapping.apply)) := by
  induction ops with
  | nil => rfl
  | cons op rest ih =>
    obtain ⟨first, later⟩ := List.forall_mem_cons.mp plain
    have renamed := ih later
    obtain ⟨opType, inputs, outputs, args⟩ := op
    have kept : isRecurrentType opType = false := first
    simp [renameOps, kept, renamed, Op.relabel]

theorem Net.rename_plain {net : Net} (plain : ∀ op ∈ net.ops, op.isRecurrent = false)
    (mapping : Renaming) :
    (net.rename mapping).outcome =
      .ok { net with ops := net.ops.map (Op.relabel mapping.apply) } := by
  simp [Net.rename, renameOps_plain plain]

end StoragePlan
