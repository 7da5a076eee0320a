import StoragePlan.Net.File
import StoragePlan.Report.Event
import StoragePlan.Slot.Naming

set_option autoImplicit false

namespace StoragePlan

/-- A note for each operand that gets a new name, unless there is an argument of the note's name. -/
def renameNotes (mapping : Renaming) (operands : List String) (args : List Arg) : List Arg :=
  mapping.entries.filterMap fun (blob, name) =>
    let note := blob ++ ".rename"
    if blob ≠ name ∧ blob ∈ operands ∧ ∀ arg ∈ args, arg.name ≠ note then
      some ⟨note, .text name⟩
    else none

/-- Renames a step net that is held as text, given the operation type and the name of the argument. -/
abbrev TextRenamer := String → String → String → Journal String

mutual

def renameOps (mapping : Renaming) (renameText : TextRenamer) : List Op → Journal (List Op)
  | [] => pure []
  | ⟨opType, inputs, outputs, args⟩ :: rest => do
    let args ←
      if isRecurrentType opType then do
        let args ← renameArgs mapping renameText opType args
        pure (args ++ renameNotes mapping (inputs ++ outputs) args)
      else pure args
    let rest ← renameOps mapping renameText rest
    pure (⟨opType, inputs.map mapping.apply, outputs.map mapping.apply, args⟩ :: rest)

def renameArgs (mapping : Renaming) (renameText : TextRenamer) (opType : String) :
    List Arg → Journal (List Arg)
  | [] => pure []
  | ⟨name, value⟩ :: rest => do
    let value ←
      if isStepNetName name then do
        let value ← renameValue mapping renameText opType name value
        Journal.emit (.stepNetRenamed opType name)
        pure value
      else pure value
    let rest ← renameArgs mapping renameText opType rest
    pure (⟨name, value⟩ :: rest)

def renameValue (mapping : Renaming) (renameText : TextRenamer) (opType name : String) :
    Value → Journal Value
  | .net step => do
    let step ← renameStepNet mapping renameText step
    pure (.net step)
  | .text s => do
    let s ← renameText opType name s
    pure (.text s)
  | _ => .fail (.unsupportedNesting opType name)

def renameStepNet (mapping : Renaming) (renameText : TextRenamer) : Net → Journal Net
  | ⟨version, name, ops, inputs, outputs⟩ => do
    let ops ← renameOps mapping renameText ops
    pure ⟨version, name, ops, inputs.map mapping.apply, outputs.map mapping.apply⟩

end

/-- Texts within texts are followed to the given depth. -/
def renameTextTo (mapping : Renaming) : Nat → TextRenamer
  | 0 => fun opType name _ => .fail (.unsupportedNesting opType name)
  | depth + 1 => fun opType name s =>
    match Net.ofJson s with
    | .error _ => .fail (.unsupportedNesting opType name)
    | .ok step => do
      let step ← renameStepNet mapping (renameTextTo mapping depth) step
      pure step.toJson

/-- A text within a text is shorter than it, so its own size is depth enough. -/
def renameText (mapping : Renaming) : TextRenamer := fun opType name s =>
  renameTextTo mapping (s.utf8ByteSize + 1) opType name s

def Net.rename (net : Net) (mapping : Renaming) : Journal Net := do
  let ops ← renameOps mapping (renameText mapping) net.ops
  return { net with ops }

end StoragePlan
