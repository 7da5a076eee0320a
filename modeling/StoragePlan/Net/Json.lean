import StoragePlan.Json.Text
import StoragePlan.Json.Record
import StoragePlan.Net.Basic

set_option autoImplicit false

namespace StoragePlan

namespace Json

def writeTexts (depth : Nat) (texts : List String) : List Char :=
  writeList depth (texts.map writeText)

mutual

def writeNet (depth : Nat) : Net → List Char
  | ⟨version, name, ops, inputs, outputs⟩ =>
    writeObject depth
      [("format_version", writeText version),
       ("name", writeText name),
       ("ops", writeList (depth + 1) (writeOps (depth + 2) ops)),
       ("external_inputs", writeTexts (depth + 1) inputs),
       ("external_outputs", writeTexts (depth + 1) outputs)]

def writeOps (depth : Nat) : List Op → List (List Char)
  | [] => []
  | ⟨opType, inputs, outputs, args⟩ :: rest =>
    writeObject depth
      [("op_type", writeText opType),
       ("inputs", writeTexts (depth + 1) inputs),
       ("outputs", writeTexts (depth + 1) outputs),
       ("args", writeList (depth + 1) (writeArgs (depth + 2) args))] :: writeOps depth rest

def writeArgs (depth : Nat) : List Arg → List (List Char)
  | [] => []
  | ⟨name, value⟩ :: rest =>
    writeObject depth
      [("name", writeText name),
       ("value", writeObject (depth + 1) [writeValue (depth + 2) value])] :: writeArgs depth rest

def writeValue (depth : Nat) : Value → String × List Char
  | .int n => ("Int", writeInteger n)
  | .float x => ("Float", writeReal x)
  | .text s => ("Str", writeText s)
  | .ints ns => ("Ints", writeList depth (ns.map writeInteger))
  | .floats xs => ("Floats", writeList depth (xs.map writeReal))
  | .texts ss => ("Strs", writeTexts depth ss)
  | .net step => ("Net", writeNet depth step)

end

def field {δ α : Type} (key : String) (get : δ → Option α) (set : δ → α → δ)
    (reader : Reader α) : Field δ where
  key := key
  isFilled draft := (get draft).isSome
  fill draft budget cs := (reader budget cs).map fun (found, rest) => (set draft found, rest)

def holding {α : Type} (tag : α → Value) (reader : Reader α) : Reader Value := fun budget cs =>
  (reader budget cs).map fun (found, rest) => (tag found, rest)

def value (stepNet : Reader Net) : Reader Value :=
  tagged
    [("Int", holding .int integer),
     ("Float", holding .float real),
     ("Str", holding .text text),
     ("Ints", holding .ints (list integer)),
     ("Floats", holding .floats (list real)),
     ("Strs", holding .texts (list text)),
     ("Net", holding .net stepNet)]

structure ArgDraft where
  name : Option String
  value : Option Value

def arg (stepNet : Reader Net) : Record ArgDraft Arg where
  fields :=
    [field "name" (·.name) (fun draft name => { draft with name }) text,
     field "value" (·.value) (fun draft value => { draft with value }) (value stepNet)]
  blank := ⟨none, none⟩
  complete? draft := do return ⟨← draft.name, ← draft.value⟩

structure OpDraft where
  opType : Option String
  inputs : Option (List String)
  outputs : Option (List String)
  args : Option (List Arg)

def op (stepNet : Reader Net) : Record OpDraft Op where
  fields :=
    [field "op_type" (·.opType) (fun draft opType => { draft with opType }) text,
     field "inputs" (·.inputs) (fun draft inputs => { draft with inputs }) (list text),
     field "outputs" (·.outputs) (fun draft outputs => { draft with outputs }) (list text),
     field "args" (·.args) (fun draft args => { draft with args }) (list (arg stepNet).read)]
  blank := ⟨none, none, none, none⟩
  complete? draft := do
    return ⟨← draft.opType, ← draft.inputs, ← draft.outputs, draft.args.getD []⟩

structure NetDraft where
  version : Option String
  name : Option String
  ops : Option (List Op)
  externalInputs : Option (List String)
  externalOutputs : Option (List String)

def netRecord (stepNet : Reader Net) : Record NetDraft Net where
  fields :=
    [field "format_version" (·.version) (fun draft version => { draft with version }) text,
     field "name" (·.name) (fun draft name => { draft with name }) text,
     field "ops" (·.ops) (fun draft ops => { draft with ops }) (list (op stepNet).read),
     field "external_inputs" (·.externalInputs)
       (fun draft externalInputs => { draft with externalInputs }) (list text),
     field "external_outputs" (·.externalOutputs)
       (fun draft externalOutputs => { draft with externalOutputs }) (list text)]
  blank := ⟨none, none, none, none, none⟩
  complete? draft := do
    return ⟨draft.version.getD Net.currentVersion, ← draft.name, ← draft.ops,
      draft.externalInputs.getD [], draft.externalOutputs.getD []⟩

def net : Nat → Reader Net
  | 0 => fun _ _ => .error .malformed
  | depth + 1 => (netRecord (net depth)).read

end Json

def Net.toJson (net : Net) : String := String.ofList (Json.writeNet 0 net)

/-- A step net opens six brackets more than the net around it, so the limit on brackets is met first. -/
def Net.decodeJson (s : String) : Except Json.Fault Net := Json.readAll (Json.net 128) s

end StoragePlan
