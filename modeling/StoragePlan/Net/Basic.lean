import StoragePlan.Decimal.Binary64

set_option autoImplicit false

namespace StoragePlan

mutual

structure Net where
  version : String
  name : String
  ops : List Op
  externalInputs : List String
  externalOutputs : List String

structure Op where
  opType : String
  inputs : List String
  outputs : List String
  args : List Arg

structure Arg where
  name : String
  value : Value

inductive Value
  | int (n : Int64)
  | float (x : Binary64)
  | text (s : String)
  | ints (ns : List Int64)
  | floats (xs : List Binary64)
  | texts (ss : List String)
  | net (step : Net)

end

def isRecurrentType (opType : String) : Bool :=
  "RecurrentNetwork".toList.isPrefixOf opType.toList

def isStepNetName (name : String) : Bool :=
  "step_net".toList.isSuffixOf name.toList

def Arg.isStepNet (arg : Arg) : Bool := isStepNetName arg.name

namespace Op

def isRecurrent (op : Op) : Bool := isRecurrentType op.opType

def operands (op : Op) : List String := op.inputs ++ op.outputs

def references (op : Op) (blob : String) : Bool := op.operands.contains blob

def arg? (op : Op) (name : String) : Option Value :=
  (op.args.find? fun arg => arg.name = name).map (·.value)

end Op

namespace Net

def currentVersion : String := "gradmem.net.v1"

def named (name : String) : Net := ⟨currentVersion, name, [], [], []⟩

def withOp (net : Net) (op : Op) : Net := { net with ops := net.ops ++ [op] }

def withOps (net : Net) (ops : List Op) : Net := { net with ops := ops }

def withExternalInput (net : Net) (blob : String) : Net :=
  { net with externalInputs := net.externalInputs ++ [blob] }

def withExternalInputs (net : Net) (blobs : List String) : Net :=
  { net with externalInputs := blobs }

def withExternalOutput (net : Net) (blob : String) : Net :=
  { net with externalOutputs := net.externalOutputs ++ [blob] }

def withExternalOutputs (net : Net) (blobs : List String) : Net :=
  { net with externalOutputs := blobs }

def blobNames (net : Net) : List String := (net.ops.flatMap Op.operands).eraseDups

end Net

def sameFloats : List Binary64 → List Binary64 → Bool
  | [], [] => true
  | x :: xs, y :: ys => x.sameValue y && sameFloats xs ys
  | _, _ => false

mutual

def Net.same : Net → Net → Bool
  | ⟨version, name, ops, inputs, outputs⟩, ⟨version', name', ops', inputs', outputs'⟩ =>
    version = version' && name = name' && sameOps ops ops' && inputs = inputs' && outputs = outputs'

def sameOps : List Op → List Op → Bool
  | [], [] => true
  | ⟨opType, inputs, outputs, args⟩ :: rest, ⟨opType', inputs', outputs', args'⟩ :: rest' =>
    opType = opType' && inputs = inputs' && outputs = outputs' && sameArgs args args' &&
      sameOps rest rest'
  | _, _ => false

def sameArgs : List Arg → List Arg → Bool
  | [], [] => true
  | ⟨name, value⟩ :: rest, ⟨name', value'⟩ :: rest' =>
    name = name' && sameValues value value' && sameArgs rest rest'
  | _, _ => false

def sameValues : Value → Value → Bool
  | .int n, .int n' => n = n'
  | .float x, .float x' => x.sameValue x'
  | .text s, .text s' => s = s'
  | .ints ns, .ints ns' => ns = ns'
  | .floats xs, .floats xs' => sameFloats xs xs'
  | .texts ss, .texts ss' => ss = ss'
  | .net step, .net step' => step.same step'
  | _, _ => false

end

def Net.withCheckedVersion (net : Net) : Except String Net :=
  if net.version = "" then .ok { net with version := Net.currentVersion }
  else if net.version = Net.currentVersion then .ok net
  else .error net.version

theorem Net.withCheckedVersion_eq_ok_iff {net found : Net} :
    net.withCheckedVersion = .ok found ↔ found.version = Net.currentVersion ∧
      (net = found ∨ net = { found with version := "" }) := by
  have current : Net.currentVersion ≠ "" := by decide
  cases net
  cases found
  simp only [withCheckedVersion, Net.mk.injEq]
  split
  next missing => grind
  next present =>
    split
    next => grind
    next => grind

end StoragePlan
