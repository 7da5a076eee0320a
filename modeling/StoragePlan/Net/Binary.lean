import StoragePlan.Net.Basic

set_option autoImplicit false

namespace StoragePlan

abbrev Bytes := List UInt8

inductive BinaryFault
  | truncated
  | invalidText
  | unknownTag
deriving DecidableEq

namespace Binary

def word : Nat → Nat → Bytes
  | 0, _ => []
  | width + 1, n => UInt8.ofNat n :: word width (n / 256)

def wordValue : Bytes → Nat
  | [] => 0
  | byte :: rest => byte.toNat + 256 * wordValue rest

def text (s : String) : Bytes :=
  word 8 s.utf8ByteSize ++ s.toUTF8.data.toList

def list {α : Type} (item : α → Bytes) (items : List α) : Bytes :=
  word 8 items.length ++ items.flatMap item

def integer (n : Int64) : Bytes := word 8 n.toUInt64.toNat

def number (x : Binary64) : Bytes := word 8 x.bits.toNat

mutual

def net : Net → Bytes
  | ⟨version, name, operations, inputs, outputs⟩ =>
    text version ++ text name ++ (word 8 operations.length ++ ops operations) ++
      list text inputs ++ list text outputs

def ops : List Op → Bytes
  | [] => []
  | ⟨opType, inputs, outputs, arguments⟩ :: rest =>
    text opType ++ list text inputs ++ list text outputs ++
      (word 8 arguments.length ++ args arguments) ++ ops rest

def args : List Arg → Bytes
  | [] => []
  | ⟨name, held⟩ :: rest => text name ++ value held ++ args rest

def value : Value → Bytes
  | .int n => word 4 0 ++ integer n
  | .float x => word 4 1 ++ number x
  | .text s => word 4 2 ++ text s
  | .ints ns => word 4 3 ++ list integer ns
  | .floats xs => word 4 4 ++ list number xs
  | .texts ss => word 4 5 ++ list text ss
  | .net step => word 4 6 ++ net step

end

abbrev Decoder (α : Type) := Bytes → Except BinaryFault (α × Bytes)

def takeBytes (count : Nat) : Decoder Bytes := fun input =>
  let taken := input.take count
  if taken.length = count then .ok (taken, input.drop count) else .error .truncated

def decodeWord (width : Nat) : Decoder Nat := fun input => do
  let (bytes, rest) ← takeBytes width input
  return (wordValue bytes, rest)

def decodeText : Decoder String := fun input => do
  let (size, input) ← decodeWord 8 input
  let (bytes, rest) ← takeBytes size input
  match String.fromUTF8? bytes.toByteArray with
  | some s => return (s, rest)
  | none => .error .invalidText

def decodeItems {α : Type} (item : Decoder α) : Nat → Decoder (List α)
  | 0, input => .ok ([], input)
  | count + 1, input => do
    let (first, input) ← item input
    let (more, rest) ← decodeItems item count input
    return (first :: more, rest)

def decodeList {α : Type} (item : Decoder α) : Decoder (List α) := fun input => do
  let (count, rest) ← decodeWord 8 input
  decodeItems item count rest

def decodeInteger : Decoder Int64 := fun input => do
  let (bits, rest) ← decodeWord 8 input
  return ((UInt64.ofNat bits).toInt64, rest)

def decodeNumber : Decoder Binary64 := fun input => do
  let (bits, rest) ← decodeWord 8 input
  return (⟨UInt64.ofNat bits⟩, rest)

def decodeAs {α : Type} (tag : α → Value) (payload : Decoder α) : Decoder Value := fun input => do
  let (held, rest) ← payload input
  return (tag held, rest)

def decodeValue (stepNet : Decoder Net) : Decoder Value := fun input => do
  let (tag, rest) ← decodeWord 4 input
  match tag with
  | 0 => decodeAs .int decodeInteger rest
  | 1 => decodeAs .float decodeNumber rest
  | 2 => decodeAs .text decodeText rest
  | 3 => decodeAs .ints (decodeList decodeInteger) rest
  | 4 => decodeAs .floats (decodeList decodeNumber) rest
  | 5 => decodeAs .texts (decodeList decodeText) rest
  | 6 => decodeAs .net stepNet rest
  | _ => .error .unknownTag

def decodeArg (stepNet : Decoder Net) : Decoder Arg := fun input => do
  let (name, input) ← decodeText input
  let (held, rest) ← decodeValue stepNet input
  return (⟨name, held⟩, rest)

def decodeOp (stepNet : Decoder Net) : Decoder Op := fun input => do
  let (opType, input) ← decodeText input
  let (inputs, input) ← decodeList decodeText input
  let (outputs, input) ← decodeList decodeText input
  let (arguments, rest) ← decodeList (decodeArg stepNet) input
  return (⟨opType, inputs, outputs, arguments⟩, rest)

/-- The first argument bounds how deep step nets nest. -/
def decodeNet : Nat → Decoder Net
  | 0, _ => .error .truncated
  | depth + 1, input => do
    let (version, input) ← decodeText input
    let (name, input) ← decodeText input
    let (operations, input) ← decodeList (decodeOp (decodeNet depth)) input
    let (inputs, input) ← decodeList decodeText input
    let (outputs, rest) ← decodeList decodeText input
    return (⟨version, name, operations, inputs, outputs⟩, rest)

end Binary

def Net.toBinary (net : Net) : Bytes := Binary.net net

/-- A net takes bytes of its own besides those of its step nets, so none nests deeper than its length. -/
def Net.decodeBinary (bytes : Bytes) : Except BinaryFault (Net × Bytes) :=
  Binary.decodeNet (bytes.length + 1) bytes

end StoragePlan
