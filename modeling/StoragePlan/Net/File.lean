import StoragePlan.Net.Binary
import StoragePlan.Net.Json
import StoragePlan.Net.Basic

set_option autoImplicit false

namespace StoragePlan

inductive LoadError
  | json (fault : Json.Fault)
  | binary (fault : BinaryFault)
  | versionMismatch (found : String)
  | noFile
  | notText
deriving DecidableEq

/-- The message of a mismatch of versions; the other faults have no text of their own. -/
def versionMessage (found : String) : String :=
  "net format version '" ++ found ++ "' does not match expected '" ++ Net.currentVersion ++ "'"

namespace Net

def checked (net : Net) : Except LoadError Net :=
  net.withCheckedVersion.mapError .versionMismatch

def ofJson (s : String) : Except LoadError Net := do
  (← (decodeJson s).mapError .json).checked

def ofBinary (bytes : Bytes) : Except LoadError Net := do
  let (net, _) ← (decodeBinary bytes).mapError .binary
  net.checked

end Net

inductive FileFormat
  | json
  | binary
deriving DecidableEq

def FileFormat.save (format : FileFormat) (net : Net) : Bytes :=
  match format with
  | .json => net.toJson.toUTF8.data.toList
  | .binary => net.toBinary

def FileFormat.load (format : FileFormat) : Option Bytes → Except LoadError Net
  | none => .error .noFile
  | some bytes =>
    match format with
    | .json =>
      match String.fromUTF8? bytes.toByteArray with
      | some s => Net.ofJson s
      | none => .error .notText
    | .binary => Net.ofBinary bytes

end StoragePlan
