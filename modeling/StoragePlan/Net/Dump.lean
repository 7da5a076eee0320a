import StoragePlan.Decimal.Layout
import StoragePlan.Net.Basic
import StoragePlan.Text

set_option autoImplicit false

namespace StoragePlan

def dumpLayout : DecimalLayout where
  tie := .upward
  leastPositional := -4
  firstScientific := 16
  plus := ""
  nan := "NaN"
  infinity := "inf"
  negativeInfinity := "-inf"

def dumpLine (indent : Nat) (line : String) : String :=
  String.ofList (List.replicate (2 * indent) ' ') ++ line ++ "\n"

def joinNames (names : List String) : String := ", ".intercalate names

/-- The tag of a value and what it holds; a step net is dumped on lines of its own instead. -/
def Value.describe : Value → String
  | .int n => "Int(" ++ toString n.toInt ++ ")"
  | .float x => "Float(" ++ dumpLayout.write x ++ ")"
  | .text s => "Str(" ++ Text.quote s ++ ")"
  | .ints ns => Text.bracketed "Ints([" "])" (ns.map fun n => toString n.toInt)
  | .floats xs => Text.bracketed "Floats([" "])" (xs.map dumpLayout.write)
  | .texts ss => Text.bracketed "Strs([" "])" (ss.map Text.quote)
  | .net _ => "Net"

def dumpNames (indent : Nat) (label : String) : List String → String
  | [] => ""
  | names => dumpLine indent (label ++ ": [" ++ joinNames names ++ "]")

mutual

def Net.dumpAt (indent : Nat) : Net → String
  | ⟨_, name, ops, inputs, outputs⟩ =>
    dumpLine indent ("net @" ++ name ++ " \x7b") ++
      dumpNames (indent + 1) "external_inputs" inputs ++
      (if ops.isEmpty then "" else dumpLine (indent + 1) "ops:") ++
      dumpOps (indent + 2) ops ++
      dumpNames (indent + 1) "external_outputs" outputs ++
      dumpLine indent "\x7d"

def dumpOps (indent : Nat) : List Op → String
  | [] => ""
  | ⟨opType, inputs, outputs, args⟩ :: rest =>
    dumpLine indent ("(" ++ joinNames outputs ++ ") = " ++ opType ++ "(" ++ joinNames inputs ++ ")") ++
      dumpArgs (indent + 1) args ++ dumpOps indent rest

def dumpArgs (indent : Nat) : List Arg → String
  | [] => ""
  | ⟨name, value⟩ :: rest =>
    (match value with
      | .net step => dumpLine indent (name ++ " =") ++ step.dumpAt (indent + 1)
      | value => dumpLine indent (name ++ " = " ++ value.describe)) ++
      dumpArgs indent rest

end

def Net.dump (net : Net) : String := net.dumpAt 0

end StoragePlan
