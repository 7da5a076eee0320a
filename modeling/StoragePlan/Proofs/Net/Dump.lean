import StoragePlan.Net.Dump

set_option autoImplicit false

namespace StoragePlan

structure DumpLine where
  depth : Nat
  text : String

def printLines (indent : Nat) (lines : List DumpLine) : String :=
  lines.foldr (fun line rest => dumpLine (indent + line.depth) line.text ++ rest) ""

def deeper (depth : Nat) (lines : List DumpLine) : List DumpLine :=
  lines.map fun line => ⟨depth + line.depth, line.text⟩

def namesLines (label : String) (names : List String) : List DumpLine :=
  if names.isEmpty then [] else [⟨1, label ++ ": [" ++ joinNames names ++ "]"⟩]

mutual

/-- The lines of the dump, each with how far it stands to the right of the first one. -/
def Net.outline : Net → List DumpLine
  | ⟨_, name, ops, inputs, outputs⟩ =>
    ⟨0, "net @" ++ name ++ " \x7b"⟩ ::
      (namesLines "external_inputs" inputs ++ (if ops.isEmpty then [] else [⟨1, "ops:"⟩]) ++
        deeper 2 (outlineOps ops) ++ namesLines "external_outputs" outputs ++ [⟨0, "\x7d"⟩])

def outlineOps : List Op → List DumpLine
  | [] => []
  | ⟨opType, inputs, outputs, args⟩ :: rest =>
    ⟨0, "(" ++ joinNames outputs ++ ") = " ++ opType ++ "(" ++ joinNames inputs ++ ")"⟩ ::
      (deeper 1 (outlineArgs args) ++ outlineOps rest)

def outlineArgs : List Arg → List DumpLine
  | [] => []
  | ⟨name, value⟩ :: rest =>
    (match value with
      | .net step => ⟨0, name ++ " ="⟩ :: deeper 1 step.outline
      | value => [⟨0, name ++ " = " ++ value.describe⟩]) ++ outlineArgs rest

end

section Print

variable (indent : Nat)

@[simp] theorem printLines_nil : printLines indent [] = "" := rfl

@[simp] theorem printLines_cons (line : DumpLine) (rest : List DumpLine) :
    printLines indent (line :: rest) = dumpLine (indent + line.depth) line.text ++ printLines indent rest :=
  rfl

@[simp] theorem printLines_append (front back : List DumpLine) :
    printLines indent (front ++ back) = printLines indent front ++ printLines indent back := by
  induction front with
  | nil => simp
  | cons line front ih => simp [ih, String.append_assoc]

@[simp] theorem printLines_deeper (depth : Nat) (lines : List DumpLine) :
    printLines indent (deeper depth lines) = printLines (indent + depth) lines := by
  induction lines with
  | nil => rfl
  | cons line rest ih =>
    rw [printLines_cons, ← ih, Nat.add_assoc]
    rfl

@[simp] theorem printLines_namesLines (label : String) (names : List String) :
    printLines indent (namesLines label names) = dumpNames (indent + 1) label names := by
  cases names with
  | nil => rfl
  | cons first rest => simp [namesLines, dumpNames]

end Print

mutual

theorem Net.dumpAt_eq (indent : Nat) (net : Net) : net.dumpAt indent = printLines indent net.outline := by
  obtain ⟨version, name, ops, inputs, outputs⟩ := net
  cases ops with
  | nil => simp [Net.dumpAt, Net.outline, dumpOps, outlineOps, deeper, String.append_assoc]
  | cons op rest => simp [Net.dumpAt, Net.outline, dumpOps_eq, String.append_assoc]

theorem dumpOps_eq (indent : Nat) (ops : List Op) :
    dumpOps indent ops = printLines indent (outlineOps ops) := by
  match ops with
  | [] => rfl
  | ⟨opType, inputs, outputs, args⟩ :: rest =>
    simp [dumpOps, outlineOps, dumpArgs_eq, dumpOps_eq, String.append_assoc]

theorem dumpArgs_eq (indent : Nat) (args : List Arg) :
    dumpArgs indent args = printLines indent (outlineArgs args) := by
  match args with
  | [] => rfl
  | ⟨name, value⟩ :: rest =>
    cases value with
    | net step => simp [dumpArgs, outlineArgs, Net.dumpAt_eq, dumpArgs_eq, String.append_assoc]
    | int n => simp [dumpArgs, outlineArgs, dumpArgs_eq]
    | float x => simp [dumpArgs, outlineArgs, dumpArgs_eq]
    | text s => simp [dumpArgs, outlineArgs, dumpArgs_eq]
    | ints ns => simp [dumpArgs, outlineArgs, dumpArgs_eq]
    | floats xs => simp [dumpArgs, outlineArgs, dumpArgs_eq]
    | texts ss => simp [dumpArgs, outlineArgs, dumpArgs_eq]

end

theorem Net.dumpAt_add (indent depth : Nat) (net : Net) :
    net.dumpAt (indent + depth) = printLines indent (deeper depth net.outline) := by
  rw [Net.dumpAt_eq, printLines_deeper]

theorem depth_pos_of_deeper {depth : Nat} {lines : List DumpLine} {line : DumpLine}
    (inside : line ∈ deeper (depth + 1) lines) : 0 < line.depth := by
  obtain ⟨line, -, rfl⟩ := List.mem_map.mp inside
  exact Nat.lt_of_lt_of_le (Nat.succ_pos depth) (Nat.le_add_right _ _)

theorem depth_pos_of_namesLines {label : String} {names : List String} {line : DumpLine}
    (inside : line ∈ namesLines label names) : 0 < line.depth := by
  unfold namesLines at inside
  split at inside
  next => simp at inside
  next =>
    obtain rfl := List.mem_singleton.mp inside
    exact Nat.one_pos

-- The brace that closes a net is the first one as far to the left as the line that opens it.
theorem Net.outline_framed (net : Net) : ∃ inner,
    net.outline = ⟨0, "net @" ++ net.name ++ " \x7b"⟩ :: (inner ++ [⟨0, "\x7d"⟩]) ∧
      ∀ line ∈ inner, 0 < line.depth := by
  obtain ⟨version, name, ops, inputs, outputs⟩ := net
  refine ⟨_, rfl, fun line inside => ?_⟩
  simp only [List.mem_append] at inside
  rcases inside with ((names | header) | below) | names
  next => exact depth_pos_of_namesLines names
  next =>
    split at header
    next => simp at header
    next =>
      obtain rfl := List.mem_singleton.mp header
      exact Nat.one_pos
  next => exact depth_pos_of_deeper below
  next => exact depth_pos_of_namesLines names

end StoragePlan
