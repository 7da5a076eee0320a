import StoragePlan.Net.File
import StoragePlan.Proofs.Json.Domain
import StoragePlan.Proofs.Json.ReadBack

set_option autoImplicit false

namespace StoragePlan

mutual

def Net.brackets : Net → Nat
  | ⟨_, _, ops, _, _⟩ => opsBrackets ops + 2

def opsBrackets : List Op → Nat
  | [] => 0
  | ⟨_, _, _, args⟩ :: rest => max (argsBrackets args + 2) (opsBrackets rest)

def argsBrackets : List Arg → Nat
  | [] => 0
  | ⟨_, value⟩ :: rest => max (value.brackets + 2) (argsBrackets rest)

def Value.brackets : Value → Nat
  | .int _ | .float _ | .text _ => 0
  | .ints _ | .floats _ | .texts _ => 1
  | .net step => step.brackets

end

mutual

def Net.reals : Net → List Binary64
  | ⟨_, _, ops, _, _⟩ => opsReals ops

def opsReals : List Op → List Binary64
  | [] => []
  | ⟨_, _, _, args⟩ :: rest => argsReals args ++ opsReals rest

def argsReals : List Arg → List Binary64
  | [] => []
  | ⟨_, value⟩ :: rest => value.reals ++ argsReals rest

def Value.reals : Value → List Binary64
  | .float x => [x]
  | .floats xs => xs
  | .net step => step.reals
  | _ => []

end

theorem opsBrackets_eq (ops : List Op) :
    opsBrackets ops = Json.most (ops.map fun op => argsBrackets op.args + 2) := by
  induction ops with
  | nil => rfl
  | cons op rest ih =>
    cases op
    rw [opsBrackets, ih]
    rfl

theorem argsBrackets_eq (args : List Arg) :
    argsBrackets args = Json.most (args.map fun arg => arg.value.brackets + 2) := by
  induction args with
  | nil => rfl
  | cons arg rest ih =>
    cases arg
    rw [argsBrackets, ih]
    rfl

theorem opsReals_eq (ops : List Op) : opsReals ops = ops.flatMap fun op => argsReals op.args := by
  induction ops with
  | nil => rfl
  | cons op rest ih =>
    cases op
    rw [opsReals, ih, List.flatMap_cons]

theorem argsReals_eq (args : List Arg) : argsReals args = args.flatMap fun arg => arg.value.reals := by
  induction args with
  | nil => rfl
  | cons arg rest ih =>
    cases arg
    rw [argsReals, ih, List.flatMap_cons]

theorem reals_of_arg {net : Net} {op : Op} {arg : Arg} (operation : op ∈ net.ops) (argument : arg ∈ op.args)
    {x : Binary64} (inside : x ∈ arg.value.reals) : x ∈ net.reals := by
  cases net
  rw [Net.reals, opsReals_eq, List.mem_flatMap]
  refine ⟨op, operation, ?_⟩
  rw [argsReals_eq, List.mem_flatMap]
  exact ⟨arg, argument, inside⟩

theorem brackets_of_step {net step : Net} {op : Op} {arg : Arg} (operation : op ∈ net.ops)
    (argument : arg ∈ op.args) (same : arg.value = .net step) : step.brackets + 6 ≤ net.brackets := by
  cases net
  have outer := Json.le_most (List.mem_map_of_mem operation (f := fun op => argsBrackets op.args + 2))
  have inner := Json.le_most (List.mem_map_of_mem argument (f := fun arg => arg.value.brackets + 2))
  rw [← opsBrackets_eq] at outer
  rw [← argsBrackets_eq, same, Value.brackets] at inner
  rw [Net.brackets]
  dsimp only at outer
  omega

namespace Json

def writeArg (depth : Nat) (arg : Arg) : List Char :=
  writeObject depth
    [("name", writeText arg.name), ("value", writeObject (depth + 1) [writeValue (depth + 2) arg.value])]

def writeOp (depth : Nat) (op : Op) : List Char :=
  writeObject depth
    [("op_type", writeText op.opType),
     ("inputs", writeTexts (depth + 1) op.inputs),
     ("outputs", writeTexts (depth + 1) op.outputs),
     ("args", writeList (depth + 1) (op.args.map (writeArg (depth + 2))))]

theorem writeArgs_eq (depth : Nat) (args : List Arg) : writeArgs depth args = args.map (writeArg depth) := by
  induction args with
  | nil => rfl
  | cons arg rest ih =>
    cases arg
    rw [writeArgs, ih, List.map_cons, writeArg]

theorem writeOps_eq (depth : Nat) (ops : List Op) : writeOps depth ops = ops.map (writeOp depth) := by
  induction ops with
  | nil => rfl
  | cons op rest ih =>
    cases op
    rw [writeOps, ih, List.map_cons, writeOp, writeArgs_eq]

theorem most_zeros {α : Type} (all : List α) : most (all.map fun _ => 0) = 0 :=
  Nat.le_zero.mp (most_le_iff.mpr fun depth inside => by simp_all)

theorem balanced_of_numeric {written : List Char} (numeric : Numeric written) : Balanced 0 written :=
  balanced_plain fun c inside => (isPlain_of_isNumeric (numeric c inside)).1

theorem balanced_writeScalars {α : Type} {write : α → List Char} (balanced : ∀ item, Balanced 0 (write item))
    (depth : Nat) (all : List α) : Balanced 1 (writeList depth (all.map write)) := by
  have each : ∀ item ∈ all, Balanced 0 (write item) := fun item _ => balanced item
  have items := balanced_writeList each depth
  rw [most_zeros] at items
  exact items

theorem balanced_writeValue {held : Value}
    (steps : ∀ step, held = .net step → ∀ depth, Balanced step.brackets (writeNet depth step)) (depth : Nat) :
    Balanced held.brackets (writeValue depth held).2 := by
  have integers (n : Int64) := balanced_of_numeric (numeric_writeInteger n)
  have reals (x : Binary64) := balanced_of_numeric (numeric_writeReal x)
  cases held with
  | int n => exact integers n
  | float x => exact reals x
  | text s => exact balanced_writeText s
  | ints ns => exact balanced_writeScalars integers depth ns
  | floats xs => exact balanced_writeScalars reals depth xs
  | texts ss => exact balanced_writeScalars balanced_writeText depth ss
  | net step => exact steps step rfl depth

theorem balanced_writeArg {held : Arg}
    (inner : ∀ depth, Balanced held.value.brackets (writeValue depth held.value).2) (depth : Nat) :
    Balanced (held.value.brackets + 2) (writeArg depth held) := by
  have value := balanced_writeObject (.cons (inner (depth + 2)) .nil) (depth + 1)
  have each : List.Forall₂ (fun member deepest => Balanced deepest member.2)
      [("name", writeText held.name),
        ("value", writeObject (depth + 1) [writeValue (depth + 2) held.value])]
      [0, most [held.value.brackets] + 1] :=
    .cons (balanced_writeText held.name) (.cons value .nil)
  have depths : most [0, most [held.value.brackets] + 1] + 1 = held.value.brackets + 2 := by
    simp [most]
  exact depths ▸ balanced_writeObject each depth

theorem balanced_writeOp {held : Op}
    (inner : ∀ arg ∈ held.args, ∀ depth, Balanced arg.value.brackets (writeValue depth arg.value).2)
    (depth : Nat) : Balanced (argsBrackets held.args + 2) (writeOp depth held) := by
  have args := balanced_writeList (fun arg inside => balanced_writeArg (inner arg inside) (depth + 2)) (depth + 1)
  rw [← argsBrackets_eq] at args
  have each : List.Forall₂ (fun member deepest => Balanced deepest member.2)
      [("op_type", writeText held.opType), ("inputs", writeTexts (depth + 1) held.inputs),
        ("outputs", writeTexts (depth + 1) held.outputs),
        ("args", writeList (depth + 1) (held.args.map (writeArg (depth + 2))))]
      [0, 1, 1, argsBrackets held.args + 1] :=
    .cons (balanced_writeText held.opType) (.cons (balanced_writeScalars balanced_writeText _ _)
      (.cons (balanced_writeScalars balanced_writeText _ _) (.cons args .nil)))
  have depths : most [0, 1, 1, argsBrackets held.args + 1] + 1 = argsBrackets held.args + 2 := by
    simp [most]
  exact depths ▸ balanced_writeObject each depth

theorem balanced_writeNet_of_args {held : Net}
    (inner : ∀ op ∈ held.ops, ∀ arg ∈ op.args, ∀ depth,
      Balanced arg.value.brackets (writeValue depth arg.value).2) (depth : Nat) :
    Balanced held.brackets (writeNet depth held) := by
  cases held with
  | mk version name all inputs outputs =>
    have ops := balanced_writeList (fun op inside => balanced_writeOp (inner op inside) (depth + 2)) (depth + 1)
    rw [← opsBrackets_eq] at ops
    have each : List.Forall₂ (fun member deepest => Balanced deepest member.2)
        [("format_version", writeText version), ("name", writeText name),
          ("ops", writeList (depth + 1) (all.map (writeOp (depth + 2)))),
          ("external_inputs", writeTexts (depth + 1) inputs),
          ("external_outputs", writeTexts (depth + 1) outputs)] [0, 0, opsBrackets all + 1, 1, 1] :=
      .cons (balanced_writeText version) (.cons (balanced_writeText name) (.cons ops
        (.cons (balanced_writeScalars balanced_writeText _ _) (.cons (balanced_writeScalars balanced_writeText _ _) .nil))))
    have depths : most [0, 0, opsBrackets all + 1, 1, 1] + 1 = opsBrackets all + 2 := by
      simp [most]
    rw [writeNet, writeOps_eq, Net.brackets]
    exact depths ▸ balanced_writeObject each depth

theorem balanced_writeNet (depth : Nat) (net : Net) : Balanced net.brackets (writeNet depth net) := by
  induction size : net.brackets using Nat.strongRecOn generalizing net depth with
  | ind limit ih =>
    rw [← size]
    refine balanced_writeNet_of_args (fun op operation arg argument => balanced_writeValue ?_) depth
    intro step same depth
    have lower := brackets_of_step operation argument same
    exact ih step.brackets (by omega) depth step rfl

theorem scalars_written {α : Type} {reader : Reader α} {write : α → List Char} {all : List α}
    (reads : ∀ item ∈ all, Written reader item 0 (write item)) (depth : Nat) :
    Written (list reader) all 1 (writeList depth (all.map write)) := by
  have whole := list_written reads depth
  rw [most_zeros] at whole
  exact whole

theorem texts_written (depth : Nat) (texts : List String) :
    Written (list text) texts 1 (writeTexts depth texts) :=
  scalars_written (fun s _ => text_written s) depth

variable {stepNet : Reader Net}

theorem value_written {held : Value} (back : ∀ x ∈ held.reals, ReadsBack x)
    (steps : ∀ step depth, held = .net step → Written stepNet step step.brackets (writeNet depth step))
    (depth depth' : Nat) :
    Written (value stepNet) held (held.brackets + 1) (writeObject depth [writeValue depth' held]) := by
  cases held with
  | int n => exact tagged_written rfl ((integer_written n).map Value.int) depth
  | float x => exact tagged_written rfl ((real_written (back x List.mem_cons_self)).map Value.float) depth
  | text s => exact tagged_written rfl ((text_written s).map Value.text) depth
  | ints ns =>
    have each : ∀ n ∈ ns, Written integer n 0 (writeInteger n) := fun n _ => integer_written n
    have items := scalars_written each depth'
    exact tagged_written rfl (items.map Value.ints) depth
  | floats xs =>
    have items := scalars_written (fun x inside => real_written (back x inside)) depth'
    exact tagged_written rfl (items.map Value.floats) depth
  | texts ss => exact tagged_written rfl ((texts_written depth' ss).map Value.texts) depth
  | net step => exact tagged_written rfl ((steps step depth' rfl).map Value.net) depth

theorem Fills.field {δ α β : Type} {record : Record δ α} {draft draft' : δ} {key : String}
    {get : δ → Option β} {set : δ → β → δ} {reader : Reader β} {found : β} {written : List Char}
    {deepest deepest' : Nat} {members : List (String × List Char)}
    (known : (record.fields.find? fun field => field.key = key) = some (field key get set reader))
    (missing : get draft = none) (reads : Written reader found deepest written)
    (later : Fills record (set draft found) members deepest' draft') :
    Fills record draft ((key, written) :: members) (max deepest deepest') draft' :=
  .member known (congrArg Option.isSome missing) (reads.map (set draft)) later

theorem arg_written {held : Arg} (back : ∀ x ∈ held.value.reals, ReadsBack x)
    (steps : ∀ step depth, held.value = .net step → Written stepNet step step.brackets (writeNet depth step))
    (depth : Nat) :
    Written (arg stepNet).read held (held.value.brackets + 2) (writeArg depth held) := by
  cases held with
  | mk name held =>
    have fills : Fills (arg stepNet) ⟨none, none⟩ [("name", _), ("value", _)] _ ⟨some name, some held⟩ :=
      .field rfl rfl (text_written name)
        (.field rfl rfl (value_written back steps (depth + 1) (depth + 2)) (.done _))
    have whole := record_written fills rfl depth
    simpa [writeArg] using whole

theorem op_written {held : Op}
    (args : ∀ one ∈ held.args, ∀ depth,
      Written (arg stepNet).read one (one.value.brackets + 2) (writeArg depth one)) (depth : Nat) :
    Written (op stepNet).read held (argsBrackets held.args + 2) (writeOp depth held) := by
  cases held with
  | mk opType inputs outputs all =>
    have arguments := list_written (fun one inside => args one inside (depth + 2)) (depth + 1)
    rw [← argsBrackets_eq] at arguments
    have fills : Fills (op stepNet) ⟨none, none, none, none⟩
        [("op_type", _), ("inputs", _), ("outputs", _), ("args", _)] _
        ⟨some opType, some inputs, some outputs, some all⟩ :=
      .field rfl rfl (text_written opType)
        (.field rfl rfl (texts_written (depth + 1) inputs)
          (.field rfl rfl (texts_written (depth + 1) outputs) (.field rfl rfl arguments (.done _))))
    have whole := record_written fills rfl depth
    simpa [writeOp] using whole

theorem netRecord_written {held : Net}
    (ops : ∀ one ∈ held.ops, ∀ depth,
      Written (op stepNet).read one (argsBrackets one.args + 2) (writeOp depth one)) (depth : Nat) :
    Written (netRecord stepNet).read held held.brackets (writeNet depth held) := by
  cases held with
  | mk version name all inputs outputs =>
    have operations := list_written (fun one inside => ops one inside (depth + 2)) (depth + 1)
    rw [← opsBrackets_eq] at operations
    have fills : Fills (netRecord stepNet) ⟨none, none, none, none, none⟩
        [("format_version", _), ("name", _), ("ops", _), ("external_inputs", _), ("external_outputs", _)] _
        ⟨some version, some name, some all, some inputs, some outputs⟩ :=
      .field rfl rfl (text_written version)
        (.field rfl rfl (text_written name)
          (.field rfl rfl operations
            (.field rfl rfl (texts_written (depth + 1) inputs)
              (.field rfl rfl (texts_written (depth + 1) outputs) (.done _)))))
    have whole := record_written fills rfl depth
    simpa [writeNet, writeOps_eq, Net.brackets] using whole

theorem net_written {held : Net} {depth : Nat} (shallow : held.brackets ≤ depth)
    (back : ∀ x ∈ held.reals, ReadsBack x) (indent : Nat) :
    Written (net depth) held held.brackets (writeNet indent held) := by
  induction depth generalizing held indent with
  | zero =>
    cases held
    simp [Net.brackets] at shallow
  | succ depth ih =>
    refine netRecord_written (fun operation here => op_written fun one inside => arg_written ?_ ?_) indent
    next => exact fun x among => back x (reals_of_arg here inside among)
    next =>
      intro step indent' same
      have lower := brackets_of_step here inside same
      have among : ∀ x ∈ step.reals, x ∈ held.reals := fun x inner =>
        reals_of_arg here inside (same ▸ inner)
      exact ih (by omega) (fun x inner => back x (among x inner)) indent'

end Json

def Net.Bounded (brackets : Nat) (net : Net) : Prop :=
  net.brackets ≤ brackets ∧ ∀ x ∈ net.reals, x.isFinite = true

def Op.Bounded (brackets : Nat) (op : Op) : Prop :=
  argsBrackets op.args + 2 ≤ brackets ∧ ∀ x ∈ argsReals op.args, x.isFinite = true

def Arg.Bounded (brackets : Nat) (arg : Arg) : Prop :=
  arg.value.brackets + 2 ≤ brackets ∧ ∀ x ∈ arg.value.reals, x.isFinite = true

def Value.Bounded (brackets : Nat) (value : Value) : Prop :=
  value.brackets ≤ brackets ∧ ∀ x ∈ value.reals, x.isFinite = true

theorem bounded_of_each {α : Type} {brackets : Nat} {items : List α} {depth : α → Nat} {reals : α → List Binary64}
    (each : ∀ item ∈ items, depth item ≤ brackets ∧ ∀ x ∈ reals item, x.isFinite = true) :
    Json.most (items.map depth) ≤ brackets ∧ ∀ x ∈ items.flatMap reals, x.isFinite = true := by
  rw [Json.most_le_iff, List.forall_mem_map]
  refine ⟨fun item inside => (each item inside).1, fun x inside => ?_⟩
  have ⟨item, here, among⟩ := List.mem_flatMap.mp inside
  exact (each item here).2 x among

theorem args_bounded {brackets : Nat} {args : List Arg} (each : ∀ arg ∈ args, arg.Bounded brackets) :
    argsBrackets args ≤ brackets ∧ ∀ x ∈ argsReals args, x.isFinite = true := by
  rw [argsBrackets_eq, argsReals_eq]
  exact bounded_of_each each

theorem ops_bounded {brackets : Nat} {ops : List Op} (each : ∀ op ∈ ops, op.Bounded brackets) :
    opsBrackets ops ≤ brackets ∧ ∀ x ∈ opsReals ops, x.isFinite = true := by
  rw [opsBrackets_eq, opsReals_eq]
  exact bounded_of_each each

namespace Json

variable {stepNet : Reader Net}

theorem holding_finds {α : Type} {holds : Nat → α → Prop} {reader : Reader α} {tag : α → Value}
    (finds : Finds holds reader) (within : ∀ brackets found, holds brackets found → (tag found).Bounded brackets) :
    Finds Value.Bounded (holding tag reader) := by
  intro budget cs found rest read
  have ⟨⟨inner, _⟩, value, same⟩ := map_eq_ok.mp read
  obtain ⟨rfl, rfl⟩ := Prod.mk.inj same
  exact within _ _ (finds _ _ _ _ value)

theorem value_finds (finds : Finds Net.Bounded stepNet) :
    Finds (fun brackets found => ∃ inner, brackets = inner + 1 ∧ found.Bounded inner) (value stepNet) := by
  apply tagged_finds
  simp only [List.forall_mem_cons]
  refine ⟨?_, ?_, ?_, ?_, ?_, ?_, ?_, nofun⟩
  next => exact holding_finds .anything fun brackets n _ => ⟨Nat.zero_le _, nofun⟩
  next =>
    refine holding_finds real_finds fun brackets x finite => ⟨Nat.zero_le _, ?_⟩
    simpa [Value.reals] using finite
  next => exact holding_finds .anything fun brackets s _ => ⟨Nat.zero_le _, nofun⟩
  next =>
    refine holding_finds (list_finds .anything) fun brackets ns ⟨inner, same, _⟩ => ⟨?_, nofun⟩
    exact same ▸ Nat.le_add_left 1 inner
  next =>
    refine holding_finds (list_finds real_finds) fun brackets xs ⟨inner, same, finite⟩ => ⟨?_, finite⟩
    exact same ▸ Nat.le_add_left 1 inner
  next =>
    refine holding_finds (list_finds .anything) fun brackets ss ⟨inner, same, _⟩ => ⟨?_, nofun⟩
    exact same ▸ Nat.le_add_left 1 inner
  next => exact holding_finds finds fun brackets step within => within

theorem field_keeps {δ α : Type} {key : String} {get : δ → Option α} {set : δ → α → δ} {reader : Reader α}
    {holds : Nat → α → Prop} {kept : Nat → δ → Prop} (finds : Finds holds reader)
    (keeps : ∀ brackets draft found, holds brackets found → kept brackets draft →
      kept brackets (set draft found)) : (field key get set reader).Keeps kept := by
  intro draft budget cs draft' rest read before
  have ⟨⟨found, _⟩, value, same⟩ := map_eq_ok.mp read
  obtain ⟨rfl, rfl⟩ := Prod.mk.inj same
  exact keeps _ _ _ (finds _ _ _ _ value) before

theorem arg_finds (finds : Finds Net.Bounded stepNet) :
    (arg stepNet).Finds (fun brackets draft => ∀ found, draft.value = some found →
      ∃ inner, brackets = inner + 1 ∧ found.Bounded inner) Arg.Bounded where
  blank _ := nofun
  fill := by
    simp only [arg, List.forall_mem_cons]
    refine ⟨?_, ?_, nofun⟩
    next => exact field_keeps .anything fun brackets draft found _ before => before
    next =>
      refine field_keeps (value_finds finds) fun brackets draft found within _ other same => ?_
      exact Option.some.inj same ▸ within
  complete brackets draft found complete before := by
    simp only [arg, bind, Option.bind_eq_some_iff, pure, Option.some.injEq] at complete
    obtain ⟨name, -, held, known, rfl⟩ := complete
    have ⟨inner, same, below, finite⟩ := before held known
    exact ⟨by dsimp only; omega, finite⟩

theorem op_finds (finds : Finds Net.Bounded stepNet) :
    (op stepNet).Finds (fun brackets draft => (∀ found, draft.inputs = some found → ∃ inner, brackets = inner + 1) ∧
      ∀ found, draft.args = some found → ∃ inner, brackets = inner + 1 ∧ ∀ arg ∈ found, arg.Bounded inner)
      Op.Bounded where
  blank _ := ⟨nofun, nofun⟩
  fill := by
    simp only [op, List.forall_mem_cons]
    refine ⟨?_, ?_, ?_, ?_, nofun⟩
    next => exact field_keeps .anything fun brackets draft found _ before => before
    next =>
      refine field_keeps (list_finds .anything) fun brackets draft found within before => ⟨?_, before.2⟩
      exact fun _ _ => within.imp fun _ => And.left
    next => exact field_keeps .anything fun brackets draft found _ before => before
    next =>
      refine field_keeps (list_finds (arg_finds finds).read) fun brackets draft found within before => ⟨before.1, ?_⟩
      exact fun other same => Option.some.inj same ▸ within
  complete brackets draft found complete before := by
    simp only [op, bind, Option.bind_eq_some_iff, pure, Option.some.injEq] at complete
    obtain ⟨opType, -, inputs, given, outputs, -, rfl⟩ := complete
    have ⟨_, same⟩ := before.1 inputs given
    cases known : draft.args with
    | none => exact ⟨by simp [argsBrackets, same], nofun⟩
    | some args =>
      have ⟨inner, same, each⟩ := before.2 args known
      have ⟨below, finite⟩ := args_bounded each
      exact ⟨by dsimp only [Option.getD]; omega, finite⟩

theorem netRecord_finds (finds : Finds Net.Bounded stepNet) :
    (netRecord stepNet).Finds (fun brackets draft => ∀ found, draft.ops = some found →
      ∃ inner, brackets = inner + 1 ∧ ∀ op ∈ found, op.Bounded inner) Net.Bounded where
  blank _ := nofun
  fill := by
    simp only [netRecord, List.forall_mem_cons]
    refine ⟨?_, ?_, ?_, ?_, ?_, nofun⟩
    next => exact field_keeps .anything fun brackets draft found _ before => before
    next => exact field_keeps .anything fun brackets draft found _ before => before
    next =>
      refine field_keeps (list_finds (op_finds finds).read) fun brackets draft found within _ other same => ?_
      exact Option.some.inj same ▸ within
    next => exact field_keeps .anything fun brackets draft found _ before => before
    next => exact field_keeps .anything fun brackets draft found _ before => before
  complete brackets draft found complete before := by
    simp only [netRecord, bind, Option.bind_eq_some_iff, pure, Option.some.injEq] at complete
    obtain ⟨name, -, ops, known, rfl⟩ := complete
    have ⟨inner, same, each⟩ := before ops known
    have ⟨below, finite⟩ := ops_bounded each
    exact ⟨by rw [Net.brackets]; omega, finite⟩

theorem net_finds (depth : Nat) : Finds Net.Bounded (net depth) := by
  induction depth with
  | zero => exact fun _ _ _ _ read => by simp [net] at read
  | succ depth ih => exact (netRecord_finds ih).read

end Json

theorem Net.nesting_toJson (net : Net) : Json.nesting net.toJson.toList = net.brackets := by
  rw [Net.toJson, String.toList_ofList]
  exact (Json.balanced_writeNet 0 net).nesting_eq

theorem Net.decodeJson_toJson {net : Net} (shallow : net.brackets ≤ 127)
    (back : ∀ x ∈ net.reals, Json.ReadsBack x) : Net.decodeJson net.toJson = .ok net := by
  have written := Json.net_written (Nat.le_succ_of_le shallow) back 0
  have read := written.read ⟨127, (Json.writeNet 0 net).length⟩ [] [] Json.blank_nil nofun shallow
    (Nat.le_refl _)
  rw [List.nil_append, List.append_nil] at read
  rw [Net.decodeJson, Net.toJson, Json.readAll, String.toList_ofList, read]
  rfl

theorem Net.bounded_decodeJson {s : String} {net : Net} (read : Net.decodeJson s = .ok net) :
    net.Bounded 127 := by
  have ⟨⟨found, rest⟩, whole, outer⟩ := bind_eq_ok.mp read
  dsimp only at outer
  split at outer
  next => exact Except.ok.inj outer ▸ Json.net_finds 128 _ _ _ _ whole
  next => simp at outer

/-- What the text form can hold: finite numbers, and brackets no deeper than a reader follows. -/
structure Net.Portable (net : Net) : Prop where
  current : net.version = Net.currentVersion
  finite : ∀ x ∈ net.reals, x.isFinite = true
  shallow : Json.nesting net.toJson.toList ≤ 127

theorem Net.ofJson_toJson {net : Net} (portable : net.Portable)
    (back : ∀ x ∈ net.reals, x.isFinite = true → Json.ReadsBack x) : Net.ofJson net.toJson = .ok net := by
  have shallow := portable.shallow
  rw [Net.nesting_toJson] at shallow
  have read := Net.decodeJson_toJson shallow fun x inside => back x inside (portable.finite x inside)
  have checked := Net.withCheckedVersion_eq_ok_iff.mpr ⟨portable.current, .inl rfl⟩
  rw [Net.ofJson, read, Except.mapError, ok_bind, Net.checked, checked]
  rfl

theorem Net.portable_ofJson {s : String} {net : Net} (read : Net.ofJson s = .ok net) : net.Portable := by
  have ⟨decoded, outer, checked⟩ := bind_eq_ok.mp read
  have ⟨shallow, finite⟩ := Net.bounded_decodeJson (mapError_eq_ok.mp outer)
  have ⟨current, same⟩ := Net.withCheckedVersion_eq_ok_iff.mp (mapError_eq_ok.mp checked)
  have ⟨brackets, reals⟩ : net.brackets = decoded.brackets ∧ net.reals = decoded.reals := by
    cases net
    cases same with
    | inl same => exact same ▸ ⟨rfl, rfl⟩
    | inr same => exact same ▸ ⟨rfl, rfl⟩
  rw [← brackets, ← Net.nesting_toJson] at shallow
  exact ⟨current, reals ▸ finite, shallow⟩

theorem Net.text_reads_back :
    (∀ net : Net, net.Portable → (∀ x ∈ net.reals, x.isFinite = true → Json.ReadsBack x) →
      Net.ofJson net.toJson = .ok net) ∧
    ∀ (s : String) (net : Net), Net.ofJson s = .ok net →
      net.Portable ∧ ((∀ x ∈ net.reals, x.isFinite = true → Json.ReadsBack x) →
        Net.ofJson net.toJson = .ok net) := by
  constructor
  next => exact fun net portable back => Net.ofJson_toJson portable back
  next =>
    intro s net read
    have portable := Net.portable_ofJson read
    exact ⟨portable, Net.ofJson_toJson portable⟩

/-- A step net with both limits of whole numbers, a negative zero, and a text of characters that are
escaped and characters that take four bytes. -/
def escapedNet : Net :=
  let step : Net := ⟨"", "inner", [⟨"Scale", [], ["\"\\"], [⟨"limits", .ints [Int64.minValue, Int64.maxValue]⟩,
    ⟨"scale", .floats [⟨0x3fe0000000000000⟩, ⟨0x8000000000000000⟩]⟩, ⟨"note", .text "\n\x01😀/"⟩]⟩], [], []⟩
  ⟨Net.currentVersion, "outer", [⟨"RecurrentNetwork", ["x"], [], [⟨"step_net", .net step⟩]⟩], [], ["x"]⟩

/-- Without version and external blobs, with an operation as a list of its fields, an escaped character
and a member that is passed over. -/
def foreignText : String :=
  "\x7b\"ops\": [[\"Copy\", [\"\\u0061\"], []]], \"author\": [\x7b\x7d], \"name\": \"n\"\x7d"

theorem Net.text_reads_back_escaped :
    (escapedNet.Portable ∧ (∀ x ∈ escapedNet.reals, x.isFinite = true → Json.ReadsBack x) ∧
      Net.ofJson escapedNet.toJson = .ok escapedNet) ∧
    ∃ net, Net.ofJson foreignText = .ok net ∧ (net.name, net.ops.map (·.inputs)) = ("n", [["a"]]) ∧
      net.Portable := by
  have reals : escapedNet.reals = [⟨0x3fe0000000000000⟩, ⟨0x8000000000000000⟩] := rfl
  have portable : escapedNet.Portable := by
    refine ⟨rfl, by rw [reals]; decide, ?_⟩
    rw [Net.nesting_toJson]
    decide
  have back : ∀ x ∈ escapedNet.reals, x.isFinite = true → Json.ReadsBack x := by
    rw [reals]
    simp only [List.forall_mem_cons]
    exact ⟨fun _ => ⟨.real ⟨0x3fe0000000000000⟩, by decide +kernel, rfl⟩,
      fun _ => ⟨.real ⟨0x8000000000000000⟩, by decide +kernel, rfl⟩, nofun⟩
  have ⟨net, read, seen⟩ : ∃ net, Net.ofJson foreignText = .ok net ∧
      (net.name, net.ops.map (·.inputs)) = ("n", [["a"]]) := exists_ok_of_view (by decide +kernel)
  exact ⟨⟨portable, back, Net.text_reads_back.1 escapedNet portable back⟩, net, read, seen,
    (Net.text_reads_back.2 foreignText net read).1⟩

end StoragePlan
