import Mathlib.Data.List.Forall2
import StoragePlan.Proofs.Ascending
import StoragePlan.Proofs.Rename
import StoragePlan.Proofs.Rename.Nested

set_option autoImplicit false

namespace StoragePlan

/-- Notes for the renamed operands, in ascending order of the old names. -/
def Op.NotedBy (mapping : Renaming) (op : Op) (notes : List Arg) : Prop :=
  ∃ blobs : List String, blobs.Pairwise (· < ·) ∧
    (∀ blob, blob ∈ blobs ↔ blob ∈ op.operands ∧ mapping.apply blob ≠ blob ∧
      ∀ arg ∈ op.args, arg.name ≠ blob ++ ".rename") ∧
    notes = blobs.map fun blob => ⟨blob ++ ".rename", .text (mapping.apply blob)⟩

mutual

/-- Only a recurrent operation has step nets that are renamed, and notes. -/
inductive Op.Becomes (mapping : Renaming) : Op → Op → Prop
  | plain {op : Op} (plain : op.isRecurrent = false) :
      Op.Becomes mapping op (op.relabel mapping.apply)
  | recurrent {op : Op} {args notes : List Arg} (recurrent : op.isRecurrent = true)
      (become : List.Forall₂ (Arg.Becomes mapping) op.args args) (noted : op.NotedBy mapping notes) :
      Op.Becomes mapping op { op.relabel mapping.apply with args := args ++ notes }

inductive Arg.Becomes (mapping : Renaming) : Arg → Arg → Prop
  | other {arg : Arg} (other : arg.isStepNet = false) : Arg.Becomes mapping arg arg
  | stepNet {arg : Arg} {step step' : Net} (expected : arg.isStepNet = true)
      (held : arg.value.stepNet? = some step) (inner : Net.Becomes mapping step step') :
      Arg.Becomes mapping arg { arg with value := arg.value.withStepNet step' }

inductive Net.Becomes (mapping : Renaming) : Net → Net → Prop
  | mk {net : Net} {ops : List Op} (become : List.Forall₂ (Op.Becomes mapping) net.ops ops) :
      Net.Becomes mapping net
        { net with
          ops := ops
          externalInputs := net.externalInputs.map mapping.apply
          externalOutputs := net.externalOutputs.map mapping.apply }

end

section Notes

variable {mapping : Renaming}

theorem Renaming.apply_of_mem {entry : String × String} (inside : entry ∈ mapping.entries) :
    mapping.apply entry.1 = entry.2 := by
  rw [apply, Table.get?_eq_some_iff.mpr inside, Option.getD_some]

theorem Renaming.mem_of_apply_ne {blob : String} (moved : mapping.apply blob ≠ blob) :
    (blob, mapping.apply blob) ∈ mapping.entries := by
  cases found : mapping.get? blob with
  | none => simp [apply, found] at moved
  | some name =>
    rw [apply, found]
    exact Table.get?_eq_some_iff.mp found

def notedBlobs (mapping : Renaming) (operands : List String) (args : List Arg) : List String :=
  (mapping.entries.filter fun entry => entry.1 ≠ entry.2 ∧ entry.1 ∈ operands ∧
    ∀ arg ∈ args, arg.name ≠ entry.1 ++ ".rename").map (·.1)

theorem renameNotes_eq (operands : List String) (args : List Arg) :
    renameNotes mapping operands args =
      (notedBlobs mapping operands args).map fun blob =>
        ⟨blob ++ ".rename", .text (mapping.apply blob)⟩ := by
  rw [renameNotes, notedBlobs, List.map_map, ← List.filterMap_eq_map, List.filterMap_filter]
  refine List.filterMap_congr fun entry inside => ?_
  simp [Renaming.apply_of_mem inside]

theorem notedBlobs_ascending (operands : List String) (args : List Arg) :
    (notedBlobs mapping operands args).Pairwise (· < ·) :=
  List.pairwise_map.mpr (mapping.ascending.filter _)

theorem mem_notedBlobs {operands : List String} {args : List Arg} {blob : String} :
    blob ∈ notedBlobs mapping operands args ↔ blob ∈ operands ∧ mapping.apply blob ≠ blob ∧
      ∀ arg ∈ args, arg.name ≠ blob ++ ".rename" := by
  simp only [notedBlobs, List.mem_map, List.mem_filter, decide_eq_true_eq]
  constructor
  next =>
    intro noted
    have ⟨entry, ⟨inside, moved, operand, fresh⟩, same⟩ := noted
    rw [← same, Renaming.apply_of_mem inside]
    exact ⟨operand, Ne.symm moved, fresh⟩
  next =>
    intro noted
    have ⟨operand, moved, fresh⟩ := noted
    exact ⟨_, ⟨Renaming.mem_of_apply_ne moved, Ne.symm moved, operand, fresh⟩, rfl⟩

theorem notedBy_iff {op : Op} {notes : List Arg} :
    op.NotedBy mapping notes ↔ notes = renameNotes mapping op.operands op.args := by
  rw [renameNotes_eq]
  constructor
  next =>
    intro noted
    have ⟨blobs, ascending, members, same⟩ := noted
    have equal : (⟨blobs, ascending⟩ : Names) = ⟨_, notedBlobs_ascending op.operands op.args⟩ :=
      Names.ext_iff.mpr fun blob => (members blob).trans mem_notedBlobs.symm
    rw [same, Names.mk.inj equal]
  next => exact fun same => ⟨_, notedBlobs_ascending _ _, fun _ => mem_notedBlobs, same⟩

theorem renameNotes_congr {args args' : List Arg} (same : args.map (·.name) = args'.map (·.name))
    (operands : List String) :
    renameNotes mapping operands args = renameNotes mapping operands args' := by
  have fresh (args : List Arg) (note : String) :
      (∀ arg ∈ args, arg.name ≠ note) ↔ note ∉ args.map (·.name) := by
    simp [eq_comm]
  simp only [renameNotes, fresh, same]

end Notes

theorem Arg.Becomes.name_eq {mapping : Renaming} {arg arg' : Arg} (becomes : arg.Becomes mapping arg') :
    arg'.name = arg.name := by
  cases becomes with
  | other => rfl
  | stepNet => rfl

theorem names_of_become {mapping : Renaming} {args args' : List Arg}
    (become : List.Forall₂ (Arg.Becomes mapping) args args') :
    args'.map (·.name) = args.map (·.name) := by
  induction become with
  | nil => rfl
  | cons first _ ih => rw [List.map_cons, List.map_cons, first.name_eq, ih]

section Law

variable {mapping : Renaming}

theorem Arg.becomes_iff {arg arg' : Arg} : arg.Becomes mapping arg' ↔
    arg.isStepNet = false ∧ arg' = arg ∨
      arg.isStepNet = true ∧ ∃ step step', arg.value.stepNet? = some step ∧
        step.Becomes mapping step' ∧ arg' = { arg with value := arg.value.withStepNet step' } := by
  constructor
  next =>
    intro becomes
    cases becomes with
    | other other => exact .inl ⟨other, rfl⟩
    | stepNet expected held inner => exact .inr ⟨expected, _, _, held, inner, rfl⟩
  next =>
    intro law
    cases law with
    | inl kept =>
      rw [kept.2]
      exact .other kept.1
    | inr renamed =>
      have ⟨expected, step, step', held, inner, same⟩ := renamed
      rw [same]
      exact .stepNet expected held inner

theorem renameValue_eq_ok_iff {value : Value}
    (steps : ∀ step, value.stepNet? = some step → ∀ step',
      (renameStepNet mapping (renameText mapping) step).outcome = .ok step' ↔ step.Becomes mapping step')
    (opType name : String) (value' : Value) :
    (renameValue mapping (renameText mapping) opType name value).outcome = .ok value' ↔
      ∃ step step', value.stepNet? = some step ∧ step.Becomes mapping step' ∧
        value' = value.withStepNet step' := by
  cases held : value.stepNet? with
  | none => simp [renameValue_of_no_stepNet held, Journal.fail]
  | some step =>
    simp [renameValue_of_stepNet held, steps step held, eq_comm (a := value')]

-- By induction on the arguments, for step nets of which the law is known.
theorem renameArgs_eq_ok_iff {args : List Arg}
    (steps : ∀ arg ∈ args, arg.isStepNet = true → ∀ step, arg.value.stepNet? = some step → ∀ step',
      (renameStepNet mapping (renameText mapping) step).outcome = .ok step' ↔
        step.Becomes mapping step')
    (opType : String) (args' : List Arg) :
    (renameArgs mapping (renameText mapping) opType args).outcome = .ok args' ↔
      List.Forall₂ (Arg.Becomes mapping) args args' := by
  induction args generalizing args' with
  | nil => simp [renameArgs, eq_comm]
  | cons arg rest ih =>
    have ⟨here, later⟩ := List.forall_mem_cons.mp steps
    cases arg with
    | mk name value =>
      simp only [List.forall₂_cons_left_iff, Arg.becomes_iff, renameArgs]
      by_cases expected : isStepNetName name = true
      next =>
        have renamed := renameValue_eq_ok_iff (here expected) opType name
        simp only [expected, if_true, Journal.outcome_bind, Journal.outcome_emit, Journal.outcome_pure,
          renamed, ih later, Arg.isStepNet]
        grind
      next =>
        simp [expected, ih later, Arg.isStepNet, eq_comm (a := args')]

theorem Op.becomes_iff {op op' : Op} : op.Becomes mapping op' ↔
    op.isRecurrent = false ∧ op' = op.relabel mapping.apply ∨
      op.isRecurrent = true ∧ ∃ args, List.Forall₂ (Arg.Becomes mapping) op.args args ∧
        op' = { op.relabel mapping.apply with args := args ++ renameNotes mapping op.operands op.args } := by
  constructor
  next =>
    intro becomes
    cases becomes with
    | plain plain => exact .inl ⟨plain, rfl⟩
    | recurrent recurrent become noted =>
      exact .inr ⟨recurrent, _, become, by rw [notedBy_iff.mp noted]⟩
  next =>
    intro law
    cases law with
    | inl plain =>
      rw [plain.2]
      exact .plain plain.1
    | inr renamed =>
      have ⟨recurrent, args, become, same⟩ := renamed
      rw [same]
      exact .recurrent recurrent become (notedBy_iff.mpr rfl)

theorem renameOps_eq_ok_iff {ops : List Op}
    (steps : ∀ op ∈ ops, op.isRecurrent = true → ∀ arg ∈ op.args, arg.isStepNet = true →
      ∀ step, arg.value.stepNet? = some step → ∀ step',
        (renameStepNet mapping (renameText mapping) step).outcome = .ok step' ↔
          step.Becomes mapping step')
    (ops' : List Op) :
    (renameOps mapping (renameText mapping) ops).outcome = .ok ops' ↔
      List.Forall₂ (Op.Becomes mapping) ops ops' := by
  induction ops generalizing ops' with
  | nil => simp [renameOps, eq_comm]
  | cons op rest ih =>
    have ⟨here, later⟩ := List.forall_mem_cons.mp steps
    cases op with
    | mk opType inputs outputs args =>
      simp only [List.forall₂_cons_left_iff, Op.becomes_iff, renameOps]
      by_cases recurrent : isRecurrentType opType = true
      next =>
        have renamed := renameArgs_eq_ok_iff (here recurrent) opType
        have notes (args' : List Arg) (become : List.Forall₂ (Arg.Becomes mapping) args args') :
            renameNotes mapping (inputs ++ outputs) args' = renameNotes mapping (inputs ++ outputs) args :=
          renameNotes_congr (names_of_become become) _
        simp only [recurrent, if_true, Journal.outcome_bind, Journal.outcome_pure,
          renamed, ih later, Op.isRecurrent, Op.relabel, Op.operands]
        grind
      next =>
        simp [recurrent, ih later, Op.isRecurrent, Op.relabel, eq_comm (a := ops')]

theorem renameStepNet_eq_ok_iff (net : Net) : ∀ net',
    (renameStepNet mapping (renameText mapping) net).outcome = .ok net' ↔ net.Becomes mapping net' := by
  induction net using Net.carries_wellFounded.induction with
  | h net ih =>
    intro net'
    have ops := renameOps_eq_ok_iff fun op operation recurrent arg argument expected step held =>
      ih step ⟨arg.value, ⟨op, operation, recurrent, arg, argument, expected, rfl⟩, held⟩
    cases net with
    | mk version name all inputs outputs =>
      simp only [renameStepNet, Journal.outcome_bind, Journal.outcome_pure, Except.ok.injEq, ops]
      constructor
      next =>
        intro renamed
        obtain ⟨ops', become, same⟩ := renamed
        exact same ▸ .mk become
      next =>
        intro becomes
        cases becomes with
        | mk become => exact ⟨_, become, rfl⟩

theorem renameOps_iff {ops ops' : List Op} :
    (renameOps mapping (renameText mapping) ops).outcome = .ok ops' ↔
      List.Forall₂ (Op.Becomes mapping) ops ops' :=
  renameOps_eq_ok_iff (fun _ _ _ _ _ _ step _ => renameStepNet_eq_ok_iff step) ops'

theorem Net.rename_law {net net' : Net} :
    (net.rename mapping).outcome = .ok net' ↔
      ∃ ops, List.Forall₂ (Op.Becomes mapping) net.ops ops ∧ net' = { net with ops } := by
  simp only [Net.rename, Journal.outcome_bind, Journal.outcome_pure, Except.ok.injEq, renameOps_iff,
    eq_comm (a := net')]

end Law

section Kept

variable {mapping : Renaming}

theorem Net.Becomes.version_eq {net net' : Net} (becomes : net.Becomes mapping net') :
    net'.version = net.version := by
  cases becomes
  rfl

theorem flatMap_of_forall₂ {α β γ : Type} {related : α → β → Prop} {f : α → List γ} {g : β → List γ}
    {before : List α} {after : List β} (each : List.Forall₂ related before after)
    (same : ∀ item ∈ before, ∀ item', related item item' → g item' = f item) :
    after.flatMap g = before.flatMap f := by
  induction each with
  | nil => rfl
  | cons first _ ih =>
    have ⟨here, later⟩ := List.forall_mem_cons.mp same
    rw [List.flatMap_cons, List.flatMap_cons, here _ first, ih later]

theorem reals_of_notes {op : Op} {notes : List Arg} (noted : op.NotedBy mapping notes) :
    (notes.flatMap fun arg => arg.value.reals) = [] := by
  have ⟨blobs, _, _, same⟩ := noted
  simp [same, Value.reals]

theorem reals_withStepNet {value : Value} {step step' : Net} (held : value.stepNet? = some step)
    (same : step'.reals = step.reals) : (value.withStepNet step').reals = value.reals := by
  cases value with
  | net inner =>
    obtain rfl : inner = step := Option.some.inj held
    exact same
  | int | float | text | ints | floats | texts => rfl

theorem Net.reals_eq (net : Net) : net.reals = net.ops.flatMap fun op => argsReals op.args := by
  cases net
  rw [reals, opsReals_eq]

theorem Net.Becomes.reals_eq {net net' : Net} (becomes : net.Becomes mapping net') :
    net'.reals = net.reals := by
  induction net using Net.carries_wellFounded.induction generalizing net' with
  | h net ih =>
    cases becomes with
    | mk become =>
      rw [net.reals_eq, Net.reals_eq]
      refine flatMap_of_forall₂ become fun op operation op' becomes => ?_
      cases becomes with
      | plain => rfl
      | recurrent recurrent become noted =>
        simp only [argsReals_eq, List.flatMap_append, reals_of_notes noted, List.append_nil]
        refine flatMap_of_forall₂ become fun arg argument arg' becomes => ?_
        cases becomes with
        | other => rfl
        | stepNet expected held inner =>
          exact reals_withStepNet held
            (ih _ ⟨arg.value, ⟨op, operation, recurrent, arg, argument, expected, rfl⟩, held⟩ inner)

end Kept

end StoragePlan
