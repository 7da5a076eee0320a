import StoragePlan.Proofs.Rename.Twice
import StoragePlan.Proofs.Slot.Ends

set_option autoImplicit false

namespace StoragePlan

def Net.mentioned (net : Net) : List String :=
  net.ops.flatMap Op.operands ++ net.externalInputs ++ net.externalOutputs

inductive StepNetAt : List Op → List Nat → Net → Prop
  | here {ops : List Op} {i j : Nat} {op : Op} {arg : Arg} {step : Net} (operation : ops[i]? = some op)
      (recurrent : op.isRecurrent = true) (argument : op.args[j]? = some arg)
      (expected : arg.isStepNet = true) (held : arg.value.stepNet? = some step) :
      StepNetAt ops [i, j] step
  | inside {ops : List Op} {i j : Nat} {op : Op} {arg : Arg} {step inner : Net} {address : List Nat}
      (operation : ops[i]? = some op) (recurrent : op.isRecurrent = true)
      (argument : op.args[j]? = some arg) (expected : arg.isStepNet = true)
      (held : arg.value.stepNet? = some step) (below : StepNetAt step.ops address inner) :
      StepNetAt ops (i :: j :: address) inner

inductive ReplacedAt : List Op → List Op → List Nat → Net → Net → Prop
  | here {ops ops' : List Op} {i j : Nat} {op op' : Op} {arg arg' : Arg} {step step' : Net}
      (operation : ops[i]? = some op) (operation' : ops'[i]? = some op')
      (argument : op.args[j]? = some arg) (argument' : op'.args[j]? = some arg')
      (held : arg.value.stepNet? = some step) (replaced : arg'.value = arg.value.withStepNet step') :
      ReplacedAt ops ops' [i, j] step step'
  | inside {ops ops' : List Op} {i j : Nat} {op op' : Op} {arg arg' : Arg} {step step' inner inner' : Net}
      {address : List Nat} (operation : ops[i]? = some op) (operation' : ops'[i]? = some op')
      (argument : op.args[j]? = some arg) (argument' : op'.args[j]? = some arg')
      (held : arg.value.stepNet? = some step) (replaced : arg'.value = arg.value.withStepNet step')
      (below : ReplacedAt step.ops step'.ops address inner inner') :
      ReplacedAt ops ops' (i :: j :: address) inner inner'

section Step

variable {mapping : Renaming}

theorem Op.Becomes.stepNet {op op' : Op} (becomes : op.Becomes mapping op') (recurrent : op.isRecurrent = true)
    {j : Nat} {arg : Arg} (argument : op.args[j]? = some arg) (expected : arg.isStepNet = true) {step : Net}
    (held : arg.value.stepNet? = some step) : ∃ arg' step', op'.args[j]? = some arg' ∧
      arg'.value = arg.value.withStepNet step' ∧ step.Becomes mapping step' := by
  cases becomes with
  | plain plain => exact absurd (plain.symm.trans recurrent) Bool.false_ne_true
  | @recurrent _ args notes _ become noted =>
    have ⟨arg', here, becomes⟩ := getElem?_of_forall₂ become argument
    have bound := (List.getElem?_eq_some_iff.mp here).1
    cases becomes with
    | other other => exact absurd (other.symm.trans expected) Bool.false_ne_true
    | stepNet _ held' inner =>
      obtain rfl := Option.some.inj (held.symm.trans held')
      exact ⟨_, _, (@List.getElem?_append_left _ args notes j bound).trans here, rfl, inner⟩

theorem StepNetAt.replaced {ops ops' : List Op} {address : List Nat} {step : Net}
    (carried : StepNetAt ops address step) (become : List.Forall₂ (Op.Becomes mapping) ops ops') :
    ∃ step', ReplacedAt ops ops' address step step' ∧ step.Becomes mapping step' := by
  induction carried generalizing ops' with
  | here operation recurrent argument expected held =>
    have ⟨op', operation', becomes⟩ := getElem?_of_forall₂ become operation
    have ⟨arg', step', argument', replaced, inner⟩ := becomes.stepNet recurrent argument expected held
    exact ⟨step', .here operation operation' argument argument' held replaced, inner⟩
  | inside operation recurrent argument expected held _ ih =>
    have ⟨op', operation', becomes⟩ := getElem?_of_forall₂ become operation
    have ⟨arg', step', argument', replaced, outer⟩ := becomes.stepNet recurrent argument expected held
    have ⟨inner', below, inner⟩ := ih outer.ops
    exact ⟨inner', .inside operation operation' argument argument' held replaced below, inner⟩

theorem Op.Becomes.operands_eq {op op' : Op} (becomes : op.Becomes mapping op') :
    op'.operands = op.operands.map mapping.apply := by
  cases becomes with
  | plain => simp [operands, relabel]
  | recurrent => simp [operands, relabel]

theorem operands_of_become {ops ops' : List Op} (become : List.Forall₂ (Op.Becomes mapping) ops ops') :
    ops'.flatMap Op.operands = (ops.flatMap Op.operands).map mapping.apply := by
  rw [List.map_flatMap]
  exact flatMap_of_forall₂ become fun op _ op' becomes => becomes.operands_eq

theorem Net.Becomes.mentioned_eq {step step' : Net} (becomes : step.Becomes mapping step') :
    step'.mentioned = step.mentioned.map mapping.apply := by
  cases becomes with
  | mk become => simp only [mentioned, operands_of_become become, List.map_append]

end Step

section Plans

variable {net : Net} {statics : Names} {sizes : Option Sizes} {settings : Settings} {plan : Plan}

theorem renamed_of_outcome (planned : (planSharing net statics sizes settings).outcome = .ok plan) :
    ∃ ops, reorderOps net.ops plan.order = .ok ops ∧
      ({ net with ops }.rename plan.names).outcome = .ok plan.net := by
  simp only [planSharing, Journal.outcome_bind, Journal.outcome_emit, Journal.outcome_ofExcept,
    Journal.outcome_pure, Except.ok.injEq] at planned
  obtain ⟨-, -, -, -, order, -, -, -, ops, brought, table, -, -, -, -, -, -, -, -, -,
    -, -, renamed, rename, -, -, rfl⟩ := planned
  exact ⟨ops, brought, rename⟩

theorem line_of_outcome (planned : (planSharing net statics sizes settings).outcome = .ok plan) :
    (plan.line net).Perm net.ops ∧ List.Forall₂ (Op.Becomes plan.names) (plan.line net) plan.net.ops := by
  have ⟨ops, brought, rename⟩ := renamed_of_outcome planned
  have ⟨graph, ops', table, known⟩ := planned_of_outcome planned
  have linear : plan.order.Perm (List.range net.ops.length) := by
    rw [← Graph.size_ofOps known.built]
    exact known.linear.perm
  have ⟨ops'', brought'', perm⟩ := reorderOps_ok linear
  obtain rfl := Except.ok.inj (brought.symm.trans known.brought)
  obtain rfl := Except.ok.inj (brought.symm.trans brought'')
  rw [known.line_eq]
  exact ⟨perm, Net.become_of_rename rename⟩

theorem same_name_iff (planned : (planSharing net statics sizes settings).outcome = .ok plan)
    (unscoped : settings.namescope = none) {a b : String} :
    plan.names.apply a = plan.names.apply b ↔ a = b ∨ ∃ slot ∈ plan.slots, a ∈ slot.blobs ∧ b ∈ slot.blobs := by
  have ⟨graph, ops, table, known⟩ := planned_of_outcome planned
  have naming : settings.naming = .lastMember := by simp [Settings.naming, unscoped]
  rw [known.names, naming]
  constructor
  next => exact together_of_same_name known.assigned.nodup fun scope numbered => by cases numbered
  next =>
    intro either
    cases either with
    | inl same => rw [same]
    | inr together =>
      have ⟨slot, member, first, second⟩ := together
      exact same_name_of_together known.assigned.nodup member first second

theorem not_precedes_at {ops : List Op} {table : LiveTable} (covers : table.Covers (accesses ops))
    (sorted : WritesFirst ops) {position : Nat} {op : Op} (here : ops[position]? = some op) {a b : String}
    (first : a ∈ op.operands) (second : b ∈ op.operands) {reader : Nat} (read : ReadAt ops a reader) :
    ¬ table.Precedes a b := by
  intro precedes
  have accessed : ReadAt ops b position ∨ WrittenAt ops b position :=
    (List.mem_append.mp second).imp (fun input => ⟨op, here, input⟩) fun output => ⟨op, here, output⟩
  -- All reads of the one blob come before the operation, which reads or writes it itself.
  cases List.mem_append.mp first with
  | inl input =>
    exact Nat.lt_irrefl _ (covers.lt_of_precedes sorted ⟨op, here, input⟩ precedes accessed)
  | inr output =>
    have early := covers.lt_of_precedes sorted read precedes accessed
    have late := sorted.le ⟨op, here, output⟩ read
    omega

theorem Planned.unread_of_operands {graph : Graph} {ops : List Op} {table : LiveTable}
    (planned : Planned net statics sizes settings plan graph ops table) {position : Nat} {op : Op}
    (here : ops[position]? = some op) {a b : String} (first : a ∈ op.operands) (second : b ∈ op.operands)
    (different : a ≠ b) {slot : Slot} (member : slot ∈ plan.slots) (inside : a ∈ slot.blobs)
    (inside' : b ∈ slot.blobs) : Unread ops a ∧ Unread ops b := by
  have covers := planned.covers
  have sorted := planned.writesFirst
  -- The one that comes first in the slot is not read, and so nothing behind it is.
  have both {a b : String} (first : a ∈ op.operands) (second : b ∈ op.operands)
      (precedes : table.Precedes a b) : Unread ops a ∧ Unread ops b := by
    have never (reader : Nat) (read : ReadAt ops a reader) : False :=
      not_precedes_at covers sorted here first second read precedes
    have output := (List.mem_append.mp first).resolve_left fun input => never position ⟨op, here, input⟩
    exact ⟨⟨⟨position, op, here, output⟩, never⟩, (covers.unread_of_precedes sorted precedes never).1⟩
  cases planned.assigned.one_precedes member inside inside' different with
  | inl precedes => exact both first second precedes
  | inr precedes => exact (both second first precedes).symm

def Plan.KeepsApart (plan : Plan) (names : List String) : Prop :=
  ∀ a ∈ names, ∀ b ∈ names, plan.names.apply a = plan.names.apply b → a = b

theorem planSharing_step_nets (planned : (planSharing net statics sizes settings).outcome = .ok plan)
    (unscoped : settings.namescope = none) :
    (plan.line net).Perm net.ops ∧
      ∀ address step, StepNetAt (plan.line net) address step →
        (∃ step', ReplacedAt (plan.line net) plan.net.ops address step step' ∧
          step'.mentioned = step.mentioned.map plan.names.apply) ∧
        (plan.KeepsApart step.mentioned ↔ ∀ slot ∈ plan.slots, ∀ a ∈ slot.blobs, ∀ b ∈ slot.blobs,
          a ∈ step.mentioned → b ∈ step.mentioned → a = b) ∧
        ∀ i op, address.head? = some i → (plan.line net)[i]? = some op →
          (∀ blob ∈ step.mentioned, blob ∈ net.blobNames → blob ∈ op.operands) →
          (∀ a ∈ step.mentioned, ∀ b ∈ step.mentioned, Unread net.ops a → Unread net.ops b → a = b) →
          plan.KeepsApart step.mentioned := by
  have ⟨perm, become⟩ := line_of_outcome planned
  have told {a b : String} := @same_name_iff net statics sizes settings plan planned unscoped a b
  refine ⟨perm, fun address step carried => ⟨?replaced, ?apart, ?operands⟩⟩
  case replaced =>
    have ⟨step', replaced, becomes⟩ := carried.replaced become
    exact ⟨step', replaced, becomes.mentioned_eq⟩
  case apart =>
    constructor
    next =>
      intro apart slot member a first b second named named'
      exact apart a named b named' (told.mpr (.inr ⟨slot, member, first, second⟩))
    next =>
      intro separate a named b named' same
      cases told.mp same with
      | inl same => exact same
      | inr together =>
        have ⟨slot, member, first, second⟩ := together
        exact separate slot member a first b second named named'
  case operands =>
    intro i op _ here own single a named b named' same
    have ⟨graph, ops, table, known⟩ := planned_of_outcome planned
    rw [known.line_eq] at here
    by_contra different
    have ⟨slot, member, first, second⟩ := (told.mp same).resolve_left different
    have operand := own a named (known.placed_iff.mpr ⟨slot, member, first⟩)
    have operand' := own b named' (known.placed_iff.mpr ⟨slot, member, second⟩)
    have unread := known.unread_of_operands here operand operand' different member first second
    exact different (single a named b named' (known.unread_iff.mpr unread.1) (known.unread_iff.mpr unread.2))

end Plans

/-- A step net that keeps its state in a blob of the given name, and a loop around it. -/
def statefulStep (state : String) : Net :=
  ⟨Net.currentVersion, "step", [⟨"Tanh", ["a"], [state], []⟩, ⟨"Add", ["a", state], ["b"], []⟩], ["a"], ["b"]⟩

def statefulNet (state : String) : Net :=
  (Net.named "loop").withOps [⟨"Fill", [], ["a"], []⟩,
    ⟨"RecurrentNetwork", ["a"], ["b"], [⟨"step_net", .net (statefulStep state)⟩]⟩, ⟨"Relu", ["b"], ["c"], []⟩]

theorem planSharing_step_nets_stateful :
    let net := statefulNet "t"
    ∃ plan, (planSharing net .empty none { ordering := .plain }).outcome = .ok plan ∧
      plan.names.apply "a" = plan.names.apply "c" ∧
      (∃ step', ReplacedAt (plan.line net) plan.net.ops [1, 0] (statefulStep "t") step' ∧
        step'.mentioned = (statefulStep "t").mentioned.map plan.names.apply) ∧
      plan.KeepsApart (statefulStep "t").mentioned := by
  intro net
  have ⟨plan, planned, seen⟩ : ∃ plan,
      (planSharing net .empty none { ordering := .plain }).outcome = .ok plan ∧
        (plan.order, plan.names.apply "a", plan.names.apply "c") = ([0, 1, 2], "c", "c") :=
    exists_ok_of_view (by decide +kernel)
  have names := Prod.mk.inj (Prod.mk.inj seen).2
  have line : plan.line net = net.ops := by
    rw [Plan.line, (Prod.mk.inj seen).1]
    rfl
  have carried : StepNetAt (plan.line net) [1, 0] (statefulStep "t") := by
    rw [line]
    exact .here rfl (by decide +kernel) rfl (by decide +kernel) rfl
  have apart := (planSharing_step_nets planned rfl).2 _ _ carried
  refine ⟨plan, planned, names.1.trans names.2.symm, apart.1, ?_⟩
  refine apart.2.2 1 _ rfl (by rw [line]; rfl) (by decide +kernel) fun blob named _ _ unread _ =>
    absurd unread ?_
  -- Both operands are read, and the state is no blob of the net around.
  have either : blob = "a" ∨ blob = "t" ∨ blob = "b" := by
    simpa [Net.mentioned, statefulStep, Op.operands, or_assoc, or_comm, or_left_comm] using named
  rcases either with rfl | rfl | rfl
  next => exact fun unread => unread.2 1 ⟨_, rfl, List.mem_cons_self⟩
  next =>
    intro unread
    obtain ⟨position, written⟩ := unread.1
    exact absurd (mem_blobNames_of_writtenAt written) (by decide +kernel)
  next => exact fun unread => unread.2 2 ⟨_, rfl, List.mem_cons_self⟩

theorem planSharing_merges_step_names :
    StepNetAt (statefulNet "c").ops [1, 0] (statefulStep "c") ∧
      (statefulStep "c").mentioned = ["a", "c", "a", "c", "b", "a", "b"] ∧
      ∃ plan, (planSharing (statefulNet "c") .empty none { ordering := .plain }).outcome = .ok plan ∧
        (plan.net.ops.flatMap fun op => (op.args.filter Arg.isStepNet).filterMap fun arg =>
          arg.value.stepNet?.map Net.mentioned) = [["c", "c", "c", "c", "b", "c", "b"]] :=
  ⟨.here rfl (by decide +kernel) rfl (by decide +kernel) rfl, by decide +kernel,
    exists_ok_of_view (by decide +kernel)⟩

end StoragePlan
