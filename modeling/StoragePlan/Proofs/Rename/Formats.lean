import StoragePlan.Proofs.Rename.Law

set_option autoImplicit false

namespace StoragePlan

inductive Journal.Alike {α β : Type} (related : α → β → Prop) : Journal α → Journal β → Prop
  | failed (events : List Event) (error : PlanError) :
      Alike related ⟨events, .error error⟩ ⟨events, .error error⟩
  | ended (events : List Event) {found : α} {found' : β} (results : related found found') :
      Alike related ⟨events, .ok found⟩ ⟨events, .ok found'⟩

namespace Journal.Alike

variable {α β γ δ : Type} {related : α → β → Prop} {results : γ → δ → Prop} {first : Journal α}
  {second : Journal β}

theorem pure {found : α} {found' : β} (same : related found found') :
    Alike related (Pure.pure found) (Pure.pure found') := .ended [] same

theorem refl (journal : Journal α) :
    Alike (fun found found' => found = found' ∧ journal.outcome = .ok found) journal journal := by
  cases journal with
  | mk events outcome =>
    cases outcome with
    | error error => exact .failed events error
    | ok found => exact .ended events ⟨rfl, rfl⟩

theorem bind {next : α → Journal γ} {next' : β → Journal δ} (alike : Alike related first second)
    (later : ∀ found found', related found found' → Alike results (next found) (next' found')) :
    Alike results (first >>= next) (second >>= next') := by
  cases alike with
  | failed events error =>
    rw [bind_of_error rfl, bind_of_error rfl]
    exact .failed events error
  | @ended events found found' same =>
    rw [bind_of_ok rfl, bind_of_ok rfl]
    have alike := later found found' same
    generalize next found = first at alike
    generalize next' found' = second at alike
    cases alike with
    | failed events' error => exact .failed (events ++ events') error
    | ended events' same' => exact .ended (events ++ events') same'

-- Both start with the same, and what it ends with is known.
theorem after {journal : Journal α} {next : α → Journal γ} {next' : α → Journal δ}
    (later : ∀ found, journal.outcome = .ok found → Alike results (next found) (next' found)) :
    Alike results (journal >>= next) (journal >>= next') :=
  (refl journal).bind fun found _ same => same.1 ▸ later found same.2

end Journal.Alike

def SameButAt {α : Type} (number : Nat) (related : α → α → Prop) (all all' : List α) : Prop :=
  ∃ before item item' after, before.length = number ∧ all = before ++ item :: after ∧
    all' = before ++ item' :: after ∧ related item item'

section SameButAt

variable {α β : Type} {number : Nat} {related : α → α → Prop} {all all' : List α}

theorem SameButAt.cons (same : SameButAt number related all all') (first : α) :
    SameButAt (number + 1) related (first :: all) (first :: all') := by
  have ⟨before, item, item', after, here, whole, whole', one⟩ := same
  exact ⟨first :: before, item, item', after, congrArg (· + 1) here, by rw [whole, List.cons_append],
    by rw [whole', List.cons_append], one⟩

theorem SameButAt.head {item item' : α} (one : related item item') (rest : List α) :
    SameButAt 0 related (item :: rest) (item' :: rest) := ⟨[], item, item', rest, rfl, rfl, rfl, one⟩

theorem SameButAt.append (same : SameButAt number related all all') (rest : List α) :
    SameButAt number related (all ++ rest) (all' ++ rest) := by
  have ⟨before, item, item', after, here, whole, whole', one⟩ := same
  exact ⟨before, item, item', after ++ rest, here, by rw [whole, List.append_assoc, List.cons_append],
    by rw [whole', List.append_assoc, List.cons_append], one⟩

theorem SameButAt.map_eq (same : SameButAt number related all all') {f : α → β}
    (kept : ∀ item item', related item item' → f item = f item') : all.map f = all'.map f := by
  have ⟨before, item, item', after, _, whole, whole', one⟩ := same
  rw [whole, whole', List.map_append, List.map_append, List.map_cons, List.map_cons, kept item item' one]

end SameButAt

structure Arg.SpellsOut (arg arg' : Arg) : Prop where
  name : arg.name = arg'.name
  value : ∃ s step, arg.value = .text s ∧ arg'.value = .net step ∧ Net.ofJson s = .ok step

structure Op.SpellsOut (argument : Nat) (op op' : Op) : Prop where
  opType : op.opType = op'.opType
  inputs : op.inputs = op'.inputs
  outputs : op.outputs = op'.outputs
  args : SameButAt argument Arg.SpellsOut op.args op'.args

structure Net.SpellsOut (operation argument : Nat) (net net' : Net) : Prop where
  version : net.version = net'.version
  name : net.name = net'.name
  externalInputs : net.externalInputs = net'.externalInputs
  externalOutputs : net.externalOutputs = net'.externalOutputs
  ops : SameButAt operation (Op.SpellsOut argument) net.ops net'.ops

section Formats

variable {mapping : Renaming} {opType name : String} {value value' : Value}

theorem alike_renameArgs (expected : isStepNetName name = true)
    (alike : Journal.Alike (fun found found' => Arg.SpellsOut ⟨name, found⟩ ⟨name, found'⟩)
      (renameValue mapping (renameText mapping) opType name value)
      (renameValue mapping (renameText mapping) opType name value')) (before after : List Arg) :
    Journal.Alike (SameButAt before.length Arg.SpellsOut)
      (renameArgs mapping (renameText mapping) opType (before ++ ⟨name, value⟩ :: after))
      (renameArgs mapping (renameText mapping) opType (before ++ ⟨name, value'⟩ :: after)) := by
  induction before with
  | nil =>
    simp only [List.nil_append, renameArgs, expected, if_true]
    refine alike.bind fun found found' one => .after fun _ _ => ?_
    exact (Journal.Alike.pure one).bind fun found found' one => .after fun rest _ => .pure (.head one rest)
  | cons first before ih =>
    cases first with
    | mk name' value' =>
      simp only [List.cons_append, renameArgs]
      split
      next =>
        exact .after fun _ _ => .after fun _ _ => .after fun _ _ =>
          ih.bind fun rest rest' same => .pure (same.cons _)
      next => exact .after fun _ _ => ih.bind fun rest rest' same => .pure (same.cons _)

theorem alike_renameOps {op : Op} (recurrent : op.isRecurrent = true) {argument : Nat} {args args' : List Arg}
    (alike : Journal.Alike (SameButAt argument Arg.SpellsOut)
      (renameArgs mapping (renameText mapping) op.opType args)
      (renameArgs mapping (renameText mapping) op.opType args')) (earlier later : List Op) :
    Journal.Alike (SameButAt earlier.length (Op.SpellsOut argument))
      (renameOps mapping (renameText mapping) (earlier ++ { op with args } :: later))
      (renameOps mapping (renameText mapping) (earlier ++ { op with args := args' } :: later)) := by
  have recurrent : isRecurrentType op.opType = true := recurrent
  induction earlier with
  | nil =>
    simp only [List.nil_append, renameOps, recurrent, if_true]
    refine alike.bind fun found found' same => ?_
    have names := same.map_eq (f := fun arg => arg.name) fun _ _ one => one.name
    rw [renameNotes_congr names]
    have noted := same.append (renameNotes mapping (op.inputs ++ op.outputs) found')
    exact (Journal.Alike.pure noted).bind fun found found' same => .after fun rest _ =>
      .pure (.head ⟨rfl, rfl, rfl, same⟩ rest)
  | cons first earlier ih =>
    cases first with
    | mk opType inputs outputs args =>
      simp only [List.cons_append, renameOps]
      split
      next =>
        exact .after fun _ _ => .after fun _ _ => ih.bind fun rest rest' same => .pure (same.cons _)
      next => exact .after fun _ _ => ih.bind fun rest rest' same => .pure (same.cons _)

theorem Net.Becomes.portable {step step' : Net} (becomes : step.Becomes mapping step') (portable : step.Portable)
    (shallow : Json.nesting step'.toJson.toList ≤ 127) : step'.Portable where
  current := by rw [becomes.version_eq, portable.current]
  finite := by
    rw [becomes.reals_eq]
    exact portable.finite
  shallow := shallow

theorem alike_renameValue (opType name : String) {step : Net} (portable : step.Portable)
    (back : ∀ x ∈ step.reals, x.isFinite = true → Json.ReadsBack x)
    (shallow : ∀ step', (renameStepNet mapping (renameText mapping) step).outcome = .ok step' →
      Json.nesting step'.toJson.toList ≤ 127) :
    Journal.Alike (fun found found' => Arg.SpellsOut ⟨name, found⟩ ⟨name, found'⟩)
      (renameValue mapping (renameText mapping) opType name (.text step.toJson))
      (renameValue mapping (renameText mapping) opType name (.net step)) := by
  have held : (Value.text step.toJson).stepNet? = some step := stepNet?_text.mpr (Net.ofJson_toJson portable back)
  have held' : (Value.net step).stepNet? = some step := rfl
  rw [renameValue_of_stepNet held, renameValue_of_stepNet held']
  refine .after fun step' renamed => .pure ⟨rfl, step'.toJson, step', rfl, rfl, ?_⟩
  have becomes := (renameStepNet_eq_ok_iff step step').mp renamed
  apply Net.ofJson_toJson (becomes.portable portable (shallow step' renamed))
  rw [becomes.reals_eq]
  exact back

theorem Net.rename_formats (net : Net) {op : Op} (recurrent : op.isRecurrent = true)
    (expected : isStepNetName name = true) {step : Net} (portable : step.Portable)
    (back : ∀ x ∈ step.reals, x.isFinite = true → Json.ReadsBack x)
    (shallow : ∀ step', (renameStepNet mapping (renameText mapping) step).outcome = .ok step' →
      Json.nesting step'.toJson.toList ≤ 127)
    (earlier later : List Op) (before after : List Arg) :
    let around (value : Value) : Net :=
      { net with ops := earlier ++ { op with args := before ++ ⟨name, value⟩ :: after } :: later }
    Journal.Alike (Net.SpellsOut earlier.length before.length)
      ((around (.text step.toJson)).rename mapping) ((around (.net step)).rename mapping) := by
  intro around
  have value := alike_renameValue op.opType name portable back shallow
  have args := alike_renameArgs expected value before after
  have ops := alike_renameOps recurrent args earlier later
  exact ops.bind fun found found' same => .pure ⟨rfl, rfl, rfl, rfl, same⟩

end Formats

/-- A step net with a number, which reads one of the renamed blobs. -/
def biasStep : Net :=
  ⟨Net.currentVersion, "step", [⟨"Scale", ["a"], ["c"], [⟨"by", .float ⟨0x3fe0000000000000⟩⟩]⟩], ["a"], ["c"]⟩

theorem Net.rename_formats_bias :
    let mapping : Renaming := .ofList [("a", "b"), ("y", "b")]
    let around (value : Value) : Net := ⟨"", "loop",
      [⟨"Copy", ["a"], ["x"], []⟩, ⟨"RecurrentNetwork", ["x"], ["y"], [⟨"note", .int 1⟩, ⟨"step_net", value⟩]⟩],
      [], []⟩
    biasStep.Portable ∧ (∃ held, ((around (.net biasStep)).rename mapping).outcome = .ok held) ∧
      Journal.Alike (Net.SpellsOut 1 1) ((around (.text biasStep.toJson)).rename mapping)
        ((around (.net biasStep)).rename mapping) := by
  intro mapping around
  let loop : Op := ⟨"RecurrentNetwork", ["x"], ["y"], []⟩
  have portable : biasStep.Portable := by
    refine ⟨rfl, by decide, ?_⟩
    rw [Net.nesting_toJson]
    decide
  have back : ∀ x ∈ biasStep.reals, x.isFinite = true → Json.ReadsBack x := by
    have reals : biasStep.reals = [⟨0x3fe0000000000000⟩] := rfl
    rw [reals, List.forall_mem_singleton]
    exact fun _ => ⟨.real ⟨0x3fe0000000000000⟩, by decide +kernel, rfl⟩
  have shallow : ∀ step', (renameStepNet mapping (renameText mapping) biasStep).outcome = .ok step' →
      Json.nesting step'.toJson.toList ≤ 127 := by
    intro step' renamed
    obtain rfl := Except.ok.inj renamed
    rw [Net.nesting_toJson]
    decide
  have ⟨held, renamed, _⟩ : ∃ held, ((around (.net biasStep)).rename mapping).outcome = .ok held ∧
      held.name = "loop" := exists_ok_of_view (by decide +kernel)
  have alike := Net.rename_formats ⟨"", "loop", [], [], []⟩ (by decide : loop.isRecurrent = true)
    (by decide : isStepNetName "step_net" = true) portable back shallow [⟨"Copy", ["a"], ["x"], []⟩] []
    [⟨"note", .int 1⟩] []
  exact ⟨portable, ⟨held, renamed⟩, alike⟩

end StoragePlan
