import StoragePlan.Proofs.Nesting
import StoragePlan.Proofs.Net.Json

set_option autoImplicit false

namespace StoragePlan

def Offers (ops : List Op) (value : Value) : Prop :=
  ∃ op ∈ ops, op.isRecurrent = true ∧ ∃ arg ∈ op.args, arg.isStepNet = true ∧ arg.value = value

def Net.Carries (net step : Net) : Prop :=
  ∃ value, Offers net.ops value ∧ value.stepNet? = some step

inductive Net.Spells : Net → Net → Prop
  | here {net step : Net} {s : String} (offers : Offers net.ops (.text s)) (read : Net.ofJson s = .ok step) :
      Net.Spells net step
  | inside {net step inner : Net} (carries : net.Carries step) (below : step.Spells inner) :
      Net.Spells net inner

theorem le_total_of_mem {n : Nat} {all : List Nat} (inside : n ∈ all) : n ≤ total all := by
  induction all with
  | nil => simp at inside
  | cons first rest ih =>
    rw [total_cons]
    cases List.mem_cons.mp inside with
    | inl same => omega
    | inr later =>
      have bound := ih later
      omega

theorem textBytes_of_arg {net : Net} {op : Op} {arg : Arg} (operation : op ∈ net.ops)
    (argument : arg ∈ op.args) : arg.value.textBytes ≤ net.textBytes := by
  have inner := le_total_of_mem (List.mem_map_of_mem argument (f := fun arg => arg.value.textBytes))
  have outer := le_total_of_mem (List.mem_map_of_mem operation (f := fun op => argsTextBytes op.args))
  rw [← argsTextBytes_eq] at inner
  rw [← opsTextBytes_eq, ← Net.textBytes_eq] at outer
  exact Nat.le_trans inner outer

theorem textBytes_of_offers {net : Net} {value : Value} (offers : Offers net.ops value) :
    value.textBytes ≤ net.textBytes := by
  have ⟨op, operation, _, arg, argument, _, given⟩ := offers
  exact given ▸ textBytes_of_arg operation argument

theorem stepNet?_text {s : String} {step : Net} :
    (Value.text s).stepNet? = some step ↔ Net.ofJson s = .ok step := by
  rw [Value.stepNet?]
  cases Net.ofJson s <;> simp [Except.toOption]

theorem textBytes_of_stepNet {value : Value} {step : Net} (held : value.stepNet? = some step) :
    step.textBytes < value.textBytes ∨ value = .net step := by
  cases value with
  | net inner => exact .inr (congrArg Value.net (Option.some.inj held))
  | text s => exact .inl (Net.textBytes_ofJson (stepNet?_text.mp held))
  | int | float | ints | floats | texts => simp [Value.stepNet?] at held

-- A step net that is spelled out has less text than the net, and one that is held opens fewer brackets.
theorem Net.Carries.smaller {net step : Net} (carries : net.Carries step) :
    step.textBytes < net.textBytes ∨ step.textBytes ≤ net.textBytes ∧ step.brackets < net.brackets := by
  have ⟨value, offers, held⟩ := carries
  have ⟨op, operation, _, arg, argument, _, given⟩ := offers
  have bound := textBytes_of_arg operation argument
  rw [given] at bound
  cases textBytes_of_stepNet held with
  | inl less => exact .inl (Nat.lt_of_lt_of_le less bound)
  | inr same =>
    have lower := brackets_of_step operation argument (given.trans same)
    rw [same, Value.textBytes] at bound
    exact .inr ⟨bound, by omega⟩

theorem Net.carries_wellFounded : WellFounded fun step net : Net => net.Carries step := by
  have measured : WellFounded (Prod.Lex Nat.lt Nat.lt) := (Prod.lex Nat.lt_wfRel Nat.lt_wfRel).wf
  refine Subrelation.wf (fun {step net} carries => ?_)
    (InvImage.wf (fun net : Net => (net.textBytes, net.brackets)) measured)
  have smaller := Net.Carries.smaller carries
  simp only [InvImage, Prod.lex_def, Nat.lt_eq]
  omega

section Congruence

variable {mapping : Renaming} {texts texts' : TextRenamer}

theorem renameArgs_congr {opType : String} {args : List Arg}
    (same : ∀ arg ∈ args, arg.isStepNet = true →
      renameValue mapping texts opType arg.name arg.value =
        renameValue mapping texts' opType arg.name arg.value) :
    renameArgs mapping texts opType args = renameArgs mapping texts' opType args := by
  induction args with
  | nil => rfl
  | cons arg rest ih =>
    have ⟨here, later⟩ := List.forall_mem_cons.mp same
    cases arg with
    | mk name value =>
      rw [renameArgs, renameArgs, ih later]
      split
      next expected => rw [here expected]
      next => rfl

theorem renameOps_congr {ops : List Op}
    (same : ∀ op ∈ ops, op.isRecurrent = true → ∀ arg ∈ op.args, arg.isStepNet = true →
      renameValue mapping texts op.opType arg.name arg.value =
        renameValue mapping texts' op.opType arg.name arg.value) :
    renameOps mapping texts ops = renameOps mapping texts' ops := by
  induction ops with
  | nil => rfl
  | cons op rest ih =>
    have ⟨here, later⟩ := List.forall_mem_cons.mp same
    cases op with
    | mk opType inputs outputs args =>
      rw [renameOps, renameOps, ih later]
      split
      next recurrent => rw [renameArgs_congr (here recurrent)]
      next => rfl

-- Two renamers of texts do the same if they agree on the texts that are offered, there and in step nets.
theorem renameStepNet_congr {net : Net}
    (carried : ∀ step, net.Carries step →
      renameStepNet mapping texts step = renameStepNet mapping texts' step)
    (spelled : ∀ opType name s, Offers net.ops (.text s) → texts opType name s = texts' opType name s) :
    renameStepNet mapping texts net = renameStepNet mapping texts' net := by
  have same (op : Op) (operation : op ∈ net.ops) (recurrent : op.isRecurrent = true) (arg : Arg)
      (argument : arg ∈ op.args) (expected : arg.isStepNet = true) :
      renameValue mapping texts op.opType arg.name arg.value =
        renameValue mapping texts' op.opType arg.name arg.value := by
    have offers : Offers net.ops arg.value := ⟨op, operation, recurrent, arg, argument, expected, rfl⟩
    cases given : arg.value with
    | net step => rw [renameValue, renameValue, carried step ⟨arg.value, offers, by rw [given]; rfl⟩]
    | text s => rw [renameValue, renameValue, spelled op.opType arg.name s (given ▸ offers)]
    | int | float | ints | floats | texts => rfl
  cases net with
  | mk version name ops inputs outputs => rw [renameStepNet, renameStepNet, renameOps_congr same]

end Congruence

def Value.withStepNet : Value → Net → Value
  | .net _, step => .net step
  | .text _, step => .text step.toJson
  | other, _ => other

section Deep

variable {mapping : Renaming} {opType name : String} {value : Value} {step : Net}

theorem renameTextTo_of_error {s : String} {fault : LoadError} (read : Net.ofJson s = .error fault)
    (depth : Nat) : renameTextTo mapping depth opType name s = .fail (.unsupportedNesting opType name) := by
  cases depth with
  | zero => rfl
  | succ depth => simp only [renameTextTo, read]

theorem renameTextTo_of_ok {s : String} (read : Net.ofJson s = .ok step) (depth : Nat) :
    renameTextTo mapping (depth + 1) opType name s =
      renameStepNet mapping (renameTextTo mapping depth) step >>= fun step' => pure step'.toJson := by
  simp only [renameTextTo, read]

-- The size of a text is depth enough for the texts in the net that it spells out.
theorem renameStepNet_deep (net : Net) : ∀ depth, net.textBytes < depth →
    renameStepNet mapping (renameTextTo mapping depth) net =
      renameStepNet mapping (renameText mapping) net := by
  induction net using Net.carries_wellFounded.induction with
  | h net ih =>
    intro depth enough
    apply renameStepNet_congr
    next =>
      intro step carries
      have smaller := carries.smaller
      exact ih step carries depth (by omega)
    next =>
      intro opType name s offers
      have bound := textBytes_of_offers offers
      rw [Value.textBytes] at bound
      rw [renameText]
      cases read : Net.ofJson s with
      | error fault => rw [renameTextTo_of_error read, renameTextTo_of_error read]
      | ok step =>
        have inner := ih step ⟨_, offers, stepNet?_text.mpr read⟩
        have shorter := Net.textBytes_ofJson read
        cases depth with
        | zero => omega
        | succ depth =>
          rw [renameTextTo_of_ok read, renameTextTo_of_ok read, inner depth (by omega), inner _ shorter]

theorem renameText_of_ok {s : String} (read : Net.ofJson s = .ok step) :
    renameText mapping opType name s =
      renameStepNet mapping (renameText mapping) step >>= fun step' => pure step'.toJson := by
  rw [renameText, renameTextTo_of_ok read, renameStepNet_deep step _ (Net.textBytes_ofJson read)]

theorem renameValue_of_stepNet (held : value.stepNet? = some step) :
    renameValue mapping (renameText mapping) opType name value =
      renameStepNet mapping (renameText mapping) step >>= fun step' => pure (value.withStepNet step') := by
  cases value with
  | net inner =>
    obtain rfl : inner = step := Option.some.inj held
    rfl
  | text s =>
    rw [renameValue, renameText_of_ok (stepNet?_text.mp held), Journal.bind_bind]
    rfl
  | int | float | ints | floats | texts => simp [Value.stepNet?] at held

theorem renameValue_of_no_stepNet (missing : value.stepNet? = none) :
    renameValue mapping (renameText mapping) opType name value =
      .fail (.unsupportedNesting opType name) := by
  cases value with
  | net inner => simp [Value.stepNet?] at missing
  | text s =>
    cases read : Net.ofJson s with
    | error fault =>
      rw [renameValue, renameText, renameTextTo_of_error read]
      rfl
    | ok inner => simp [stepNet?_text.mpr read] at missing
  | int | float | ints | floats | texts => rfl

end Deep

end StoragePlan
