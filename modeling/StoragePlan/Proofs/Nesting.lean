import StoragePlan.Proofs.Net.Size
import StoragePlan.Rename

set_option autoImplicit false

namespace StoragePlan

def Value.stepNet? : Value → Option Net
  | .net step => some step
  | .text s => (Net.ofJson s).toOption
  | _ => none

/-- An argument that should hold a step net and does not, by the way that leads to it. -/
inductive Unsupported : List Op → List Nat → PlanError → Prop
  | here {ops : List Op} {i j : Nat} {op : Op} {arg : Arg} (operation : ops[i]? = some op)
      (recurrent : op.isRecurrent = true) (argument : op.args[j]? = some arg)
      (expected : arg.isStepNet = true) (missing : arg.value.stepNet? = none) :
      Unsupported ops [i, j] (.unsupportedNesting op.opType arg.name)
  | inside {ops : List Op} {i j : Nat} {op : Op} {arg : Arg} {step : Net} {address : List Nat}
      {error : PlanError} (operation : ops[i]? = some op) (recurrent : op.isRecurrent = true)
      (argument : op.args[j]? = some arg) (expected : arg.isStepNet = true)
      (held : arg.value.stepNet? = some step) (below : Unsupported step.ops address error) :
      Unsupported ops (i :: j :: address) error

section Settles

variable {α β γ : Type} {faults : List Nat → PlanError → Prop}
  {fault : α → List Nat → PlanError → Prop}

/-- The outcome is an error if there are faults, and then the one at the least address. -/
def Settles (faults : List Nat → PlanError → Prop) : Except PlanError α → Prop
  | .ok _ => ∀ address error, ¬ faults address error
  | .error error => ∃ address, faults address error ∧
    ∀ address' error', faults address' error' → ¬ address' < address

def Within (fault : α → List Nat → PlanError → Prop) (items : List α) (address : List Nat)
    (error : PlanError) : Prop :=
  ∃ i item inner, address = i :: inner ∧ items[i]? = some item ∧ fault item inner error

theorem Settles.congr {faults' : List Nat → PlanError → Prop} {outcome : Except PlanError α}
    (settles : Settles faults outcome)
    (same : ∀ address error, faults' address error ↔ faults address error) :
    Settles faults' outcome := by
  obtain rfl : faults' = faults := funext₂ fun address error => propext (same address error)
  exact settles

theorem Settles.map {outcome : Except PlanError β} (settles : Settles faults outcome) (f : β → γ) :
    Settles faults (outcome >>= fun found => .ok (f found)) := by
  cases outcome with
  | ok found => exact settles
  | error error => exact settles

theorem within_nil {address : List Nat} {error : PlanError} : ¬ Within fault [] address error := by
  simp [Within]

theorem within_cons {item : α} {rest : List α} {address : List Nat} {error : PlanError} :
    Within fault (item :: rest) address error ↔
      (∃ inner, address = 0 :: inner ∧ fault item inner error) ∨
        ∃ i inner, address = (i + 1) :: inner ∧ Within fault rest (i :: inner) error := by
  constructor
  next =>
    rintro ⟨i, other, inner, rfl, found, here⟩
    cases i with
    | zero =>
      obtain rfl := Option.some.inj found
      exact .inl ⟨inner, rfl, here⟩
    | succ i => exact .inr ⟨i, inner, rfl, i, other, inner, rfl, found, here⟩
  next =>
    rintro (⟨inner, rfl, here⟩ | ⟨i, inner, rfl, j, other, inner', same, found, here⟩)
    next => exact ⟨0, item, inner, rfl, rfl, here⟩
    next =>
      obtain ⟨rfl, rfl⟩ := List.cons.inj same
      exact ⟨i + 1, other, inner, rfl, found, here⟩

section Items

variable {item : α} {rest : List α}

theorem Settles.stopped {error : PlanError}
    (here : Settles (fault item) (.error error : Except PlanError β)) :
    Settles (Within fault (item :: rest)) (.error error : Except PlanError γ) := by
  obtain ⟨inner, present, least⟩ := here
  refine ⟨0 :: inner, within_cons.mpr (.inl ⟨inner, rfl, present⟩), fun address' error' other less => ?_⟩
  rcases within_cons.mp other with ⟨inner', rfl, same⟩ | ⟨i, inner', rfl, -⟩
  next =>
    rcases List.cons_lt_cons_iff.mp less with less | ⟨-, less⟩
    next => exact absurd less (Nat.lt_irrefl 0)
    next => exact least inner' error' same less
  next =>
    rcases List.cons_lt_cons_iff.mp less with less | ⟨same, -⟩
    next => exact absurd less (Nat.not_lt_zero _)
    next => exact absurd same (Nat.succ_ne_zero i)

theorem Settles.passed {outcome : Except PlanError γ} (nothing : ∀ inner error, ¬ fault item inner error)
    (later : Settles (Within fault rest) outcome) : Settles (Within fault (item :: rest)) outcome := by
  have after {address : List Nat} {error : PlanError} (other : Within fault (item :: rest) address error) :
      ∃ i inner, address = (i + 1) :: inner ∧ Within fault rest (i :: inner) error :=
    (within_cons.mp other).resolve_left fun ⟨inner, _, here⟩ => nothing inner error here
  cases outcome with
  | ok found =>
    intro address error other
    obtain ⟨i, inner, -, within⟩ := after other
    exact later (i :: inner) error within
  | error error =>
    obtain ⟨address, present, least⟩ := later
    obtain ⟨i, other, inner, rfl, found, here⟩ := present
    refine ⟨(i + 1) :: inner, ⟨i + 1, other, inner, rfl, found, here⟩, fun address' error' more less => ?_⟩
    obtain ⟨i', inner', rfl, within⟩ := after more
    refine least (i' :: inner') error' within (List.cons_lt_cons_iff.mpr ?_)
    exact (List.cons_lt_cons_iff.mp less).imp Nat.lt_of_succ_lt_succ (And.imp_left Nat.succ.inj)

theorem Settles.cons {first : Except PlanError β} {next : β → Except PlanError γ}
    (here : Settles (fault item) first) (later : ∀ found, Settles (Within fault rest) (next found)) :
    Settles (Within fault (item :: rest)) (first >>= next) := by
  cases first with
  | ok found => exact (later found).passed here
  | error error => exact here.stopped

end Items

end Settles

def Value.Fails (opType name : String) (value : Value) (address : List Nat) (error : PlanError) : Prop :=
  (value.stepNet? = none ∧ address = [] ∧ error = .unsupportedNesting opType name) ∨
    ∃ step, value.stepNet? = some step ∧ Unsupported step.ops address error

def Arg.Fails (opType : String) (arg : Arg) (address : List Nat) (error : PlanError) : Prop :=
  arg.isStepNet = true ∧ arg.value.Fails opType arg.name address error

def Op.Fails (op : Op) (address : List Nat) (error : PlanError) : Prop :=
  op.isRecurrent = true ∧ Within (Arg.Fails op.opType) op.args address error

theorem unsupported_iff {ops : List Op} {address : List Nat} {error : PlanError} :
    Unsupported ops address error ↔ Within Op.Fails ops address error := by
  constructor
  next =>
    intro unsupported
    cases unsupported with
    | here operation recurrent argument expected missing =>
      exact ⟨_, _, _, rfl, operation, recurrent, _, _, _, rfl, argument, expected,
        .inl ⟨missing, rfl, rfl⟩⟩
    | inside operation recurrent argument expected held below =>
      exact ⟨_, _, _, rfl, operation, recurrent, _, _, _, rfl, argument, expected,
        .inr ⟨_, held, below⟩⟩
  next =>
    rintro ⟨i, op, inner, rfl, operation, recurrent, j, arg, address, rfl, argument, expected, fails⟩
    rcases fails with ⟨missing, rfl, rfl⟩ | ⟨step, held, below⟩
    next => exact .here operation recurrent argument expected missing
    next => exact .inside operation recurrent argument expected held below

theorem Unsupported.nesting {ops : List Op} {address : List Nat} {error : PlanError}
    (unsupported : Unsupported ops address error) :
    ∃ opType arg, error = .unsupportedNesting opType arg := by
  induction unsupported with
  | here => exact ⟨_, _, rfl⟩
  | inside _ _ _ _ _ _ ih => exact ih

section Values

variable {opType name : String} {value : Value} {step : Net} {address : List Nat} {error : PlanError}

theorem fails_of_stepNet (held : value.stepNet? = some step) :
    value.Fails opType name address error ↔ Unsupported step.ops address error := by
  simp [Value.Fails, held]

theorem settles_missing {α : Type} (missing : value.stepNet? = none) :
    Settles (value.Fails opType name) (.error (.unsupportedNesting opType name) : Except PlanError α) :=
  ⟨[], .inl ⟨missing, rfl, rfl⟩, fun address' _ _ => List.not_lt_nil address'⟩

end Values

def FaithfulBelow (limit : Nat) (renameText : TextRenamer) : Prop :=
  ∀ opType name s, s.utf8ByteSize < limit →
    Settles (Value.Fails opType name (.text s)) (renameText opType name s).outcome

section Renaming

variable {mapping : Renaming} {texts : TextRenamer} {limit : Nat}

-- By recursion on the net; what is held as text is left to the given renamer.
mutual

theorem settles_renameOps (faithful : FaithfulBelow limit texts) (ops : List Op)
    (small : opsTextBytes ops < limit) :
    Settles (Within Op.Fails ops) (renameOps mapping texts ops).outcome := by
  match ops, small with
  | [], _ => exact fun address error => within_nil
  | ⟨opType, inputs, outputs, args⟩ :: rest, small =>
    rw [opsTextBytes] at small
    have later := settles_renameOps faithful rest (by omega)
    rw [renameOps]
    split
    next recurrent =>
      have here := settles_renameArgs faithful opType args (by omega)
      simp only [Journal.outcome_bind_eq, Journal.outcome_pure]
      refine Settles.cons ?_ fun args' => later.map _
      exact here.congr fun address error => and_iff_right recurrent
    next plain =>
      simp only [Journal.outcome_bind_eq, Journal.outcome_pure]
      refine Settles.cons ?_ fun args' => later.map _
      exact fun address error fails => plain fails.1

theorem settles_renameArgs (faithful : FaithfulBelow limit texts) (opType : String)
    (args : List Arg) (small : argsTextBytes args < limit) :
    Settles (Within (Arg.Fails opType) args) (renameArgs mapping texts opType args).outcome := by
  match args, small with
  | [], _ => exact fun address error => within_nil
  | ⟨name, value⟩ :: rest, small =>
    rw [argsTextBytes] at small
    have later := settles_renameArgs faithful opType rest (by omega)
    rw [renameArgs]
    split
    next expected =>
      have here := settles_renameValue faithful opType name value (by omega)
      simp only [Journal.outcome_bind_eq, Journal.outcome_pure]
      refine Settles.cons ?_ fun value' => later.map _
      exact here.congr fun address error => and_iff_right expected
    next other =>
      simp only [Journal.outcome_bind_eq, Journal.outcome_pure]
      refine Settles.cons ?_ fun value' => later.map _
      exact fun address error fails => other fails.1

theorem settles_renameValue (faithful : FaithfulBelow limit texts) (opType name : String)
    (value : Value) (small : value.textBytes < limit) :
    Settles (value.Fails opType name) (renameValue mapping texts opType name value).outcome := by
  match value, small with
  | .net step, small =>
    have inner := settles_renameStepNet faithful step small
    simp only [renameValue, Journal.outcome_bind_eq, Journal.outcome_pure]
    exact (inner.congr fun address error => fails_of_stepNet rfl).map _
  | .text s, small =>
    simp only [renameValue, Journal.outcome_bind_eq, Journal.outcome_pure]
    exact (faithful opType name s small).map _
  | .int _, _ | .float _, _ | .ints _, _ | .floats _, _ | .texts _, _ => exact settles_missing rfl

theorem settles_renameStepNet (faithful : FaithfulBelow limit texts) (step : Net)
    (small : step.textBytes < limit) :
    Settles (Unsupported step.ops) (renameStepNet mapping texts step).outcome := by
  match step, small with
  | ⟨version, name, ops, inputs, outputs⟩, small =>
    have inner := settles_renameOps faithful ops small
    simp only [renameStepNet, Journal.outcome_bind_eq, Journal.outcome_pure]
    exact (inner.congr fun address error => unsupported_iff).map _

end

-- A text that spells out a net holds shorter texts only, so one step less of depth is enough for them.
theorem faithful_renameTextTo (mapping : Renaming) (depth : Nat) :
    FaithfulBelow depth (renameTextTo mapping depth) := by
  induction depth with
  | zero => exact fun _ _ _ small => absurd small (Nat.not_lt_zero _)
  | succ depth ih =>
    intro opType name s small
    simp only [renameTextTo]
    split
    next read =>
      have missing : (Value.text s).stepNet? = none := by rw [Value.stepNet?, read]; rfl
      exact settles_missing missing
    next step read =>
      have held : (Value.text s).stepNet? = some step := by rw [Value.stepNet?, read]; rfl
      have shorter := Net.textBytes_ofJson read
      have inner : Settles (Unsupported step.ops)
          (renameStepNet mapping (renameTextTo mapping depth) step).outcome :=
        settles_renameStepNet ih step (by omega)
      simp only [Journal.outcome_bind_eq, Journal.outcome_pure]
      exact (inner.congr fun address error => fails_of_stepNet held).map _

theorem faithful_renameText (mapping : Renaming) (limit : Nat) :
    FaithfulBelow limit (renameText mapping) := fun opType name s _ =>
  faithful_renameTextTo mapping (s.utf8ByteSize + 1) opType name s (Nat.lt_succ_self _)

theorem Net.settles_rename (net : Net) (mapping : Renaming) :
    Settles (Unsupported net.ops) (net.rename mapping).outcome := by
  have inner : Settles (Within Op.Fails net.ops)
      (renameOps mapping (renameText mapping) net.ops).outcome :=
    settles_renameOps (faithful_renameText mapping (opsTextBytes net.ops + 1)) net.ops
      (Nat.lt_succ_self _)
  simp only [Net.rename, Journal.outcome_bind_eq, Journal.outcome_pure]
  exact (inner.congr fun address error => unsupported_iff).map _

end Renaming

end StoragePlan
