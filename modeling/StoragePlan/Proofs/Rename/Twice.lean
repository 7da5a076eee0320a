import StoragePlan.Proofs.Net.Budget
import StoragePlan.Proofs.Rename.Law
import StoragePlan.Proofs.Slot.Naming

set_option autoImplicit false

namespace StoragePlan

def Renaming.Stable (mapping : Renaming) : Prop :=
  ∀ blob name name', mapping.get? blob = some name → mapping.get? name = some name' → name' = name

section Stable

variable {mapping : Renaming}

theorem Renaming.stable_iff :
    mapping.Stable ↔ ∀ blob, mapping.apply (mapping.apply blob) = mapping.apply blob := by
  constructor
  next =>
    intro stable blob
    cases found : mapping.get? blob with
    | none => simp [apply, found]
    | some name =>
      cases found' : mapping.get? name with
      | none => simp [apply, found, found']
      | some name' =>
        have same := stable blob name name' found found'
        simp [apply, found, found', same]
  next =>
    intro fixed blob name name' found found'
    have same := fixed blob
    simpa [apply, found, found'] using same

theorem stable_canonicalNames {slots : List Slot} (nodup : (slots.flatten.map (·.blob)).Nodup) :
    (canonicalNames .lastMember slots).Stable := by
  rw [Renaming.stable_iff]
  intro blob
  cases apply_canonicalNames .lastMember slots blob with
  | inl shared =>
    have ⟨index, slot, here, _, name⟩ := shared
    have several := (mem_sharedSlots.mp (List.mem_of_getElem? here)).2
    rw [name]
    exact apply_of_shared nodup here (last_mem_blobs several index)
  | inr alone => rw [alone.2, alone.2]

theorem Op.Becomes.unmoved {op op' : Op} (becomes : op.Becomes mapping op') (stable : mapping.Stable) :
    ∀ blob ∈ op'.operands, mapping.apply blob = blob := by
  have fixed := Renaming.stable_iff.mp stable
  have same : op'.operands = op.operands.map mapping.apply := by
    cases becomes with
    | plain => simp [operands, relabel]
    | recurrent => simp [operands, relabel]
  simp only [same, List.forall_mem_map]
  exact fun blob _ => fixed blob

theorem Op.relabel_of_unmoved {op : Op} {name : String → String}
    (unmoved : ∀ blob ∈ op.operands, name blob = blob) : op.relabel name = op := by
  have ⟨inputs, outputs⟩ := List.forall_mem_append.mp unmoved
  have kept (names : List String) (same : ∀ blob ∈ names, name blob = blob) : names.map name = names :=
    (List.map_congr_left same).trans names.map_id'
  cases op
  rw [relabel, kept _ inputs, kept _ outputs]

theorem Op.notedBy_nil {op : Op} (unmoved : ∀ blob ∈ op.operands, mapping.apply blob = blob) :
    op.NotedBy mapping [] := by
  refine ⟨[], .nil, fun blob => ?_, rfl⟩
  simp only [List.not_mem_nil, false_iff]
  exact fun moved => moved.2.1 (unmoved blob moved.1)

end Stable

def Supported (ops : List Op) : Prop := ∀ address error, ¬ Unsupported ops address error

theorem supported_iff {ops : List Op} :
    Supported ops ↔ ∀ value, Offers ops value → ∃ step, value.stepNet? = some step ∧ Supported step.ops := by
  constructor
  next =>
    intro supported value offers
    have ⟨op, member, recurrent, arg, member', expected, same⟩ := offers
    have ⟨i, operation⟩ := List.mem_iff_getElem?.mp member
    have ⟨j, argument⟩ := List.mem_iff_getElem?.mp member'
    subst same
    cases held : arg.value.stepNet? with
    | none => exact absurd (.here operation recurrent argument expected held) (supported _ _)
    | some step =>
      exact ⟨step, rfl, fun address error below =>
        supported _ error (.inside operation recurrent argument expected held below)⟩
  next =>
    intro each address error unsupported
    cases unsupported with
    | here operation recurrent argument expected missing =>
      have ⟨step, held, _⟩ := each _ ⟨_, List.mem_of_getElem? operation, recurrent, _,
        List.mem_of_getElem? argument, expected, rfl⟩
      simp [missing] at held
    | inside operation recurrent argument expected held below =>
      have ⟨step, held', supported⟩ := each _ ⟨_, List.mem_of_getElem? operation, recurrent, _,
        List.mem_of_getElem? argument, expected, rfl⟩
      obtain rfl := Option.some.inj (held.symm.trans held')
      exact supported _ _ below

theorem supported_of_rename {net net' : Net} {mapping : Renaming}
    (renamed : (net.rename mapping).outcome = .ok net') : Supported net.ops := by
  have settles := net.settles_rename mapping
  rw [renamed] at settles
  exact settles

theorem exists_of_forall₂ {α β : Type} {related : α → β → Prop} {before : List α} {after : List β}
    (each : List.Forall₂ related before after) {item' : β} (inside : item' ∈ after) :
    ∃ item ∈ before, related item item' := by
  induction each with
  | nil => simp at inside
  | cons first _ ih =>
    cases List.mem_cons.mp inside with
    | inl same => exact ⟨_, List.mem_cons_self, same ▸ first⟩
    | inr later =>
      have ⟨item, member, here⟩ := ih later
      exact ⟨item, List.mem_cons_of_mem _ member, here⟩

theorem isStepNetName_note (blob : String) : isStepNetName (blob ++ ".rename") = false := by
  rw [Bool.eq_false_iff]
  intro expected
  have ⟨front, same⟩ := List.isSuffixOf_iff_suffix.mp expected
  have last := congrArg List.getLast? same
  simp [String.toList_append] at last

section Becomes

variable {mapping : Renaming}

theorem Op.NotedBy.isStepNet_eq {op : Op} {notes : List Arg} (noted : op.NotedBy mapping notes) {note : Arg}
    (inside : note ∈ notes) : note.isStepNet = false := by
  have ⟨blobs, _, _, same⟩ := noted
  rw [same] at inside
  have ⟨blob, _, same⟩ := List.mem_map.mp inside
  exact same ▸ isStepNetName_note blob

theorem Offers.before {ops ops' : List Op} (become : List.Forall₂ (Op.Becomes mapping) ops ops')
    {value' : Value} (offers : Offers ops' value') :
    ∃ value step step', Offers ops value ∧ value.stepNet? = some step ∧ step.Becomes mapping step' ∧
      value' = value.withStepNet step' := by
  have ⟨op', member', recurrent', arg', argument', expected', same⟩ := offers
  have ⟨op, member, becomes⟩ := exists_of_forall₂ become member'
  cases becomes with
  | plain plain => exact absurd (plain.symm.trans recurrent') Bool.false_ne_true
  | recurrent recurrent become noted =>
    cases List.mem_append.mp argument' with
    | inr note => simp [noted.isStepNet_eq note] at expected'
    | inl renamed =>
      have ⟨arg, argument, becomes⟩ := exists_of_forall₂ become renamed
      cases becomes with
      | other other => simp [other] at expected'
      | stepNet expected held inner =>
        exact ⟨arg.value, _, _, ⟨op, member, recurrent, arg, argument, expected, rfl⟩, held, inner, same.symm⟩

theorem withStepNet_withStepNet (value : Value) (step step' : Net) :
    (value.withStepNet step).withStepNet step' = value.withStepNet step' := by
  cases value with
  | int | float | text | ints | floats | texts | net => rfl

-- A step net that is spelled out again may nest too deep for a reader, but is never read as another one.
theorem stepNet?_withStepNet {value : Value} {step step' found : Net} (held : value.stepNet? = some step)
    (becomes : step.Becomes mapping step')
    (back : ∀ s, value = .text s → ∀ x ∈ step.reals, x.isFinite = true → Json.ReadsBack x)
    (read : (value.withStepNet step').stepNet? = some found) : found = step' := by
  cases value with
  | net inner => exact (Option.some.inj read).symm
  | text s =>
    have portable := Net.portable_ofJson (stepNet?_text.mp held)
    have current : step'.version = Net.currentVersion := by rw [becomes.version_eq, portable.current]
    refine Net.eq_of_ofJson current ?_ (stepNet?_text.mp read)
    rw [becomes.reals_eq]
    exact fun x inside => back s rfl x inside (portable.finite x inside)
  | int | float | ints | floats | texts => simp [Value.stepNet?] at held

theorem Net.Becomes.ops {net net' : Net} (becomes : net.Becomes mapping net') :
    List.Forall₂ (Op.Becomes mapping) net.ops net'.ops := by
  cases becomes with
  | mk become => exact become

theorem Net.Becomes.again {net net' : Net} (becomes : net.Becomes mapping net') (stable : mapping.Stable)
    (ops : List.Forall₂ (Op.Becomes mapping) net'.ops net'.ops) : net'.Becomes mapping net' := by
  have fixed (names : List String) : (names.map mapping.apply).map mapping.apply = names.map mapping.apply := by
    simp [Renaming.stable_iff.mp stable]
  cases becomes with
  | mk =>
    have again := Net.Becomes.mk ops
    rwa [fixed, fixed] at again

-- By induction on step nets within step nets.
theorem become_again (stable : mapping.Stable) {net : Net} {ops : List Op}
    (become : List.Forall₂ (Op.Becomes mapping) net.ops ops) (supported : Supported ops)
    (back : ∀ step, net.Spells step → ∀ x ∈ step.reals, x.isFinite = true → Json.ReadsBack x) :
    List.Forall₂ (Op.Becomes mapping) ops ops := by
  induction net using Net.carries_wellFounded.induction generalizing ops with
  | h net ih =>
    have stepNets (arg : Arg) (expected : arg.isStepNet = true) (offers : Offers ops arg.value) :
        arg.Becomes mapping arg := by
      have ⟨value, step, step', before, held, inner, same⟩ := offers.before become
      have ⟨found, read, deeper⟩ := supported_iff.mp supported _ offers
      have carries : net.Carries step := ⟨value, before, held⟩
      obtain rfl : found = step' := by
        rw [same] at read
        refine stepNet?_withStepNet held inner (fun s text => ?_) read
        subst text
        exact back step (.here before (stepNet?_text.mp held))
      have ops := ih step carries inner.ops deeper fun deep spells => back deep (.inside carries spells)
      have renamed := Arg.Becomes.stepNet expected read (inner.again stable ops)
      have kept : arg.value.withStepNet found = arg.value := by rw [same, withStepNet_withStepNet]
      rw [kept] at renamed
      cases arg
      exact renamed
    refine List.forall₂_same.mpr fun op member => ?_
    have ⟨_, _, renamed⟩ := exists_of_forall₂ become member
    have unmoved := renamed.unmoved stable
    have same := Op.relabel_of_unmoved unmoved
    cases recurrent : op.isRecurrent with
    | false =>
      have plain : op.Becomes mapping (op.relabel mapping.apply) := .plain recurrent
      rwa [same] at plain
    | true =>
      have args : List.Forall₂ (Arg.Becomes mapping) op.args op.args := by
        refine List.forall₂_same.mpr fun arg argument => ?_
        cases expected : arg.isStepNet with
        | false => exact .other expected
        | true => exact stepNets arg expected ⟨op, member, recurrent, arg, argument, expected, rfl⟩
      have again := Op.Becomes.recurrent recurrent args (Op.notedBy_nil unmoved)
      rw [List.append_nil, same] at again
      cases op
      exact again

theorem supported_again {net : Net} {ops : List Op} (become : List.Forall₂ (Op.Becomes mapping) net.ops ops)
    (held : ∀ step, ¬ net.Spells step) : Supported ops := by
  induction net using Net.carries_wellFounded.induction generalizing ops with
  | h net ih =>
    refine supported_iff.mpr fun value' offers => ?_
    have ⟨value, step, step', before, found, inner, same⟩ := offers.before become
    have carries : net.Carries step := ⟨value, before, found⟩
    cases value with
    | net =>
      subst same
      exact ⟨step', rfl, ih step carries inner.ops fun deep spells => held deep (.inside carries spells)⟩
    | text s => exact absurd (.here before (stepNet?_text.mp found)) (held step)
    | int | float | ints | floats | texts => simp [Value.stepNet?] at found

theorem Net.become_of_rename {net net' : Net} (renamed : (net.rename mapping).outcome = .ok net') :
    List.Forall₂ (Op.Becomes mapping) net.ops net'.ops := by
  simp only [Net.rename, Journal.outcome_bind, Journal.outcome_pure, Except.ok.injEq] at renamed
  have ⟨ops, same, whole⟩ := renamed
  exact whole ▸ renameOps_iff.mp same

end Becomes

theorem Net.rename_twice :
    (∀ (mapping : Renaming) (net once : Net), mapping.Stable → (net.rename mapping).outcome = .ok once →
      (∀ step, net.Spells step → ∀ x ∈ step.reals, x.isFinite = true → Json.ReadsBack x) →
      (∀ twice, (once.rename mapping).outcome = .ok twice → twice = once) ∧
        ((∀ step, ¬ net.Spells step) → (once.rename mapping).outcome = .ok once)) ∧
    ∀ slots : List Slot, (slots.flatten.map (·.blob)).Nodup →
      (canonicalNames .lastMember slots).Stable := by
  refine ⟨fun mapping net once stable renamed back => ?_, fun slots nodup => stable_canonicalNames nodup⟩
  have become := Net.become_of_rename renamed
  have again (supported : Supported once.ops) : (once.rename mapping).outcome = .ok once := by
    have fixed := renameOps_iff.mpr (become_again stable become supported back)
    cases once
    simpa [Net.rename] using fixed
  constructor
  next =>
    intro twice renamed'
    have fixed := again (supported_of_rename renamed')
    exact Except.ok.inj (renamed'.symm.trans fixed)
  next =>
    intro held
    exact again (supported_again become held)

theorem not_offers_of_plain {ops : List Op} (plain : ∀ op ∈ ops, op.isRecurrent = false) {value : Value} :
    ¬ Offers ops value := by
  intro offers
  have ⟨op, operation, recurrent, _⟩ := offers
  simp [plain op operation] at recurrent

theorem Net.Spells.offered {net step : Net}
    (flat : ∀ inner, net.Carries inner → ∀ op ∈ inner.ops, op.isRecurrent = false) (spells : net.Spells step) :
    ∃ s, Offers net.ops (.text s) ∧ Net.ofJson s = .ok step := by
  cases spells with
  | here offers read => exact ⟨_, offers, read⟩
  | inside carries below =>
    have plain := flat _ carries
    cases below with
    | here offers => exact absurd offers (not_offers_of_plain plain)
    | inside carries' =>
      have ⟨_, offers, _⟩ := carries'
      exact absurd offers (not_offers_of_plain plain)

def loopNet (arg : Arg) : Net := ⟨"", "loop", [⟨"RecurrentNetwork", ["a"], ["y"], [arg]⟩], ["a"], ["y"]⟩

def heldStep : Net :=
  ⟨"", "step", [⟨"Scale", ["a"], ["c"], [⟨"by", .float ⟨0x3fe0000000000000⟩⟩]⟩], ["a"], ["c"]⟩

def spelledText : String := "\x7b\"name\": \"n\", \"ops\": [], \"external_inputs\": [\"a\"]\x7d"

def pairedSlots : List Slot := [[⟨"a", ⟨none, none, none⟩⟩, ⟨"b", ⟨none, none, none⟩⟩]]

theorem spells_loopNet {arg : Arg} {own step : Net} (spells : (loopNet arg).Spells step)
    (held : arg.value.stepNet? = some own) (plain : ∀ op ∈ own.ops, op.isRecurrent = false) :
    ∃ s, arg.value = .text s ∧ Net.ofJson s = .ok step := by
  have only (value : Value) (offers : Offers (loopNet arg).ops value) : arg.value = value := by
    have ⟨op, operation, _, arg', argument, _, same⟩ := offers
    obtain rfl := List.mem_singleton.mp operation
    rw [← same, List.mem_singleton.mp argument]
  have flat (inner : Net) (carries : (loopNet arg).Carries inner) : ∀ op ∈ inner.ops, op.isRecurrent = false := by
    have ⟨value, offers, found⟩ := carries
    rw [← only value offers, held] at found
    exact Option.some.inj found ▸ plain
  have ⟨s, offers, read⟩ := spells.offered flat
  exact ⟨s, only _ offers, read⟩

theorem Net.rename_twice_loop :
    let mapping := canonicalNames .lastMember pairedSlots
    let spelled := loopNet ⟨"step_net", .text spelledText⟩
    let held := loopNet ⟨"step_net", .net heldStep⟩
    mapping.Stable ∧
      (∃ once twice, (spelled.rename mapping).outcome = .ok once ∧
        (once.rename mapping).outcome = .ok twice ∧ twice = once ∧
        twice.ops.map (·.args.map (·.name)) = [["step_net", "a.rename"]]) ∧
      ∃ once, (held.rename mapping).outcome = .ok once ∧ (once.rename mapping).outcome = .ok once := by
  intro mapping spelled held
  have stable : mapping.Stable := Net.rename_twice.2 pairedSlots (by decide)
  have ⟨step, read, empty⟩ : ∃ step, Net.ofJson spelledText = .ok step ∧ step.ops.length = 0 :=
    exists_ok_of_view (by decide +kernel)
  have plain : ∀ op ∈ step.ops, op.isRecurrent = false := by
    rw [List.eq_nil_of_length_eq_zero empty]
    exact nofun
  have found : (Value.text spelledText).stepNet? = some step := stepNet?_text.mpr read
  have back : ∀ step, spelled.Spells step → ∀ x ∈ step.reals, x.isFinite = true → Json.ReadsBack x := by
    intro step' spells x inside
    have ⟨s, text, read'⟩ := spells_loopNet spells found plain
    rw [← Value.text.inj text, read] at read'
    rw [← Except.ok.inj read', Net.reals_eq, List.eq_nil_of_length_eq_zero empty] at inside
    simp at inside
  have ⟨twice, renamed, seen⟩ : ∃ twice,
      ((spelled.rename mapping).outcome >>= fun once => (once.rename mapping).outcome) = .ok twice ∧
        twice.ops.map (·.args.map (·.name)) = [["step_net", "a.rename"]] :=
    exists_ok_of_view (by decide +kernel)
  have ⟨once, first, second⟩ := bind_eq_ok.mp renamed
  have same := (Net.rename_twice.1 mapping _ once stable first back).1 twice second
  have embedded : ∀ step, ¬ held.Spells step := by
    intro step spells
    have found : (Value.net heldStep).stepNet? = some heldStep := rfl
    have ⟨s, text, _⟩ := spells_loopNet spells found (by decide)
    cases text
  have ⟨once', renamed, _⟩ : ∃ once', (held.rename mapping).outcome = .ok once' ∧ once'.name = "loop" :=
    exists_ok_of_view (by decide +kernel)
  have again := (Net.rename_twice.1 mapping _ once' stable renamed
    fun step spells => absurd spells (embedded step)).2 embedded
  exact ⟨stable, ⟨once, twice, first, second, same, seen⟩, once', renamed, again⟩

end StoragePlan
