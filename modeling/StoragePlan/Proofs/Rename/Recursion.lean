import StoragePlan.Proofs.Rename.Twice

set_option autoImplicit false

namespace StoragePlan

def Value.ownTexts : Value → List String
  | .text s => [s]
  | .texts ss => ss
  | _ => []

inductive Net.HoldsText : Net → String → Prop
  | here {net : Net} {op : Op} {arg : Arg} {s : String} (operation : op ∈ net.ops)
      (argument : arg ∈ op.args) (own : s ∈ arg.value.ownTexts) : Net.HoldsText net s
  | inside {net step : Net} {op : Op} {arg : Arg} {s : String} (operation : op ∈ net.ops)
      (argument : arg ∈ op.args) (held : arg.value = .net step) (below : step.HoldsText s) :
      Net.HoldsText net s

theorem textBytes_of_ownTexts {value : Value} {s : String} (own : s ∈ value.ownTexts) :
    s.utf8ByteSize ≤ value.textBytes := by
  cases value with
  | text t =>
    obtain rfl := List.mem_singleton.mp own
    exact Nat.le_refl _
  | texts ss => exact le_total_of_mem (List.mem_map_of_mem own)
  | int | float | ints | floats | net => simp [Value.ownTexts] at own

theorem Net.HoldsText.textBytes {net : Net} {s : String} (holds : net.HoldsText s) :
    s.utf8ByteSize ≤ net.textBytes := by
  induction holds with
  | here operation argument own =>
    exact Nat.le_trans (textBytes_of_ownTexts own) (textBytes_of_arg operation argument)
  | inside operation argument held _ ih =>
    have bound := textBytes_of_arg operation argument
    rw [held, Value.textBytes] at bound
    exact Nat.le_trans ih bound

def TextRenamer.Follows (texts : TextRenamer) (mapping : Renaming) : Prop :=
  ∀ opType name s, texts opType name s =
    match Net.ofJson s with
    | .error _ => .fail (.unsupportedNesting opType name)
    | .ok step => do
      let step ← renameStepNet mapping texts step
      pure step.toJson

theorem follows_renameText (mapping : Renaming) : (renameText mapping).Follows mapping := by
  intro opType name s
  split
  next fault read => rw [renameText, renameTextTo_of_error read]
  next step read => exact renameText_of_ok read

section Unique

variable {mapping : Renaming} {texts texts' : TextRenamer} (follows : texts.Follows mapping)
  (follows' : texts'.Follows mapping)

include follows follows'

theorem same_of_follows {opType name s : String}
    (below : ∀ step, Net.ofJson s = .ok step →
      renameStepNet mapping texts step = renameStepNet mapping texts' step) :
    texts opType name s = texts' opType name s := by
  rw [follows, follows']
  split
  next => rfl
  next step read => rw [below step read]

theorem renameStepNet_unique (net : Net) :
    renameStepNet mapping texts net = renameStepNet mapping texts' net := by
  induction net using Net.carries_wellFounded.induction with
  | h net ih =>
    refine renameStepNet_congr ih fun opType name s offers => ?_
    exact same_of_follows follows follows' fun step read => ih step ⟨_, offers, stepNet?_text.mpr read⟩

theorem follows_unique : texts = texts' := by
  funext opType name s
  exact same_of_follows follows follows' fun step _ => renameStepNet_unique follows follows' step

end Unique

theorem rename_ends (mapping : Renaming) :
    (∀ s net, Net.ofJson s = .ok net → ∀ t, net.HoldsText t → t.utf8ByteSize < s.utf8ByteSize) ∧
      (WellFounded fun step net : Net => net.Carries step) ∧
      (∀ texts : TextRenamer, texts.Follows mapping ↔ texts = renameText mapping) ∧
      ∀ net depth, net.textBytes < depth →
        renameStepNet mapping (renameTextTo mapping depth) net =
          renameStepNet mapping (renameText mapping) net := by
  refine ⟨?shorter, Net.carries_wellFounded, fun texts => ⟨?unique, ?solves⟩, renameStepNet_deep⟩
  case shorter =>
    intro s net read t holds
    exact Nat.lt_of_le_of_lt holds.textBytes (Net.textBytes_ofJson read)
  case unique => exact fun follows => follows_unique follows (follows_renameText mapping)
  case solves => exact fun same => same ▸ follows_renameText mapping

/-- A net that is spelled out, with a step net that is spelled out in turn. -/
def innerText : String := "\x7b\"name\":\"n\",\"ops\":[]\x7d"

def outerText : String :=
  "\x7b\"name\":\"o\",\"ops\":[\x7b\"op_type\":\"RecurrentNetwork\",\"inputs\":[],\"outputs\":[],\"args\":[" ++
    "\x7b\"name\":\"step_net\",\"value\":\x7b\"Str\":\"\x7b\\\"name\\\":\\\"n\\\",\\\"ops\\\":[]\x7d\"\x7d\x7d]\x7d]\x7d"

theorem rename_ends_nested :
    let mapping := canonicalNames .lastMember pairedSlots
    ∃ net, Net.ofJson outerText = .ok net ∧ net.HoldsText innerText ∧
      innerText.utf8ByteSize < outerText.utf8ByteSize ∧
      renameStepNet mapping (renameTextTo mapping outerText.utf8ByteSize) net =
        renameStepNet mapping (renameText mapping) net := by
  intro mapping
  have ⟨net, read, seen⟩ : ∃ net, Net.ofJson outerText = .ok net ∧
      net.ops.flatMap (fun op => op.args.flatMap fun arg => arg.value.ownTexts) = [innerText] :=
    exists_ok_of_view (by decide +kernel)
  have ⟨shorter, _, _, enough⟩ := rename_ends mapping
  have inside : innerText ∈ net.ops.flatMap fun op => op.args.flatMap fun arg => arg.value.ownTexts := by
    rw [seen]
    exact List.mem_singleton_self innerText
  have ⟨op, operation, among⟩ := List.mem_flatMap.mp inside
  have ⟨arg, argument, own⟩ := List.mem_flatMap.mp among
  have holds : net.HoldsText innerText := .here operation argument own
  exact ⟨net, read, holds, shorter outerText net read innerText holds,
    enough net outerText.utf8ByteSize (Net.textBytes_ofJson read)⟩

end StoragePlan
