import StoragePlan.Proofs.Gradient.Sharing
import StoragePlan.Proofs.Interference

set_option autoImplicit false

namespace StoragePlan

/-- Blobs of the net get the same name exactly if they share a slot. -/
def Plan.TellsSlots (plan : Plan) (net : Net) : Prop :=
  ∀ a ∈ net.blobNames, ∀ b ∈ net.blobNames,
    plan.names.apply a = plan.names.apply b ↔ ∃ slot ∈ plan.slots, a ∈ slot.blobs ∧ b ∈ slot.blobs

section Slots

variable {net : Net} {statics : Names} {sizes : Option Sizes} {settings : Settings} {plan : Plan}

theorem planSharing_tells_slots_iff
    (planned : (planSharing net statics sizes settings).outcome = .ok plan) :
    plan.TellsSlots net ↔ ∀ scope, settings.namescope = some scope →
      ∀ index < (sharedSlots plan.slots).length, ∀ slot ∈ plan.slots,
        slot.blobs ≠ [sharedName (normalizeScope scope) index] := by
  obtain ⟨graph, ops, table, planned⟩ := planned_of_outcome planned
  have told := @names_tell_slots_iff settings.naming plan.slots planned.assigned.nodup
  simp only [← planned.names, ← planned.placed_iff, Settings.naming_eq_scoped] at told
  rw [← told]
  constructor
  next => exact fun tells a b named named' => tells a named b named'
  next => exact fun tells a named b named' => tells a b named named'

theorem planSharing_renamed (planned : (planSharing net statics sizes settings).outcome = .ok plan) :
    List.Forall₂ (Op.RenamedBy plan.names.apply) (plan.line net) plan.net.ops := by
  obtain ⟨graph, ops, table, planned⟩ := planned_of_outcome planned
  rw [planned.line_eq]
  exact planned.renamed

theorem planSharing_keeps_unshared
    (planned : (planSharing net statics sizes settings).outcome = .ok plan) {slot : Slot}
    (member : slot ∈ plan.slots) {blob : String} (alone : slot.blobs = [blob]) :
    plan.names.apply blob = blob := by
  obtain ⟨graph, ops, table, planned⟩ := planned_of_outcome planned
  rw [planned.names]
  exact apply_of_alone planned.assigned.nodup member alone

theorem planSharing_static_alone
    (planned : (planSharing net statics sizes settings).outcome = .ok plan) {blob : String}
    (named : blob ∈ net.blobNames) (static : blob ∈ statics.toList) :
    ∃ slot ∈ plan.slots, slot.blobs = [blob] := by
  obtain ⟨graph, ops, table, planned⟩ := planned_of_outcome planned
  obtain ⟨slot, member, inside⟩ := planned.placed_iff.mp named
  exact ⟨slot, member, planned.assigned.static_alone member inside static⟩

end Slots

/-- A new name is the name of a blob of the net only if that blob gets it, too. -/
def GradientPlan.CapturesNothing (plan : GradientPlan) (net : Net) : Prop :=
  ∀ blob name, plan.names.get? blob = some name → name ∈ net.blobNames →
    plan.names.get? name = some name

theorem numbered_of_get? {scope : String} {w : Walk} {blob name : String}
    (found : (gradientNames scope w).get? blob = some name) :
    ∃ (index : Nat) (storage : String), w.storages[index]? = some storage ∧ w.Holds blob storage ∧
      name = sharedName scope index := by
  cases get?_gradientNames scope w blob with
  | inl numbered =>
    obtain ⟨index, storage, here, holds, given⟩ := numbered
    exact ⟨index, storage, here, holds, Option.some.inj (found.symm.trans given)⟩
  | inr unmapped =>
    rw [unmapped] at found
    exact absurd found (by simp)

theorem exists_get?_gradientNames {scope : String} {w : Walk} {name : String} :
    (∃ blob, (gradientNames scope w).get? blob = some name) ↔
      ∃ index < w.storages.length, name = sharedName scope index := by
  constructor
  next =>
    intro mapped
    obtain ⟨blob, found⟩ := mapped
    obtain ⟨index, storage, here, -, given⟩ := numbered_of_get? found
    have bound := (List.getElem?_eq_some_iff.mp here).1
    exact ⟨index, bound, given⟩
  next =>
    intro numbered
    obtain ⟨index, bound, rfl⟩ := numbered
    exact ⟨_, get?_storage scope w (List.getElem?_eq_getElem bound)⟩

theorem gradient_of_get? {b : Backward} {w : Walk} (only : w.OnlyGradients b) {scope blob name : String}
    (found : (gradientNames scope w).get? blob = some name) : b.scope.isGradient blob = true := by
  obtain ⟨index, storage, here, holds, -⟩ := numbered_of_get? found
  exact only.of_holds (List.mem_of_getElem? here) holds

theorem occursIn_of_isGradient {s : GradientScope} {blob : String} (gradient : s.isGradient blob = true) :
    occursIn "_grad".toList blob.toList = true := by
  simp only [GradientScope.isGradient, Bool.and_eq_true] at gradient
  exact gradient.1.1

theorem unmarked_gradientScopeName {scope : String}
    (unmarked : occursIn "_grad".toList scope.toList = false) :
    occursIn "_grad".toList (gradientScopeName scope).toList = false := by
  unfold gradientScopeName
  split
  next => exact unmarked
  next =>
    rw [String.toList_append]
    exact unmarked_append unmarked (by decide)

section Gradients

variable {net : Net} {losses : List String} {parameters : Names} {scope : String} {plan : GradientPlan}

theorem gradientNames_of_outcome
    (planned : (shareGradients net losses parameters scope).outcome = .ok plan) :
    plan.names = gradientNames (gradientScopeName scope)
        (walkGradients (.ofNet ⟨gradientScopeName scope, parameters⟩ losses net)) ∧
      (net.rename plan.names).outcome = .ok plan.net := by
  simp only [shareGradients, Journal.outcome_bind, Journal.outcome_emit, Journal.outcome_pure,
    Except.ok.injEq] at planned
  obtain ⟨-, -, -, -, renamed, outcome, -, -, rfl⟩ := planned
  dsimp only
  exact ⟨rfl, outcome⟩

theorem names_of_outcome (planned : (shareGradients net losses parameters scope).outcome = .ok plan) :
    plan.names = gradientNames (gradientScopeName scope)
        (walkGradients (.ofNet ⟨gradientScopeName scope, parameters⟩ losses net)) ∧
      List.Forall₂ (Op.RenamedBy plan.names.apply) net.ops plan.net.ops :=
  (gradientNames_of_outcome planned).imp_right Net.rename_renamed

theorem get?_sharedName (planned : (shareGradients net losses parameters scope).outcome = .ok plan)
    (unmarked : occursIn "_grad".toList scope.toList = false) (index : Nat) :
    plan.names.get? (sharedName (gradientScopeName scope) index) = none := by
  rw [(names_of_outcome planned).1]
  apply Option.eq_none_iff_forall_ne_some.mpr
  intro name found
  -- What has a new name is a gradient, and the numbered names are not.
  have only := (Walk.onlyGradients_start
    (.ofNet ⟨gradientScopeName scope, parameters⟩ losses net)).run
  have marked := occursIn_of_isGradient (gradient_of_get? only found)
  rw [unmarked_sharedName (unmarked_gradientScopeName unmarked) index] at marked
  exact Bool.false_ne_true marked

theorem shareGradients_captures_nothing_iff
    (planned : (shareGradients net losses parameters scope).outcome = .ok plan) :
    ∃ count, (∀ name, (∃ blob, plan.names.get? blob = some name) ↔
        ∃ index < count, name = sharedName (gradientScopeName scope) index) ∧
      (plan.CapturesNothing net ↔ ∀ index < count,
        sharedName (gradientScopeName scope) index ∈ net.blobNames →
          plan.names.get? (sharedName (gradientScopeName scope) index) =
            some (sharedName (gradientScopeName scope) index)) ∧
      (occursIn "_grad".toList scope.toList = false → (plan.CapturesNothing net ↔
        ∀ index < count, sharedName (gradientScopeName scope) index ∉ net.blobNames)) := by
  obtain ⟨count, given⟩ : ∃ count, ∀ name, (∃ blob, plan.names.get? blob = some name) ↔
      ∃ index < count, name = sharedName (gradientScopeName scope) index := by
    rw [(names_of_outcome planned).1]
    exact ⟨_, fun name => exists_get?_gradientNames⟩
  have exactly : plan.CapturesNothing net ↔ ∀ index < count,
      sharedName (gradientScopeName scope) index ∈ net.blobNames →
        plan.names.get? (sharedName (gradientScopeName scope) index) =
          some (sharedName (gradientScopeName scope) index) := by
    constructor
    next =>
      intro captures index bound named
      obtain ⟨blob, found⟩ := (given _).mpr ⟨index, bound, rfl⟩
      exact captures blob _ found named
    next =>
      intro itself blob name found named
      obtain ⟨index, bound, rfl⟩ := (given name).mp ⟨blob, found⟩
      exact itself index bound named
  refine ⟨count, given, exactly, fun unmarked => exactly.trans ?_⟩
  apply forall₂_congr
  intro index bound
  simp [get?_sharedName planned unmarked index]

end Gradients

theorem new_names_capture_iff (net : Net) :
    (∀ statics sizes settings plan, (planSharing net statics sizes settings).outcome = .ok plan →
      List.Forall₂ (Op.RenamedBy plan.names.apply) (plan.line net) plan.net.ops ∧
      (∀ slot ∈ plan.slots, ∀ blob, slot.blobs = [blob] → plan.names.apply blob = blob) ∧
      (∀ blob ∈ net.blobNames, blob ∈ statics.toList → ∃ slot ∈ plan.slots, slot.blobs = [blob]) ∧
      (plan.TellsSlots net ↔ ∀ scope, settings.namescope = some scope →
        ∀ index < (sharedSlots plan.slots).length, ∀ slot ∈ plan.slots,
          slot.blobs ≠ [sharedName (normalizeScope scope) index])) ∧
    ∀ losses parameters scope plan, (shareGradients net losses parameters scope).outcome = .ok plan →
      List.Forall₂ (Op.RenamedBy plan.names.apply) net.ops plan.net.ops ∧
      ∃ count, (∀ name, (∃ blob, plan.names.get? blob = some name) ↔
          ∃ index < count, name = sharedName (gradientScopeName scope) index) ∧
        (plan.CapturesNothing net ↔ ∀ index < count,
          sharedName (gradientScopeName scope) index ∈ net.blobNames →
            plan.names.get? (sharedName (gradientScopeName scope) index) =
              some (sharedName (gradientScopeName scope) index)) ∧
        (occursIn "_grad".toList scope.toList = false → (plan.CapturesNothing net ↔
          ∀ index < count, sharedName (gradientScopeName scope) index ∉ net.blobNames)) := by
  constructor
  next =>
    intro statics sizes settings plan planned
    refine ⟨planSharing_renamed planned, ?_, ?_, planSharing_tells_slots_iff planned⟩
    next => exact fun slot member blob alone => planSharing_keeps_unshared planned member alone
    next => exact fun blob named static => planSharing_static_alone planned named static
  next =>
    intro losses parameters scope plan planned
    exact ⟨(names_of_outcome planned).2, shareGradients_captures_nothing_iff planned⟩

theorem new_names_capture_iff_chain :
    (∃ plan, (planSharing chainNet .empty none { ordering := .plain, namescope := some "s" }).outcome =
        .ok plan ∧ plan.slots.map Slot.blobs = [["loss", "g/b_grad"], ["g/a_grad", "g/c_grad"]] ∧
      plan.TellsSlots chainNet) ∧
    ∃ plan, (shareGradients chainNet ["loss"] .empty "g").outcome = .ok plan ∧
      plan.names.get? "g/c_grad" = some "g/__m0_" ∧ plan.CapturesNothing chainNet := by
  have ⟨slots, gradients⟩ := new_names_capture_iff chainNet
  constructor
  next =>
    obtain ⟨plan, outcome, blobs⟩ := exists_ok_of_view (show
      (planSharing chainNet .empty none { ordering := .plain, namescope := some "s" }).outcome.toOption.map
        (fun plan => plan.slots.map Slot.blobs) =
          some [["loss", "g/b_grad"], ["g/a_grad", "g/c_grad"]] by decide +kernel)
    refine ⟨plan, outcome, blobs, (slots _ _ _ _ outcome).2.2.2.mpr ?_⟩
    intro scope _ index _ slot member alone
    have among := List.mem_map_of_mem (f := Slot.blobs) member
    rw [blobs, alone] at among
    simp at among
  next =>
    obtain ⟨plan, outcome, given⟩ := exists_ok_of_view (show
      (shareGradients chainNet ["loss"] .empty "g").outcome.toOption.map
        (fun plan => plan.names.get? "g/c_grad") = some (some "g/__m0_") by decide +kernel)
    obtain ⟨count, -, -, exactly⟩ := (gradients _ _ _ _ outcome).2
    refine ⟨plan, outcome, given, (exactly (by decide)).mpr ?_⟩
    exact fun index _ => sharedName_fresh (by decide +kernel) _ index

/-- The name of the static blob is one that both passes give to what shares storage. -/
def numberedNet : Net :=
  (Net.named "numbered").withOps [⟨"Fill", ["loss"], ["g/a_grad"], []⟩,
    ⟨"Relu", ["g/a_grad"], ["g/b_grad"], []⟩, ⟨"Add", ["g/b_grad", "g/__m0_"], ["g/c_grad"], []⟩]

theorem new_names_capture_static :
    (∃ plan, (planSharing numberedNet (.ofList ["g/__m0_"]) none
        { ordering := .plain, namescope := some "g" }).outcome = .ok plan ∧
      plan.names.apply "loss" = plan.names.apply "g/__m0_" ∧ ¬ plan.TellsSlots numberedNet) ∧
    ∃ plan, (shareGradients numberedNet ["loss"] .empty "g").outcome = .ok plan ∧
      ¬ plan.CapturesNothing numberedNet := by
  constructor
  next =>
    obtain ⟨plan, outcome, seen⟩ := exists_ok_of_view (show
      (planSharing numberedNet (.ofList ["g/__m0_"]) none
        { ordering := .plain, namescope := some "g" }).outcome.toOption.map (fun plan =>
          (plan.names.apply "loss", plan.names.apply "g/__m0_", plan.slots.map Slot.blobs)) =
        some ("g/__m0_", "g/__m0_", [["loss", "g/b_grad"], ["g/a_grad", "g/c_grad"], ["g/__m0_"]])
      by decide +kernel)
    simp only [Prod.mk.injEq] at seen
    have ⟨first, second, blobs⟩ := seen
    have same := first.trans second.symm
    refine ⟨plan, outcome, same, fun tells => ?_⟩
    obtain ⟨slot, member, here, here'⟩ :=
      (tells "loss" (by decide +kernel) "g/__m0_" (by decide +kernel)).mp same
    have among := List.mem_map_of_mem (f := Slot.blobs) member
    rw [blobs] at among
    simp only [List.mem_cons, List.not_mem_nil, or_false] at among
    rcases among with blobs | blobs | blobs <;> simp [blobs] at here here'
  next =>
    obtain ⟨plan, outcome, seen⟩ := exists_ok_of_view (show
      (shareGradients numberedNet ["loss"] .empty "g").outcome.toOption.map (fun plan =>
        (plan.names.get? "g/c_grad", plan.names.get? "g/__m0_")) = some (some "g/__m0_", none)
      by decide +kernel)
    have ⟨given, kept⟩ := Prod.mk.inj seen
    refine ⟨plan, outcome, fun captures => ?_⟩
    have itself := captures "g/c_grad" "g/__m0_" given (by decide +kernel)
    rw [kept] at itself
    exact absurd itself (by simp)

end StoragePlan
