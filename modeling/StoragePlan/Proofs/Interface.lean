import StoragePlan.Proofs.Rename.Apart

set_option autoImplicit false

namespace StoragePlan

def Net.ports (net : Net) : List String := net.externalInputs ++ net.externalOutputs

/-- Operands that the result declares as external go by the declared name in it. -/
def Plan.KeepsPorts (plan : Plan) (net : Net) : Prop :=
  ∀ port ∈ plan.net.ports, port ∈ net.blobNames →
    plan.names.apply port = port ∧ port ∈ plan.net.blobNames

section Plans

variable {net : Net} {statics : Names} {sizes : Option Sizes} {settings : Settings} {plan : Plan}

theorem ports_of_outcome (planned : (planSharing net statics sizes settings).outcome = .ok plan) :
    plan.net.externalInputs = net.externalInputs ∧ plan.net.externalOutputs = net.externalOutputs := by
  have ⟨ops, _, renamed⟩ := renamed_of_outcome planned
  simp only [Net.rename, Journal.outcome_bind, Journal.outcome_pure, Except.ok.injEq] at renamed
  have ⟨ops', _, same⟩ := renamed
  rw [← same]
  exact ⟨rfl, rfl⟩

theorem mem_planned_blobNames (planned : (planSharing net statics sizes settings).outcome = .ok plan)
    {name : String} :
    name ∈ plan.net.blobNames ↔ ∃ blob ∈ net.blobNames, plan.names.apply blob = name := by
  have ⟨perm, become⟩ := line_of_outcome planned
  have operands := operands_of_become become
  have same := perm.flatMap_right Op.operands
  simp only [Net.blobNames, List.mem_eraseDups, operands, List.mem_map, same.mem_iff]

variable {graph : Graph} {ops : List Op} {table : LiveTable}

theorem Planned.apply_eq_iff (planned : Planned net statics sizes settings plan graph ops table)
    {blob : String} :
    plan.names.apply blob = blob ↔ ∀ index slot, (sharedSlots plan.slots)[index]? = some slot →
      blob ∈ slot.blobs → settings.naming.nameOf slot index = blob := by
  rw [planned.names]
  constructor
  next =>
    intro kept index slot here inside
    rw [← apply_of_shared planned.assigned.nodup here inside, kept]
  next =>
    intro given
    rcases apply_canonicalNames settings.naming plan.slots blob with
      ⟨index, slot, here, inside, name⟩ | ⟨-, same⟩
    next => exact name.trans (given index slot here inside)
    next => exact same

theorem Planned.named_iff (planned : Planned net statics sizes settings plan graph ops table)
    {name : String} :
    (∃ blob ∈ net.blobNames, plan.names.apply blob = name) ↔
      name ∈ net.blobNames ∧ (∀ slot ∈ sharedSlots plan.slots, name ∉ slot.blobs) ∨
        ∃ index slot, (sharedSlots plan.slots)[index]? = some slot ∧ settings.naming.nameOf slot index = name := by
  constructor
  next =>
    intro named
    obtain ⟨blob, member, rfl⟩ := named
    rw [planned.names]
    rcases apply_canonicalNames settings.naming plan.slots blob with
      ⟨index, slot, here, -, given⟩ | ⟨alone, same⟩
    next => exact .inr ⟨index, slot, here, given.symm⟩
    next =>
      rw [same]
      exact .inl ⟨member, alone⟩
  next =>
    intro either
    rcases either with ⟨member, alone⟩ | ⟨index, slot, here, rfl⟩
    next =>
      refine ⟨name, member, planned.apply_eq_iff.mpr fun index slot here inside => ?_⟩
      exact absurd inside (alone slot (List.mem_of_getElem? here))
    next =>
      -- The last blob of the slot will do, as would all others of it.
      have shared := mem_sharedSlots.mp (List.mem_of_getElem? here)
      have last := last_mem_blobs shared.2 index
      refine ⟨_, planned.placed_iff.mpr ⟨slot, shared.1, last⟩, ?_⟩
      rw [planned.names, apply_of_shared planned.assigned.nodup here last]

theorem planSharing_keeps_ports_iff
    (planned : (planSharing net statics sizes settings).outcome = .ok plan) :
    (plan.net.externalInputs = net.externalInputs ∧ plan.net.externalOutputs = net.externalOutputs) ∧
      (∀ name, name ∈ plan.net.blobNames ↔ ∃ blob ∈ net.blobNames, plan.names.apply blob = name) ∧
      (∀ blob ∈ net.blobNames, (blob ∈ plan.net.blobNames ↔
        (∀ slot ∈ sharedSlots plan.slots, blob ∉ slot.blobs) ∨
          ∃ index slot, (sharedSlots plan.slots)[index]? = some slot ∧
            settings.naming.nameOf slot index = blob)) ∧
      (plan.KeepsPorts net ↔ ∀ index slot, (sharedSlots plan.slots)[index]? = some slot →
        ∀ port ∈ slot.blobs, port ∈ net.ports → settings.naming.nameOf slot index = port) ∧
      ((∀ port ∈ net.ports, port ∈ net.blobNames → port ∈ statics.toList) → plan.KeepsPorts net) := by
  have declared := ports_of_outcome planned
  have named := @mem_planned_blobNames net statics sizes settings plan planned
  have ports : plan.net.ports = net.ports := by rw [Net.ports, Net.ports, declared.1, declared.2]
  have ⟨graph, ops, table, known⟩ := planned_of_outcome planned
  have kept_iff : plan.KeepsPorts net ↔ ∀ port ∈ net.ports, port ∈ net.blobNames →
      plan.names.apply port = port := by
    rw [Plan.KeepsPorts, ports]
    constructor
    next => exact fun keeps port declared operand => (keeps port declared operand).1
    next =>
      intro kept port declared operand
      have same := kept port declared operand
      exact ⟨same, named.mpr ⟨port, operand, same⟩⟩
  refine ⟨declared, @named, fun blob operand => ?_, ?exactly, fun static => kept_iff.mpr ?static⟩
  next => rw [named, known.named_iff, and_iff_right operand]
  case exactly =>
    rw [kept_iff]
    constructor
    next =>
      intro kept index slot here port inside declared
      have member := (mem_sharedSlots.mp (List.mem_of_getElem? here)).1
      have operand := known.placed_iff.mpr ⟨slot, member, inside⟩
      exact known.apply_eq_iff.mp (kept port declared operand) index slot here inside
    next =>
      intro given port declared operand
      exact known.apply_eq_iff.mpr fun index slot here inside => given index slot here port inside declared
  case static =>
    intro port declared operand
    rw [known.names]
    exact known.assigned.apply_static _ (static port declared operand)

end Plans

/-- The input shares a slot with the middle of the chain, and the output with its beginning. -/
def portedNet : Net :=
  ⟨Net.currentVersion, "chain",
    [⟨"A", ["x"], ["a"], []⟩, ⟨"B", ["a"], ["b"], []⟩, ⟨"C", ["b"], ["c"], []⟩], ["x"], ["c"]⟩

theorem planSharing_keeps_ports_iff_static :
    let statics : Names := .ofList ["x"]
    ∃ plan, (planSharing portedNet statics none { ordering := .plain }).outcome = .ok plan ∧
      (sharedSlots plan.slots).map Slot.blobs = [["a", "c"]] ∧ plan.KeepsPorts portedNet ∧
      "x" ∈ plan.net.blobNames ∧ "c" ∈ plan.net.blobNames := by
  intro statics
  obtain ⟨plan, planned, shared⟩ := exists_ok_of_view (show
    (planSharing portedNet statics none { ordering := .plain }).outcome.toOption.map
      (fun plan => (sharedSlots plan.slots).map Slot.blobs) = some [["a", "c"]] by decide +kernel)
  obtain ⟨declared, -, -, exactly, -⟩ := planSharing_keeps_ports_iff planned
  have keeps : plan.KeepsPorts portedNet := by
    refine exactly.mpr fun index slot here port inside port' => ?_
    have blobs : slot.blobs = ["a", "c"] := by
      have among := List.mem_map_of_mem (f := Slot.blobs) (List.mem_of_getElem? here)
      rwa [shared, List.mem_singleton] at among
    -- The one declared blob of the slot is its last.
    have last : Naming.lastMember.nameOf slot index = "c" := by
      rw [Naming.nameOf, ← List.getLast?_map, ← Slot.blobs, blobs]
      rfl
    have either : port = "a" ∨ port = "c" := by rwa [blobs, List.mem_pair] at inside
    rcases either with rfl | rfl
    next => exact absurd port' (by decide)
    next => exact last
  have ports : plan.net.ports = ["x", "c"] := by
    rw [Net.ports, declared.1, declared.2]
    rfl
  refine ⟨plan, planned, shared, keeps, ?_, ?_⟩
  next => exact (keeps "x" (by simp [ports]) (by decide +kernel)).2
  next => exact (keeps "c" (by simp [ports]) (by decide +kernel)).2

theorem planSharing_disconnects_input :
    ∃ plan, (planSharing portedNet .empty none { ordering := .plain }).outcome = .ok plan ∧
      "x" ∈ plan.net.externalInputs ∧ "x" ∈ portedNet.blobNames ∧ plan.names.apply "x" = "b" ∧
      "x" ∉ plan.net.blobNames ∧ ¬ plan.KeepsPorts portedNet := by
  have ⟨plan, planned, seen⟩ := exists_ok_of_view (show
    (planSharing portedNet .empty none { ordering := .plain }).outcome.toOption.map
      (fun plan => (plan.net.externalInputs, plan.names.apply "x", plan.net.blobNames)) =
        some (["x"], "b", ["b", "c"]) by decide +kernel)
  have ⟨inputs, rest⟩ := Prod.mk.inj seen
  have ⟨name, operands⟩ := Prod.mk.inj rest
  have declared : "x" ∈ plan.net.externalInputs := by rw [inputs]; exact List.mem_cons_self
  have missing : "x" ∉ plan.net.blobNames := by rw [operands]; decide
  have operand : "x" ∈ portedNet.blobNames := by decide +kernel
  exact ⟨plan, planned, declared, operand, name, missing,
    fun keeps => missing (keeps "x" (List.mem_append_left _ declared) operand).2⟩

end StoragePlan
