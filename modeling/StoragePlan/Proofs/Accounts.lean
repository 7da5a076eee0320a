import StoragePlan.Proofs.Interference
import StoragePlan.Proofs.Slot.Footprint

set_option autoImplicit false

namespace StoragePlan

def LiveTable.SizedBy (table : LiveTable) (sizes : Sizes) : Prop :=
  ∀ blob range, table.get? blob = some range → ∃ size, sizes blob = some size ∧ range.size = some size

theorem sizeOf?_eq_ok {sizes : Sizes} {blob : String} {size : Option UInt64}
    (found : sizeOf? (some sizes) blob = .ok size) : ∃ bytes, sizes blob = some bytes ∧ size = some bytes := by
  cases given : sizes blob with
  | none => simp [sizeOf?, given] at found
  | some bytes =>
    simp only [sizeOf?, given, Except.ok.injEq] at found
    exact ⟨bytes, rfl, found.symm⟩

section Tables

variable {table : LiveTable} {sizes : Sizes}

theorem LiveTable.sizedBy_ofOps {ops : List Op} (computed : LiveTable.ofOps (some sizes) ops = .ok table) :
    table.SizedBy sizes := fun blob range known =>
  sizeOf?_eq_ok (LiveTable.size_ofOps computed blob range known)

theorem Assigned.size_of_mem {statics : Names} {slots : List Slot} {slot : Slot}
    (assigned : Assigned table statics slots) (sized : table.SizedBy sizes) (member : slot ∈ slots)
    {entry : Entry} (inside : entry ∈ slot) : sizes entry.blob = some entry.bytes := by
  obtain ⟨range, known, resolved⟩ := assigned.range_of_mem member inside
  obtain ⟨size, given, recorded⟩ := sized entry.blob range known
  simp [given, Entry.bytes, resolved, LiveRange.resolve, recorded]

end Tables

theorem mapM_eq_ok_map {α β ε : Type} {f : α → Except ε β} {g : α → β} {items : List α}
    (each : ∀ item ∈ items, f item = .ok (g item)) : items.mapM f = .ok (items.map g) := by
  induction items with
  | nil => rfl
  | cons item rest ih =>
    have ⟨first, later⟩ := List.forall_mem_cons.mp each
    rw [List.mapM_cons, first, ok_bind, ih later]
    rfl

theorem eraseDups_of_nodup {α : Type} [BEq α] [LawfulBEq α] {items : List α} (nodup : items.Nodup) :
    items.eraseDups = items := by
  induction items with
  | nil => rfl
  | cons item rest ih =>
    have ⟨fresh, later⟩ := List.nodup_cons.mp nodup
    have others : rest.filter (fun other => !other == item) = rest :=
      List.filter_eq_self.mpr fun other inside => by
        simpa using fun same : other = item => fresh (same ▸ inside)
    rw [List.eraseDups_cons, others, ih later]

theorem requireSize_of_size {sizes : Sizes} {blob : String} {size : UInt64} (given : sizes blob = some size) :
    requireSize sizes blob = .ok (blob, size) := by
  simp [requireSize, given]

theorem footprintBy_eq {sizes : Sizes} {slots : List Slot} (nodup : (slots.flatten.map (·.blob)).Nodup)
    (sized : ∀ slot ∈ slots, ∀ entry ∈ slot, sizes entry.blob = some entry.bytes) :
    footprintBy sizes slots = .ok (footprint slots) := by
  let pair (entry : Entry) : String × UInt64 := (entry.blob, entry.bytes)
  have found : slots.mapM (fun slot => slot.mapM fun entry => requireSize sizes entry.blob) =
      .ok (slots.map fun slot => slot.map pair) :=
    mapM_eq_ok_map fun slot member => mapM_eq_ok_map fun entry inside =>
      requireSize_of_size (sized slot member entry inside)
  -- No blob stands twice in the slots, so none is left out of the sum.
  have distinct : (slots.map fun slot => slot.map pair).flatten.eraseDups = slots.flatten.map pair := by
    rw [← List.map_flatten]
    refine eraseDups_of_nodup (List.Nodup.of_map Prod.fst ?_)
    rwa [List.map_map]
  rw [footprintBy, found, ok_bind, distinct]
  simp only [List.map_map, Function.comp_def]
  rfl

section Plans

variable {net : Net} {statics : Names} {sizes : Option Sizes} {settings : Settings} {plan : Plan}

theorem footprint_of_outcome (planned : (planSharing net statics sizes settings).outcome = .ok plan) :
    plan.footprint = footprint plan.slots := by
  simp only [planSharing, Journal.outcome_bind, Journal.outcome_emit, Journal.outcome_ofExcept,
    Journal.outcome_pure, Except.ok.injEq] at planned
  obtain ⟨-, -, -, -, -, -, -, -, -, -, -, -, -, -, -, -, -, -, -, -, -, -, -, -, -, -, rfl⟩ := planned
  rfl

theorem Planned.blobs_perm {graph : Graph} {ops : List Op} {table : LiveTable}
    (planned : Planned net statics sizes settings plan graph ops table) :
    (plan.slots.flatten.map (·.blob)).Perm net.blobNames := by
  have distinct : net.blobNames.Nodup := Graph.nodup_eraseDups _
  refine (List.perm_ext_iff_of_nodup planned.assigned.nodup distinct).mpr fun blob => ?_
  rw [planned.placed_iff, List.map_flatten, List.mem_flatten]
  simp [Slot.blobs]

variable {sizes : Sizes}

theorem Planned.sizes_perm {graph : Graph} {ops : List Op} {table : LiveTable}
    (planned : Planned net statics (some sizes) settings plan graph ops table) :
    ∃ sized, net.blobSizes sizes = .ok sized ∧
      (plan.slots.flatten.map Entry.bytes).Perm (sized.map (·.2)) := by
  have sized := LiveTable.sizedBy_ofOps planned.computed
  let size (blob : String) : UInt64 := (sizes blob).getD 0
  have known (entry : Entry) (inside : entry ∈ plan.slots.flatten) : sizes entry.blob = some entry.bytes := by
    obtain ⟨slot, member, here⟩ := List.mem_flatten.mp inside
    exact planned.assigned.size_of_mem sized member here
  refine ⟨net.blobNames.map fun blob => (blob, size blob), mapM_eq_ok_map fun blob named => ?_, ?_⟩
  next =>
    obtain ⟨entry, inside, rfl⟩ := List.mem_map.mp (planned.blobs_perm.mem_iff.mpr named)
    simp [requireSize, size, known entry inside]
  next =>
    have recorded : plan.slots.flatten.map Entry.bytes = (plan.slots.flatten.map (·.blob)).map size := by
      rw [List.map_map]
      refine List.map_congr_left fun entry inside => ?_
      simp [size, known entry inside]
    have listed : (net.blobNames.map fun blob => (blob, size blob)).map (·.2) = net.blobNames.map size := by
      rw [List.map_map]
      rfl
    rw [recorded, listed]
    exact planned.blobs_perm.map size

theorem baseline_of_outcome (planned : (planSharing net statics (some sizes) settings).outcome = .ok plan) :
    ∃ sized, net.blobSizes sizes = .ok sized ∧ plan.footprint.baseline = totalBytes (sized.map (·.2)) ∧
      ownBytes plan.slots = total (sized.map (·.2.toNat)) := by
  have same := footprint_of_outcome planned
  obtain ⟨graph, ops, table, planned⟩ := planned_of_outcome planned
  obtain ⟨sized, collected, perm⟩ := planned.sizes_perm
  refine ⟨sized, collected, ?_, ?_⟩
  next =>
    rw [same]
    exact totalBytes_perm perm
  next =>
    have totals := total_perm (perm.map UInt64.toNat)
    rw [List.map_map, List.map_map] at totals
    exact totals

structure Plan.Accounted (plan : Plan) (net : Net) (sizes : Sizes) : Prop where
  collected : ∃ sized, net.blobSizes sizes = .ok sized ∧
    plan.footprint.baseline = totalBytes (sized.map (·.2)) ∧
    ownBytes plan.slots = total (sized.map (·.2.toNat))
  unchanged : ∀ statics' settings' plan',
    (planSharing net statics' (some sizes) settings').outcome = .ok plan' →
      plan'.footprint.baseline = plan.footprint.baseline
  recorded : ∀ slot ∈ plan.slots, ∀ entry ∈ slot, sizes entry.blob = some entry.bytes
  lookedUp : footprintBy sizes plan.slots = .ok plan.footprint
  unwrapped : ownBytes plan.slots < 2 ^ 64 → plan.footprint.baseline.toNat = ownBytes plan.slots
  least : ownBytes plan.slots < 2 ^ 64 → plan.footprint.optimized ≤ plan.footprint.baseline
  same_iff : ownBytes plan.slots < 2 ^ 64 → (plan.footprint.optimized = plan.footprint.baseline ↔
    ∀ slot ∈ plan.slots, slot.countP (fun entry => entry.bytes ≠ 0) ≤ 1)

theorem planSharing_accounts (planned : (planSharing net statics (some sizes) settings).outcome = .ok plan) :
    plan.Accounted net sizes := by
  obtain ⟨sized, collected, baseline, own⟩ := baseline_of_outcome planned
  have same := footprint_of_outcome planned
  obtain ⟨graph, ops, table, planned⟩ := planned_of_outcome planned
  have recorded (slot : Slot) (member : slot ∈ plan.slots) (entry : Entry) (inside : entry ∈ slot) :
      sizes entry.blob = some entry.bytes :=
    planned.assigned.size_of_mem (LiveTable.sizedBy_ofOps planned.computed) member inside
  refine ⟨⟨sized, collected, baseline, own⟩, fun statics' settings' plan' planned' => ?unchanged,
    recorded, ?lookedUp, fun fits => ?unwrapped, fun fits => ?least, fun fits => ?exactly⟩
  case unchanged =>
    obtain ⟨sized', collected', baseline', -⟩ := baseline_of_outcome planned'
    obtain rfl := Except.ok.inj (collected.symm.trans collected')
    rw [baseline, baseline']
  case lookedUp =>
    rw [same]
    exact footprintBy_eq planned.assigned.nodup recorded
  case unwrapped =>
    rw [same]
    exact (footprint_exact_iff.mpr fits).1
  case least =>
    rw [same]
    exact optimized_le_baseline fits
  case exactly =>
    rw [same]
    exact optimized_eq_baseline_iff fits

end Plans

theorem planSharing_accounts_chain :
    let net := (Net.named "chain").withOps
      [⟨"A", ["x"], ["a"], []⟩, ⟨"B", ["a"], ["b"], []⟩, ⟨"C", ["b"], ["c"], []⟩]
    let sizes : Sizes := fun blob => some (if blob = "b" then 4 else 2)
    ∃ plan, (planSharing net .empty (some sizes) { ordering := .plain }).outcome = .ok plan ∧
      plan.footprint = ⟨10, 6⟩ ∧ footprintBy sizes plan.slots = .ok ⟨10, 6⟩ ∧
      ∃ sized, net.blobSizes sizes = .ok sized ∧ totalBytes (sized.map (·.2)) = 10 := by
  intro net sizes
  obtain ⟨plan, outcome, evaluated⟩ := exists_ok_of_view (show
    (planSharing net .empty (some sizes) { ordering := .plain }).outcome.toOption.map (·.footprint) =
      some ⟨10, 6⟩ by decide +kernel)
  have accounts := planSharing_accounts outcome
  obtain ⟨sized, collected, baseline, -⟩ := accounts.collected
  have lookedUp := accounts.lookedUp
  rw [evaluated] at baseline lookedUp
  exact ⟨plan, outcome, evaluated, lookedUp, sized, collected, baseline.symm⟩

end StoragePlan
