import StoragePlan.Proofs.Outcome
import StoragePlan.Proofs.Relabel.Order
import StoragePlan.Proofs.Relabel.Slot

set_option autoImplicit false

namespace StoragePlan

def Renaming.relabel (ρ : String → String) (names : Renaming) : Renaming :=
  .ofList (names.entries.map (Prod.map ρ ρ))

theorem Naming.nameOf_relabel (ρ : String → String) {slot : Slot} (nonempty : slot ≠ []) (index : Nat) :
    Naming.lastMember.nameOf (slot.relabel ρ) index = ρ (Naming.lastMember.nameOf slot index) := by
  have last := List.getLast?_eq_some_getLast nonempty
  simp [nameOf, last]

section Names

variable {ρ : String → String} (injective : Function.Injective ρ)

include injective

theorem lookup_map (entries : List (String × String)) (blob : String) :
    (entries.map (Prod.map ρ ρ)).lookup (ρ blob) = (entries.lookup blob).map ρ := by
  induction entries with
  | nil => rfl
  | cons entry rest ih =>
    obtain ⟨key, name⟩ := entry
    by_cases same : blob = key
    next => simp [same]
    next => simp [List.lookup_cons, same, ih, injective.eq_iff, beq_eq_false_iff_ne.mpr]

theorem get?_ofList_map (entries : List (String × String)) (blob : String) :
    (Table.ofList (entries.map (Prod.map ρ ρ))).get? (ρ blob) =
      ((Table.ofList entries).get? blob).map ρ := by
  simp only [Table.ofList, Table.get?_putAll, Table.get?_empty, Option.or_none, ← List.map_reverse,
    lookup_map injective]

theorem Renaming.get?_relabel (names : Renaming) (blob : String) :
    (names.relabel ρ).get? (ρ blob) = (names.get? blob).map ρ := by
  rw [relabel, get?_ofList_map injective, Table.ofList_entries]

theorem Renaming.apply_relabel (names : Renaming) (blob : String) :
    (names.relabel ρ).apply (ρ blob) = ρ (names.apply blob) := by
  rw [apply, get?_relabel injective, apply]
  cases names.get? blob with
  | none => rfl
  | some name => rfl

theorem Renaming.relabel_ofList (entries : List (String × String)) :
    Renaming.relabel ρ (Table.ofList entries) = Table.ofList (entries.map (Prod.map ρ ρ)) := by
  refine Table.ext_get? fun name => ?_
  by_cases image : ∃ blob, ρ blob = name
  next =>
    obtain ⟨blob, rfl⟩ := image
    rw [get?_relabel injective, get?_ofList_map injective]
  next =>
    have absent (entries : List (String × String)) :
        (Table.ofList (entries.map (Prod.map ρ ρ))).get? name = none := by
      refine Table.get?_ofList_eq_none.mpr fun entry inside same => ?_
      obtain ⟨entry, -, rfl⟩ := List.mem_map.mp inside
      exact image ⟨entry.1, same⟩
    rw [relabel, absent, absent]

theorem canonicalNames_relabel (slots : List Slot) :
    canonicalNames .lastMember (slots.map (Slot.relabel ρ)) =
      (canonicalNames .lastMember slots).relabel ρ := by
  rw [canonicalNames, canonicalNames, Renaming.relabel_ofList injective, sharedSlots_relabel]
  simp only [List.zipIdx_map, List.flatMap_map, List.map_flatMap]
  congr 2
  funext numbered
  obtain ⟨slot, index⟩ := numbered
  simp only [Prod.map, id, List.map_map]
  refine List.map_congr_left fun entry inside => ?_
  exact Prod.ext rfl (Naming.nameOf_relabel ρ (List.ne_nil_of_mem inside) _)

theorem Op.relabel_apply (names : Renaming) (op : Op) :
    (op.relabel ρ).relabel (names.relabel ρ).apply = (op.relabel names.apply).relabel ρ := by
  simp [relabel, Renaming.apply_relabel injective]

theorem Net.rename_relabel {net : Net} (plain : ∀ op ∈ net.ops, op.isRecurrent = false)
    (names : Renaming) : ((net.relabel ρ).rename (names.relabel ρ)).outcome =
      relabelOutcome ρ (Net.relabel ρ) (net.rename names).outcome := by
  have plain' : ∀ op ∈ (net.relabel ρ).ops, op.isRecurrent = false := fun op inside => by
    obtain ⟨original, member, rfl⟩ := List.mem_map.mp inside
    exact plain original member
  rw [rename_plain plain, rename_plain plain']
  simp [relabel, Op.relabel_apply injective]

end Names

def Plan.relabel (ρ : String → String) (plan : Plan) : Plan where
  net := plan.net.relabel ρ
  slots := plan.slots.map (Slot.relabel ρ)
  names := plan.names.relabel ρ
  footprint := plan.footprint
  order := plan.order

theorem planSharing_relabel {ρ : String → String} (injective : Function.Injective ρ) {net : Net}
    (plain : ∀ op ∈ net.ops, op.isRecurrent = false) (statics : Names) {sizes sizes' : Option Sizes}
    (sized : sizes = sizes'.map fun known blob => known (ρ blob)) {settings : Settings}
    (unscoped : settings.namescope = none) :
    (planSharing (net.relabel ρ) (statics.relabel ρ) sizes' settings).outcome =
      relabelOutcome ρ (Plan.relabel ρ) (planSharing net statics sizes settings).outcome := by
  have naming : settings.naming = .lastMember := by rw [Settings.naming, unscoped]
  rw [outcome_planSharing, outcome_planSharing, naming]
  refine relabelOutcome_bind (Graph.ofOps_relabel injective net.ops) fun graph _ => ?_
  refine relabelOutcome_bind (Graph.linearize_relabel ρ graph settings.ordering) fun order _ => ?_
  refine relabelOutcome_bind (reorderOps_relabel ρ net.ops order) fun line brought => ?_
  refine relabelOutcome_bind (LiveTable.ofOps_relabel injective sized line) fun table _ => ?_
  have plainLine : ∀ op ∈ line, op.isRecurrent = false := fun op inside =>
    plain op (mem_of_reorderOps brought inside)
  simp only [assignSlots_relabel injective, canonicalNames_relabel injective, footprint_relabel]
  exact relabelOutcome_bind (@Net.rename_relabel ρ injective { net with ops := line } plainLine _)
    fun renamed _ => rfl

theorem planSharing_relabel_chain :
    let ρ (blob : String) : String := "replica/" ++ blob
    let net := (Net.named "chain").withOps
      [⟨"A", ["x"], ["a"], []⟩, ⟨"B", ["a"], ["b"], []⟩, ⟨"C", ["b"], ["c"], []⟩]
    let statics := Names.ofList ["c"]
    let sizes : Sizes := fun blob => some (.ofNat blob.length)
    let sizes' : Sizes := fun name => some (.ofNat (name.length - 8))
    let settings : Settings := { ordering := .plain }
    ∃ plan, (planSharing net statics (some sizes) settings).outcome = .ok plan ∧
      plan.names.apply "x" = "b" ∧
      (planSharing (net.relabel ρ) (statics.relabel ρ) (some sizes') settings).outcome =
        .ok (plan.relabel ρ) ∧
      (plan.relabel ρ).names.apply "replica/x" = "replica/b" := by
  intro ρ net statics sizes sizes' settings
  obtain ⟨plan, outcome, evaluated⟩ := exists_ok_of_view (show
    (planSharing net statics (some sizes) settings).outcome.toOption.map (·.names.apply "x") =
      some "b" by decide +kernel)
  have injective : Function.Injective ρ := fun _ _ same => (String.append_right_inj "replica/").mp same
  have plain : ∀ op ∈ net.ops, op.isRecurrent = false := by
    simp [net, Net.withOps, Op.isRecurrent, isRecurrentType, List.isPrefixOf]
  have longer (blob : String) : (ρ blob).length - 8 = blob.length := by
    rw [String.length_append, show "replica/".length = 8 by rfl, Nat.add_sub_cancel_left]
  have sized : some sizes = (some sizes').map fun known blob => known (ρ blob) := by
    simp [sizes, sizes', longer]
  have unscoped : settings.namescope = none := rfl
  have relabelled := planSharing_relabel injective plain statics sized unscoped
  rw [outcome, relabelOutcome_ok] at relabelled
  have applied := Renaming.apply_relabel injective plan.names "x"
  rw [evaluated] at applied
  exact ⟨plan, outcome, evaluated, relabelled, applied⟩

end StoragePlan
