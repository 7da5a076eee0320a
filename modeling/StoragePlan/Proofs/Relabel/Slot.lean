import Mathlib.Data.List.Nodup
import StoragePlan.Proofs.Live.Index
import StoragePlan.Proofs.Relabel.Graph
import StoragePlan.Slot.Footprint

set_option autoImplicit false

namespace StoragePlan

section Relabel

variable (ρ : String → String)

def Access.relabel (access : Access) : Access := { access with blob := ρ access.blob }

def Entry.relabel (entry : Entry) : Entry := { entry with blob := ρ entry.blob }

abbrev Slot.relabel (slot : Slot) : Slot := slot.map (Entry.relabel ρ)

@[simp] theorem Entry.blob_relabel (entry : Entry) : (entry.relabel ρ).blob = ρ entry.blob := rfl

@[simp] theorem Entry.range_relabel (entry : Entry) : (entry.relabel ρ).range = entry.range := rfl

@[simp] theorem Entry.bytes_relabel (entry : Entry) : (entry.relabel ρ).bytes = entry.bytes := rfl

theorem blobs_relabel (entries : List Entry) :
    (entries.map (Entry.relabel ρ)).map (·.blob) = (entries.map (·.blob)).map ρ := by
  simp

end Relabel

section Injective

variable {ρ : String → String} (injective : Function.Injective ρ)

def LiveTable.relabel (table : LiveTable) : LiveTable where
  entries := table.entries.map (Entry.relabel ρ)
  nodup := by
    rw [blobs_relabel]
    exact table.nodup.map injective

theorem accesses_relabel (ops : List Op) :
    accesses (ops.map (Op.relabel ρ)) = (accesses ops).map (Access.relabel ρ) := by
  simp [accesses, List.zipIdx_map, List.flatMap_map, List.map_flatMap, Op.relabel, Access.relabel,
    Function.comp_def]

include injective

theorem updateEntry_relabel (blob : String) (change : LiveRange → LiveRange) (entries : List Entry) :
    updateEntry (ρ blob) change (entries.map (Entry.relabel ρ)) =
      (updateEntry blob change entries).map (Entry.relabel ρ) := by
  induction entries with
  | nil => rfl
  | cons entry rest ih =>
    simp only [List.map_cons, updateEntry, Entry.blob_relabel, injective.eq_iff, ih]
    split
    next => rfl
    next => rfl

theorem LiveTable.update_relabel (table : LiveTable) (blob : String) (change : LiveRange → LiveRange) :
    (table.relabel injective).update (ρ blob) change = (table.update blob change).relabel injective := by
  simp only [update, relabel, updateEntry_relabel injective]

theorem LiveTable.record_relabel {sizes sizes' : Option Sizes}
    (sized : sizes = sizes'.map fun known blob => known (ρ blob)) (table : LiveTable) (access : Access) :
    record sizes' (table.relabel injective) (access.relabel ρ) =
      relabelOutcome ρ (LiveTable.relabel injective) (record sizes table access) := by
  have known : sizeOf? sizes' (ρ access.blob) = relabelOutcome ρ id (sizeOf? sizes access.blob) := by
    rw [sized]
    cases sizes' with
    | none => rfl
    | some known => cases size : known (ρ access.blob) <;> simp [sizeOf?, size, PlanError.relabel]
  exact relabelOutcome_bind known fun size _ =>
    congrArg Except.ok (update_relabel injective table access.blob (·.touch access size))

theorem LiveTable.ofOps_relabel {sizes sizes' : Option Sizes}
    (sized : sizes = sizes'.map fun known blob => known (ρ blob)) (ops : List Op) :
    ofOps sizes' (ops.map (Op.relabel ρ)) =
      relabelOutcome ρ (LiveTable.relabel injective) (ofOps sizes ops) := by
  rw [ofOps_eq, ofOps_eq, accesses_relabel]
  exact relabelOutcome_foldlM (record_relabel injective sized) _ LiveTable.empty

end Injective

section Sorting

variable {α β : Type} {f : α → β} {before : α → α → Bool} {before' : β → β → Bool}

theorem insertSorted_map (same : ∀ a b, before' (f a) (f b) = before a b) (item : α) (items : List α) :
    insertSorted before' (f item) (items.map f) = (insertSorted before item items).map f := by
  induction items with
  | nil => rfl
  | cons head rest ih =>
    simp only [List.map_cons, insertSorted, same, ih]
    split
    next => rfl
    next => rfl

theorem sortBy_map (same : ∀ a b, before' (f a) (f b) = before a b) (items : List α) :
    sortBy before' (items.map f) = (sortBy before items).map f := by
  induction items with
  | nil => rfl
  | cons item rest ih => exact (congrArg _ ih).trans (insertSorted_map same item _)

end Sorting

theorem firstLeast_map {α β : Type} (f : α → β) (key : β → Nat) (items : List α) :
    firstLeast key (items.map f) = (firstLeast (fun item => key (f item)) items).map f := by
  induction items with
  | nil => rfl
  | cons item rest ih =>
    simp only [List.map_cons, firstLeast, ih]
    cases firstLeast (fun item => key (f item)) rest with
    | none => rfl
    | some other =>
      simp only [Option.map_some]
      split
      next => rfl
      next => rfl

section Slots

variable {ρ : String → String}

theorem resolveEntries_relabel (entries : List Entry) (lastUse : Option Int) :
    resolveEntries (entries.map (Entry.relabel ρ)) lastUse =
      (resolveEntries entries lastUse).map (Entry.relabel ρ) := by
  simp [resolveEntries, endOfUse, List.filterMap_map, Function.comp_def, Entry.relabel]

@[simp] theorem Slot.bytes_relabel (slot : Slot) : (slot.relabel ρ).bytes = slot.bytes := by
  simp [Slot.bytes, Function.comp_def]

theorem footprint_relabel (slots : List Slot) :
    footprint (slots.map (Slot.relabel ρ)) = footprint slots := by
  simp [footprint, memoryUsage, ← List.map_flatten, Function.comp_def]

theorem sharedSlots_relabel (slots : List Slot) :
    sharedSlots (slots.map (Slot.relabel ρ)) = (sharedSlots slots).map (Slot.relabel ρ) := by
  simp [sharedSlots, List.filter_map, Function.comp_def]

variable (injective : Function.Injective ρ)

include injective

theorem Names.contains_relabel (names : Names) (name : String) :
    (names.relabel ρ).contains (ρ name) = names.contains name := by
  simp [contains, mem_relabel, injective.eq_iff]

theorem Slot.accepts_relabel (statics : Names) (slot : Slot) (candidate : LiveRange) :
    (slot.relabel ρ).accepts (statics.relabel ρ) candidate = slot.accepts statics candidate := by
  simp only [Slot.accepts, List.getLast?_map]
  cases slot.getLast? with
  | none => rfl
  | some last => simp [Names.contains_relabel injective]

theorem nearestSlot?_relabel (statics : Names) (slots : List Slot) (entry : Entry) :
    nearestSlot? (statics.relabel ρ) (slots.map (Slot.relabel ρ)) (entry.relabel ρ) =
      nearestSlot? statics slots entry := by
  simp [nearestSlot?, List.zipIdx_map, List.filter_map, firstLeast_map, Function.comp_def,
    Slot.accepts_relabel injective]

theorem place_relabel (statics : Names) (slots : List Slot) (entry : Entry) :
    place (statics.relabel ρ) (slots.map (Slot.relabel ρ)) (entry.relabel ρ) =
      (place statics slots entry).map (Slot.relabel ρ) := by
  simp only [place, nearestSlot?_relabel injective]
  cases nearestSlot? statics slots entry with
  | none => simp
  | some index => exact modify_map (fun slot => by simp) slots index

theorem placeAll_relabel (statics : Names) (slots : List Slot) (entries : List Entry) :
    placeAll (statics.relabel ρ) (slots.map (Slot.relabel ρ)) (entries.map (Entry.relabel ρ)) =
      (placeAll statics slots entries).map (Slot.relabel ρ) := by
  have taken : (slots.map (Slot.relabel ρ)).flatMap (fun slot => slot.map (·.blob)) =
      (slots.flatMap fun slot => slot.map (·.blob)).map ρ := by
    simp only [List.flatMap_map, List.map_flatMap, blobs_relabel]
  simp only [placeAll, taken, List.filter_map, Function.comp_def, Entry.blob_relabel, contains_map injective,
    List.foldl_map]
  exact List.foldl_hom _ (place_relabel injective statics)

theorem assignSlots_relabel (table : LiveTable) (statics : Names) :
    assignSlots (table.relabel injective) (statics.relabel ρ) =
      (assignSlots table statics).map (Slot.relabel ρ) := by
  have sorted : sortBy byLastUse (table.entries.map (Entry.relabel ρ)) =
      (sortBy byLastUse table.entries).map (Entry.relabel ρ) :=
    sortBy_map (fun _ _ => rfl) table.entries
  simp only [assignSlots, LiveTable.relabel, sorted, resolveEntries_relabel, List.partition_eq_filter_filter,
    List.filter_map, Function.comp_def, Entry.blob_relabel, Names.contains_relabel injective, List.map_append,
    List.map_map, ← placeAll_relabel injective]
  rfl

end Slots

end StoragePlan
