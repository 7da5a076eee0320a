import Mathlib.Algebra.GroupWithZero.Nat
import StoragePlan.Proofs.Live.Range
import StoragePlan.Proofs.Live.Words
import StoragePlan.Proofs.Relabel.Slot

set_option autoImplicit false

namespace StoragePlan

def LiveRange.toInt (range : LiveRange Int64) : LiveRange :=
  ⟨range.defined.map Int64.toInt, range.used.map Int64.toInt, range.size⟩

def Entry.toInt (entry : Entry Int64) : Entry := ⟨entry.blob, entry.range.toInt⟩

abbrev Slot.toInt (slot : Slot Int64) : Slot := slot.map Entry.toInt

@[simp] theorem Entry.blob_toInt (entry : Entry Int64) : entry.toInt.blob = entry.blob := rfl

@[simp] theorem Entry.range_toInt (entry : Entry Int64) : entry.toInt.range = entry.range.toInt := rfl

@[simp] theorem Entry.bytes_toInt (entry : Entry Int64) : entry.toInt.bytes = entry.bytes := rfl

theorem blobs_toInt (entries : List (Entry Int64)) :
    (entries.map Entry.toInt).map (·.blob) = entries.map (·.blob) := by
  simp

def LiveTable.toInt (table : LiveTable Int64) : LiveTable where
  entries := table.entries.map Entry.toInt
  nodup := by
    rw [blobs_toInt]
    exact table.nodup

section Placing

variable (statics : Names)

@[simp] theorem before_toInt (earlier later : LiveRange Int64) :
    earlier.toInt.before later.toInt = earlier.before later := by
  unfold LiveRange.before LiveRange.toInt
  cases earlier.used <;> cases later.defined <;> simp [Int64.lt_iff_toInt_lt]

theorem byLastUse_toInt (a b : Entry Int64) : byLastUse a.toInt b.toInt = byLastUse a b := by
  unfold byLastUse Entry.toInt LiveRange.toInt
  cases a.range.used <;> cases b.range.used <;> simp [Int64.le_iff_toInt_le]

theorem accepts_toInt (slot : Slot Int64) (candidate : LiveRange Int64) :
    slot.toInt.accepts statics candidate.toInt = slot.accepts statics candidate := by
  simp only [Slot.accepts, List.getLast?_map]
  cases slot.getLast? with
  | none => rfl
  | some last =>
    have defined : last.range.toInt.defined.isSome = last.range.defined.isSome := Option.isSome_map
    simp [defined]

theorem bytes_toInt (slot : Slot Int64) : slot.toInt.bytes = slot.bytes := by
  simp [Slot.bytes, Function.comp_def]

theorem nearestSlot?_toInt (slots : List (Slot Int64)) (entry : Entry Int64) :
    nearestSlot? statics (slots.map Slot.toInt) entry.toInt = nearestSlot? statics slots entry := by
  simp [nearestSlot?, List.zipIdx_map, List.filter_map, firstLeast_map, Function.comp_def, bytes_toInt,
    accepts_toInt]

theorem place_toInt (slots : List (Slot Int64)) (entry : Entry Int64) :
    place statics (slots.map Slot.toInt) entry.toInt = (place statics slots entry).map Slot.toInt := by
  simp only [place, nearestSlot?_toInt]
  cases nearestSlot? statics slots entry with
  | none => simp
  | some index => exact modify_map (fun slot => by simp) slots index

theorem placeAll_toInt (slots : List (Slot Int64)) (entries : List (Entry Int64)) :
    placeAll statics (slots.map Slot.toInt) (entries.map Entry.toInt) =
      (placeAll statics slots entries).map Slot.toInt := by
  have taken : (slots.map Slot.toInt).flatMap (fun slot => slot.map (·.blob)) =
      slots.flatMap fun slot => slot.map (·.blob) := by
    simp only [List.flatMap_map, blobs_toInt]
  simp only [placeAll, taken, List.filter_map, Function.comp_def, Entry.blob_toInt, List.foldl_map]
  exact List.foldl_hom _ (place_toInt statics)

end Placing

section Ends

def Early (entries : List (Entry Int64)) : Prop :=
  ∀ entry ∈ entries, entry.range.used ≠ some Int64.maxValue

variable {entries : List (Entry Int64)}

theorem endOfUse_toInt (early : Early entries) :
    endOfUse (entries.map Entry.toInt) = (endOfUse entries).toInt := by
  have uses : (entries.map Entry.toInt).filterMap (·.range.used) =
      (entries.filterMap (·.range.used)).map Int64.toInt := by
    simp [List.filterMap_map, List.map_filterMap, Function.comp_def, Entry.toInt, LiveRange.toInt]
  unfold endOfUse
  rw [uses]
  cases found : (entries.filterMap (·.range.used)).max? with
  | none =>
    rw [List.max?_eq_none_iff.mp found]
    rfl
  | some last =>
    obtain ⟨attained, bound⟩ := List.max?_eq_some_iff.mp found
    obtain ⟨entry, inside, used⟩ := List.mem_filterMap.mp attained
    have greatest : ((entries.filterMap (·.range.used)).map Int64.toInt).max? = some last.toInt :=
      List.max?_eq_some_iff.mpr ⟨List.mem_map_of_mem attained, List.forall_mem_map.mpr fun other among =>
        Int64.le_iff_toInt_le.mp (bound other among)⟩
    have before : last ≠ Int64.maxValue := fun same => early entry inside (same ▸ used)
    simp [greatest, toInt_next before]

theorem resolve_toInt (range : LiveRange Int64) (lastUse : Int64) :
    range.toInt.resolve lastUse.toInt = (range.resolve lastUse).toInt := by
  have entry : (Clock.entry : Int) = (Clock.entry : Int64).toInt := rfl
  simp only [LiveRange.resolve, LiveRange.toInt, Option.map_some, Option.getD_map, entry]

theorem resolveEntries_toInt (early : Early entries) :
    resolveEntries (entries.map Entry.toInt) none = (resolveEntries entries none).map Entry.toInt := by
  simp only [resolveEntries, Option.getD_none, endOfUse_toInt early, List.map_map, Function.comp_def,
    Entry.range_toInt, resolve_toInt]
  rfl

theorem assignSlots_toInt {table : LiveTable Int64} (early : Early table.entries) (statics : Names) :
    assignSlots table.toInt statics = (assignSlots table statics).map Slot.toInt := by
  have sorted : sortBy byLastUse (table.entries.map Entry.toInt) =
      (sortBy byLastUse table.entries).map Entry.toInt :=
    sortBy_map byLastUse_toInt table.entries
  have early' : Early (sortBy byLastUse table.entries) :=
    fun entry inside => early entry ((mem_sortBy byLastUse).mp inside)
  simp only [assignSlots, LiveTable.toInt, sorted, resolveEntries_toInt early',
    List.partition_eq_filter_filter, List.filter_map, Function.comp_def, Entry.blob_toInt, List.map_append,
    List.map_map, ← placeAll_toInt]
  rfl

end Ends

section Recording

variable {sizes : Option Sizes}

theorem toInt_max (a b : Int64) : (max a b).toInt = max a.toInt b.toInt := by
  rw [max_int64]
  split
  next below => exact (Int.max_eq_right (Int64.le_iff_toInt_le.mp below)).symm
  next above =>
    rw [Int64.le_iff_toInt_le] at above
    omega

theorem toInt_min (a b : Int64) : (min a b).toInt = min a.toInt b.toInt := by
  rw [show min a b = if a ≤ b then a else b from rfl]
  split
  next below => exact (Int.min_eq_left (Int64.le_iff_toInt_le.mp below)).symm
  next above =>
    rw [Int64.le_iff_toInt_le] at above
    omega

theorem touch_toInt (range : LiveRange Int64) {access : Access} (short : access.position < 2 ^ 63)
    (size : Option UInt64) : range.toInt.touch access size = (range.touch access size).toInt := by
  have here : (Clock.position access.position : Int) = (Clock.position access.position : Int64).toInt :=
    (Int64.toInt_ofNat_of_lt short).symm
  unfold LiveRange.touch LiveRange.toInt
  rw [here]
  cases access.kind with
  | read => cases range.used <;> simp [toInt_max]
  | write => cases range.defined <;> simp [toInt_min]

theorem updateEntry_toInt {blob : String} {change : LiveRange Int64 → LiveRange Int64}
    {change' : LiveRange → LiveRange} (same : ∀ range, change' range.toInt = (change range).toInt)
    (entries : List (Entry Int64)) :
    updateEntry blob change' (entries.map Entry.toInt) = (updateEntry blob change entries).map Entry.toInt := by
  induction entries with
  | nil =>
    have fresh := same .unknown
    simp only [updateEntry, List.map_nil, List.map_cons, Entry.toInt, ← fresh]
    rfl
  | cons entry rest ih =>
    simp only [List.map_cons, updateEntry, Entry.blob_toInt, ih]
    split
    next =>
      have changed := same entry.range
      simp only [List.map_cons, Entry.toInt, ← changed]
    next => rfl

theorem record_toInt (table : LiveTable Int64) {access : Access} (short : access.position < 2 ^ 63) :
    table.toInt.record sizes access = (table.record sizes access).map LiveTable.toInt := by
  rw [LiveTable.record, LiveTable.record]
  cases sizeOf? sizes access.blob with
  | error error => rfl
  | ok size =>
    have updated := @updateEntry_toInt access.blob (·.touch access size) (·.touch access size)
      (fun range => touch_toInt range short size) table.entries
    simp [LiveTable.update, LiveTable.toInt, updated, pure, Except.pure, Except.map]

theorem position_lt {ops : List Op} {access : Access} (inside : access ∈ accesses ops) :
    access.position < ops.length := by
  obtain ⟨op, here, -⟩ := mem_accesses.mp inside
  exact (List.getElem?_eq_some_iff.mp here).1

theorem ofOps_toInt (sizes : Option Sizes) {ops : List Op} (short : ops.length < 2 ^ 63) :
    (LiveTable.ofOps sizes ops : Except PlanError LiveTable) =
      (LiveTable.ofOps sizes ops).map LiveTable.toInt := by
  rw [LiveTable.ofOps_eq, LiveTable.ofOps_eq]
  exact foldlM_map (fun table access inside =>
    record_toInt table (Nat.lt_trans (position_lt inside) short)) LiveTable.empty

theorem early_of_ofOps {ops : List Op} (short : ops.length < 2 ^ 63) {table : LiveTable Int64}
    (computed : LiveTable.ofOps sizes ops = .ok table) : Early table.entries := by
  intro entry inside used
  have viewed : LiveTable.ofOps sizes ops = .ok table.toInt := by
    rw [ofOps_toInt sizes short, computed]
    rfl
  have covers := (LiveTable.covers_ofOps viewed).ranges entry.blob entry.range.toInt
    (LiveTable.get?_iff.mpr (List.mem_map_of_mem inside))
  have last : entry.range.toInt.used = some Int64.maxValue.toInt := by simp [LiveRange.toInt, used]
  obtain ⟨position, same, access⟩ := covers.used _ last
  have bound := position_lt access
  rw [Int64.toInt_maxValue] at same
  simp only at bound
  omega

theorem assignSlots_in_words (sizes : Option Sizes) {ops : List Op} (short : ops.length < 2 ^ 63)
    (statics : Names) :
    (LiveTable.ofOps sizes ops).map (fun table : LiveTable => assignSlots table statics) =
      (LiveTable.ofOps sizes ops).map fun table : LiveTable Int64 =>
        (assignSlots table statics).map Slot.toInt := by
  rw [ofOps_toInt sizes short]
  cases computed : (LiveTable.ofOps sizes ops : Except PlanError (LiveTable Int64)) with
  | error error => rfl
  | ok table => exact congrArg Except.ok (assignSlots_toInt (early_of_ofOps short computed) statics)

end Recording

end StoragePlan
