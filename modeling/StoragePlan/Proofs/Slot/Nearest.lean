import Mathlib.Data.Prod.Lex
import Mathlib.Order.Bounds.Basic
import StoragePlan.Proofs.Ascending
import StoragePlan.Proofs.Slot.Naming
import StoragePlan.Slot.Basic

set_option autoImplicit false

namespace StoragePlan

section Least

variable {α : Type} {key : α → Nat} {items : List α}

theorem firstLeast_eq_none_iff : firstLeast key items = none ↔ items = [] := by
  cases items with
  | nil => simp [firstLeast]
  | cons head rest =>
    simp only [firstLeast, reduceCtorEq, iff_false]
    cases firstLeast key rest with
    | none => simp
    | some other => by_cases less : key other < key head <;> simp [less]

theorem mem_of_firstLeast {item : α} (found : firstLeast key items = some item) : item ∈ items := by
  induction items with
  | nil => simp [firstLeast] at found
  | cons head rest ih =>
    simp only [firstLeast] at found
    split at found
    next => exact Option.some.inj found ▸ List.mem_cons_self
    next other least =>
      split at found
      next =>
        obtain rfl := Option.some.inj found
        exact List.mem_cons_of_mem _ (ih least)
      next => exact Option.some.inj found ▸ List.mem_cons_self

theorem firstLeast_le {place : α → Nat} (ordered : items.Pairwise fun a b => place a < place b) {item : α}
    (found : firstLeast key items = some item) :
    ∀ other ∈ items, toLex (key item, place item) ≤ toLex (key other, place other) := by
  simp only [Prod.Lex.toLex_le_toLex]
  induction items generalizing item with
  | nil => simp [firstLeast] at found
  | cons head rest ih =>
    obtain ⟨first, ordered⟩ := List.pairwise_cons.mp ordered
    simp only [firstLeast] at found
    split at found
    next nothing =>
      obtain rfl := Option.some.inj found
      simp [firstLeast_eq_none_iff.mp nothing]
    next least later =>
      have below := ih ordered later
      split at found
      next less =>
        obtain rfl := Option.some.inj found
        exact List.forall_mem_cons.mpr ⟨.inl less, below⟩
      next notLess =>
        obtain rfl := Option.some.inj found
        refine List.forall_mem_cons.mpr ⟨.inr ⟨rfl, Nat.le_refl _⟩, fun other inside => ?_⟩
        have order := first other inside
        have bound := below other inside
        omega

end Least

section Before

variable {τ : Type} [LT τ]

def LiveRange.EndsBefore (earlier later : LiveRange τ) : Prop :=
  ∃ used defined, earlier.used = some used ∧ later.defined = some defined ∧ used < defined

variable [DecidableLT τ]

theorem LiveRange.before_iff {earlier later : LiveRange τ} :
    earlier.before later = true ↔ earlier.EndsBefore later := by
  unfold before EndsBefore
  cases earlier.used <;> cases later.defined <;> simp

theorem Slot.accepts_iff {statics : Names} {slot : Slot τ} {candidate : LiveRange τ} :
    slot.accepts statics candidate = true ↔ ∃ last, slot.getLast? = some last ∧
      last.blob ∉ statics.toList ∧ last.range.defined.isSome ∧ last.range.EndsBefore candidate := by
  unfold accepts
  cases slot.getLast? with
  | none => simp
  | some last => simp [Names.contains, LiveRange.before_iff, and_assoc]

end Before

theorem toNat_max (a b : UInt64) : (max a b).toNat = max a.toNat b.toNat := by
  rw [show max a b = if a ≤ b then b else a from rfl]
  split
  next below => exact (Nat.max_eq_right (UInt64.le_iff_toNat_le.mp below)).symm
  next above =>
    rw [UInt64.le_iff_toNat_le] at above
    omega

theorem toNat_sizeGap (a b : UInt64) : (sizeGap a b).toNat = ((a.toNat : Int) - b.toNat).natAbs := by
  unfold sizeGap
  split
  next below =>
    rw [UInt64.toNat_sub_of_le _ _ below]
    have := UInt64.le_iff_toNat_le.mp below
    omega
  next above =>
    rw [UInt64.le_iff_toNat_le] at above
    rw [UInt64.toNat_sub_of_le _ _ (UInt64.le_iff_toNat_le.mpr (Nat.le_of_not_le above))]
    omega

namespace Slot

variable {τ : Type} {slot : Slot τ}

@[simp] theorem bytes_nil : bytes ([] : Slot τ) = 0 := rfl

@[simp] theorem bytes_cons (entry : Entry τ) (slot : Slot τ) :
    bytes (entry :: slot) = max entry.bytes slot.bytes := rfl

theorem toNat_bytes_cons (entry : Entry τ) (slot : Slot τ) :
    (bytes (entry :: slot)).toNat = max entry.bytes.toNat slot.bytes.toNat := by
  rw [bytes_cons, toNat_max]

theorem le_bytes {entry : Entry τ} (inside : entry ∈ slot) : entry.bytes.toNat ≤ slot.bytes.toNat := by
  induction slot with
  | nil => simp at inside
  | cons head rest ih =>
    rw [toNat_bytes_cons]
    rcases List.mem_cons.mp inside with rfl | inside
    next => exact Nat.le_max_left _ _
    next => exact Nat.le_trans (ih inside) (Nat.le_max_right _ _)

theorem exists_bytes_eq (filled : slot ≠ []) : ∃ entry ∈ slot, entry.bytes.toNat = slot.bytes.toNat := by
  induction slot with
  | nil => exact absurd rfl filled
  | cons entry rest ih =>
    rw [toNat_bytes_cons]
    cases rest with
    | nil => exact ⟨entry, List.mem_cons_self, by simp⟩
    | cons next rest =>
      rcases Nat.le_total entry.bytes.toNat (bytes (next :: rest)).toNat with less | more
      next =>
        obtain ⟨largest, inside, same⟩ := ih (by simp)
        exact ⟨largest, List.mem_cons_of_mem _ inside, by rw [same, Nat.max_eq_right less]⟩
      next => exact ⟨entry, List.mem_cons_self, by rw [Nat.max_eq_left more]⟩

theorem isGreatest_bytes (filled : slot ≠ []) :
    IsGreatest {size | ∃ entry ∈ slot, entry.bytes.toNat = size} slot.bytes.toNat := by
  refine ⟨exists_bytes_eq filled, fun size sized => ?_⟩
  obtain ⟨entry, inside, rfl⟩ := sized
  exact le_bytes inside

end Slot

section Candidates

variable {τ : Type} [LT τ] [DecidableLT τ] {statics : Names} {slots : List (Slot τ)} {entry : Entry τ}
  {number gap : Nat}

def FitsAt (statics : Names) (slots : List (Slot τ)) (entry : Entry τ) (number gap : Nat) : Prop :=
  ∃ slot largest, slots[number]? = some slot ∧ slot.accepts statics entry.range = true ∧
    IsGreatest {size | ∃ member ∈ slot, member.bytes.toNat = size} largest ∧
    gap = ((largest : Int) - entry.bytes.toNat).natAbs

/-- The slot may take the entry, and no other one that may is nearer, or as near and in front. -/
def FitsBest (statics : Names) (slots : List (Slot τ)) (entry : Entry τ) (number : Nat) : Prop :=
  ∃ gap, FitsAt statics slots entry number gap ∧ ∀ number' gap', FitsAt statics slots entry number' gap' →
    toLex (gap, number) ≤ toLex (gap', number')

theorem fitsAt_iff : FitsAt statics slots entry number gap ↔
    ∃ slot, slots[number]? = some slot ∧ slot.accepts statics entry.range = true ∧
      gap = (sizeGap slot.bytes entry.bytes).toNat := by
  have greatest {slot : Slot τ} (accepted : slot.accepts statics entry.range = true) :
      IsGreatest {size | ∃ member ∈ slot, member.bytes.toNat = size} slot.bytes.toNat := by
    obtain ⟨last, final, -⟩ := Slot.accepts_iff.mp accepted
    exact Slot.isGreatest_bytes (List.ne_nil_of_mem (List.mem_of_getLast? final))
  constructor
  next =>
    rintro ⟨slot, largest, here, accepted, largest_eq, rfl⟩
    rw [largest_eq.unique (greatest accepted), ← toNat_sizeGap]
    exact ⟨slot, here, accepted, rfl⟩
  next =>
    rintro ⟨slot, here, accepted, rfl⟩
    exact ⟨slot, slot.bytes.toNat, here, accepted, greatest accepted, toNat_sizeGap _ _⟩

theorem nearestSlot?_eq_none_iff : nearestSlot? statics slots entry = none ↔
    ∀ slot ∈ slots, slot.accepts statics entry.range = false := by
  rw [nearestSlot?, Option.map_eq_none_iff, firstLeast_eq_none_iff, List.filter_eq_nil_iff]
  constructor
  next =>
    intro nobody slot member
    obtain ⟨number, here⟩ := List.mem_iff_getElem?.mp member
    simpa using nobody (slot, number) (List.mem_zipIdx_iff_getElem?.mpr here)
  next =>
    intro nobody numbered inside
    have member := List.mem_of_getElem? (List.mem_zipIdx_iff_getElem?.mp inside)
    simp [nobody numbered.1 member]

theorem fitsBest_of_nearestSlot (found : nearestSlot? statics slots entry = some number) :
    FitsBest statics slots entry number := by
  obtain ⟨⟨slot, _⟩, least, rfl⟩ := Option.map_eq_some_iff.mp found
  have numbers := (pairwise_zipIdx slots).filter fun numbered => numbered.1.accepts statics entry.range
  obtain ⟨inside, accepted⟩ := List.mem_filter.mp (mem_of_firstLeast least)
  have here := List.mem_zipIdx_iff_getElem?.mp inside
  refine ⟨_, fitsAt_iff.mpr ⟨slot, here, accepted, rfl⟩, fun number' gap' fits => ?_⟩
  obtain ⟨slot', here', accepted', rfl⟩ := fitsAt_iff.mp fits
  exact firstLeast_le numbers least (slot', number')
    (List.mem_filter.mpr ⟨List.mem_zipIdx_iff_getElem?.mpr here', accepted'⟩)

theorem place_cases (statics : Names) (slots : List (Slot τ)) (entry : Entry τ) :
    (∃ number, FitsBest statics slots entry number ∧
      place statics slots entry = slots.modify number (· ++ [entry])) ∨
    (∀ slot ∈ slots, slot.accepts statics entry.range = false) ∧
      place statics slots entry = slots ++ [[entry]] := by
  unfold place
  cases found : nearestSlot? statics slots entry with
  | none => exact .inr ⟨nearestSlot?_eq_none_iff.mp found, rfl⟩
  | some number => exact .inl ⟨number, fitsBest_of_nearestSlot found, rfl⟩

end Candidates

section Run

variable {τ : Type} [LT τ] [DecidableLT τ] {start : List (Slot τ)}

def newcomers {τ : Type} (slots : List (Slot τ)) (entries : List (Entry τ)) : List (Entry τ) :=
  entries.filter fun entry => entry.blob ∉ slots.flatMap Slot.blobs

theorem placeAll_eq (statics : Names) (start : List (Slot τ)) (entries : List (Entry τ)) :
    placeAll statics start entries = (newcomers start entries).foldl (place statics) start := by
  have same : newcomers start entries =
      entries.filter fun entry => !(start.flatMap Slot.blobs).contains entry.blob :=
    List.filter_congr fun entry _ => by rw [List.contains_eq_mem, decide_not]
  rw [same]
  rfl

theorem placeAll_append (statics : Names) (start : List (Slot τ)) (front rest : List (Entry τ)) :
    placeAll statics start (front ++ rest) =
      (newcomers start rest).foldl (place statics) (placeAll statics start front) := by
  rw [placeAll_eq, placeAll_eq, newcomers, List.filter_append, List.foldl_append]
  rfl

theorem placeAll_fits_best (statics : Names) (front rest : List (Entry τ)) {entry : Entry τ}
    (new : ∀ slot ∈ start, entry.blob ∉ slot.blobs) :
    let before := placeAll statics start front
    let after := placeAll statics start (front ++ [entry])
    placeAll statics start (front ++ entry :: rest) = (newcomers start rest).foldl (place statics) after ∧
    (after = before ++ [[entry]] ↔ ∀ slot ∈ before, slot.accepts statics entry.range = false) ∧
    ((∃ slot ∈ before, slot.accepts statics entry.range = true) → ∃ number,
      FitsBest statics before entry number ∧ after = before.modify number (· ++ [entry])) := by
  intro before after
  have fresh : newcomers start [entry] = [entry] := by simpa [newcomers] using new
  have step : after = place statics before entry := by
    rw [show after = _ from placeAll_append statics start front [entry], fresh]
    rfl
  refine ⟨?run, ?_⟩
  case run => rw [List.append_cons, placeAll_append]
  rcases place_cases statics before entry with ⟨number, fits, placed⟩ | ⟨nobody, placed⟩
  next =>
    rw [step, placed]
    have ⟨_, ⟨slot, _, here, accepted, _⟩, _⟩ := fits
    refine ⟨iff_of_false (fun same => ?_) fun nobody => ?_, fun _ => ⟨number, fits, rfl⟩⟩
    next => simpa using congrArg List.length same
    next => simpa [accepted] using nobody slot (List.mem_of_getElem? here)
  next =>
    rw [step, placed]
    refine ⟨iff_of_true rfl nobody, fun somebody => ?_⟩
    obtain ⟨slot, member, accepted⟩ := somebody
    simp [nobody slot member] at accepted

-- The slots of "six" and "two" are equally near; that of "wide" is nearer, but in use.
theorem placeAll_fits_best_tie :
    let entry (blob : String) (defined used : Int64) (size : UInt64) : Entry Int64 :=
      ⟨blob, ⟨some defined, some used, some size⟩⟩
    let start : List (Slot Int64) := [[entry "wide" 0 9 4], [entry "six" 0 0 6], [entry "two" 0 0 2]]
    let four := entry "four" 1 2 4
    let before := placeAll .empty start [entry "two" 0 0 2]
    let after := placeAll .empty start ([entry "two" 0 0 2] ++ [four])
    (∀ slot ∈ start, four.blob ∉ slot.blobs) ∧
      (∃ slot ∈ before, slot.accepts .empty four.range = true) ∧
      (∃ number, FitsBest .empty before four number ∧ after = before.modify number (· ++ [four])) ∧
      after = before.modify 1 (· ++ [four]) := by
  intro entry start four before after
  have new : ∀ slot ∈ start, four.blob ∉ slot.blobs := by decide
  have somebody : ∃ slot ∈ before, slot.accepts .empty four.range = true := by decide
  have placed := placeAll_fits_best .empty [entry "two" 0 0 2] [] new
  exact ⟨new, somebody, placed.2.2 somebody, by decide⟩

end Run

end StoragePlan
