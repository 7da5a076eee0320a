import Mathlib.Algebra.GroupWithZero.Nat
import StoragePlan.Proofs.Slot.Places
import StoragePlan.Slot.Footprint
import StoragePlan.Weight

set_option autoImplicit false

namespace StoragePlan

theorem total_eq_sum (ns : List Nat) : total ns = ns.sum := by
  induction ns with
  | nil => rfl
  | cons n rest ih => rw [total_cons, List.sum_cons, ih]

theorem total_perm {ns ms : List Nat} (perm : ns.Perm ms) : total ns = total ms := by
  rw [total_eq_sum, total_eq_sum, perm.sum_nat]

theorem total_flatten (groups : List (List Nat)) : total groups.flatten = total (groups.map total) := by
  rw [total_eq_sum, total_eq_sum, List.sum_flatten, funext total_eq_sum]

theorem total_eq_zero_iff {ns : List Nat} : total ns = 0 ↔ ∀ n ∈ ns, n = 0 := by
  rw [total_eq_sum, List.sum_eq_zero_iff_forall_eq_nat]

section Sums

variable {α : Type} {f g : α → Nat} {items : List α}

theorem total_map_le (below : ∀ item ∈ items, f item ≤ g item) :
    total (items.map f) ≤ total (items.map g) := by
  induction items with
  | nil => exact Nat.le_refl _
  | cons item rest ih =>
    have ⟨first, later⟩ := List.forall_mem_cons.mp below
    exact Nat.add_le_add first (ih later)

theorem total_map_eq_iff (below : ∀ item ∈ items, f item ≤ g item) :
    total (items.map f) = total (items.map g) ↔ ∀ item ∈ items, f item = g item := by
  induction items with
  | nil => simp
  | cons item rest ih =>
    have ⟨first, later⟩ := List.forall_mem_cons.mp below
    have least := total_map_le later
    rw [List.forall_mem_cons, ← ih later, List.map_cons, List.map_cons, total_cons, total_cons]
    omega

theorem weightOf_flatten (weight : α → Nat) (test : α → Bool) (groups : List (List α)) :
    weightOf weight test groups.flatten = total (groups.map (weightOf weight test)) := by
  rw [weightOf, List.filter_flatten, List.map_flatten, total_flatten, List.map_map, List.map_map]
  rfl

theorem weightOf_perm {items' : List α} (weight : α → Nat) (test : α → Bool) (perm : items.Perm items') :
    weightOf weight test items = weightOf weight test items' :=
  total_perm ((perm.filter test).map weight)

end Sums

-- A wrapping sum is the exact one as long as that fits.
theorem toNat_totalBytes (sizes : List UInt64) :
    (totalBytes sizes).toNat = total (sizes.map UInt64.toNat) % 2 ^ 64 := by
  induction sizes with
  | nil => rfl
  | cons size rest ih =>
    rw [totalBytes, UInt64.toNat_add, ih, List.map_cons, total_cons, Nat.add_mod_mod]

theorem totalBytes_perm {sizes sizes' : List UInt64} (perm : sizes.Perm sizes') :
    totalBytes sizes = totalBytes sizes' := by
  rw [← UInt64.toNat_inj, toNat_totalBytes, toNat_totalBytes, total_perm (perm.map _)]

section Totals

variable {τ : Type}

def ownBytes (slots : List (Slot τ)) : Nat := total (slots.flatten.map (·.bytes.toNat))

def slotBytes (slots : List (Slot τ)) : Nat := total (slots.map (·.bytes.toNat))

theorem Slot.bytes_le_total (slot : Slot τ) : slot.bytes.toNat ≤ total (slot.map (·.bytes.toNat)) := by
  induction slot with
  | nil => exact Nat.le_refl _
  | cons entry rest ih =>
    rw [toNat_bytes_cons, List.map_cons, total_cons]
    omega

theorem Slot.bytes_eq_total_iff {slot : Slot τ} :
    slot.bytes.toNat = total (slot.map (·.bytes.toNat)) ↔
      slot.countP (fun entry => entry.bytes ≠ 0) ≤ 1 := by
  induction slot with
  | nil => simp
  | cons entry rest ih =>
    have below := bytes_le_total rest
    rw [toNat_bytes_cons, List.map_cons, total_cons]
    by_cases empty : entry.bytes = 0
    next =>
      have nothing : entry.bytes.toNat = 0 := by rw [empty]; rfl
      rw [List.countP_cons_of_neg (by simp [empty]), ← ih]
      omega
    next =>
      have something : entry.bytes.toNat ≠ 0 := fun same => empty (UInt64.toNat_inj.mp same)
      have nothing : total (rest.map (·.bytes.toNat)) = 0 ↔
          rest.countP (fun entry => entry.bytes ≠ 0) = 0 := by
        simp [total_eq_zero_iff, List.countP_eq_zero, ← UInt64.toNat_inj]
      rw [List.countP_cons_of_pos (by simpa using empty)]
      omega

theorem slotBytes_le_ownBytes (slots : List (Slot τ)) : slotBytes slots ≤ ownBytes slots := by
  rw [slotBytes, ownBytes, List.map_flatten, total_flatten, List.map_map]
  exact total_map_le fun slot _ => slot.bytes_le_total

theorem slotBytes_eq_ownBytes_iff {slots : List (Slot τ)} :
    slotBytes slots = ownBytes slots ↔ ∀ slot ∈ slots, slot.countP (fun entry => entry.bytes ≠ 0) ≤ 1 := by
  rw [slotBytes, ownBytes, List.map_flatten, total_flatten, List.map_map]
  rw [total_map_eq_iff fun slot _ => slot.bytes_le_total]
  exact forall₂_congr fun slot _ => Slot.bytes_eq_total_iff

theorem toNat_baseline (slots : List (Slot τ)) :
    (footprint slots).baseline.toNat = ownBytes slots % 2 ^ 64 := by
  rw [footprint, toNat_totalBytes, List.map_map]
  rfl

theorem toNat_memoryUsage (slots : List (Slot τ)) :
    (memoryUsage slots).toNat = slotBytes slots % 2 ^ 64 := by
  rw [memoryUsage, toNat_totalBytes, List.map_map]
  rfl

theorem footprint_exact_iff {slots : List (Slot τ)} :
    ((footprint slots).baseline.toNat = ownBytes slots ∧
      (footprint slots).optimized.toNat = slotBytes slots) ↔ ownBytes slots < 2 ^ 64 := by
  have below := slotBytes_le_ownBytes slots
  rw [toNat_baseline, show (footprint slots).optimized = memoryUsage slots from rfl, toNat_memoryUsage]
  omega

theorem optimized_eq_baseline_of_alone {slots : List (Slot τ)} (alone : ∀ slot ∈ slots, slot.length = 1) :
    (footprint slots).optimized = (footprint slots).baseline := by
  have same : slotBytes slots = ownBytes slots := slotBytes_eq_ownBytes_iff.mpr fun slot member => by
    have few := List.countP_le_length (p := fun entry : Entry τ => entry.bytes ≠ 0) (l := slot)
    rwa [alone slot member] at few
  rw [← UInt64.toNat_inj, toNat_baseline, ← same]
  exact toNat_memoryUsage slots

variable {slots : List (Slot τ)} (fits : ownBytes slots < 2 ^ 64)

include fits

theorem optimized_le_baseline : (footprint slots).optimized ≤ (footprint slots).baseline := by
  obtain ⟨own, shared⟩ := footprint_exact_iff.mpr fits
  rw [UInt64.le_iff_toNat_le, own, shared]
  exact slotBytes_le_ownBytes slots

theorem optimized_eq_baseline_iff :
    (footprint slots).optimized = (footprint slots).baseline ↔
      ∀ slot ∈ slots, slot.countP (fun entry => entry.bytes ≠ 0) ≤ 1 := by
  obtain ⟨own, shared⟩ := footprint_exact_iff.mpr fits
  rw [← UInt64.toNat_inj, own, shared, slotBytes_eq_ownBytes_iff]

end Totals

section Live

variable {τ : Type} [LE τ] [DecidableLE τ] [LT τ] [DecidableLT τ]

def LiveRange.liveAt (range : LiveRange τ) (position : τ) : Bool :=
  range.defined.any (· ≤ position) && range.used.any (position ≤ ·)

variable [Std.IsLinearOrder τ] [Std.LawfulOrderLT τ]

theorem LiveRange.not_liveAt_both {a b : LiveRange τ} (before : a.before b = true) {position : τ}
    (first : a.liveAt position = true) : b.liveAt position = false := by
  obtain ⟨used, defined, ends, begins, less⟩ := before_iff.mp before
  simp only [liveAt, ends, begins, Option.any_some, Bool.and_eq_true, decide_eq_true_eq] at first ⊢
  have late : ¬ defined ≤ position := Std.not_le.mpr (Std.lt_of_le_of_lt first.2 less)
  simp [late]

theorem Slot.liveBytes_le {slot : Slot τ}
    (apart : slot.Pairwise fun a b => a.range.before b.range = true ∨ b.range.before b.range = true)
    (position : τ) :
    weightOf (·.bytes.toNat) (fun entry => entry.range.liveAt position) slot ≤ slot.bytes.toNat := by
  have live := apart.filter fun entry => entry.range.liveAt position
  unfold weightOf
  cases found : slot.filter fun entry => entry.range.liveAt position with
  | nil => exact Nat.zero_le _
  | cons entry rest =>
    have mem (other : Entry τ) (inside : other ∈ entry :: rest) :
        other ∈ slot ∧ other.range.liveAt position = true := List.mem_filter.mp (found ▸ inside)
    have ⟨here, holds⟩ := mem entry List.mem_cons_self
    rw [found] at live
    -- Another one would be live before the first one ends, or not at all.
    cases rest with
    | nil => simpa using le_bytes here
    | cons other rest =>
      have ⟨_, holds'⟩ := mem other (by simp)
      have never : other.range.liveAt position = false := by
        rcases (List.pairwise_cons.mp live).1 other List.mem_cons_self with later | empty
        next => exact LiveRange.not_liveAt_both later holds
        next => exact LiveRange.not_liveAt_both empty holds'
      rw [never] at holds'
      exact absurd holds' Bool.false_ne_true

theorem liveBytes_le_slotBytes [Clock τ] [Max τ] [Std.LawfulOrderMax τ] (table : LiveTable τ) (statics : Names)
    (position : τ) :
    weightOf (·.bytes.toNat) (fun entry => entry.range.liveAt position) (resolveEntries table.entries none) ≤
      slotBytes (assignSlots table statics) := by
  have dealt := assignSlots_dealt table statics
  have sorted := sortBy_pairwise byLastUse_total byLastUse_trans table.entries
  let live (entry : Entry τ) := entry.range.liveAt position
  calc weightOf (·.bytes.toNat) live (resolveEntries table.entries none)
    _ = weightOf (·.bytes.toNat) live (assignSlots table statics).flatten := by
      rw [resolveEntries_perm (.refl _)]
      exact weightOf_perm _ _ dealt.perm.symm
    _ = total ((assignSlots table statics).map (weightOf (·.bytes.toNat) live)) := weightOf_flatten _ _ _
    _ ≤ slotBytes (assignSlots table statics) := total_map_le fun slot member => by
      obtain ⟨entries, among, rfl⟩ := List.sublist_map_iff.mp (dealt.ordered slot member)
      exact Slot.liveBytes_le (pairwise_before_or_void (sorted.sublist among) (dealt.linked _ member)) position

end Live

theorem liveBytes_le_memoryUsage (table : LiveTable Int64) (statics : Names) (position : Int64)
    (fits : slotBytes (assignSlots table statics) < 2 ^ 64) :
    weightOf (·.bytes.toNat) (fun entry => entry.range.liveAt position) (resolveEntries table.entries none) ≤
        (memoryUsage (assignSlots table statics)).toNat ∧
      memoryUsage (assignSlots table statics) = (footprint (assignSlots table statics)).optimized := by
  refine ⟨?_, rfl⟩
  rw [toNat_memoryUsage, Nat.mod_eq_of_lt fits]
  exact liveBytes_le_slotBytes table statics position

-- "M" and "A" are live at 4, and the bound holds although the slot of "A" goes on with "B" and "C".
theorem liveBytes_le_memoryUsage_lastMoment :
    let slots := assignSlots lastMomentTable .empty
    let live (entry : Entry Int64) := entry.range.liveAt 4
    slotBytes slots < 2 ^ 64 ∧
      weightOf (·.bytes.toNat) live (resolveEntries lastMomentTable.entries none) = 2 ∧
      2 ≤ (memoryUsage slots).toNat := by
  intro slots live
  have fits : slotBytes slots < 2 ^ 64 := by decide +kernel
  have two : weightOf (·.bytes.toNat) live (resolveEntries lastMomentTable.entries none) = 2 := by
    decide +kernel
  have bound := (liveBytes_le_memoryUsage lastMomentTable .empty 4 fits).1
  exact ⟨fits, two, two ▸ bound⟩

end StoragePlan
