import StoragePlan.Proofs.Live.Words
import StoragePlan.Proofs.Slot.Assign

set_option autoImplicit false

namespace StoragePlan

section Positions

variable {τ : Type}

def entryAt (slots : List (Slot τ)) (number position : Nat) : Option (Entry τ) :=
  slots[number]?.bind (·[position]?)

theorem entryAt_eq_some {slots : List (Slot τ)} {number position : Nat} {entry : Entry τ} :
    entryAt slots number position = some entry ↔
      ∃ slot, slots[number]? = some slot ∧ slot[position]? = some entry := by
  simp [entryAt, Option.bind_eq_some_iff]

theorem slot_of_entryAt {slots : List (Slot τ)} {number position position' : Nat} {entry other : Entry τ}
    (first : entryAt slots number position = some entry)
    (second : entryAt slots number position' = some other) :
    ∃ slot, slots[number]? = some slot ∧ slot[position]? = some entry ∧ slot[position']? = some other := by
  obtain ⟨slot, here, inside⟩ := entryAt_eq_some.mp first
  obtain ⟨slot', here', inside'⟩ := entryAt_eq_some.mp second
  obtain rfl := Option.some.inj (here.symm.trans here')
  exact ⟨slot, here, inside, inside'⟩

variable [Clock τ] [Max τ] [LE τ] [DecidableLE τ] [LT τ] [DecidableLT τ]

end Positions

/-- A moment past the last use is only needed, and there is none past the last one of all. -/
def LiveTable.NothingPast (table : LiveTable Int64) : Prop :=
  ∀ entry ∈ table.entries, ∀ unread ∈ table.entries, unread.range.used = none →
    entry.range.used ≠ some Int64.maxValue

theorem LiveTable.NothingPast.endsLast {table : LiveTable Int64} (nothingPast : table.NothingPast) :
    table.EndsLast := by
  intro entry inside unread there missing used known
  have member : used ∈ table.entries.filterMap (·.range.used) :=
    List.mem_filterMap.mpr ⟨entry, inside, known⟩
  unfold endOfUse
  split
  next nothing =>
    rw [List.max?_eq_none_iff] at nothing
    simp [nothing] at member
  next last greatest =>
    obtain ⟨attained, bound⟩ := List.max?_eq_some_iff.mp greatest
    obtain ⟨longest, among, longest_used⟩ := List.mem_filterMap.mp attained
    have before : last ≠ Int64.maxValue := by
      rintro rfl
      exact nothingPast longest among unread there missing longest_used
    exact Std.le_trans (bound used member) (le_next before)

/-- The end of use comes out as the first moment of all, so "C" follows on "B" although "A" is still in
use. -/
def lastMomentTable : LiveTable Int64 where
  entries := [⟨"M", ⟨some 0, some Int64.maxValue, none⟩⟩, ⟨"A", ⟨some 0, some 5, none⟩⟩,
    ⟨"B", ⟨some 10, none, none⟩⟩, ⟨"C", ⟨some 3, none, none⟩⟩]
  nodup := by decide

end StoragePlan
