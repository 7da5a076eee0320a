import Mathlib.Data.List.Nodup
import Mathlib.Data.List.Pairwise
import StoragePlan.Proofs.Ascending
import StoragePlan.Slot.Naming

set_option autoImplicit false

namespace StoragePlan

theorem sharedName_inj {scope : String} {i j : Nat} (same : sharedName scope i = sharedName scope j) :
    i = j := by
  simp only [sharedName, String.append_left_inj, String.append_right_inj] at same
  have digits := congrArg (fun digits => Nat.ofDigitChars 10 digits.toList 0) same
  simpa [Nat.ofDigitChars_toDigits] using digits

def Slot.blobs {τ : Type} (slot : Slot τ) : List String := slot.map (·.blob)

theorem apply_canonicalNames (naming : Naming) (slots : List Slot) (blob : String) :
    (∃ (index : Nat) (slot : Slot), (sharedSlots slots)[index]? = some slot ∧ blob ∈ slot.blobs ∧
      (canonicalNames naming slots).apply blob = naming.nameOf slot index) ∨
    (∀ slot ∈ sharedSlots slots, blob ∉ slot.blobs) ∧ (canonicalNames naming slots).apply blob = blob := by
  cases found : (canonicalNames naming slots).get? blob with
  | some name =>
    left
    obtain ⟨⟨slot, index⟩, numbered, inside⟩ := List.mem_flatMap.mp (Table.mem_of_get?_ofList found)
    obtain ⟨entry, member, same⟩ := List.mem_map.mp inside
    obtain ⟨rfl, rfl⟩ := Prod.mk.inj same
    exact ⟨index, slot, List.mem_zipIdx_iff_getElem?.mp numbered, List.mem_map_of_mem member,
      by simp [Renaming.apply, found]⟩
  | none =>
    right
    refine ⟨fun slot shared inside => ?_, by simp [Renaming.apply, found]⟩
    obtain ⟨entry, member, same⟩ := List.mem_map.mp inside
    obtain ⟨index, here⟩ := List.mem_iff_getElem?.mp shared
    refine Table.get?_ofList_eq_none.mp found (entry.blob, naming.nameOf slot index) ?_ same
    exact List.mem_flatMap.mpr
      ⟨(slot, index), List.mem_zipIdx_iff_getElem?.mpr here, List.mem_map_of_mem member⟩

theorem slot_eq_of_blob {slots : List Slot} (nodup : (slots.flatten.map (·.blob)).Nodup)
    {slot other : Slot} (member : slot ∈ slots) (member' : other ∈ slots) {blob : String}
    (inside : blob ∈ slot.blobs) (inside' : blob ∈ other.blobs) : slot = other := by
  rw [List.map_flatten, List.nodup_flatten, List.pairwise_map] at nodup
  have apart : slots.Pairwise fun a b => a.blobs.Disjoint b.blobs := nodup.2
  have symm : Std.Symm fun a b : Slot => a.blobs.Disjoint b.blobs :=
    ⟨fun _ _ apart _ inside inside' => apart inside' inside⟩
  by_contra different
  exact apart.forall member member' different inside inside'

theorem mem_sharedSlots {slots : List Slot} {slot : Slot} :
    slot ∈ sharedSlots slots ↔ slot ∈ slots ∧ 1 < slot.length := by
  simp [sharedSlots]

theorem blobs_of_few {slot : Slot} {blob : String} (few : ¬ 1 < slot.length)
    (inside : blob ∈ slot.blobs) : slot.blobs = [blob] := by
  have filled := List.length_pos_of_mem inside
  rw [Slot.blobs, List.length_map] at filled
  have single : slot.blobs.length = 1 := by
    rw [Slot.blobs, List.length_map]
    omega
  obtain ⟨only, alone⟩ := List.length_eq_one_iff.mp single
  rw [alone, List.mem_singleton] at inside
  rw [alone, inside]

theorem blobs_ne_singleton {slot : Slot} {blob : String} (several : 1 < slot.length) :
    slot.blobs ≠ [blob] := by
  intro alone
  have single := congrArg List.length alone
  rw [Slot.blobs, List.length_map, List.length_singleton] at single
  omega

theorem last_mem_blobs {slot : Slot} (shared : 1 < slot.length) (index : Nat) :
    Naming.lastMember.nameOf slot index ∈ slot.blobs := by
  cases last : slot.getLast? with
  | none => simp [List.getLast?_eq_none_iff.mp last] at shared
  | some entry =>
    simp only [Naming.nameOf, last, Option.map_some, Option.getD_some]
    exact List.mem_map_of_mem (List.mem_of_getLast? last)

section Names

variable {naming : Naming} {slots : List Slot} (nodup : (slots.flatten.map (·.blob)).Nodup)

include nodup

theorem index_of_blob {i j : Nat} {slot other : Slot} (here : (sharedSlots slots)[i]? = some slot)
    (there : (sharedSlots slots)[j]? = some other) {blob : String} (inside : blob ∈ slot.blobs)
    (inside' : blob ∈ other.blobs) : i = j := by
  have apart : (sharedSlots slots).Pairwise fun a b => a.blobs.Disjoint b.blobs := by
    rw [List.map_flatten, List.nodup_flatten, List.pairwise_map] at nodup
    exact nodup.2.filter _
  obtain ⟨bound, rfl⟩ := List.getElem?_eq_some_iff.mp here
  obtain ⟨bound', rfl⟩ := List.getElem?_eq_some_iff.mp there
  rcases Nat.lt_trichotomy i j with less | same | more
  next => exact (List.pairwise_iff_getElem.mp apart i j bound bound' less inside inside').elim
  next => exact same
  next => exact (List.pairwise_iff_getElem.mp apart j i bound' bound more inside' inside).elim

theorem apply_of_shared {index : Nat} {slot : Slot} (here : (sharedSlots slots)[index]? = some slot)
    {blob : String} (inside : blob ∈ slot.blobs) :
    (canonicalNames naming slots).apply blob = naming.nameOf slot index := by
  rcases apply_canonicalNames naming slots blob with ⟨i, other, there, inside', name⟩ | ⟨alone, -⟩
  next =>
    obtain rfl : index = i := index_of_blob nodup here there inside inside'
    obtain rfl : slot = other := Option.some.inj (here.symm.trans there)
    exact name
  next => exact absurd inside (alone slot (List.mem_of_getElem? here))

theorem apply_of_alone {slot : Slot} (member : slot ∈ slots) {blob : String}
    (alone : slot.blobs = [blob]) : (canonicalNames naming slots).apply blob = blob := by
  rcases apply_canonicalNames naming slots blob with ⟨index, other, there, inside, -⟩ | ⟨-, same⟩
  next =>
    have ⟨member', several⟩ := mem_sharedSlots.mp (List.mem_of_getElem? there)
    have here : blob ∈ slot.blobs := alone ▸ List.mem_singleton_self blob
    obtain rfl := slot_eq_of_blob nodup member member' here inside
    exact absurd alone (blobs_ne_singleton several)
  next => exact same

theorem same_name_of_together {slot : Slot} (member : slot ∈ slots) {a b : String}
    (first : a ∈ slot.blobs) (second : b ∈ slot.blobs) :
    (canonicalNames naming slots).apply a = (canonicalNames naming slots).apply b := by
  by_cases several : 1 < slot.length
  next =>
    obtain ⟨index, here⟩ := List.mem_iff_getElem?.mp (mem_sharedSlots.mpr ⟨member, several⟩)
    rw [apply_of_shared nodup here first, apply_of_shared nodup here second]
  next =>
    rw [blobs_of_few several first, List.mem_singleton] at second
    rw [second]

-- A numbered name could be the name of a blob that shares nothing.
theorem together_of_same_name {a b : String}
    (fresh : ∀ scope, naming = .scoped scope → ∀ index < (sharedSlots slots).length, ∀ blob ∈ [a, b],
      (∀ slot ∈ sharedSlots slots, blob ∉ slot.blobs) → sharedName (normalizeScope scope) index ≠ blob)
    (same : (canonicalNames naming slots).apply a = (canonicalNames naming slots).apply b) :
    a = b ∨ ∃ slot ∈ slots, a ∈ slot.blobs ∧ b ∈ slot.blobs := by
  rcases apply_canonicalNames naming slots a with ⟨i, slot, here, inside, name⟩ | ⟨alone, name⟩
  all_goals
    rcases apply_canonicalNames naming slots b with ⟨j, slot', there, inside', name'⟩ | ⟨alone', name'⟩
  all_goals rw [name, name'] at same
  next =>
    right
    have ⟨member, several⟩ := mem_sharedSlots.mp (List.mem_of_getElem? here)
    have ⟨member', several'⟩ := mem_sharedSlots.mp (List.mem_of_getElem? there)
    cases naming with
    | lastMember =>
      -- Both slots have the blob that names them.
      obtain rfl := slot_eq_of_blob nodup member member' (last_mem_blobs several i)
        (same ▸ last_mem_blobs several' j)
      exact ⟨slot, member, inside, inside'⟩
    | «scoped» scope =>
      obtain rfl : i = j := sharedName_inj same
      obtain rfl : slot = slot' := Option.some.inj (here.symm.trans there)
      exact ⟨slot, member, inside, inside'⟩
  next =>
    right
    have ⟨member, several⟩ := mem_sharedSlots.mp (List.mem_of_getElem? here)
    cases naming with
    | lastMember => exact ⟨slot, member, inside, same ▸ last_mem_blobs several i⟩
    | «scoped» scope =>
      have bound := (List.getElem?_eq_some_iff.mp here).1
      exact absurd same (fresh scope rfl i bound b (by simp) alone')
  next =>
    right
    have ⟨member, several⟩ := mem_sharedSlots.mp (List.mem_of_getElem? there)
    cases naming with
    | lastMember => exact ⟨slot', member, same ▸ last_mem_blobs several j, inside'⟩
    | «scoped» scope =>
      have bound := (List.getElem?_eq_some_iff.mp there).1
      exact absurd same.symm (fresh scope rfl j bound a (by simp) alone)
  next => exact .inl same

theorem exists_captured {scope : String} {index : Nat} (bound : index < (sharedSlots slots).length)
    {slot : Slot} (member : slot ∈ slots) (alone : slot.blobs = [sharedName (normalizeScope scope) index]) :
    ∃ other ∈ slots, ∃ blob ∈ other.blobs, other ≠ slot ∧
      (canonicalNames (.scoped scope) slots).apply blob =
        (canonicalNames (.scoped scope) slots).apply (sharedName (normalizeScope scope) index) := by
  have here := List.getElem?_eq_getElem bound
  have ⟨member', several⟩ := mem_sharedSlots.mp (List.getElem_mem bound)
  generalize (sharedSlots slots)[index] = shared at here member' several
  have last := last_mem_blobs several index
  refine ⟨shared, member', _, last, ?apart, ?same⟩
  case apart =>
    rintro rfl
    exact blobs_ne_singleton several alone
  case same => rw [apply_of_shared nodup here last, apply_of_alone nodup member alone, Naming.nameOf]

theorem together_of_unnamed {a b : String} (placed : ∃ slot ∈ slots, a ∈ slot.blobs)
    (placed' : ∃ slot ∈ slots, b ∈ slot.blobs)
    (unnamed : ∀ scope, naming = .scoped scope → ∀ index < (sharedSlots slots).length, ∀ slot ∈ slots,
      slot.blobs ≠ [sharedName (normalizeScope scope) index])
    (same : (canonicalNames naming slots).apply a = (canonicalNames naming slots).apply b) :
    ∃ slot ∈ slots, a ∈ slot.blobs ∧ b ∈ slot.blobs := by
  have fresh (scope : String) (numbered : naming = .scoped scope) (index : Nat)
      (bound : index < (sharedSlots slots).length) (blob : String) (either : blob ∈ [a, b])
      (unshared : ∀ slot ∈ sharedSlots slots, blob ∉ slot.blobs) :
      sharedName (normalizeScope scope) index ≠ blob := by
    intro equal
    have somewhere : ∃ slot ∈ slots, blob ∈ slot.blobs := by
      rcases List.mem_pair.mp either with rfl | rfl
      next => exact placed
      next => exact placed'
    obtain ⟨slot, member, inside⟩ := somewhere
    have few : ¬ 1 < slot.length := fun several =>
      unshared slot (mem_sharedSlots.mpr ⟨member, several⟩) inside
    rw [← equal] at inside
    exact unnamed scope numbered index bound slot member (blobs_of_few few inside)
  cases together_of_same_name nodup fresh same with
  | inl equal =>
    subst equal
    exact placed.imp fun slot inside => ⟨inside.1, inside.2, inside.2⟩
  | inr together => exact together

theorem names_tell_slots_iff :
    (∀ a b, (∃ slot ∈ slots, a ∈ slot.blobs) → (∃ slot ∈ slots, b ∈ slot.blobs) →
      ((canonicalNames naming slots).apply a = (canonicalNames naming slots).apply b ↔
        ∃ slot ∈ slots, a ∈ slot.blobs ∧ b ∈ slot.blobs)) ↔
    ∀ scope, naming = .scoped scope → ∀ index < (sharedSlots slots).length, ∀ slot ∈ slots,
      slot.blobs ≠ [sharedName (normalizeScope scope) index] := by
  constructor
  next =>
    intro told scope numbered index bound slot member alone
    subst numbered
    obtain ⟨other, among, blob, inside, apart, same⟩ := exists_captured nodup bound member alone
    have named := List.mem_singleton_self (sharedName (normalizeScope scope) index)
    rw [← alone] at named
    obtain ⟨both, placed, here, there⟩ :=
      (told _ _ ⟨other, among, inside⟩ ⟨slot, member, named⟩).mp same
    apply apart
    rw [slot_eq_of_blob nodup among placed inside here, slot_eq_of_blob nodup member placed named there]
  next =>
    intro unnamed a b placed placed'
    constructor
    next => exact together_of_unnamed nodup placed placed' unnamed
    next =>
      intro together
      obtain ⟨slot, member, first, second⟩ := together
      exact same_name_of_together nodup member first second

end Names

end StoragePlan
