import StoragePlan.Proofs.Slot.Nearest
import StoragePlan.Proofs.Slot.Overlap

set_option autoImplicit false

namespace StoragePlan

namespace Slot

variable {τ : Type} [LT τ]

structure Continues (statics : Names) (base slot : Slot τ) : Prop where
  kept : base <+: slot
  linked : ∀ position earlier later, base.length ≤ position + 1 → slot[position]? = some earlier →
    slot[position + 1]? = some later → earlier.blob ∉ statics.toList ∧ earlier.range.EndsBefore later.range

variable {statics : Names} {base slot : Slot τ} {entry : Entry τ}

theorem Continues.refl (statics : Names) (slot : Slot τ) : slot.Continues statics slot where
  kept := List.prefix_refl slot
  linked position earlier later behind _ second := by
    have bound := (List.getElem?_eq_some_iff.mp second).1
    omega

theorem Continues.single (statics : Names) (entry : Entry τ) : Continues statics [] [entry] where
  kept := List.nil_prefix
  linked position earlier later _ _ second := by simp at second

variable [DecidableLT τ]

theorem Continues.concat (continues : Continues statics base slot)
    (accepted : slot.accepts statics entry.range = true) :
    Continues statics base (slot ++ [entry]) := by
  refine ⟨continues.kept.trans (List.prefix_append slot [entry]), ?_⟩
  intro position earlier later behind first second
  have bound := (List.getElem?_eq_some_iff.mp second).1
  rw [List.length_append, List.length_singleton] at bound
  rw [List.getElem?_append_left (by omega)] at first
  by_cases old : position + 1 < slot.length
  next =>
    rw [List.getElem?_append_left old] at second
    exact continues.linked position earlier later behind first second
  next =>
    -- The last member was there already, and the slot takes the new one because of it.
    obtain ⟨last, final, free, -, before⟩ := accepts_iff.mp accepted
    obtain rfl : position = slot.length - 1 := by omega
    rw [← List.getLast?_eq_getElem?, final] at first
    rw [show slot.length - 1 + 1 = slot.length by omega, List.getElem?_concat_length] at second
    obtain rfl := Option.some.inj first
    obtain rfl := Option.some.inj second
    exact ⟨free, before⟩

theorem firstOverlap?_concat (after : ∀ last, slot.getLast? = some last → last.range.EndsBefore entry.range) :
    firstOverlap? (slot ++ [entry]) = slot.firstOverlap? := by
  fun_induction firstOverlap? slot with
  | case1 first second rest before ih =>
    have same := ih fun last final => after last (by rwa [List.getLast?_cons_cons])
    simpa [firstOverlap?, before] using same
  | case2 first second rest overlap => simp [firstOverlap?, overlap]
  | case3 slot few =>
    cases slot with
    | nil => rfl
    | cons only slot =>
      cases slot with
      | nil => simp [firstOverlap?, LiveRange.before_iff, after only rfl]
      | cons second rest => exact absurd rfl (few only second rest)

end Slot

section Added

variable {τ : Type}

def additions (start slots : List (Slot τ)) : List (Slot τ) :=
  slots.mapIdx fun number slot => slot.drop (start[number]?.getD []).length

theorem additions_self (start : List (Slot τ)) : (additions start start).flatten = [] := by
  simp only [List.flatten_eq_nil_iff, additions, List.mem_mapIdx]
  rintro _ ⟨number, bound, rfl⟩
  simp [bound]

variable {statics : Names} {start slots : List (Slot τ)} {placed : List (Entry τ)} {entry : Entry τ} {number : Nat}
  {slot : Slot τ}

theorem additions_modify (here : slots[number]? = some slot)
    (kept : (start[number]?.getD []).length ≤ slot.length) :
    additions start (slots.modify number (· ++ [entry])) =
      (additions start slots).modify number (· ++ [entry]) := by
  apply List.ext_getElem?
  intro other
  simp only [additions, List.getElem?_mapIdx, List.getElem?_modify]
  by_cases same : number = other
  next =>
    subst same
    simp [here, List.drop_append_of_le_length kept]
  next => simp [same]

theorem additions_concat (bound : start.length ≤ slots.length) :
    additions start (slots ++ [[entry]]) = additions start slots ++ [[entry]] := by
  simp [additions, List.mapIdx_concat, List.getElem?_eq_none bound]

variable [LT τ] [DecidableLT τ]

theorem verifySlots_modify {change : Slot τ → Slot τ} (here : slots[number]? = some slot)
    (same : (change slot).firstOverlap? = slot.firstOverlap?) :
    verifySlots (slots.modify number change) = verifySlots slots := by
  induction slots generalizing number with
  | nil => simp at here
  | cons first rest ih =>
    cases number with
    | zero =>
      obtain rfl := Option.some.inj here
      rw [List.modify_zero_cons, verifySlots_cons, verifySlots_cons, same]
    | succ number =>
      rw [List.modify_succ_cons, verifySlots_cons, verifySlots_cons, ih here]

theorem verifySlots_concat : verifySlots (slots ++ [[entry]]) = verifySlots slots := by
  induction slots with
  | nil => rfl
  | cons first rest ih => rw [List.cons_append, verifySlots_cons, verifySlots_cons, ih]

structure Added (statics : Names) (start slots : List (Slot τ)) (placed : List (Entry τ)) : Prop where
  length_le : start.length ≤ slots.length
  continues : ∀ (number : Nat) slot, slots[number]? = some slot →
    Slot.Continues statics (start[number]?.getD []) slot
  perm : (additions start slots).flatten.Perm placed
  verified : verifySlots slots = verifySlots start

theorem Added.refl (statics : Names) (start : List (Slot τ)) : Added statics start start [] where
  length_le := Nat.le_refl _
  continues number slot here := by
    rw [here]
    exact Slot.Continues.refl statics slot
  perm := by rw [additions_self]
  verified := rfl

theorem Added.behind (added : Added statics start slots placed) (here : slots[number]? = some slot)
    (accepted : slot.accepts statics entry.range = true) :
    Added statics start (slots.modify number (· ++ [entry])) (placed ++ [entry]) := by
  have continues := added.continues number slot here
  refine ⟨by simpa using added.length_le, fun other slot' there => ?continues, ?perm, ?verified⟩
  case continues =>
    rw [List.getElem?_modify] at there
    split at there
    next same =>
      subst same
      rw [here] at there
      obtain rfl := Option.some.inj there
      exact continues.concat accepted
    next => exact added.continues other slot' (by simpa using there)
  case perm =>
    have bound := (List.getElem?_eq_some_iff.mp here).1
    have inside : number < (additions start slots).length := by simpa [additions] using bound
    rw [additions_modify here continues.kept.length_le]
    exact (modify_append_perm inside entry).trans (added.perm.append_right [entry])
  case verified =>
    obtain ⟨last, final, -, -, before⟩ := Slot.accepts_iff.mp accepted
    have same : Slot.firstOverlap? (slot ++ [entry]) = slot.firstOverlap? :=
      Slot.firstOverlap?_concat fun other final' => Option.some.inj (final.symm.trans final') ▸ before
    exact (verifySlots_modify here same).trans added.verified

theorem Added.apart (added : Added statics start slots placed) (entry : Entry τ) :
    Added statics start (slots ++ [[entry]]) (placed ++ [entry]) := by
  have length_le := added.length_le
  refine ⟨by simp; omega, fun other slot there => ?continues, ?perm, ?verified⟩
  case continues =>
    by_cases old : other < slots.length
    next => exact added.continues other slot (by rwa [List.getElem?_append_left old] at there)
    next =>
      rw [List.getElem?_append_right (Nat.le_of_not_lt old)] at there
      obtain rfl := List.mem_singleton.mp (List.mem_of_getElem? there)
      rw [List.getElem?_eq_none (by omega)]
      exact Slot.Continues.single statics entry
  case perm =>
    rw [additions_concat length_le, List.flatten_append]
    simpa using added.perm.append_right [entry]
  case verified => exact verifySlots_concat.trans added.verified

theorem Added.place (added : Added statics start slots placed) (entry : Entry τ) :
    Added statics start (place statics slots entry) (placed ++ [entry]) := by
  rcases place_cases statics slots entry with ⟨number, ⟨_, fits, -⟩, same⟩ | ⟨-, same⟩
  next =>
    obtain ⟨slot, _, here, accepted, -⟩ := fits
    rw [same]
    exact added.behind here accepted
  next =>
    rw [same]
    exact added.apart entry

theorem Added.foldl_place (added : Added statics start slots placed) (entries : List (Entry τ)) :
    Added statics start (entries.foldl (StoragePlan.place statics) slots) (placed ++ entries) := by
  induction entries generalizing slots placed with
  | nil => simpa using added
  | cons entry rest ih =>
    rw [List.append_cons]
    exact ih (added.place entry)

theorem placeAll_extends (statics : Names) (start : List (Slot τ)) (entries : List (Entry τ)) :
    let slots := placeAll statics start entries
    (∀ (number : Nat) slot, start[number]? = some slot →
      ∃ slot', slots[number]? = some slot' ∧ slot <+: slot') ∧
    (additions start slots).flatten.Perm (newcomers start entries) ∧
    (∀ (number position : Nat) earlier later, (start[number]?.getD []).length ≤ position + 1 →
      entryAt slots number position = some earlier → entryAt slots number (position + 1) = some later →
      earlier.blob ∉ statics.toList ∧ earlier.range.EndsBefore later.range) ∧
    verifySlots slots = verifySlots start := by
  intro slots
  have added : Added statics start slots (newcomers start entries) := by
    have run := (Added.refl statics start).foldl_place (newcomers start entries)
    rwa [← placeAll_eq] at run
  refine ⟨?kept, added.perm, ?linked, added.verified⟩
  case kept =>
    intro number slot here
    have bound := Nat.lt_of_lt_of_le (List.getElem?_eq_some_iff.mp here).1 added.length_le
    have continues := added.continues number slots[number] (List.getElem?_eq_getElem bound)
    rw [here] at continues
    exact ⟨slots[number], List.getElem?_eq_getElem bound, continues.kept⟩
  case linked =>
    intro number position earlier later behind first second
    obtain ⟨slot, here, inside, inside'⟩ := slot_of_entryAt first second
    exact (added.continues number slot here).linked position earlier later behind inside inside'

end Added

end StoragePlan
