import Mathlib.Data.Prod.Lex
import StoragePlan.Proofs.Slot.Places

set_option autoImplicit false

namespace StoragePlan

section Neighbours

variable {τ : Type} [LE τ] [LT τ]

def LiveRange.Closed (range : LiveRange τ) : Prop :=
  ∃ defined used, range.defined = some defined ∧ range.used = some used ∧ defined ≤ used

theorem LiveRange.EndsBefore.trans [Std.IsLinearOrder τ] [Std.LawfulOrderLT τ] {a b c : LiveRange τ} (first : a.EndsBefore b) (closed : b.Closed)
    (second : b.EndsBefore c) : a.EndsBefore c := by
  obtain ⟨used, defined, ends, begins, less⟩ := first
  obtain ⟨defined', used', begins', ends', order⟩ := closed
  obtain ⟨used'', defined'', ends'', begins'', less'⟩ := second
  obtain rfl := Option.some.inj (begins.symm.trans begins')
  obtain rfl := Option.some.inj (ends'.symm.trans ends'')
  exact ⟨used, defined'', ends, begins'', Std.lt_trans less (Std.lt_of_le_of_lt order less')⟩

end Neighbours

namespace Slot

variable {τ : Type} [LT τ]

def OverlapsAt (slot : Slot τ) (position : Nat) (earlier later : Entry τ) : Prop :=
  slot[position]? = some earlier ∧ slot[position + 1]? = some later ∧
    ¬ earlier.range.EndsBefore later.range

theorem overlapsAt_cons {slot : Slot τ} {entry earlier later : Entry τ} {position : Nat} :
    OverlapsAt (entry :: slot) (position + 1) earlier later ↔ slot.OverlapsAt position earlier later :=
  Iff.rfl

theorem overlapsAt_head {slot : Slot τ} {first second earlier later : Entry τ} :
    OverlapsAt (first :: second :: slot) 0 earlier later ↔
      first = earlier ∧ second = later ∧ ¬ earlier.range.EndsBefore later.range := by
  simp only [OverlapsAt, List.getElem?_cons_zero, List.getElem?_cons_succ, Option.some.injEq]

variable [DecidableLT τ]

theorem firstOverlap?_spec (slot : Slot τ) :
    (slot.firstOverlap? = none ∧ ∀ position a b, ¬ slot.OverlapsAt position a b) ∨
    ∃ earlier later position, slot.firstOverlap? = some (earlier, later) ∧
      slot.OverlapsAt position earlier later ∧
      ∀ position' a b, slot.OverlapsAt position' a b → position ≤ position' := by
  fun_induction firstOverlap? slot with
  | case1 first second rest before ih =>
    have apart (a b : Entry τ) : ¬ OverlapsAt (first :: second :: rest) 0 a b := by
      intro overlap
      obtain ⟨rfl, rfl, still⟩ := overlapsAt_head.mp overlap
      exact still (LiveRange.before_iff.mp before)
    rcases ih with ⟨none, nowhere⟩ | ⟨earlier, later, position, found, overlap, least⟩
    next =>
      refine .inl ⟨none, fun position a b overlap => ?_⟩
      cases position with
      | zero => exact apart a b overlap
      | succ position => exact nowhere position a b (overlapsAt_cons.mp overlap)
    next =>
      refine .inr ⟨earlier, later, position + 1, found, overlapsAt_cons.mpr overlap, ?_⟩
      intro position' a b other
      cases position' with
      | zero => exact absurd other (apart a b)
      | succ position' => exact Nat.succ_le_succ (least position' a b (overlapsAt_cons.mp other))
  | case2 first second rest overlap =>
    refine .inr ⟨first, second, 0, rfl, overlapsAt_head.mpr ⟨rfl, rfl, ?_⟩, fun _ _ _ _ => Nat.zero_le _⟩
    rwa [← LiveRange.before_iff]
  | case3 slot few =>
    refine .inl ⟨rfl, fun position a b overlap => ?_⟩
    cases slot with
    | nil => simp [OverlapsAt] at overlap
    | cons first slot =>
      cases slot with
      | nil => simp [OverlapsAt] at overlap
      | cons second rest => exact few first second rest rfl

variable [LE τ] [Std.IsLinearOrder τ] [Std.LawfulOrderLT τ]

omit [DecidableLT τ] in
theorem pairwise_of_neighbours {slot : Slot τ} (closed : ∀ entry ∈ slot, entry.range.Closed)
    (apart : ∀ position a b, ¬ slot.OverlapsAt position a b) :
    slot.Pairwise fun a b => a.range.EndsBefore b.range := by
  induction slot with
  | nil => exact .nil
  | cons first slot ih =>
    cases slot with
    | nil => exact List.pairwise_singleton _ _
    | cons second rest =>
      have ⟨_, closed⟩ := List.forall_mem_cons.mp closed
      have later := ih closed fun position a b => apart (position + 1) a b
      have next : first.range.EndsBefore second.range := by
        by_contra overlap
        exact apart 0 first second (overlapsAt_head.mpr ⟨rfl, rfl, overlap⟩)
      refine List.pairwise_cons.mpr ⟨fun other inside => ?_, later⟩
      rcases List.mem_cons.mp inside with rfl | behind
      next => exact next
      next =>
        have beyond := (List.pairwise_cons.mp later).1 other behind
        exact next.trans (closed second List.mem_cons_self) beyond

end Slot

section Verify

variable {τ : Type} [LT τ]

def OverlapAt (slots : List (Slot τ)) (number position : Nat) (earlier later : Entry τ) : Prop :=
  entryAt slots number position = some earlier ∧ entryAt slots number (position + 1) = some later ∧
    ¬ earlier.range.EndsBefore later.range

variable {slots : List (Slot τ)} {number position : Nat} {earlier later : Entry τ}

theorem overlapAt_iff : OverlapAt slots number position earlier later ↔
    ∃ slot, slots[number]? = some slot ∧ slot.OverlapsAt position earlier later := by
  constructor
  next =>
    rintro ⟨first, second, still⟩
    obtain ⟨slot, here, inside, inside'⟩ := slot_of_entryAt first second
    exact ⟨slot, here, inside, inside', still⟩
  next =>
    rintro ⟨slot, here, inside, inside', still⟩
    exact ⟨entryAt_eq_some.mpr ⟨slot, here, inside⟩, entryAt_eq_some.mpr ⟨slot, here, inside'⟩, still⟩

theorem overlapAt_cons {slot : Slot τ} :
    OverlapAt (slot :: slots) (number + 1) position earlier later ↔
      OverlapAt slots number position earlier later := Iff.rfl

theorem overlapAt_head {slot : Slot τ} :
    OverlapAt (slot :: slots) 0 position earlier later ↔ slot.OverlapsAt position earlier later := by
  simp [overlapAt_iff]

theorem OverlapAt.unique {a b : Entry τ} (overlap : OverlapAt slots number position earlier later)
    (other : OverlapAt slots number position a b) : earlier = a ∧ later = b :=
  ⟨Option.some.inj (overlap.1.symm.trans other.1), Option.some.inj (overlap.2.1.symm.trans other.2.1)⟩

variable [DecidableLT τ]

theorem verifySlots_cons (slot : Slot τ) (slots : List (Slot τ)) : verifySlots (slot :: slots) =
    match slot.firstOverlap? with
    | none => verifySlots slots
    | some (earlier, later) => .error (.overlap earlier.blob later.blob) := by
  rw [verifySlots, List.findSome?_cons]
  cases slot.firstOverlap? with
  | none => rfl
  | some pair => rfl

theorem place_le_succ {m n p q : Nat} :
    toLex (m + 1, p) ≤ toLex (n + 1, q) ↔ toLex (m, p) ≤ toLex (n, q) := by
  simp [Prod.Lex.toLex_le_toLex]

theorem verifySlots_spec (slots : List (Slot τ)) :
    (verifySlots slots = .ok () ∧ ∀ number position a b, ¬ OverlapAt slots number position a b) ∨
    ∃ number position earlier later, verifySlots slots = .error (.overlap earlier.blob later.blob) ∧
      OverlapAt slots number position earlier later ∧
      ∀ number' position' a b, OverlapAt slots number' position' a b →
        toLex (number, position) ≤ toLex (number', position') := by
  induction slots with
  | nil => exact .inl ⟨rfl, by simp [OverlapAt, entryAt]⟩
  | cons slot slots ih =>
    rw [verifySlots_cons]
    rcases slot.firstOverlap?_spec with ⟨none, apart⟩ | ⟨earlier, later, position, found, overlap, least⟩
    next =>
      rw [none]
      rcases ih with ⟨passed, nowhere⟩ | ⟨number, position, earlier, later, failed, overlap, least⟩
      next =>
        refine .inl ⟨passed, fun number position a b overlap => ?_⟩
        cases number with
        | zero => exact apart position a b (overlapAt_head.mp overlap)
        | succ number => exact nowhere number position a b (overlapAt_cons.mp overlap)
      next =>
        refine .inr ⟨number + 1, position, earlier, later, failed, overlapAt_cons.mpr overlap, ?_⟩
        intro number' position' a b other
        cases number' with
        | zero => exact absurd (overlapAt_head.mp other) (apart position' a b)
        | succ number' =>
          exact place_le_succ.mpr (least number' position' a b (overlapAt_cons.mp other))
    next =>
      rw [found]
      refine .inr ⟨0, position, earlier, later, rfl, overlapAt_head.mpr overlap, ?_⟩
      intro number' position' a b other
      cases number' with
      | zero =>
        have order := least position' a b (overlapAt_head.mp other)
        exact Prod.Lex.toLex_le_toLex.mpr (.inr ⟨rfl, order⟩)
      | succ number' => exact Prod.Lex.toLex_le_toLex.mpr (.inl (Nat.succ_pos number'))

theorem verifySlots_outcome [LE τ] [Std.IsLinearOrder τ] [Std.LawfulOrderLT τ]
    (closed : ∀ slot ∈ slots, ∀ entry ∈ slot, entry.range.Closed) :
    (verifySlots slots = .ok () ↔ ∀ number i j a b, i < j → entryAt slots number i = some a →
      entryAt slots number j = some b → a.range.EndsBefore b.range) ∧
    ∀ error, verifySlots slots = .error error ↔ ∃ number position earlier later,
      error = .overlap earlier.blob later.blob ∧ OverlapAt slots number position earlier later ∧
      ∀ number' position' a b, OverlapAt slots number' position' a b →
        toLex (number, position) ≤ toLex (number', position') := by
  rcases verifySlots_spec slots with
    ⟨passed, nowhere⟩ | ⟨number, position, earlier, later, failed, overlap, least⟩
  next =>
    rw [passed]
    refine ⟨iff_of_true rfl fun number i j a b less first second => ?_, fun error => ?_⟩
    next =>
      obtain ⟨slot, here, inside, inside'⟩ := slot_of_entryAt first second
      have apart := Slot.pairwise_of_neighbours (closed slot (List.mem_of_getElem? here))
        fun position a b overlap => nowhere number position a b (overlapAt_iff.mpr ⟨slot, here, overlap⟩)
      obtain ⟨bound, rfl⟩ := List.getElem?_eq_some_iff.mp inside
      obtain ⟨bound', rfl⟩ := List.getElem?_eq_some_iff.mp inside'
      exact List.pairwise_iff_getElem.mp apart i j bound bound' less
    next =>
      refine iff_of_false nofun fun reported => ?_
      obtain ⟨number, position, a, b, -, overlap, -⟩ := reported
      exact nowhere number position a b overlap
  next =>
    rw [failed]
    refine ⟨iff_of_false nofun fun apart => ?_, fun error => ⟨fun same => ?_, fun reported => ?_⟩⟩
    next =>
      obtain ⟨first, second, still⟩ := overlap
      exact still (apart number position (position + 1) earlier later (Nat.lt_succ_self position) first second)
    next => exact ⟨number, position, earlier, later, (Except.error.inj same).symm, overlap, least⟩
    next =>
      obtain ⟨number', position', a, b, rfl, overlap', least'⟩ := reported
      have place := le_antisymm (least _ _ a b overlap') (least' _ _ earlier later overlap)
      obtain ⟨rfl, rfl⟩ := Prod.mk.inj (toLex.injective place)
      obtain ⟨rfl, rfl⟩ := overlap.unique overlap'
      rfl

theorem verifySlots_outcome_touching :
    let entry (blob : String) (defined used : Int64) : Entry Int64 := ⟨blob, ⟨some defined, some used, none⟩⟩
    let apart : Slot Int64 := [entry "a" 0 1, entry "b" 2 2, entry "c" 3 5]
    let touching : Slot Int64 := [entry "d" 0 1, entry "e" 2 3, entry "f" 3 4]
    (∀ slot ∈ [apart, touching], ∀ entry ∈ slot, entry.range.Closed) ∧
      (entry "a" 0 1).range.EndsBefore (entry "c" 3 5).range ∧
      verifySlots [apart, touching] = .error (.overlap "e" "f") ∧
      ¬ ∀ number i j a b, i < j → entryAt [apart, touching] number i = some a →
        entryAt [apart, touching] number j = some b → a.range.EndsBefore b.range := by
  intro entry apart touching
  have closed : ∀ slot ∈ [apart, touching], ∀ entry ∈ slot, entry.range.Closed := by
    simp [apart, touching, entry, LiveRange.Closed]
  have first : ∀ slot ∈ [apart], ∀ entry ∈ slot, entry.range.Closed := by
    simpa using closed apart List.mem_cons_self
  refine ⟨closed, ?_, rfl, fun all => ?_⟩
  next => exact (verifySlots_outcome first).1.mp rfl 0 0 2 _ _ (by decide) rfl rfl
  next => exact absurd ((verifySlots_outcome closed).1.mpr all) nofun

end Verify

end StoragePlan
