import Mathlib.Data.List.Chain
import Mathlib.Data.List.Nodup
import StoragePlan.Proofs.Slot.Nearest

set_option autoImplicit false

namespace StoragePlan

section Uses

variable {τ : Type} [LE τ] [DecidableLE τ] [LT τ] [DecidableLT τ] [Std.IsLinearOrder τ]
  [Std.LawfulOrderLT τ]

omit [LT τ] [DecidableLT τ] [Std.LawfulOrderLT τ] in
theorem byLastUse_total (a b : Entry τ) : byLastUse a b = true ∨ byLastUse b a = true := by
  unfold byLastUse
  split <;> split <;> simp_all
  exact Std.le_total

omit [LT τ] [DecidableLT τ] [Std.LawfulOrderLT τ] in
theorem byLastUse_trans (a b c : Entry τ) (first : byLastUse a b = true)
    (second : byLastUse b c = true) : byLastUse a c = true := by
  unfold byLastUse at *
  split at first <;> split at second <;> split <;> simp_all
  exact Std.le_trans first second

theorem before_of_byLastUse {a b : Entry τ} (sorted : byLastUse a b = true) {later : LiveRange τ}
    (before : b.range.before later = true) : a.range.before later = true := by
  unfold byLastUse at sorted
  unfold LiveRange.before at *
  split at sorted <;> split at before <;> simp_all
  exact Std.lt_of_le_of_lt sorted before

end Uses

section Ends

variable {τ : Type} [Clock τ] [Max τ]

def LiveTable.normalized (table : LiveTable τ) (entry : Entry τ) : Entry τ :=
  { entry with range := entry.range.resolve (endOfUse table.entries) }

variable [LE τ] [Std.IsLinearOrder τ]

/-- In machine words the moment after the last use may be the first one of all. -/
def LiveTable.EndsLast (table : LiveTable τ) : Prop :=
  ∀ entry ∈ table.entries, ∀ unread ∈ table.entries, unread.range.used = none →
    ∀ used, entry.range.used = some used → used ≤ endOfUse table.entries

theorem LiveTable.EndsLast.byLastUse_normalized [DecidableLE τ] {table : LiveTable τ}
    (ends : table.EndsLast) {a b : Entry τ} (first : a ∈ table.entries) (second : b ∈ table.entries)
    (sorted : byLastUse a b = true) :
    byLastUse (table.normalized a) (table.normalized b) = true := by
  unfold byLastUse at sorted
  split at sorted
  next x y known known' =>
    simpa [byLastUse, LiveTable.normalized, LiveRange.resolve, known, known'] using sorted
  next => simp at sorted
  next unknown =>
    cases known : a.range.used with
    | none =>
      simp [byLastUse, LiveTable.normalized, LiveRange.resolve, known, unknown, Std.le_refl]
    | some used =>
      simpa [byLastUse, LiveTable.normalized, LiveRange.resolve, known, unknown] using
        ends a first b second unknown used known

variable [Std.LawfulOrderMax τ]

theorem endOfUse_perm {entries entries' : List (Entry τ)} (perm : entries.Perm entries') :
    endOfUse entries = endOfUse entries' := by
  have uses := perm.filterMap (·.range.used)
  unfold endOfUse
  cases found : (entries.filterMap (·.range.used)).max? with
  | none =>
    rw [List.max?_eq_none_iff] at found
    rw [found] at uses
    simp [List.nil_perm.mp uses]
  | some last =>
    have same : (entries'.filterMap (·.range.used)).max? = some last := by
      rw [List.max?_eq_some_iff] at found ⊢
      exact ⟨uses.mem_iff.mp found.1, fun other inside => found.2 other (uses.mem_iff.mpr inside)⟩
    simp [same]

theorem resolveEntries_perm {entries : List (Entry τ)} {table : LiveTable τ}
    (perm : entries.Perm table.entries) :
    resolveEntries entries none = entries.map table.normalized := by
  simp only [resolveEntries, Option.getD_none, endOfUse_perm perm]
  rfl

end Ends

theorem lt_endOfUse {entries : List Entry} {entry : Entry} (inside : entry ∈ entries) {used : Int}
    (known : entry.range.used = some used) : used < endOfUse entries := by
  have member : used ∈ entries.filterMap (·.range.used) :=
    List.mem_filterMap.mpr ⟨entry, inside, known⟩
  unfold endOfUse
  split
  next nothing =>
    rw [List.max?_eq_none_iff] at nothing
    simp [nothing] at member
  next last greatest =>
    have bound := (List.max?_eq_some_iff.mp greatest).2 used member
    exact Int.lt_add_one_of_le bound

theorem LiveTable.endsLast (table : LiveTable) : table.EndsLast :=
  fun _ inside _ _ _ _ known => Int.le_of_lt (lt_endOfUse inside known)

theorem modify_append_perm {τ : Type} {slots : List (Slot τ)} {index : Nat}
    (inside : index < slots.length) (entry : Entry τ) :
    (slots.modify index (· ++ [entry])).flatten.Perm (slots.flatten ++ [entry]) := by
  induction slots generalizing index with
  | nil => simp at inside
  | cons slot rest ih =>
    cases index with
    | zero =>
      simp only [List.modify_zero_cons, List.flatten_cons, List.append_assoc]
      exact List.perm_append_comm.append_left slot
    | succ index =>
      simp only [List.modify_succ_cons, List.flatten_cons, List.append_assoc]
      exact (ih (Nat.lt_of_succ_lt_succ inside)).append_left slot

theorem mem_modify {τ : Type} {slots : List (Slot τ)} {index : Nat} {change : Slot τ → Slot τ} {slot : Slot τ}
    (member : slot ∈ slots.modify index change) :
    slot ∈ slots ∨ ∃ old, slots[index]? = some old ∧ slot = change old := by
  obtain ⟨number, at_⟩ := List.mem_iff_getElem?.mp member
  rw [List.getElem?_modify] at at_
  split at at_
  next same =>
    obtain ⟨old, before, rfl⟩ := Option.map_eq_some_iff.mp at_
    exact .inr ⟨old, same ▸ before, rfl⟩
  next => exact .inl (List.mem_of_getElem? (by simpa using at_))

section Place

variable {τ : Type} [LT τ] [DecidableLT τ]

def Slot.Linked (slot : Slot τ) : Prop := slot.IsChain fun a b => a.range.before b.range = true

def Slot.Apart (slot : Slot τ) : Prop := slot.Pairwise fun a b => a.range.before b.range = true

structure Slot.Proper (placed : List (Entry τ)) (slot : Slot τ) : Prop where
  nonempty : slot ≠ []
  ordered : slot.Sublist placed
  linked : slot.Linked

variable {placed : List (Entry τ)} {slot : Slot τ} {slots : List (Slot τ)} {entry : Entry τ}

theorem Slot.Proper.further (proper : slot.Proper placed) (more : List (Entry τ)) :
    slot.Proper (placed ++ more) :=
  { proper with ordered := proper.ordered.trans (List.sublist_append_left placed more) }

theorem Slot.proper_single : Slot.Proper (placed ++ [entry]) [entry] :=
  ⟨by simp, List.sublist_append_right placed [entry], List.IsChain.singleton _⟩

theorem Slot.Proper.append (proper : slot.Proper placed) {statics : Names}
    (accepted : slot.accepts statics entry.range = true) :
    Slot.Proper (placed ++ [entry]) (slot ++ [entry]) := by
  obtain ⟨last, final, -, -, ended⟩ := Slot.accepts_iff.mp accepted
  refine ⟨by simp, proper.ordered.append (List.Sublist.refl _), ?_⟩
  refine List.isChain_append.mpr ⟨proper.linked, List.IsChain.singleton _, ?_⟩
  intro earlier isLast later isFirst
  obtain rfl : last = earlier := Option.some.inj (final.symm.trans isLast)
  obtain rfl : entry = later := by simpa using isFirst
  exact LiveRange.before_iff.mpr ended

structure Filled (placed : List (Entry τ)) (slots : List (Slot τ)) : Prop where
  perm : slots.flatten.Perm placed
  proper : ∀ slot ∈ slots, slot.Proper placed

theorem Filled.place (filled : Filled placed slots) (statics : Names) (entry : Entry τ) :
    Filled (placed ++ [entry]) (place statics slots entry) := by
  rcases place_cases statics slots entry with ⟨index, ⟨_, fits, -⟩, same⟩ | ⟨-, same⟩
  next =>
    obtain ⟨slot, _, here, accepted, -⟩ := fits
    rw [same]
    refine ⟨?perm, fun other member => ?proper⟩
    case perm =>
      have inside := (List.getElem?_eq_some_iff.mp here).1
      exact (modify_append_perm inside entry).trans (filled.perm.append_right [entry])
    case proper =>
      rcases mem_modify member with old | ⟨old, at_, rfl⟩
      next => exact (filled.proper other old).further [entry]
      next =>
        obtain rfl : slot = old := Option.some.inj (here.symm.trans at_)
        exact (filled.proper slot (List.mem_of_getElem? here)).append accepted
  next =>
    rw [same]
    refine ⟨by simpa using filled.perm.append_right [entry], fun other member => ?_⟩
    rcases List.mem_append.mp member with old | same
    next => exact (filled.proper other old).further [entry]
    next =>
      obtain rfl := List.mem_singleton.mp same
      exact Slot.proper_single

theorem Filled.placeAll (filled : Filled placed slots) (statics : Names) (entries : List (Entry τ)) :
    Filled (placed ++ entries) (entries.foldl (StoragePlan.place statics) slots) := by
  induction entries generalizing placed slots with
  | nil => simpa using filled
  | cons entry rest ih =>
    rw [List.append_cons]
    exact ih (filled.place statics entry)

theorem placeAll_filled (statics : Names) (entries : List (Entry τ)) :
    Filled entries (placeAll statics [] entries) := by
  have start : Filled ([] : List (Entry τ)) [] := ⟨.nil, by simp⟩
  simpa [StoragePlan.placeAll] using start.placeAll statics entries

theorem Slot.Linked.firstOverlap? (linked : slot.Linked) : slot.firstOverlap? = none := by
  fun_induction Slot.firstOverlap? slot with
  | case1 earlier later rest _ ih => exact ih (List.isChain_cons_cons.mp linked).2
  | case2 earlier later rest overlap => exact absurd (List.isChain_cons_cons.mp linked).1 overlap
  | case3 => rfl

end Place

section Order

variable {τ : Type} [Clock τ] [Max τ] [LE τ] [DecidableLE τ] [LT τ] [DecidableLT τ]
  [Std.IsLinearOrder τ] [Std.LawfulOrderLT τ] {table : LiveTable τ}

omit [Clock τ] [Max τ] in
-- The last one of several that are linked is used longest.
theorem Slot.Linked.apart {slot : Slot τ} (linked : slot.Linked)
    (sorted : slot.Pairwise fun a b => byLastUse a b = true) : slot.Apart := by
  induction slot with
  | nil => exact .nil
  | cons first slot ih =>
    cases slot with
    | nil => exact List.pairwise_singleton _ _
    | cons second rest =>
      obtain ⟨next, linked⟩ := List.isChain_cons_cons.mp linked
      obtain ⟨order, sorted⟩ := List.pairwise_cons.mp sorted
      have later := ih linked sorted
      refine List.pairwise_cons.mpr ⟨fun other inside => ?_, later⟩
      rcases List.mem_cons.mp inside with rfl | behind
      next => exact next
      next =>
        have beyond := (List.pairwise_cons.mp later).1 other behind
        exact before_of_byLastUse (order second List.mem_cons_self) beyond

theorem before_or_void_of_byLastUse {a b c : Entry τ} (first : byLastUse a b = true)
    (second : byLastUse b c = true)
    (before : (table.normalized b).range.before (table.normalized c).range = true) :
    (table.normalized a).range.before (table.normalized c).range = true ∨
      (table.normalized c).range.before (table.normalized c).range = true := by
  cases unread : b.range.used with
  | some used =>
    obtain ⟨used', known, below⟩ : ∃ used', a.range.used = some used' ∧ used' ≤ used := by
      cases known : a.range.used <;> simp_all [byLastUse]
    left
    simp only [LiveRange.before, LiveTable.normalized, LiveRange.resolve, known, unread, Option.getD_some,
      decide_eq_true_eq] at before ⊢
    exact Std.lt_of_le_of_lt below before
  | none =>
    have unread' : c.range.used = none := by
      cases known : c.range.used <;> simp_all [byLastUse]
    right
    simpa only [LiveRange.before, LiveTable.normalized, LiveRange.resolve, unread, unread'] using before

theorem pairwise_before_or_void {entries : List (Entry τ)}
    (sorted : entries.Pairwise fun a b => byLastUse a b = true)
    (linked : Slot.Linked (entries.map table.normalized)) :
    (entries.map table.normalized).Pairwise fun a b =>
      a.range.before b.range = true ∨ b.range.before b.range = true := by
  induction entries with
  | nil => exact .nil
  | cons first entries ih =>
    cases entries with
    | nil => exact List.pairwise_singleton _ _
    | cons second rest =>
      obtain ⟨next, linked⟩ := List.isChain_cons_cons.mp linked
      obtain ⟨order, sorted⟩ := List.pairwise_cons.mp sorted
      have later := ih sorted linked
      refine List.pairwise_cons.mpr ⟨List.forall_mem_map.mpr fun other inside => ?_, later⟩
      rcases List.mem_cons.mp inside with rfl | behind
      next => exact .inl next
      next =>
        have order' := (List.pairwise_cons.mp sorted).1 other behind
        rcases (List.pairwise_cons.mp later).1 _ (List.mem_map_of_mem behind) with beyond | empty
        next => exact before_or_void_of_byLastUse (order second List.mem_cons_self) order' beyond
        next => exact .inr empty

end Order

section Deal

variable {τ : Type} [Clock τ] [Max τ] [LE τ] [DecidableLE τ] [LT τ] [DecidableLT τ]

def LiveTable.lined (table : LiveTable τ) : List (Entry τ) :=
  (sortBy byLastUse table.entries).map table.normalized

structure Dealt (table : LiveTable τ) (statics : Names) (slots : List (Slot τ)) : Prop where
  perm : slots.flatten.Perm (table.entries.map table.normalized)
  ordered : ∀ slot ∈ slots, slot.Sublist table.lined
  linked : ∀ slot ∈ slots, slot.Linked
  split : ∃ shared alone, slots = shared ++ alone ∧
    (∀ slot ∈ shared, slot ≠ [] ∧ ∀ entry ∈ slot, entry.blob ∉ statics.toList) ∧
    ∀ slot ∈ alone, ∃ entry, slot = [entry] ∧ entry.blob ∈ statics.toList

structure Assigned (table : LiveTable τ) (statics : Names) (slots : List (Slot τ)) : Prop
    extends Dealt table statics slots where
  apart : ∀ slot ∈ slots, slot.Apart

theorem Dealt.nodup {table : LiveTable τ} {statics : Names} {slots : List (Slot τ)}
    (dealt : Dealt table statics slots) : (slots.flatten.map (·.blob)).Nodup := by
  rw [(dealt.perm.map (·.blob)).nodup_iff, List.map_map]
  exact table.nodup

variable [Std.IsLinearOrder τ] [Std.LawfulOrderMax τ]

-- Static and other blobs are dealt with apart, each in order of last use.
theorem assignSlots_eq (table : LiveTable τ) (statics : Names) : assignSlots table statics =
    placeAll statics [] (table.lined.filter (!statics.contains ·.blob)) ++
      (table.lined.filter (statics.contains ·.blob)).map ([·]) := by
  simp only [assignSlots, resolveEntries_perm (sortBy_perm byLastUse table.entries),
    List.partition_eq_filter_filter]
  rfl

theorem assignSlots_dealt (table : LiveTable τ) (statics : Names) :
    Dealt table statics (assignSlots table statics) := by
  let isStatic (entry : Entry τ) := statics.contains entry.blob
  have filled := placeAll_filled statics (table.lined.filter (!isStatic ·))
  rw [assignSlots_eq]
  refine ⟨?perm, ?ordered, ?linked, ⟨_, _, rfl, ?shared, ?alone⟩⟩
  case perm =>
    have singles : ((table.lined.filter isStatic).map ([·])).flatten = table.lined.filter isStatic :=
      List.flatMap_singleton' _
    rw [List.flatten_append, singles]
    have both := (filled.perm.append_right (table.lined.filter isStatic)).trans List.perm_append_comm
    have perm := sortBy_perm byLastUse table.entries
    exact (both.trans (List.filter_append_perm isStatic table.lined)).trans (perm.map _)
  case ordered =>
    refine List.forall_mem_append.mpr ⟨fun slot member => ?_, List.forall_mem_map.mpr fun entry inside => ?_⟩
    next => exact (filled.proper slot member).ordered.trans List.filter_sublist
    next => exact List.singleton_sublist.mpr (List.mem_filter.mp inside).1
  case linked =>
    refine List.forall_mem_append.mpr ⟨fun slot member => (filled.proper slot member).linked, ?_⟩
    exact List.forall_mem_map.mpr fun entry _ => .singleton entry
  case shared =>
    intro slot member
    refine ⟨(filled.proper slot member).nonempty, fun entry inside => ?_⟩
    have sharable := List.mem_filter.mp ((filled.proper slot member).ordered.subset inside)
    simpa [isStatic, Names.contains] using sharable.2
  case alone =>
    intro slot member
    obtain ⟨entry, inside, rfl⟩ := List.mem_map.mp member
    refine ⟨entry, rfl, ?_⟩
    simpa [isStatic, Names.contains] using (List.mem_filter.mp inside).2

theorem verifySlots_assignSlots (table : LiveTable τ) (statics : Names) :
    verifySlots (assignSlots table statics) = .ok () := by
  have linked := (assignSlots_dealt table statics).linked
  have nowhere : (assignSlots table statics).findSome? Slot.firstOverlap? = none :=
    List.findSome?_eq_none_iff.mpr fun slot member => (linked slot member).firstOverlap?
  rw [verifySlots, nowhere]

theorem LiveTable.EndsLast.assigned [Std.LawfulOrderLT τ] {table : LiveTable τ} (ends : table.EndsLast) (statics : Names) :
    Assigned table statics (assignSlots table statics) := by
  have dealt := assignSlots_dealt table statics
  have sorted := sortBy_pairwise byLastUse_total byLastUse_trans table.entries
  have usedUp : table.lined.Pairwise fun a b => byLastUse a b = true := by
    refine List.pairwise_map.mpr (sorted.imp_of_mem fun first second before => ?_)
    have perm := sortBy_perm byLastUse table.entries
    exact ends.byLastUse_normalized (perm.mem_iff.mp first) (perm.mem_iff.mp second) before
  exact ⟨dealt, fun slot member =>
    (dealt.linked slot member).apart (usedUp.sublist (dealt.ordered slot member))⟩

end Deal

theorem assignSlots_assigned (table : LiveTable) (statics : Names) :
    Assigned table statics (assignSlots table statics) :=
  table.endsLast.assigned statics

end StoragePlan
