import StoragePlan.Proofs.Interference

set_option autoImplicit false

namespace StoragePlan

def Unread (ops : List Op) (blob : String) : Prop :=
  (∃ position, WrittenAt ops blob position) ∧ ∀ position, ¬ ReadAt ops blob position

def Late (ops : List Op) (blob : String) : Prop :=
  ∀ position, WrittenAt ops blob position →
    0 < position ∧ ∀ other reader, ReadAt ops other reader → reader + 1 < position

section Ranges

variable {ops : List Op} {table : LiveTable} (covers : table.Covers (accesses ops))

include covers

theorem LiveTable.Covers.endOfUse_nonneg : 0 ≤ endOfUse table.entries := by
  unfold endOfUse
  split
  next => exact Int.le_refl 0
  next last greatest =>
    obtain ⟨entry, inside, used⟩ := List.mem_filterMap.mp (List.max?_mem greatest)
    have range := covers.ranges entry.blob entry.range (LiveTable.get?_iff.mpr inside)
    obtain ⟨position, rfl, -⟩ := range.used last used
    rw [next_int]
    omega

theorem LiveTable.Covers.used_nonneg {blob : String} {range : LiveRange}
    (known : table.get? blob = some range) : 0 ≤ range.used.getD (endOfUse table.entries) := by
  cases used : range.used with
  | none => exact covers.endOfUse_nonneg
  | some final =>
    obtain ⟨position, same, -⟩ := (covers.ranges blob range known).used final used
    simp [same]

theorem LiveTable.Covers.used_of_unread {blob : String} {range : LiveRange}
    (known : table.get? blob = some range) (unread : ∀ position, ¬ ReadAt ops blob position) :
    range.used = none := by
  cases used : range.used with
  | none => rfl
  | some final =>
    obtain ⟨reader, -, access⟩ := (covers.ranges blob range known).used final used
    exact absurd (mem_accesses_read.mp access) (unread reader)

theorem LiveTable.Covers.unread_of_endOfUse_lt (sorted : WritesFirst ops) {blob : String}
    {range : LiveRange} (known : table.get? blob = some range)
    (behind : endOfUse table.entries < range.defined.getD (-1)) : Unread ops blob ∧ Late ops blob := by
  have nonneg := covers.endOfUse_nonneg
  have about := covers.ranges blob range known
  cases defined : range.defined with
  | none =>
    rw [defined, Option.getD_none] at behind
    omega
  | some start =>
    obtain ⟨writer, rfl, access⟩ := about.defined start defined
    have written := mem_accesses_write.mp access
    rw [defined, Option.getD_some] at behind
    refine ⟨⟨⟨writer, written⟩, fun reader read => ?unread⟩, fun position writes => ?late⟩
    case unread =>
      -- A read would come before the end of all uses, but the write comes before the read.
      have early := covers.endOfUse_gt read
      have order := sorted.le written read
      omega
    case late =>
      obtain ⟨first, starts, bound⟩ := about.written position (mem_accesses_write.mpr writes)
      obtain rfl := Option.some.inj (defined.symm.trans starts)
      refine ⟨by omega, fun other reader read => ?_⟩
      have early := covers.endOfUse_gt read
      omega

theorem LiveTable.Covers.unread_of_precedes (sorted : WritesFirst ops) {earlier later : String}
    (precedes : table.Precedes earlier later) (unread : ∀ position, ¬ ReadAt ops earlier position) :
    Unread ops later ∧ Late ops later := by
  obtain ⟨range, range', known, known', before⟩ := precedes
  rw [covers.used_of_unread known unread, Option.getD_none] at before
  exact covers.unread_of_endOfUse_lt sorted known' before

theorem LiveTable.Covers.defined_of_readsFirst (sorted : WritesFirst ops) {blob : String}
    {position : Nat} (first : ReadsFirst ops blob position) {range : LiveRange}
    (known : table.get? blob = some range) : range.defined = none ∨
      range.defined = some (position : Int) ∧ OnlyInPlace ops blob := by
  have about := covers.ranges blob range known
  have late (writer : Nat) (written : WrittenAt ops blob writer) : writer = position := by
    by_contra different
    exact first.2 writer (sorted blob writer position written first.1 different) written
  cases defined : range.defined with
  | none => exact .inl rfl
  | some start =>
    obtain ⟨writer, rfl, access⟩ := about.defined start defined
    have written := mem_accesses_write.mp access
    obtain rfl := late writer written
    exact .inr ⟨rfl, writer, first.1, written, late⟩

theorem LiveTable.Covers.read_of_precedes (sorted : WritesFirst ops) {earlier blob : String}
    {position : Nat} (first : ReadsFirst ops blob position)
    (precedes : table.Precedes earlier blob) :
    OnlyInPlace ops blob ∧ ∃ reader < position, ReadAt ops earlier reader := by
  obtain ⟨range, range', known, known', before⟩ := precedes
  have nonneg := covers.used_nonneg known
  cases covers.defined_of_readsFirst sorted first known' with
  | inl unknown =>
    rw [unknown, Option.getD_none] at before
    omega
  | inr defined =>
    rw [defined.1, Option.getD_some] at before
    refine ⟨defined.2, ?_⟩
    cases used : range.used with
    | none =>
      -- The use of what is never read ends behind the read of the blob.
      have beyond := covers.endOfUse_gt first.1
      rw [used, Option.getD_none] at before
      omega
    | some final =>
      obtain ⟨reader, rfl, access⟩ := (covers.ranges earlier range known).used final used
      rw [used, Option.getD_some] at before
      exact ⟨reader, by omega, mem_accesses_read.mp access⟩

theorem LiveTable.Covers.lt_of_precedes (sorted : WritesFirst ops) {blob later : String}
    {position position' : Nat} (read : ReadAt ops blob position) (precedes : table.Precedes blob later)
    (accessed : ReadAt ops later position' ∨ WrittenAt ops later position') : position < position' := by
  obtain ⟨range, range', known, known', before⟩ := precedes
  obtain ⟨final, used, bound⟩ :=
    (covers.ranges blob range known).read position (mem_accesses_read.mpr read)
  rw [used, Option.getD_some] at before
  have about := covers.ranges later range' known'
  cases defined : range'.defined with
  | none =>
    rw [defined, Option.getD_none] at before
    omega
  | some start =>
    rw [defined, Option.getD_some] at before
    cases accessed with
    | inl reads =>
      obtain ⟨writer, rfl, access⟩ := about.defined start defined
      have order := sorted.le (mem_accesses_write.mp access) reads
      omega
    | inr written =>
      obtain ⟨first, starts, least⟩ := about.written position' (mem_accesses_write.mpr written)
      obtain rfl := Option.some.inj (defined.symm.trans starts)
      omega

end Ranges

section Slots

variable {table : LiveTable} {statics : Names} {slots : List Slot} {slot : Slot}

theorem Assigned.precedes_of_head (assigned : Assigned table statics slots) (member : slot ∈ slots)
    {blob other : String} (head : slot.blobs.head? = some blob) (among : other ∈ slot.blobs)
    (different : other ≠ blob) : table.Precedes blob other := by
  obtain ⟨rest, blobs⟩ := List.head?_eq_some_iff.mp head
  have ordered := assigned.pairwise_precedes member
  rw [blobs] at ordered among
  have later : other ∈ rest := (List.mem_cons.mp among).resolve_left different
  exact (List.pairwise_cons.mp ordered).1 other later

theorem Assigned.head_or_precedes (assigned : Assigned table statics slots) (member : slot ∈ slots)
    {blob : String} (inside : blob ∈ slot.blobs) : slot.blobs.head? = some blob ∨
      ∃ other ∈ slot.blobs, other ≠ blob ∧ table.Precedes other blob := by
  cases blobs : slot.blobs with
  | nil => simp [blobs] at inside
  | cons first rest =>
    rw [blobs] at inside
    by_cases same : first = blob
    next => exact .inl (congrArg some same)
    next =>
      have head : slot.blobs.head? = some first := congrArg List.head? blobs
      have among : blob ∈ slot.blobs := blobs ▸ inside
      have different : blob ≠ first := fun equal => same equal.symm
      exact .inr ⟨first, List.mem_cons_self, same,
        assigned.precedes_of_head member head among different⟩

theorem Assigned.last_or_precedes (assigned : Assigned table statics slots) (member : slot ∈ slots)
    {blob : String} (inside : blob ∈ slot.blobs) : slot.blobs.getLast? = some blob ∨
      ∃ other ∈ slot.blobs, blob ≠ other ∧ table.Precedes blob other := by
  have ordered := (assigned.pairwise_precedes member).and (assigned.nodup_blobs member)
  have filled : slot.blobs ≠ [] := List.ne_nil_of_mem inside
  have last := List.getLast?_eq_some_getLast filled
  rw [← List.dropLast_concat_getLast filled] at inside
  cases List.mem_append.mp inside with
  | inl earlier =>
    have ⟨precedes, different⟩ := ordered.rel_dropLast_getLast earlier
    exact .inr ⟨_, List.getLast_mem filled, different, precedes⟩
  | inr final => exact .inl (last.trans (congrArg some (List.mem_singleton.mp final).symm))

end Slots

section Plans

variable {net : Net} {statics : Names} {sizes : Option Sizes} {settings : Settings} {plan : Plan}

theorem Planned.unread_iff {graph : Graph} {ops : List Op} {table : LiveTable}
    (planned : Planned net statics sizes settings plan graph ops table) {blob : String} :
    Unread net.ops blob ↔ Unread ops blob := by
  constructor
  next =>
    intro unread
    have ⟨⟨number, op, found, output⟩, unread⟩ := unread
    obtain ⟨position, -, placed⟩ := planned.placed found
    refine ⟨⟨position, op, placed, output⟩, fun reader read => ?_⟩
    obtain ⟨number', -, original⟩ := planned.readAt read
    exact unread number' original
  next =>
    intro unread
    have ⟨⟨position, written⟩, unread⟩ := unread
    obtain ⟨number, -, original⟩ := planned.writtenAt written
    refine ⟨⟨number, original⟩, fun reader read => ?_⟩
    obtain ⟨op, found, input⟩ := read
    obtain ⟨position', -, placed⟩ := planned.placed found
    exact unread position' ⟨op, placed, input⟩

theorem Planned.last_or_unread {graph : Graph} {ops : List Op} {table : LiveTable}
    (planned : Planned net statics sizes settings plan graph ops table) {blob : String}
    (unread : Unread ops blob) : ∃ slot ∈ plan.slots, blob ∈ slot.blobs ∧
      (slot.blobs.getLast? = some blob ∨ ∃ other ∈ slot.blobs, blob ≠ other ∧
        Unread ops other ∧ Late ops other ∧ other ∉ statics.toList) := by
  have covers := planned.covers
  have assigned := planned.assigned
  have ⟨⟨position, written⟩, never⟩ := unread
  obtain ⟨range, known⟩ := covers.exists_get?.mpr ⟨position, .inr written⟩
  obtain ⟨slot, member, inside⟩ := assigned.exists_slot known
  refine ⟨slot, member, inside, (assigned.last_or_precedes member inside).imp_right fun after => ?_⟩
  obtain ⟨other, among, different, precedes⟩ := after
  have ⟨unread', late⟩ := covers.unread_of_precedes planned.writesFirst precedes never
  exact ⟨other, among, different, unread', late, assigned.not_static member among inside different.symm⟩

theorem planSharing_unread_last_iff
    (planned : (planSharing net statics sizes settings).outcome = .ok plan) :
    ((∀ blob, Unread net.ops blob → ∃ slot ∈ plan.slots, slot.blobs.getLast? = some blob) ↔
      ∀ slot ∈ plan.slots, ∀ a ∈ slot.blobs, ∀ b ∈ slot.blobs,
        Unread net.ops a → Unread net.ops b → a = b) ∧
    ((∀ blob, Unread net.ops blob → Late (plan.line net) blob → blob ∈ statics.toList) →
      ∀ blob, Unread net.ops blob → ∃ slot ∈ plan.slots, slot.blobs.getLast? = some blob) ∧
    ∀ slot ∈ plan.slots, slot.blobs.Pairwise fun earlier later =>
      Unread net.ops earlier → Unread net.ops later ∧ Late (plan.line net) later := by
  obtain ⟨graph, ops, table, planned⟩ := planned_of_outcome planned
  have line := planned.line_eq
  have assigned := planned.assigned
  simp only [planned.unread_iff, line]
  refine ⟨⟨?unique, ?last⟩, ?early, ?followed⟩
  case unique =>
    intro last slot member a here b here' first second
    have same (c : String) (inside : c ∈ slot.blobs) (unread : Unread ops c) :
        slot.blobs.getLast? = some c := by
      obtain ⟨other, member', final⟩ := last c unread
      rwa [slot_eq_of_blob assigned.nodup member member' inside (List.mem_of_getLast? final)]
    exact Option.some.inj ((same a here first).symm.trans (same b here' second))
  case last =>
    intro unique blob unread
    obtain ⟨slot, member, inside, last | ⟨other, among, different, unread', -⟩⟩ :=
      planned.last_or_unread unread
    next => exact ⟨slot, member, last⟩
    next => exact absurd (unique slot member blob inside other among unread unread') different
  case early =>
    intro early blob unread
    obtain ⟨slot, member, -, last | ⟨other, -, -, unread', late, notStatic⟩⟩ :=
      planned.last_or_unread unread
    next => exact ⟨slot, member, last⟩
    next => exact absurd (early other unread' late) notStatic
  case followed =>
    intro slot member
    apply (assigned.pairwise_precedes member).imp
    intro earlier later precedes unread
    exact planned.covers.unread_of_precedes planned.writesFirst precedes unread.2

theorem planSharing_unread_last_iff_chain :
    let net := (Net.named "chain").withOps
      [⟨"A", [], ["a"], []⟩, ⟨"B", ["a"], ["b"], []⟩, ⟨"C", ["b"], ["c"], []⟩]
    ∃ plan, (planSharing net .empty none { ordering := .plain }).outcome = .ok plan ∧
      plan.slots.map Slot.blobs = [["a", "c"], ["b"]] ∧
      ∀ blob, Unread net.ops blob → ∃ slot ∈ plan.slots, slot.blobs.getLast? = some blob := by
  intro net
  obtain ⟨plan, outcome, slots⟩ : ∃ plan,
      (planSharing net .empty none { ordering := .plain }).outcome = .ok plan ∧
        plan.slots.map Slot.blobs = [["a", "c"], ["b"]] := exists_ok_of_view (by decide +kernel)
  refine ⟨plan, outcome, slots, (planSharing_unread_last_iff outcome).1.mpr ?_⟩
  have only {blob : String} (unread : Unread net.ops blob) : blob = "c" := by
    obtain ⟨⟨position, op, found, output⟩, never⟩ := unread
    have reads (op : Op) (member : op ∈ net.ops) : blob ∉ op.inputs := fun input =>
      have ⟨reader, here⟩ := List.mem_iff_getElem?.mp member
      never reader ⟨op, here, input⟩
    have member := List.mem_of_getElem? found
    simp only [net, Net.withOps, List.mem_cons, List.not_mem_nil, or_false] at member reads
    rcases member with rfl | rfl | rfl <;> simp_all
  intro slot member a here b here' first second
  exact (only first).trans (only second).symm

-- Nothing is read, so the uses of both blobs end at position zero, and the second write is behind that.
theorem planSharing_overwrites_unread :
    let net := (Net.named "unread").withOps [⟨"A", [], ["u"], []⟩, ⟨"B", [], ["v"], []⟩]
    ∃ plan, (planSharing net .empty none { ordering := .plain }).outcome = .ok plan ∧
      Unread net.ops "u" ∧ ¬ ∃ slot ∈ plan.slots, slot.blobs.getLast? = some "u" := by
  intro net
  obtain ⟨plan, outcome, slots⟩ : ∃ plan,
      (planSharing net .empty none { ordering := .plain }).outcome = .ok plan ∧
        plan.slots.map Slot.blobs = [["u", "v"]] := exists_ok_of_view (by decide +kernel)
  refine ⟨plan, outcome, ⟨⟨0, ⟨"A", [], ["u"], []⟩, rfl, by simp⟩, ?never⟩, ?last⟩
  case never =>
    intro position read
    obtain ⟨op, found, input⟩ := read
    have member := List.mem_of_getElem? found
    simp only [net, Net.withOps, List.mem_cons, List.not_mem_nil, or_false] at member
    rcases member with rfl | rfl <;> simp at input
  case last =>
    intro kept
    obtain ⟨slot, member, last⟩ := kept
    have inside := List.mem_map_of_mem (f := Slot.blobs) member
    rw [slots, List.mem_singleton] at inside
    rw [inside] at last
    exact absurd last (by decide)

theorem planSharing_entry_first_iff
    (planned : (planSharing net statics sizes settings).outcome = .ok plan) {blob : String}
    {position : Nat} (first : ReadsFirst (plan.line net) blob position) :
    ∃ slot ∈ plan.slots, blob ∈ slot.blobs ∧
      (slot.blobs.head? = some blob ↔ ∀ other ∈ slot.blobs, other ≠ blob → ∀ position',
        ReadAt (plan.line net) other position' ∨ WrittenAt (plan.line net) other position' →
          position < position') ∧
      (slot.blobs.head? = some blob ∨ OnlyInPlace net.ops blob ∧ blob ∉ statics.toList) := by
  obtain ⟨graph, ops, table, planned⟩ := planned_of_outcome planned
  have covers := planned.covers
  have assigned := planned.assigned
  have sorted := planned.writesFirst
  have line := planned.line_eq
  rw [line] at first ⊢
  obtain ⟨range, known⟩ := covers.exists_get?.mpr ⟨position, .inl first.1⟩
  obtain ⟨slot, member, inside⟩ := assigned.exists_slot known
  have behind := assigned.head_or_precedes member inside
  refine ⟨slot, member, inside, ⟨fun head => ?apart, fun later => ?first⟩, behind.imp_right ?inPlace⟩
  case apart =>
    intro other among different position' accessed
    have precedes := assigned.precedes_of_head member head among different
    exact covers.lt_of_precedes sorted first.1 precedes accessed
  case first =>
    apply behind.resolve_right
    intro preceded
    obtain ⟨other, among, different, precedes⟩ := preceded
    obtain ⟨-, reader, early, read⟩ := covers.read_of_precedes sorted first precedes
    have less := later other among different reader (.inl read)
    omega
  case inPlace =>
    intro preceded
    obtain ⟨other, among, different, precedes⟩ := preceded
    have only := (covers.read_of_precedes sorted first precedes).1
    exact ⟨planned.onlyInPlace only, assigned.not_static member inside among different.symm⟩

theorem planSharing_entry_first_iff_update :
    let net := (Net.named "update").withOps
      [⟨"Inc", ["p"], ["p"], []⟩, ⟨"Use", ["p"], ["q"], []⟩, ⟨"Use", ["q"], ["r"], []⟩]
    ∃ plan, (planSharing net .empty none { ordering := .plain }).outcome = .ok plan ∧
      plan.slots.map Slot.blobs = [["p", "r"], ["q"]] ∧ ReadsFirst (plan.line net) "p" 0 ∧
      ∃ slot ∈ plan.slots, slot.blobs.head? = some "p" := by
  intro net
  obtain ⟨plan, outcome, seen⟩ : ∃ plan,
      (planSharing net .empty none { ordering := .plain }).outcome = .ok plan ∧
        (plan.order, plan.slots.map Slot.blobs) = ([0, 1, 2], [["p", "r"], ["q"]]) :=
    exists_ok_of_view (by decide +kernel)
  obtain ⟨order, slots⟩ := Prod.mk.inj seen
  have line : plan.line net = net.ops := by rw [Plan.line, order]; rfl
  have first : ReadsFirst (plan.line net) "p" 0 := by
    rw [line]
    exact ⟨⟨⟨"Inc", ["p"], ["p"], []⟩, rfl, by simp⟩, by simp⟩
  obtain ⟨slot, member, inside, head, -⟩ := planSharing_entry_first_iff outcome first
  refine ⟨plan, outcome, slots, first, slot, member, head.mpr ?_⟩
  intro other among different position accessed
  -- The first operation accesses nothing else.
  apply Nat.pos_of_ne_zero
  rintro rfl
  rw [line] at accessed
  apply different
  simpa [ReadAt, WrittenAt, net, Net.withOps] using accessed

-- The update that reads the value of the blob is also what defines it, so the storage is taken for free
-- before that.
theorem planSharing_overwrites_entry :
    let net := (Net.named "updates").withOps [⟨"Inc", ["a"], ["a"], []⟩, ⟨"Inc", ["p"], ["p"], []⟩]
    ∃ plan, (planSharing net .empty none { ordering := .plain }).outcome = .ok plan ∧
      ReadsFirst (plan.line net) "p" 1 ∧ ¬ ∃ slot ∈ plan.slots, slot.blobs.head? = some "p" := by
  intro net
  obtain ⟨plan, outcome, seen⟩ : ∃ plan,
      (planSharing net .empty none { ordering := .plain }).outcome = .ok plan ∧
        (plan.order, plan.slots.map Slot.blobs) = ([0, 1], [["a", "p"]]) :=
    exists_ok_of_view (by decide +kernel)
  obtain ⟨order, slots⟩ := Prod.mk.inj seen
  refine ⟨plan, outcome, ?first, ?behind⟩
  case first =>
    rw [Plan.line, order]
    refine ⟨⟨⟨"Inc", ["p"], ["p"], []⟩, rfl, by simp⟩, fun earlier less => ?_⟩
    obtain rfl : earlier = 0 := by omega
    simp [WrittenAt, schedule, net, Net.withOps]
  case behind =>
    intro leads
    obtain ⟨slot, member, head⟩ := leads
    have inside := List.mem_map_of_mem (f := Slot.blobs) member
    rw [slots, List.mem_singleton] at inside
    rw [inside] at head
    exact absurd head (by decide)

end Plans

end StoragePlan
