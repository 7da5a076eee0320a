import StoragePlan.Interference
import StoragePlan.Proofs.Live.Range
import StoragePlan.Proofs.Order.DepthFirst
import StoragePlan.Proofs.Order.Reorder
import StoragePlan.Proofs.Rename
import StoragePlan.Proofs.Slot.Assign
import StoragePlan.Proofs.Slot.Naming

set_option autoImplicit false

namespace StoragePlan

/-- Whatever reads a blob comes after everything else that writes it. -/
def WritesFirst (ops : List Op) : Prop :=
  ∀ blob writer reader, WrittenAt ops blob writer → ReadAt ops blob reader → writer ≠ reader →
    writer < reader

theorem WritesFirst.le {ops : List Op} (sorted : WritesFirst ops) {blob : String} {writer reader : Nat}
    (written : WrittenAt ops blob writer) (read : ReadAt ops blob reader) : writer ≤ reader := by
  by_cases same : writer = reader
  next => exact Nat.le_of_eq same
  next => exact Nat.le_of_lt (sorted blob writer reader written read same)

theorem Graph.Linear.writesFirst {g : Graph} {order : List Nat} (linear : g.Linear order)
    {ops ops' : List Op} (built : Graph.ofOps ops = .ok g) (brought : reorderOps ops order = .ok ops') :
    WritesFirst ops' := by
  intro blob p q written read different
  obtain ⟨i, here, writer, producer, output⟩ := writtenAt_of_reorderOps brought written
  obtain ⟨j, there, reader, consumer, input⟩ := readAt_of_reorderOps brought read
  have nodup := linear.nodup
  obtain ⟨bound, rfl⟩ := List.getElem?_eq_some_iff.mp here
  obtain ⟨bound', rfl⟩ := List.getElem?_eq_some_iff.mp there
  have apart : order[p] ≠ order[q] := fun same =>
    different ((List.Nodup.getElem_inj_iff nodup).mp same)
  have edge : g.Leads order[p] order[q] := (Graph.leads_ofOps built).mpr
    ⟨apart, writer, reader, producer, consumer, blob, output, input⟩
  have less := linear.forward _ _ (Graph.hasEdge_iff.mpr edge)
  rwa [nodup.idxOf_getElem, nodup.idxOf_getElem] at less

/-- The blob is written by one operation only, and that one reads it. -/
def OnlyInPlace (ops : List Op) (blob : String) : Prop :=
  ∃ position, ReadAt ops blob position ∧ WrittenAt ops blob position ∧
    ∀ other, WrittenAt ops blob other → other = position

theorem before_resolve {a b : LiveRange} {lastUse : Int} :
    (a.resolve lastUse).before (b.resolve lastUse) = true ↔
      a.used.getD lastUse < b.defined.getD (-1) := by
  simp [LiveRange.before, LiveRange.resolve]

/-- The use of the one blob ends before the other one is written for the first time. -/
def LiveTable.Precedes (table : LiveTable) (earlier later : String) : Prop :=
  ∃ r r', table.get? earlier = some r ∧ table.get? later = some r' ∧
    r.used.getD (endOfUse table.entries) < r'.defined.getD (-1)

section Slots

variable {table : LiveTable} {statics : Names} {slots : List Slot} {slot : Slot}

theorem Assigned.range_of_mem (assigned : Assigned table statics slots) (member : slot ∈ slots)
    {entry : Entry} (inside : entry ∈ slot) : ∃ range, table.get? entry.blob = some range ∧
      entry.range = range.resolve (endOfUse table.entries) := by
  have found := assigned.perm.mem_iff.mp (List.mem_flatten.mpr ⟨slot, member, inside⟩)
  obtain ⟨original, known, rfl⟩ := List.mem_map.mp found
  exact ⟨original.range, LiveTable.get?_iff.mpr known, rfl⟩

theorem Assigned.exists_slot (assigned : Assigned table statics slots) {blob : String}
    {range : LiveRange} (known : table.get? blob = some range) :
    ∃ slot ∈ slots, blob ∈ slot.blobs := by
  have inside : table.normalized ⟨blob, range⟩ ∈ slots.flatten :=
    assigned.perm.mem_iff.mpr (List.mem_map_of_mem (LiveTable.get?_iff.mp known))
  obtain ⟨slot, member, here⟩ := List.mem_flatten.mp inside
  exact ⟨slot, member, List.mem_map_of_mem here⟩

theorem Assigned.nodup_blobs (assigned : Assigned table statics slots) (member : slot ∈ slots) :
    slot.blobs.Nodup := by
  have nodup := assigned.nodup
  rw [List.map_flatten] at nodup
  exact (List.nodup_flatten.mp nodup).1 _ (List.mem_map_of_mem member)

theorem Assigned.static_alone (assigned : Assigned table statics slots) (member : slot ∈ slots)
    {blob : String} (inside : blob ∈ slot.blobs) (static : blob ∈ statics.toList) :
    slot.blobs = [blob] := by
  obtain ⟨shared, alone, rfl, sharable, singles⟩ := assigned.split
  rcases List.mem_append.mp member with here | here
  next =>
    obtain ⟨entry, among, rfl⟩ := List.mem_map.mp inside
    exact absurd static ((sharable slot here).2 entry among)
  next =>
    obtain ⟨only, rfl, -⟩ := singles slot here
    rw [Slot.blobs, List.map_singleton, List.mem_singleton] at inside
    rw [Slot.blobs, List.map_singleton, inside]

theorem Assigned.not_static (assigned : Assigned table statics slots) (member : slot ∈ slots)
    {a b : String} (first : a ∈ slot.blobs) (second : b ∈ slot.blobs) (different : a ≠ b) :
    a ∉ statics.toList := by
  intro static
  rw [assigned.static_alone member first static, List.mem_singleton] at second
  exact different second.symm

theorem Assigned.apply_static (assigned : Assigned table statics slots) (naming : Naming)
    {blob : String} (static : blob ∈ statics.toList) :
    (canonicalNames naming slots).apply blob = blob := by
  rcases apply_canonicalNames naming slots blob with ⟨index, slot, here, inside, -⟩ | ⟨-, same⟩
  next =>
    have ⟨member, several⟩ := mem_sharedSlots.mp (List.mem_of_getElem? here)
    exact absurd (assigned.static_alone member inside static) (blobs_ne_singleton several)
  next => exact same

theorem Assigned.pairwise_precedes (assigned : Assigned table statics slots) (member : slot ∈ slots) :
    slot.blobs.Pairwise table.Precedes := by
  apply List.pairwise_map.mpr
  refine (assigned.apart slot member).imp_of_mem fun {x y} here there before => ?_
  obtain ⟨r, known, resolved⟩ := assigned.range_of_mem member here
  obtain ⟨r', known', resolved'⟩ := assigned.range_of_mem member there
  rw [resolved, resolved', before_resolve] at before
  exact ⟨r, r', known, known', before⟩

theorem Assigned.one_precedes (assigned : Assigned table statics slots) (member : slot ∈ slots)
    {a b : String} (first : a ∈ slot.blobs) (second : b ∈ slot.blobs) (different : a ≠ b) :
    table.Precedes a b ∨ table.Precedes b a := by
  -- Which of the two stands in front does not matter, so the order within the slot is forgotten.
  have symm : Std.Symm fun a b => table.Precedes a b ∨ table.Precedes b a := ⟨fun _ _ => Or.symm⟩
  have either : slot.blobs.Pairwise fun a b => table.Precedes a b ∨ table.Precedes b a :=
    (assigned.pairwise_precedes member).imp Or.inl
  exact either.forall first second different

end Slots

section Ranges

variable {ops : List Op} {table : LiveTable}

theorem LiveTable.Covers.endOfUse_gt (covers : table.Covers (accesses ops)) {position : Nat}
    {blob : String} (read : ReadAt ops blob position) : (position : Int) < endOfUse table.entries := by
  have access := mem_accesses_read.mpr read
  obtain ⟨range, known⟩ := Option.ne_none_iff_exists'.mp (covers.known _ access)
  obtain ⟨final, used, bound⟩ := (covers.ranges blob range known).read position access
  have less := lt_endOfUse (LiveTable.get?_iff.mp known) used
  omega

theorem LiveTable.Covers.written_le_used (covers : table.Covers (accesses ops))
    (sorted : WritesFirst ops) {position : Nat} {blob : String} (written : WrittenAt ops blob position)
    {range : LiveRange} (known : table.get? blob = some range) {final : Int}
    (used : range.used = some final) : (position : Int) ≤ final := by
  obtain ⟨reader, rfl, access⟩ := (covers.ranges blob range known).used final used
  exact Int.ofNat_le.mpr (sorted.le written (mem_accesses_read.mp access))

theorem LiveTable.Covers.defined_le (covers : table.Covers (accesses ops)) (sorted : WritesFirst ops)
    {start position : Nat} {blob : String} (first : ReadsFirst (ops.drop start) blob position)
    (shared : ¬ OnlyInPlace ops blob) {range : LiveRange} (known : table.get? blob = some range) :
    range.defined.getD (-1) < start := by
  -- What is read first after a position was live there already, unless only the reader writes it.
  obtain ⟨read, untouched⟩ := first
  rw [readAt_drop] at read
  have early (writer : Nat) (written : WrittenAt ops blob writer) (different : writer ≠ start + position) :
      writer < start := by
    have less := sorted blob writer _ written read different
    apply Nat.lt_of_not_le
    intro late
    apply untouched (writer - start) (by omega)
    rwa [writtenAt_drop, Nat.add_sub_cancel' late]
  cases defined : range.defined with
  | none => exact Int.lt_of_lt_of_le (by decide) (Int.natCast_nonneg start)
  | some begins =>
    obtain ⟨writer, rfl, access⟩ := (covers.ranges blob range known).defined begins defined
    have written := mem_accesses_write.mp access
    by_cases same : writer = start + position
    next =>
      -- The first write is the last one: any other one would come before it.
      refine absurd ⟨_, read, same ▸ written, fun other write => ?_⟩ shared
      by_contra different
      have less := early other write different
      obtain ⟨least, starts, bound⟩ := (covers.ranges blob range known).written other
        (mem_accesses_write.mpr write)
      obtain rfl := Option.some.inj (defined.symm.trans starts)
      omega
    next => exact Int.ofNat_lt.mpr (early writer written same)

def Kept (statics : Names) (ops : List Op) (blob : String) : Prop :=
  blob ∈ statics.toList ∧ ∃ position, WrittenAt ops blob position

section Slots

variable {statics : Names} {slots : List Slot} (sorted : WritesFirst ops)
  (covers : table.Covers (accesses ops)) (assigned : Assigned table statics slots)
  (inPlace : ∀ blob, OnlyInPlace ops blob → blob ∈ statics.toList)

include sorted covers assigned inPlace

theorem apart_of_read_later {position later : Nat} {live written : String}
    (writes : WrittenAt ops written position)
    (first : ReadsFirst (ops.drop (position + 1)) live later) (different : live ≠ written)
    {slot : Slot} (shared : slot ∈ slots) (here : live ∈ slot.blobs) (here' : written ∈ slot.blobs) :
    False := by
  have reads := readAt_drop.mp first.1
  have notStatic := assigned.not_static shared here here' different
  cases assigned.one_precedes shared here here' different with
  | inl precedes =>
    obtain ⟨r, r', known, known', liveFirst⟩ := precedes
    -- The range of the live blob lasts until it is read, which is after the write.
    obtain ⟨final, used, reading⟩ :=
      (covers.ranges live r known).read _ (mem_accesses_read.mpr reads)
    obtain ⟨start, defined, writing⟩ :=
      (covers.ranges written r' known').written _ (mem_accesses_write.mpr writes)
    rw [used, defined, Option.getD_some, Option.getD_some] at liveFirst
    omega
  | inr precedes =>
    obtain ⟨r', r, known', known, writtenFirst⟩ := precedes
    -- The live blob is defined by the time of the write, and the written one is in use then.
    have begun := covers.defined_le sorted first (fun only => notStatic (inPlace live only)) known
    have ended : (position : Int) ≤ r'.used.getD (endOfUse table.entries) := by
      cases used : r'.used with
      | none =>
        -- A blob that is never read is kept until the end, behind all reads.
        have beyond := covers.endOfUse_gt reads
        rw [Option.getD_none]
        omega
      | some final => exact covers.written_le_used sorted writes known' used
    omega

theorem undisturbed_canonicalNames {naming : Naming}
    (fresh : ∀ scope, naming = .scoped scope → ∀ index blob position,
      WrittenAt ops blob position ∨ ReadAt ops blob position →
        sharedName (normalizeScope scope) index ≠ blob) :
    Undisturbed (canonicalNames naming slots).apply (Kept statics ops) ops := by
  apply undisturbed_of_positions
  intro position written writes live need same
  -- Whether it is read or kept, what is live is accessed by some operation.
  have accessed : ∃ position, WrittenAt ops live position ∨ ReadAt ops live position := by
    cases liveIn_iff.mp need with
    | inl reads =>
      obtain ⟨later, read, -⟩ := reads
      exact ⟨_, .inr (readAt_drop.mp read)⟩
    | inr kept =>
      obtain ⟨⟨-, writer, write⟩, -⟩ := kept
      exact ⟨writer, .inl write⟩
  obtain ⟨position', accessed⟩ := accessed
  have unnamed (scope : String) (numbered : naming = .scoped scope) (index : Nat) (blob : String)
      (either : blob ∈ [live, written]) : sharedName (normalizeScope scope) index ≠ blob := by
    rcases List.mem_pair.mp either with rfl | rfl
    next => exact fresh scope numbered index _ position' accessed
    next => exact fresh scope numbered index _ position (.inl writes)
  have together := together_of_same_name assigned.nodup
    (fun scope numbered index _ blob either _ => unnamed scope numbered index blob either) same
  cases together with
  | inl equal => exact equal
  | inr slot =>
    obtain ⟨slot, shared, here, here'⟩ := slot
    by_contra different
    cases liveIn_iff.mp need with
    | inl reads =>
      obtain ⟨later, first⟩ := reads
      exact apart_of_read_later sorted covers assigned inPlace writes first different shared here here'
    | inr kept => exact assigned.not_static shared here here' different kept.1.1

end Slots

end Ranges

section Plans

variable {net : Net} {statics : Names} {sizes : Option Sizes} {settings : Settings} {plan : Plan}

def Plan.line (plan : Plan) (net : Net) : List Op := (schedule net.ops plan.order).map (·.1)

structure Planned (net : Net) (statics : Names) (sizes : Option Sizes) (settings : Settings)
    (plan : Plan) (graph : Graph) (ops : List Op) (table : LiveTable) : Prop where
  built : Graph.ofOps net.ops = .ok graph
  sorted : graph.linearize settings.ordering = .ok plan.order
  brought : reorderOps net.ops plan.order = .ok ops
  computed : LiveTable.ofOps sizes ops = .ok table
  slots : plan.slots = assignSlots table statics
  names : plan.names = canonicalNames settings.naming plan.slots
  renamed : List.Forall₂ (Op.RenamedBy plan.names.apply) ops plan.net.ops

theorem planned_of_outcome (planned : (planSharing net statics sizes settings).outcome = .ok plan) :
    ∃ graph ops table, Planned net statics sizes settings plan graph ops table := by
  simp only [planSharing, Journal.outcome_bind, Journal.outcome_emit, Journal.outcome_ofExcept,
    Journal.outcome_pure, Except.ok.injEq] at planned
  obtain ⟨-, -, graph, built, order, sorted, -, -, ops, brought, table, computed, -, -, -, -, -, -, -, -,
    -, -, renamed, rename, -, -, rfl⟩ := planned
  exact ⟨graph, ops, table, built, sorted, brought, computed, rfl, rfl, Net.rename_renamed rename⟩

variable {graph : Graph} {ops : List Op} {table : LiveTable}

theorem Planned.linear (planned : Planned net statics sizes settings plan graph ops table) :
    graph.Linear plan.order := by
  obtain ⟨order, sorted, linear⟩ :=
    Graph.linearize_linear (Graph.built_ofOps planned.built) settings.ordering
  obtain rfl : order = plan.order := Except.ok.inj (sorted.symm.trans planned.sorted)
  exact linear

theorem Planned.getElem? (planned : Planned net statics sizes settings plan graph ops table)
    (position : Nat) : ops[position]? = plan.order[position]?.bind (net.ops[·]?) :=
  (schedule_of_reorderOps planned.brought).2.2 position

theorem Planned.covers (planned : Planned net statics sizes settings plan graph ops table) :
    table.Covers (accesses ops) :=
  LiveTable.covers_ofOps planned.computed

theorem Planned.assigned (planned : Planned net statics sizes settings plan graph ops table) :
    Assigned table statics plan.slots := by
  rw [planned.slots]
  exact assignSlots_assigned table statics

theorem Plan.line_eq (brought : reorderOps net.ops plan.order = .ok ops) : plan.line net = ops := by
  have ⟨length, same, _⟩ := schedule_of_reorderOps brought
  rw [Plan.line, same]
  exact List.map_fst_zip (Nat.le_of_eq length)

theorem Planned.line_eq (planned : Planned net statics sizes settings plan graph ops table) :
    plan.line net = ops := Plan.line_eq planned.brought

theorem Planned.placed (planned : Planned net statics sizes settings plan graph ops table)
    {number : Nat} {op : Op} (found : net.ops[number]? = some op) :
    ∃ position : Nat, plan.order[position]? = some number ∧ ops[position]? = some op := by
  have inside : number ∈ plan.order := by
    rw [planned.linear.mem_iff, Graph.size_ofOps planned.built]
    exact (List.getElem?_eq_some_iff.mp found).1
  obtain ⟨position, here⟩ := List.mem_iff_getElem?.mp inside
  refine ⟨position, here, ?_⟩
  rw [planned.getElem?, here]
  exact found

theorem Planned.writtenAt (planned : Planned net statics sizes settings plan graph ops table)
    {blob : String} {position : Nat} (written : WrittenAt ops blob position) :
    ∃ number, plan.order[position]? = some number ∧ WrittenAt net.ops blob number :=
  writtenAt_of_reorderOps planned.brought written

theorem Planned.readAt (planned : Planned net statics sizes settings plan graph ops table)
    {blob : String} {position : Nat} (read : ReadAt ops blob position) :
    ∃ number, plan.order[position]? = some number ∧ ReadAt net.ops blob number :=
  readAt_of_reorderOps planned.brought read

theorem Planned.writesFirst (planned : Planned net statics sizes settings plan graph ops table) :
    WritesFirst ops :=
  planned.linear.writesFirst planned.built planned.brought

theorem Planned.onlyInPlace (planned : Planned net statics sizes settings plan graph ops table)
    {blob : String} (only : OnlyInPlace ops blob) : OnlyInPlace net.ops blob := by
  obtain ⟨position, read, written, single⟩ := only
  obtain ⟨number, here, reads⟩ := planned.readAt read
  obtain ⟨number', here', writes⟩ := planned.writtenAt written
  obtain rfl := Option.some.inj (here.symm.trans here')
  refine ⟨number, reads, writes, fun other write => ?_⟩
  obtain ⟨op, there, output⟩ := write
  obtain ⟨position', found, placed⟩ := planned.placed there
  obtain rfl := single position' ⟨op, placed, output⟩
  exact Option.some.inj (found.symm.trans here)

theorem Planned.placed_iff (planned : Planned net statics sizes settings plan graph ops table)
    {blob : String} : blob ∈ net.blobNames ↔ ∃ slot ∈ plan.slots, blob ∈ slot.blobs := by
  constructor
  next =>
    intro named
    have accessed : ∃ position, ReadAt ops blob position ∨ WrittenAt ops blob position := by
      obtain ⟨number, op, found, operand⟩ := mem_blobNames_iff.mp named
      obtain ⟨position, -, placed⟩ := planned.placed found
      exact ⟨position, operand.imp (⟨op, placed, ·⟩) (⟨op, placed, ·⟩)⟩
    obtain ⟨range, known⟩ := planned.covers.exists_get?.mpr accessed
    exact planned.assigned.exists_slot known
  next =>
    intro placed
    obtain ⟨slot, member, inside⟩ := placed
    obtain ⟨entry, here, rfl⟩ := List.mem_map.mp inside
    obtain ⟨range, known, -⟩ := planned.assigned.range_of_mem member here
    obtain ⟨position, accessed⟩ := planned.covers.exists_get?.mp ⟨range, known⟩
    cases accessed with
    | inl read =>
      obtain ⟨_, -, original⟩ := planned.readAt read
      exact mem_blobNames_of_readAt original
    | inr written =>
      obtain ⟨_, -, original⟩ := planned.writtenAt written
      exact mem_blobNames_of_writtenAt original

theorem Planned.undisturbed (planned : Planned net statics sizes settings plan graph ops table)
    (inPlace : ∀ blob, OnlyInPlace net.ops blob → blob ∈ statics.toList)
    (fresh : ∀ scope, settings.namescope = some scope → ∀ index,
      sharedName (normalizeScope scope) index ∉ net.blobNames) :
    Undisturbed plan.names.apply (Kept statics ops) ops := by
  rw [planned.names]
  apply undisturbed_canonicalNames planned.writesFirst planned.covers planned.assigned
    (fun blob only => inPlace blob (planned.onlyInPlace only))
  intro scope numbered index blob position accessed same
  apply fresh scope (Settings.naming_eq_scoped.mp numbered) index
  rw [same]
  cases accessed with
  | inl written =>
    obtain ⟨_, -, original⟩ := planned.writtenAt written
    exact mem_blobNames_of_writtenAt original
  | inr read =>
    obtain ⟨_, -, original⟩ := planned.readAt read
    exact mem_blobNames_of_readAt original

theorem planSharing_preserves_runs
    (planned : (planSharing net statics sizes settings).outcome = .ok plan)
    (inPlace : ∀ blob, OnlyInPlace net.ops blob → blob ∈ statics.toList)
    (fresh : ∀ scope, settings.namescope = some scope → ∀ index,
      sharedName (normalizeScope scope) index ∉ net.blobNames)
    {V : Type} (kernels : Nat → Kernel V) {store store' : Store V}
    (agree : ∀ blob position, ReadsFirst ((schedule net.ops plan.order).map (·.1)) blob position →
      store' (plan.names.apply blob) = store blob) :
    plan.order.Perm (List.range net.ops.length) ∧ plan.net.ops.length = plan.order.length ∧
      readsOf kernels (plan.net.ops.zip plan.order) store' =
        readsOf kernels (schedule net.ops plan.order) store ∧
      ∀ blob ∈ statics.toList, (∃ position, WrittenAt net.ops blob position) →
        plan.names.apply blob = blob ∧
          finalStore kernels (plan.net.ops.zip plan.order) store' blob =
            finalStore kernels (schedule net.ops plan.order) store blob := by
  obtain ⟨graph, ops, table, planned⟩ := planned_of_outcome planned
  obtain ⟨length, same, -⟩ := schedule_of_reorderOps planned.brought
  -- The run with old names is one of the operations that the plan renames.
  have first : (schedule net.ops plan.order).map (·.1) = ops := planned.line_eq
  have live (blob : String) (need : LiveIn (Kept statics ops) ops blob) :
      store' (plan.names.apply blob) = store blob := by
    cases liveIn_iff.mp need with
    | inl reads =>
      obtain ⟨position, reads⟩ := reads
      exact agree blob position (first ▸ reads)
    | inr kept =>
      obtain ⟨⟨-, writer, written⟩, untouched⟩ := kept
      exact absurd written (untouched writer)
  obtain ⟨reads, final⟩ := reads_renamed planned.renamed (planned.undisturbed inPlace fresh) kernels
    length.symm live
  refine ⟨?perm, planned.renamed.length_eq.symm.trans length, same ▸ reads, ?static⟩
  case perm =>
    have perm := planned.linear.perm
    rwa [Graph.nodes, Graph.size_ofOps planned.built] at perm
  case static =>
    intro blob static someWrites
    obtain ⟨number, op, original, output⟩ := someWrites
    obtain ⟨position, -, placed⟩ := planned.placed original
    have unchanged : plan.names.apply blob = blob := by
      rw [planned.names]
      exact planned.assigned.apply_static settings.naming static
    have kept := final blob ⟨static, position, op, placed, output⟩
    rw [unchanged] at kept
    exact ⟨unchanged, same ▸ kept⟩

end Plans

theorem planSharing_preserves_runs_chain :
    let net := (Net.named "chain").withOps
      [⟨"A", ["x"], ["a"], []⟩, ⟨"B", ["a"], ["b"], []⟩, ⟨"C", ["b"], ["c"], []⟩]
    let statics := Names.ofList ["c"]
    let kernels : Nat → Kernel Nat := fun number values _ => values.length + number
    let store : Store Nat := fun _ => 1
    ∃ plan, (planSharing net statics none { ordering := .plain }).outcome = .ok plan ∧
      plan.names.apply "x" = plan.names.apply "b" ∧
      readsOf kernels (plan.net.ops.zip plan.order) store =
        readsOf kernels (schedule net.ops plan.order) store ∧
      finalStore kernels (plan.net.ops.zip plan.order) store "c" =
        finalStore kernels (schedule net.ops plan.order) store "c" := by
  intro net statics kernels store
  have evaluated : (planSharing net statics none { ordering := .plain }).outcome.toOption.map
      (·.names.entries) = some [("b", "b"), ("x", "b")] := by decide +kernel
  cases outcome : (planSharing net statics none { ordering := .plain }).outcome with
  | error => simp [outcome, Except.toOption] at evaluated
  | ok plan =>
    have names : plan.names.entries = [("b", "b"), ("x", "b")] := by
      simpa [outcome, Except.toOption] using evaluated
    have inPlace : ∀ blob, OnlyInPlace net.ops blob → blob ∈ statics.toList := by
      rintro blob ⟨position, ⟨op, found, input⟩, ⟨op', found', output⟩, -⟩
      obtain rfl := Option.some.inj (found.symm.trans found')
      have member := List.mem_of_getElem? found
      simp only [net, Net.withOps, List.mem_cons, List.not_mem_nil, or_false] at member
      rcases member with rfl | rfl | rfl <;> simp_all
    obtain ⟨-, -, reads, final⟩ :=
      planSharing_preserves_runs outcome inPlace (by simp) kernels fun _ _ _ => rfl
    have static : "c" ∈ statics.toList := by decide +kernel
    have written : ∃ position, WrittenAt net.ops "c" position :=
      ⟨2, ⟨"C", ["b"], ["c"], []⟩, rfl, by simp⟩
    exact ⟨plan, rfl, by simp [Renaming.apply, Table.get?, names], reads, (final "c" static written).2⟩

end StoragePlan
