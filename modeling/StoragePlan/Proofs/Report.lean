import StoragePlan.Proofs.Outcome
import StoragePlan.Proofs.Rename.Report

set_option autoImplicit false

namespace StoragePlan

section Counts

variable {naming : Naming} {slots : List Slot} (nodup : (slots.flatten.map (·.blob)).Nodup)

include nodup

theorem mem_values_canonicalNames {name : String} : name ∈ (canonicalNames naming slots).values ↔
    ∃ numbered ∈ (sharedSlots slots).zipIdx, naming.nameOf numbered.1 numbered.2 = name := by
  rw [Table.mem_values_iff]
  constructor
  next =>
    intro mapped
    obtain ⟨blob, found⟩ := mapped
    obtain ⟨numbered, member, inside⟩ := List.mem_flatMap.mp (Table.mem_of_get?_ofList found)
    obtain ⟨entry, -, same⟩ := List.mem_map.mp inside
    exact ⟨numbered, member, (Prod.mk.inj same).2⟩
  next =>
    intro numbered
    obtain ⟨⟨slot, index⟩, member, rfl⟩ := numbered
    have here := List.mem_zipIdx_iff_getElem?.mp member
    have last := last_mem_blobs (mem_sharedSlots.mp (List.mem_of_getElem? here)).2 index
    have given := @apply_of_shared naming slots nodup index slot here _ last
    refine ⟨Naming.lastMember.nameOf slot index, ?_⟩
    cases found : (canonicalNames naming slots).get? (Naming.lastMember.nameOf slot index) with
    | some name => rw [← given, Renaming.apply, found, Option.getD_some]
    | none =>
      obtain ⟨entry, inside, same⟩ := List.mem_map.mp last
      refine absurd same (Table.get?_ofList_eq_none.mp found (entry.blob, naming.nameOf slot index) ?_)
      exact List.mem_flatMap.mpr ⟨(slot, index), member, List.mem_map_of_mem inside⟩

theorem length_eraseDups_values :
    (canonicalNames naming slots).values.eraseDups.length = (sharedSlots slots).length := by
  let names := (sharedSlots slots).zipIdx.map fun numbered => naming.nameOf numbered.1 numbered.2
  have distinct : names.Nodup := by
    refine List.pairwise_map.mpr ((pairwise_zipIdx (sharedSlots slots)).imp_of_mem ?_)
    rintro ⟨slot, i⟩ ⟨other, j⟩ first second less same
    have here := List.mem_zipIdx_iff_getElem?.mp first
    have there := List.mem_zipIdx_iff_getElem?.mp second
    have equal : i = j := by
      cases naming with
      | lastMember =>
        have last := last_mem_blobs (mem_sharedSlots.mp (List.mem_of_getElem? here)).2 i
        have last' := last_mem_blobs (mem_sharedSlots.mp (List.mem_of_getElem? there)).2 j
        exact index_of_blob nodup here there last (same ▸ last')
      | «scoped» scope => exact sharedName_inj same
    exact Nat.ne_of_lt less equal
  have perm : (canonicalNames naming slots).values.eraseDups.Perm names := by
    refine (List.perm_ext_iff_of_nodup (Graph.nodup_eraseDups _) distinct).mpr fun name => ?_
    rw [List.mem_eraseDups, mem_values_canonicalNames nodup, List.mem_map]
  rw [perm.length_eq, List.length_map, List.length_zipIdx]

end Counts

section Tables

variable {table : LiveTable} {statics : Names} {slots : List Slot} (assigned : Assigned table statics slots)

include assigned

theorem Assigned.size_eq : table.size = slots.flatten.length := by
  rw [assigned.perm.length_eq, List.length_map, LiveTable.size]

theorem Assigned.sharableCount_eq : sharableCount table statics =
    slots.flatten.length - slots.flatten.countP (statics.contains ·.blob) := by
  have same : slots.flatten.countP (statics.contains ·.blob) =
      table.entries.countP (statics.contains ·.blob) := by
    rw [assigned.perm.countP_eq, List.countP_map]
    rfl
  have both := List.length_eq_countP_add_countP (statics.contains ·.blob) (l := table.entries)
  have others : table.entries.countP (fun entry => !statics.contains entry.blob) =
      table.entries.length - table.entries.countP (statics.contains ·.blob) := by
    rw [both, Nat.add_sub_cancel_left]
    exact List.countP_congr fun entry _ => by simp
  rw [same, ← assigned.size_eq, LiveTable.size, sharableCount, ← List.countP_eq_length_filter, others]

end Tables

section Stages

variable {net : Net} {statics : Names} {sizes : Option Sizes} {settings : Settings}

structure Arranged (net : Net) (statics : Names) (sizes : Option Sizes) (settings : Settings)
    (order : List Nat) (line : List Op) (slots : List Slot) (names : Renaming) : Prop where
  ordered : ∃ graph, Graph.ofOps net.ops = .ok graph ∧ graph.linearize settings.ordering = .ok order
  brought : reorderOps net.ops order = .ok line
  assigned : ∃ table, LiveTable.ofOps sizes line = .ok table ∧ slots = assignSlots table statics
  named : names = canonicalNames settings.naming slots

def stagesReport (net : Net) (statics : Names) (settings : Settings) (order : List Nat) (slots : List Slot)
    (names : Renaming) : List Event :=
  [.started net.name net.ops.length statics.size, .ordered settings.ordering order,
    .rangesComputed slots.flatten.length,
    .sharableBlobs (slots.flatten.length - slots.flatten.countP (statics.contains ·.blob)),
    .assigned slots.length (sharedSlots slots).length, .remapped names.size (sharedSlots slots).length]

theorem planSharing_of_arranged {order : List Nat} {line : List Op} {slots : List Slot} {names : Renaming}
    (arranged : Arranged net statics sizes settings order line slots names) :
    planSharing net statics sizes settings = do
      Journal.mk (stagesReport net statics settings order slots names) (.ok ())
      let renamed ← { net with ops := line }.rename names
      Journal.emit (.finished .interference (some (footprint slots)))
      return ⟨renamed, slots, names, footprint slots, order⟩ := by
  obtain ⟨⟨graph, built, sorted⟩, brought, ⟨table, computed, sameSlots⟩, sameNames⟩ := arranged
  have assigned : Assigned table statics slots := sameSlots ▸ assignSlots_assigned table statics
  have count := @length_eraseDups_values settings.naming slots assigned.nodup
  rw [← sameNames] at count
  simp only [planSharing, built, sorted, brought, computed, verifySlots_assignSlots, ite_self,
    Journal.ofExcept_ok_bind, Journal.emit_bind, ← sameSlots, ← sameNames, assigned.size_eq,
    assigned.sharableCount_eq, count]
  rfl

theorem ofOps_arranged_or_missing {graph : Graph} (built : Graph.ofOps net.ops = .ok graph) :
    (∃ order line slots names, Arranged net statics sizes settings order line slots names) ∨
      ∃ order blob, graph.linearize settings.ordering = .ok order ∧
        planSharing net statics sizes settings =
          ⟨[.started net.name net.ops.length statics.size, .ordered settings.ordering order],
            .error (.missingSize blob)⟩ := by
  obtain ⟨order, line, sorted, -, brought, -⟩ := linearize_brought built settings.ordering
  have records := LiveTable.ofOps_outcome sizes line
  split at records
  next blob missing =>
    right
    refine ⟨order, blob, sorted, ?_⟩
    have failed : (LiveTable.ofOps sizes line : Except PlanError LiveTable) =
        .error (.missingSize blob) := records
    simp only [planSharing, built, sorted, brought, failed, Journal.ofExcept_ok_bind,
      Journal.ofExcept_error_bind, Journal.emit_bind]
    rfl
  next =>
    obtain ⟨table, computed⟩ := records
    exact .inl ⟨order, line, _, _, ⟨graph, built, sorted⟩, brought, ⟨table, computed, rfl⟩, rfl⟩

structure Reported (net : Net) (statics : Names) (settings : Settings) (plan : Plan)
    (sites : List StepSite) (events : List Event) : Prop where
  lists : ListsSites (StepSiteIn (plan.line net)) sites
  nodup : sites.Nodup
  held : ∀ site ∈ sites, site.isHeld = true
  events : events = stagesReport net statics settings plan.order plan.slots plan.names ++
    sites.map StepSite.event ++ [.finished .interference (some plan.footprint)]

/-- The run comes as far as the first step net that cannot be read. -/
structure Halted (net : Net) (statics : Names) (sizes : Option Sizes) (settings : Settings)
    (order : List Nat) (line : List Op) (slots : List Slot) (names : Renaming) (sites : List StepSite)
    (error : PlanError) (events : List Event) : Prop where
  arranged : Arranged net statics sizes settings order line slots names
  lists : ListsSites (StepSiteIn line) sites
  first : (sites.find? fun site => !site.isHeld).map StepSite.error = some error
  events : events = stagesReport net statics settings order slots names ++
    (sites.takeWhile StepSite.isHeld).map StepSite.event

end Stages

theorem planSharing_events (net : Net) (statics : Names) (sizes : Option Sizes) (settings : Settings) :
    let journal := planSharing net statics sizes settings
    let started : Event := .started net.name net.ops.length statics.size
    match journal.outcome with
    | .ok plan => ∃ sites, Reported net statics settings plan sites journal.events
    | .error (.closesCycle ..) => journal.events = [started]
    | .error (.missingSize _) => ∃ graph order, Graph.ofOps net.ops = .ok graph ∧
        graph.linearize settings.ordering = .ok order ∧
        journal.events = [started, .ordered settings.ordering order]
    | .error (.unsupportedNesting opType arg) => ∃ order line slots names sites,
        Halted net statics sizes settings order line slots names sites (.unsupportedNesting opType arg)
          journal.events
    | .error _ => False := by
  intro journal started
  rcases ofOps_cases net.ops with ⟨graph, built, -, -⟩ | ⟨front, edge, back, -, refused, -, -⟩
  next =>
    rcases @ofOps_arranged_or_missing net statics sizes settings graph built with
      ⟨order, line, slots, names, arranged⟩ | ⟨order, blob, sorted, same⟩
    next =>
      have same : journal = _ := planSharing_of_arranged arranged
      rw [Journal.bind_of_ok rfl] at same
      have ⟨sites, lists, follows⟩ := Net.rename_reports { net with ops := line } names
      cases renamed : ({ net with ops := line }.rename names).outcome with
      | ok net' =>
        have held := held_of_ok follows renamed
        have all : sites.takeWhile StepSite.isHeld = sites := List.takeWhile_eq_self_iff.mpr held
        rw [Journal.bind_of_ok renamed, follows.events, all] at same
        rw [same]
        refine ⟨sites, ?_, lists.nodup, held, (List.append_assoc _ _ _).symm⟩
        rw [Plan.line_eq arranged.brought]
        exact lists
      | error error =>
        have stopped := follows.errorOf?
        rw [Journal.bind_of_error renamed, follows.events] at same
        rw [renamed] at stopped
        obtain ⟨site, first, rfl⟩ := Option.map_eq_some_iff.mp stopped.symm
        rw [same]
        exact ⟨order, line, slots, names, sites, arranged, lists, stopped.symm, rfl⟩
    next =>
      have same : journal = _ := same
      rw [same]
      exact ⟨graph, order, built, sorted, rfl⟩
  next =>
    have same : journal = ⟨[started], .error (.closesCycle edge.producer edge.consumer edge.blobs)⟩ := by
      simp only [journal, planSharing, refused, Journal.emit_bind, Journal.ofExcept_error_bind]
      rfl
    rw [same]

-- The inner step net comes first, and then the two that the operation carries itself.
example :
    let inner : Op := ⟨"RecurrentNetwork", ["a"], ["b"], [⟨"inner_step_net", .net (Net.named "inner")⟩]⟩
    let net := (Net.named "loop").withOps [⟨"RecurrentNetwork", ["a"], ["b"],
      [⟨"step_net", .net ((Net.named "step").withOps [inner])⟩, ⟨"back_step_net", .net (Net.named "back")⟩]⟩]
    (planSharing net .empty none { ordering := .plain }).events =
      [.started "loop" 1 0, .ordered .plain [0], .rangesComputed 2, .sharableBlobs 2, .assigned 2 0,
        .remapped 0 0, .stepNetRenamed "RecurrentNetwork" "inner_step_net",
        .stepNetRenamed "RecurrentNetwork" "step_net", .stepNetRenamed "RecurrentNetwork" "back_step_net",
        .finished .interference (some ⟨2, 2⟩)] := by
  decide +kernel

end StoragePlan
