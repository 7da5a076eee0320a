import Mathlib.Data.List.Induction
import Mathlib.Order.Bounds.Defs
import StoragePlan.Proofs.Live.Line

set_option autoImplicit false

namespace StoragePlan

section Duplicates

variable {α : Type} [BEq α] [LawfulBEq α]

theorem eraseDups_concat (items : List α) (item : α) :
    (items ++ [item]).eraseDups =
      if item ∈ items then items.eraseDups else items.eraseDups ++ [item] := by
  rw [List.eraseDups_append]
  split
  next seen => simp [List.removeAll, seen]
  next fresh => simp [List.removeAll, fresh, List.eraseDups_cons]

theorem find?_eraseDups (test : α → Bool) (items : List α) :
    items.eraseDups.find? test = items.find? test := by
  induction items using List.reverseRecOn with
  | nil => rfl
  | append_singleton items item ih =>
    rw [eraseDups_concat, List.find?_append]
    split
    next seen =>
      rw [ih]
      cases found : items.find? test with
      | some first => rfl
      | none =>
        have failed := List.find?_eq_none.mp found item seen
        simp [failed]
    next => rw [List.find?_append, ih]

end Duplicates

theorem LiveTable.names_ofOps {sizes : Option Sizes} {ops : List Op} {table : LiveTable}
    (computed : ofOps sizes ops = .ok table) :
    table.entries.map (·.blob) = (ops.flatMap Op.operands).eraseDups := by
  rw [← blobs_accesses]
  refine ofOps_keeps (fun table done => table.entries.map (·.blob) = (done.map (·.blob)).eraseDups)
    ?_ rfl computed
  intro table table' done access recorded names
  have ⟨size, _, same⟩ := record_eq_ok.mp recorded
  have member : access.blob ∈ table.entries.map (·.blob) ↔ access.blob ∈ done.map (·.blob) := by
    rw [names, List.mem_eraseDups]
  rw [← same, update, names_updateEntry, List.map_append, List.map_singleton, eraseDups_concat, names]
  simp only [← names, member]

theorem LiveTable.ofOps_eq_error_iff {sizes : Option Sizes} {ops : List Op} {error : PlanError} :
    (ofOps sizes ops : Except PlanError LiveTable) = .error error ↔
      ∃ blob, (ops.flatMap Op.operands).find? (lacks sizes) = some blob ∧ error = .missingSize blob := by
  have outcome := ofOps_outcome sizes ops
  cases missing : (ops.flatMap Op.operands).find? (lacks sizes) with
  | some blob =>
    rw [missing] at outcome
    simp [outcome, eq_comm]
  | none =>
    rw [missing] at outcome
    obtain ⟨table, computed⟩ := outcome
    simp [computed]

theorem blobSizes_eq_error_iff {net : Net} {sizes : Sizes} {error : PlanError} :
    net.blobSizes sizes = .error error ↔
      ∃ blob, (net.ops.flatMap Op.operands).find? (lacks (some sizes)) = some blob ∧
        error = .missingSize blob := by
  rw [← find?_eraseDups, ← Net.blobNames, Net.blobSizes]
  induction net.blobNames with
  | nil => simp [pure, Except.pure]
  | cons blob rest ih =>
    rw [List.find?_cons, List.mapM_cons, requireSize]
    cases known : sizes blob with
    | none => simp [lacks, known, eq_comm]
    | some size =>
      simp only [lacks, Option.any_some, known, Option.isNone_some, ok_bind] at ih ⊢
      rw [← ih]
      cases rest.mapM (requireSize sizes) with
      | error other => simp
      | ok sized => simp [pure, Except.pure]

theorem size_of_sizeOf? {sizes : Option Sizes} {blob : String} {size : Option UInt64}
    (asked : sizeOf? sizes blob = .ok size) : size = sizes.bind (· blob) := by
  cases sizes with
  | none => simpa [sizeOf?, eq_comm] using asked
  | some known => cases given : known blob <;> simp_all [sizeOf?]

structure LiveRange.Spans (range : LiveRange) (ops : List Op) (blob : String) : Prop where
  defined : ∀ start, range.defined = some start ↔
    ∃ position : Nat, start = position ∧ IsLeast {position | WrittenAt ops blob position} position
  undefined : range.defined = none ↔ ∀ position, ¬ WrittenAt ops blob position
  used : ∀ final, range.used = some final ↔
    ∃ position : Nat, final = position ∧ IsGreatest {position | ReadAt ops blob position} position
  unused : range.used = none ↔ ∀ position, ¬ ReadAt ops blob position

-- One end of a range: some position attains it and none lies beyond it.
theorem eq_some_iff_extreme {r : Int → Int → Prop} (antisymm : ∀ {m n}, r m n → r n m → m = n)
    {bound : Option Int} {happens : Nat → Prop}
    (attained : ∀ value, bound = some value → ∃ position : Nat, value = position ∧ happens position)
    (within : ∀ position : Nat, happens position → ∃ value, bound = some value ∧ r value position)
    (value : Int) : bound = some value ↔
      ∃ position : Nat, value = position ∧ happens position ∧ ∀ other : Nat, happens other → r position other := by
  constructor
  next =>
    intro given
    have ⟨position, same, here⟩ := attained value given
    refine ⟨position, same, here, fun other there => ?_⟩
    have ⟨value', given', below⟩ := within other there
    rw [given, Option.some.injEq] at given'
    rwa [← same, given']
  next =>
    intro extreme
    have ⟨position, same, here, least⟩ := extreme
    have ⟨value', given, below⟩ := within position here
    have ⟨other, same', there⟩ := attained value' given
    have above := least other there
    rw [← same'] at above
    rw [given, same, antisymm below above]

section Spans

variable {ops : List Op} {table : LiveTable} {blob : String} {range : LiveRange}
  (covers : table.Covers (accesses ops)) (known : table.get? blob = some range)

include covers known

theorem LiveTable.Covers.defined_eq_some_iff (start : Int) : range.defined = some start ↔
    ∃ position : Nat, start = position ∧ IsLeast {position | WrittenAt ops blob position} position := by
  have spans := covers.ranges blob range known
  rw [eq_some_iff_extreme Int.le_antisymm spans.defined spans.written]
  simp [IsLeast, lowerBounds, mem_accesses_write]

theorem LiveTable.Covers.used_eq_some_iff (final : Int) : range.used = some final ↔
    ∃ position : Nat, final = position ∧ IsGreatest {position | ReadAt ops blob position} position := by
  have spans := covers.ranges blob range known
  rw [eq_some_iff_extreme (r := fun m n => n ≤ m) (fun below above => Int.le_antisymm above below)
    spans.used spans.read]
  simp [IsGreatest, upperBounds, mem_accesses_read]

theorem LiveTable.Covers.spans : range.Spans ops blob where
  defined := covers.defined_eq_some_iff known
  undefined := by
    rw [← not_exists, ← covers.defined_iff known, not_exists, Option.eq_none_iff_forall_ne_some]
  used := covers.used_eq_some_iff known
  unused := by
    rw [← not_exists, ← covers.used_iff known, not_exists, Option.eq_none_iff_forall_ne_some]

end Spans

namespace BlobRanges

section Ranges

variable {sizes : Option Sizes} {ops : List Op}

theorem ofOps_eq_error_iff {error : PlanError} :
    (ofOps sizes ops : Except PlanError BlobRanges) = .error error ↔
      (LiveTable.ofOps sizes ops : Except PlanError LiveTable) = .error error := by
  rw [LiveTable.ofOps]
  cases (ofOps sizes ops : Except PlanError BlobRanges) <;> simp [Except.map]

theorem view_of_ofOps {ranges : BlobRanges} (computed : ofOps sizes ops = .ok ranges) :
    LiveTable.ofOps sizes ops = .ok ranges.view := by
  rw [LiveTable.ofOps, computed]
  rfl

theorem exists_ofOps_iff : (∃ ranges : BlobRanges, ofOps sizes ops = .ok ranges) ↔
    ∃ table : LiveTable, LiveTable.ofOps sizes ops = .ok table := by
  rw [LiveTable.ofOps]
  cases (ofOps sizes ops : Except PlanError BlobRanges) <;> simp [Except.map]

end Ranges

structure Lists (ranges : BlobRanges) (net : Net) (sizes : Option Sizes) : Prop where
  names : ranges.entries.map (·.blob) = net.blobNames
  distinct : net.blobNames.Nodup
  found : ∀ blob range, ranges.get? blob = some range ↔ ⟨blob, range⟩ ∈ ranges.entries
  spans : ∀ entry ∈ ranges.entries, entry.range.Spans net.ops entry.blob
  sized : ∀ entry ∈ ranges.entries, entry.range.size = sizes.bind (· entry.blob)

structure Computed (net : Net) (sizes : Option Sizes) (outcome : Except PlanError BlobRanges) : Prop where
  fails : ∀ error, outcome = .error error ↔
    ∃ blob, (net.ops.flatMap Op.operands).find? (lacks sizes) = some blob ∧ error = .missingSize blob
  failsAlike : ∀ known, sizes = some known →
    ∀ error, outcome = .error error ↔ net.blobSizes known = .error error
  made : (∃ ranges, outcome = .ok ranges) ↔ ∀ blob ∈ net.blobNames, lacks sizes blob = false
  lists : ∀ ranges, outcome = .ok ranges → ranges.Lists net sizes

theorem lists_of_ofOps {net : Net} {sizes : Option Sizes} {ranges : BlobRanges}
    (computed : ofOps sizes net.ops = .ok ranges) : ranges.Lists net sizes := by
  have viewed := view_of_ofOps computed
  have covers := LiveTable.covers_ofOps viewed
  have known (entry : Entry) (inside : entry ∈ ranges.entries) :
      ranges.view.get? entry.blob = some entry.range := LiveTable.get?_iff.mpr inside
  constructor
  case names => exact LiveTable.names_ofOps viewed
  case distinct => exact Graph.nodup_eraseDups _
  case found =>
    intro blob range
    rw [← get?_view]
    exact LiveTable.get?_iff
  case spans => exact fun entry inside => covers.spans (known entry inside)
  case sized =>
    exact fun entry inside => size_of_sizeOf? (LiveTable.size_ofOps viewed _ _ (known entry inside))

theorem ofOps_contents (net : Net) (sizes : Option Sizes) : Computed net sizes (ofOps sizes net.ops) := by
  constructor
  case fails =>
    intro error
    rw [ofOps_eq_error_iff, LiveTable.ofOps_eq_error_iff]
  case failsAlike =>
    intro known given error
    rw [given, ofOps_eq_error_iff, LiveTable.ofOps_eq_error_iff, blobSizes_eq_error_iff]
  case made =>
    rw [exists_ofOps_iff, LiveTable.exists_ofOps_iff]
    simp only [Net.blobNames, List.mem_eraseDups, List.mem_flatMap, forall_exists_index, and_imp]
    constructor
    next => exact fun each blob op operation operand => each op operation blob operand
    next => exact fun each op operation blob operand => each blob op operation operand
  case lists => exact fun ranges computed => lists_of_ofOps computed

/-- A blob that is written again after its last read, and one that has no size. -/
def overwrittenNet : Net :=
  ⟨"", "overwritten", [⟨"A", ["x"], ["y"], []⟩, ⟨"B", ["y", "x"], ["z"], []⟩, ⟨"C", [], ["y"], []⟩], [], []⟩

def partialSizes : Sizes := fun blob => if blob = "z" then none else some 4

theorem ofOps_contents_overwritten :
    (∃ ranges : BlobRanges, ofOps none overwrittenNet.ops = .ok ranges ∧
      ranges.entries.map (·.blob) = ["x", "y", "z"] ∧
      ∀ entry ∈ ranges.entries, entry.range.Spans overwrittenNet.ops entry.blob ∧
        ranges.get? entry.blob = some entry.range) ∧
    (ofOps (some partialSizes) overwrittenNet.ops : Except PlanError BlobRanges) =
        .error (.missingSize "z") ∧
      overwrittenNet.blobSizes partialSizes = .error (.missingSize "z") := by
  have unsized := ofOps_contents overwrittenNet none
  have sized := ofOps_contents overwrittenNet (some partialSizes)
  obtain ⟨ranges, computed⟩ := unsized.made.mpr fun _ _ => rfl
  have lists := unsized.lists ranges computed
  have missing := (sized.fails (.missingSize "z")).mpr ⟨"z", by decide, rfl⟩
  refine ⟨⟨ranges, computed, ?_, fun entry inside => ?_⟩, missing, ?_⟩
  next => rw [lists.names]; decide
  next => exact ⟨lists.spans entry inside, (lists.found _ _).mpr inside⟩
  next => exact (sized.failsAlike partialSizes rfl _).mp missing

end BlobRanges

end StoragePlan
