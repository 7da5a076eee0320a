import Mathlib.Data.List.Basic
import StoragePlan.Proofs.Live.Index

set_option autoImplicit false

namespace StoragePlan

theorem mem_accesses {ops : List Op} {position : Nat} {blob : String} {kind : AccessKind} :
    ⟨position, blob, kind⟩ ∈ accesses ops ↔ ∃ op, ops[position]? = some op ∧
      (kind = .read ∧ blob ∈ op.inputs ∨ kind = .write ∧ blob ∈ op.outputs) := by
  simp only [accesses, List.mem_flatMap, Prod.exists, List.mem_zipIdx_iff_getElem?, List.mem_append,
    List.mem_map, Access.mk.injEq]
  constructor
  next =>
    rintro ⟨op, number, found, ⟨_, inside, rfl, rfl, rfl⟩ | ⟨_, inside, rfl, rfl, rfl⟩⟩
    next => exact ⟨op, found, .inl ⟨rfl, inside⟩⟩
    next => exact ⟨op, found, .inr ⟨rfl, inside⟩⟩
  next =>
    rintro ⟨op, found, ⟨rfl, inside⟩ | ⟨rfl, inside⟩⟩
    next => exact ⟨op, position, found, .inl ⟨blob, inside, rfl, rfl, rfl⟩⟩
    next => exact ⟨op, position, found, .inr ⟨blob, inside, rfl, rfl, rfl⟩⟩

theorem mem_accesses_read {ops : List Op} {position : Nat} {blob : String} :
    ⟨position, blob, .read⟩ ∈ accesses ops ↔ ReadAt ops blob position := by
  simp [mem_accesses, ReadAt]

theorem mem_accesses_write {ops : List Op} {position : Nat} {blob : String} :
    ⟨position, blob, .write⟩ ∈ accesses ops ↔ WrittenAt ops blob position := by
  simp [mem_accesses, WrittenAt]

structure LiveRange.Covers (range : LiveRange) (blob : String) (done : List Access) : Prop where
  -- The first write, and the last read below.
  defined : ∀ start, range.defined = some start →
    ∃ position : Nat, start = position ∧ ⟨position, blob, .write⟩ ∈ done
  written : ∀ position : Nat, ⟨position, blob, .write⟩ ∈ done →
    ∃ start, range.defined = some start ∧ start ≤ position
  used : ∀ final, range.used = some final →
    ∃ position : Nat, final = position ∧ ⟨position, blob, .read⟩ ∈ done
  read : ∀ position : Nat, ⟨position, blob, .read⟩ ∈ done →
    ∃ final, range.used = some final ∧ position ≤ final

theorem LiveRange.covers_unknown {blob : String} {done : List Access}
    (fresh : ∀ access ∈ done, access.blob ≠ blob) : LiveRange.unknown.Covers blob done where
  defined := by simp [LiveRange.unknown]
  written position inside := absurd rfl (fresh _ inside)
  used := by simp [LiveRange.unknown]
  read position inside := absurd rfl (fresh _ inside)

theorem LiveRange.Covers.other {range : LiveRange} {blob : String} {done : List Access}
    (covers : range.Covers blob done) {access : Access} (other : access.blob ≠ blob) :
    range.Covers blob (done ++ [access]) := by
  have same (position : Nat) (kind : AccessKind) :
      ⟨position, blob, kind⟩ ∈ done ++ [access] ↔ ⟨position, blob, kind⟩ ∈ done := by
    have different : (⟨position, blob, kind⟩ : Access) ≠ access := fun equal => other (equal ▸ rfl)
    simp [different]
  constructor <;> simp only [same]
  exacts [covers.defined, covers.written, covers.used, covers.read]

theorem earliest_spec (known : Option Int) (here : Int) :
    let earliest := known.elim here (min · here)
    (earliest = here ∨ known = some earliest) ∧ earliest ≤ here ∧
      ∀ before, known = some before → earliest ≤ before := by
  cases known with
  | none => simp
  | some before =>
    simp only [Option.elim_some, Option.some.injEq, forall_eq']
    omega

theorem latest_spec (known : Option Int) (here : Int) :
    let latest := known.elim here (max · here)
    (latest = here ∨ known = some latest) ∧ here ≤ latest ∧
      ∀ before, known = some before → before ≤ latest := by
  cases known with
  | none => simp
  | some before =>
    simp only [Option.elim_some, Option.some.injEq, forall_eq']
    omega

theorem LiveRange.Covers.touch {range : LiveRange} {access : Access} {done : List Access}
    (covers : range.Covers access.blob done) (size : Option UInt64) :
    (range.touch access size).Covers access.blob (done ++ [access]) := by
  obtain ⟨here, blob, kind⟩ := access
  have old {start : Int} {kind' : AccessKind}
      (known : ∃ position : Nat, start = position ∧ ⟨position, blob, kind'⟩ ∈ done) :
      ∃ position : Nat, start = position ∧ ⟨position, blob, kind'⟩ ∈ done ++ [⟨here, blob, kind⟩] :=
    known.imp fun _ found => ⟨found.1, List.mem_append_left _ found.2⟩
  have new : ∃ position : Nat, (here : Int) = position ∧
      ⟨position, blob, kind⟩ ∈ done ++ [⟨here, blob, kind⟩] :=
    ⟨here, rfl, by simp⟩
  -- A read moves the end only and a write the start only; the other half stays as it was.
  cases kind with
  | read =>
    obtain ⟨attained, bound, greatest⟩ := latest_spec range.used here
    refine ⟨fun start given => old (covers.defined start given), ?written, ?used, ?latest⟩
    case written => simpa [LiveRange.touch] using covers.written
    case used =>
      rintro final ⟨⟩
      cases attained with
      | inl now => exact new.imp fun _ found => ⟨now.trans found.1, found.2⟩
      | inr before => exact old (covers.used _ before)
    case latest =>
      intro position inside
      refine ⟨_, rfl, ?_⟩
      cases List.mem_append.mp inside with
      | inl earlier =>
        obtain ⟨before, known, reached⟩ := covers.read position earlier
        exact Int.le_trans reached (greatest before known)
      | inr now =>
        obtain rfl : position = here := by simpa using now
        exact bound
  | write =>
    obtain ⟨attained, bound, least⟩ := earliest_spec range.defined here
    refine ⟨?defined, ?written, fun final given => old (covers.used final given), ?reads⟩
    case defined =>
      rintro start ⟨⟩
      cases attained with
      | inl now => exact new.imp fun _ found => ⟨now.trans found.1, found.2⟩
      | inr before => exact old (covers.defined _ before)
    case written =>
      intro position inside
      refine ⟨_, rfl, ?_⟩
      cases List.mem_append.mp inside with
      | inl earlier =>
        obtain ⟨before, known, reached⟩ := covers.written position earlier
        exact Int.le_trans (least before known) reached
      | inr now =>
        obtain rfl : position = here := by simpa using now
        exact bound
    case reads => simpa [LiveRange.touch] using covers.read

section Tables

variable {sizes : Option Sizes} {table table' : LiveTable}

theorem LiveTable.record_eq_ok {access : Access} :
    table.record sizes access = .ok table' ↔ ∃ size, sizeOf? sizes access.blob = .ok size ∧
      table.update access.blob (·.touch access size) = table' := by
  simp [record, bind_eq_ok, pure, Except.pure]

theorem LiveTable.records_keep (kept : LiveTable → List Access → Prop)
    (keeps : ∀ table table' done access, table.record sizes access = .ok table' →
      kept table done → kept table' (done ++ [access]))
    {done more : List Access} (recorded : more.foldlM (record sizes) table = .ok table')
    (before : kept table done) : kept table' (done ++ more) := by
  induction more generalizing table done with
  | nil =>
    obtain rfl := Except.ok.inj recorded
    simpa using before
  | cons access rest ih =>
    rw [List.foldlM_cons] at recorded
    have ⟨middle, first, later⟩ := bind_eq_ok.mp recorded
    rw [List.append_cons]
    exact ih later (keeps table middle done access first before)

theorem LiveTable.ofOps_keeps (kept : LiveTable → List Access → Prop)
    (keeps : ∀ table table' done access, table.record sizes access = .ok table' →
      kept table done → kept table' (done ++ [access]))
    (start : kept .empty []) {ops : List Op} (computed : ofOps sizes ops = .ok table) :
    kept table (accesses ops) :=
  records_keep kept keeps ((ofOps_eq sizes ops).symm.trans computed) start

@[simp] theorem LiveRange.size_touch (range : LiveRange) (access : Access) (size : Option UInt64) :
    (range.touch access size).size = size := by
  unfold touch
  split <;> rfl

theorem LiveTable.size_ofOps {ops : List Op} (computed : ofOps sizes ops = .ok table) :
    ∀ blob range, table.get? blob = some range → sizeOf? sizes blob = .ok range.size := by
  refine ofOps_keeps (fun table _ => ∀ blob range, table.get? blob = some range →
    sizeOf? sizes blob = .ok range.size) ?_ (by simp [empty, get?]) computed
  intro table table' done access recorded sized blob range known
  obtain ⟨size, asked, same⟩ := record_eq_ok.mp recorded
  rw [← same, get?_update] at known
  split at known
  next here => rw [← here, asked, ← Option.some.inj known, LiveRange.size_touch]
  next => exact sized blob range known

end Tables

structure LiveTable.Covers (table : LiveTable) (done : List Access) : Prop where
  ranges : ∀ blob range, table.get? blob = some range → range.Covers blob done
  known : ∀ access ∈ done, table.get? access.blob ≠ none
  accessed : ∀ blob range, table.get? blob = some range → ∃ access ∈ done, access.blob = blob

theorem LiveTable.Covers.record {table table' : LiveTable} {done : List Access}
    (covers : table.Covers done) {sizes : Option Sizes} {access : Access}
    (recorded : table.record sizes access = .ok table') : table'.Covers (done ++ [access]) := by
  obtain ⟨size, -, rfl⟩ := record_eq_ok.mp recorded
  constructor
  case ranges =>
    intro blob range found
    rw [get?_update] at found
    split at found
    next same =>
      subst same
      obtain rfl := Option.some.inj found
      refine LiveRange.Covers.touch ?_ size
      -- A blob without a range has not been accessed before.
      cases before : table.get? access.blob with
      | none =>
        refine LiveRange.covers_unknown fun other inside same => ?_
        exact covers.known other inside (same ▸ before)
      | some range => exact covers.ranges _ range before
    next different => exact (covers.ranges blob range found).other different
  case known =>
    intro other inside
    rw [get?_update]
    split
    next => simp
    next different =>
      rcases List.mem_append.mp inside with inside | same
      next => exact covers.known other inside
      next => exact absurd (congrArg Access.blob (List.mem_singleton.mp same)).symm different
  case accessed =>
    intro blob range found
    rw [get?_update] at found
    split at found
    next same => exact ⟨access, by simp, same⟩
    next =>
      obtain ⟨other, inside, same⟩ := covers.accessed blob range found
      exact ⟨other, List.mem_append_left _ inside, same⟩

theorem LiveTable.covers_ofOps {sizes : Option Sizes} {ops : List Op} {table : LiveTable}
    (computed : LiveTable.ofOps sizes ops = .ok table) : table.Covers (accesses ops) := by
  have start : LiveTable.empty.Covers [] :=
    ⟨fun blob range found => by simp [empty, get?] at found, by simp,
      fun blob range found => by simp [empty, get?] at found⟩
  exact ofOps_keeps Covers (fun _ _ _ _ recorded covers => covers.record recorded) start computed

theorem LiveTable.Covers.exists_get? {ops : List Op} {table : LiveTable}
    (covers : table.Covers (accesses ops)) {blob : String} :
    (∃ range, table.get? blob = some range) ↔
      ∃ position, ReadAt ops blob position ∨ WrittenAt ops blob position := by
  constructor
  next =>
    intro known
    obtain ⟨range, known⟩ := known
    obtain ⟨⟨position, _, kind⟩, inside, rfl⟩ := covers.accessed blob range known
    cases kind with
    | read => exact ⟨position, .inl (mem_accesses_read.mp inside)⟩
    | write => exact ⟨position, .inr (mem_accesses_write.mp inside)⟩
  next =>
    intro accessed
    obtain ⟨position, access⟩ := accessed
    apply Option.ne_none_iff_exists'.mp
    cases access with
    | inl read => exact covers.known _ (mem_accesses_read.mpr read)
    | inr written => exact covers.known _ (mem_accesses_write.mpr written)

end StoragePlan
