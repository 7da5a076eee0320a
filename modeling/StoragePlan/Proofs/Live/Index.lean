import StoragePlan.Live.Basic
import StoragePlan.Proofs.Run.Basic

set_option autoImplicit false

namespace StoragePlan

@[simp] theorem position_int (position : Nat) : (Clock.position position : Int) = position := rfl

@[simp] theorem entry_int : (Clock.entry : Int) = -1 := rfl

@[simp] theorem next_int (time : Int) : Clock.next time = time + 1 := rfl

theorem foldlM_map {α β β' ε : Type} {g : β → β'} {next : β → α → Except ε β}
    {next' : β' → α → Except ε β'} {items : List α}
    (same : ∀ start, ∀ item ∈ items, next' (g start) item = (next start item).map g) (start : β) :
    items.foldlM next' (g start) = (items.foldlM next start).map g := by
  induction items generalizing start with
  | nil => rfl
  | cons item rest ih =>
    rw [List.foldlM_cons, List.foldlM_cons, same start item List.mem_cons_self]
    cases next start item with
    | error error => rfl
    | ok later => exact ih (fun start item inside => same start item (List.mem_cons_of_mem _ inside)) later

section Entries

variable {τ : Type}

def updateEntry (blob : String) (change : LiveRange τ → LiveRange τ) : List (Entry τ) → List (Entry τ)
  | [] => [⟨blob, change .unknown⟩]
  | entry :: rest =>
    if entry.blob = blob then ⟨blob, change entry.range⟩ :: rest
    else entry :: updateEntry blob change rest

theorem names_updateEntry (blob : String) (change : LiveRange τ → LiveRange τ) (entries : List (Entry τ)) :
    (updateEntry blob change entries).map (·.blob) =
      if blob ∈ entries.map (·.blob) then entries.map (·.blob) else entries.map (·.blob) ++ [blob] := by
  induction entries with
  | nil => rfl
  | cons entry rest ih =>
    rw [updateEntry]
    by_cases same : entry.blob = blob
    next => simp [same]
    next =>
      rw [if_neg same, List.map_cons, ih]
      by_cases later : blob ∈ rest.map (·.blob)
      next => simp [later]
      next => simp [later, Ne.symm same]

theorem nodup_names_updateEntry (blob : String) (change : LiveRange τ → LiveRange τ)
    {entries : List (Entry τ)} (nodup : (entries.map (·.blob)).Nodup) :
    ((updateEntry blob change entries).map (·.blob)).Nodup := by
  rw [names_updateEntry]
  split
  next => exact nodup
  next fresh =>
    refine List.nodup_append.mpr ⟨nodup, List.pairwise_singleton _ _, fun name inside other last => ?_⟩
    obtain rfl := List.mem_singleton.mp last
    exact fun same => fresh (same ▸ inside)

theorem find?_updateEntry (blob : String) (change : LiveRange τ → LiveRange τ) (entries : List (Entry τ))
    (other : String) :
    ((updateEntry blob change entries).find? fun entry => entry.blob = other).map (·.range) =
      if blob = other then
        some (change (((entries.find? fun entry => entry.blob = other).map (·.range)).getD .unknown))
      else (entries.find? fun entry => entry.blob = other).map (·.range) := by
  induction entries with
  | nil => by_cases same : blob = other <;> simp [updateEntry, same]
  | cons entry rest ih =>
    rw [updateEntry]
    by_cases here : entry.blob = blob
    next => by_cases same : blob = other <;> simp [here, same]
    next =>
      by_cases same : entry.blob = other
      next =>
        have different : ¬ blob = other := fun equal => here (same.trans equal.symm)
        have different' : ¬ other = blob := fun equal => different equal.symm
        simp [same, different, different']
      next => simpa [here, same] using ih

theorem updateEntry_of_notMem {blob : String} {change : LiveRange τ → LiveRange τ}
    {entries : List (Entry τ)} (fresh : blob ∉ entries.map (·.blob)) :
    updateEntry blob change entries = entries ++ [⟨blob, change .unknown⟩] := by
  induction entries with
  | nil => rfl
  | cons entry rest ih =>
    rw [List.map_cons, List.mem_cons, not_or] at fresh
    rw [updateEntry, if_neg (Ne.symm fresh.1), ih fresh.2, List.cons_append]

theorem updateEntry_of_first {blob : String} {change : LiveRange τ → LiveRange τ}
    {entries : List (Entry τ)} {place : Nat} (nodup : (entries.map (·.blob)).Nodup)
    (here : entries[place]?.map (·.blob) = some blob) :
    updateEntry blob change entries =
      entries.modify place fun entry => { entry with range := change entry.range } := by
  induction entries generalizing place with
  | nil => simp at here
  | cons entry rest ih =>
    have ⟨fresh, later⟩ := List.nodup_cons.mp nodup
    cases place with
    | zero =>
      obtain rfl : entry.blob = blob := by simpa using here
      rw [updateEntry, if_pos rfl, List.modify_zero_cons]
    | succ place =>
      rw [List.getElem?_cons_succ] at here
      have other : entry.blob ≠ blob := by
        rintro rfl
        obtain ⟨found, inside, same⟩ := Option.map_eq_some_iff.mp here
        exact fresh (List.mem_map.mpr ⟨found, List.mem_of_getElem? inside, same⟩)
      rw [updateEntry, if_neg other, List.modify_succ_cons, ih later here]

end Entries

namespace LiveTable

variable {τ : Type}

def empty : LiveTable τ := ⟨[], .nil⟩

def update (table : LiveTable τ) (blob : String) (change : LiveRange τ → LiveRange τ) : LiveTable τ :=
  ⟨updateEntry blob change table.entries, nodup_names_updateEntry blob change table.nodup⟩

theorem get?_update (table : LiveTable τ) (blob : String) (change : LiveRange τ → LiveRange τ)
    (other : String) :
    (table.update blob change).get? other =
      if blob = other then some (change ((table.get? other).getD .unknown)) else table.get? other :=
  find?_updateEntry blob change table.entries other

theorem get?_iff {table : LiveTable τ} {blob : String} {range : LiveRange τ} :
    table.get? blob = some range ↔ ⟨blob, range⟩ ∈ table.entries := by
  obtain ⟨entries, nodup⟩ := table
  simp only [get?]
  induction entries with
  | nil => simp
  | cons entry rest ih =>
    obtain ⟨fresh, later⟩ := List.nodup_cons.mp nodup
    by_cases same : entry.blob = blob
    next =>
      have absent : ⟨blob, range⟩ ∉ rest := by
        intro inside
        have named : blob ∈ rest.map (·.blob) := List.mem_map_of_mem inside
        rw [← same] at named
        exact fresh named
      obtain ⟨_, _⟩ := entry
      obtain rfl : _ = blob := same
      simp [absent, eq_comm]
    next =>
      have other : (⟨blob, range⟩ : Entry τ) ≠ entry := fun equal => same (equal ▸ rfl)
      simpa [same, other] using ih later

def record [Clock τ] [Max τ] [Min τ] (sizes : Option Sizes) (table : LiveTable τ) (access : Access) :
    Except PlanError (LiveTable τ) := do
  let size ← sizeOf? sizes access.blob
  return table.update access.blob (·.touch access size)

end LiveTable

namespace BlobRanges

variable {τ : Type}

theorem mem_names_iff {ranges : BlobRanges τ} {blob : String} :
    blob ∈ ranges.entries.map (·.blob) ↔ ∃ place, ranges.index.get? blob = some place := by
  simp only [List.mem_iff_getElem?, List.getElem?_map, ranges.indexed]

theorem locate_cases (ranges : BlobRanges τ) (blob : String) :
    (∃ place, ranges.index.get? blob = some place ∧ ranges.locate blob = (ranges, place)) ∨
    ∃ fresh : ranges.index.get? blob = none,
      ranges.locate blob = (ranges.append blob fresh, ranges.size) := by
  unfold locate
  split
  next place found => exact .inl ⟨place, found, rfl⟩
  next fresh => exact .inr ⟨fresh, rfl⟩

theorem entries_update (ranges : BlobRanges τ) (blob : String) (change : LiveRange τ → LiveRange τ) :
    (ranges.update blob change).entries = updateEntry blob change ranges.entries := by
  rw [update]
  rcases ranges.locate_cases blob with ⟨place, found, located⟩ | ⟨fresh, located⟩
  next =>
    rw [located]
    exact (updateEntry_of_first ranges.nodup_names ((ranges.indexed _ _).mp found)).symm
  next =>
    have absent : blob ∉ ranges.entries.map (·.blob) := by simp [mem_names_iff, fresh]
    rw [located, updateEntry_of_notMem absent]
    simp [modify, append, size, List.modify_eq_take_drop]

theorem view_update (ranges : BlobRanges τ) (blob : String) (change : LiveRange τ → LiveRange τ) :
    (ranges.update blob change).view = ranges.view.update blob change := by
  simp only [view, LiveTable.update, entries_update]

theorem get?_view (ranges : BlobRanges τ) (blob : String) : ranges.view.get? blob = ranges.get? blob := by
  refine Option.ext fun range => ?_
  rw [LiveTable.get?_iff, List.mem_iff_getElem?]
  simp only [get?, view, Option.bind_eq_some_iff, ranges.indexed, Option.map_eq_some_iff]
  constructor
  next =>
    intro inside
    obtain ⟨place, here⟩ := inside
    exact ⟨place, ⟨_, here, rfl⟩, _, here, rfl⟩
  next =>
    intro found
    obtain ⟨place, ⟨entry, here, rfl⟩, same, here', rfl⟩ := found
    obtain rfl := Option.some.inj (here.symm.trans here')
    exact ⟨place, here⟩

variable [Clock τ] [Max τ] [Min τ] (sizes : Option Sizes)

theorem view_record (ranges : BlobRanges τ) (access : Access) :
    ranges.view.record sizes access = (ranges.record sizes access).map view := by
  rw [record, LiveTable.record]
  cases sizeOf? sizes access.blob with
  | error error => rfl
  | ok size => exact congrArg Except.ok (view_update ranges access.blob _).symm

end BlobRanges

theorem LiveTable.ofOps_eq {τ : Type} [Clock τ] [Max τ] [Min τ] (sizes : Option Sizes) (ops : List Op) :
    LiveTable.ofOps sizes ops = (accesses ops).foldlM (record (τ := τ) sizes) .empty :=
  (foldlM_map (fun ranges access _ => ranges.view_record sizes access) BlobRanges.empty).symm

end StoragePlan
