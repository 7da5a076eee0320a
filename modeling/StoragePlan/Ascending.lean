set_option autoImplicit false

namespace StoragePlan

section Insertion

variable {κ ν : Type} [LT κ] [DecidableLT κ]

def putEntry (key : κ) (value : ν) : List (κ × ν) → List (κ × ν)
  | [] => [(key, value)]
  | entry :: rest =>
    if key < entry.1 then (key, value) :: entry :: rest
    else if entry.1 < key then entry :: putEntry key value rest
    else (key, value) :: rest

theorem mem_putEntry {key : κ} {value : ν} {entries : List (κ × ν)} {entry : κ × ν}
    (h : entry ∈ putEntry key value entries) : entry = (key, value) ∨ entry ∈ entries := by
  induction entries with
  | nil => simpa [putEntry] using h
  | cons head rest ih =>
    simp only [putEntry] at h
    split at h
    next => simpa using h
    next =>
      split at h
      next =>
        rcases List.mem_cons.mp h with same | inside
        next => exact .inr (same ▸ List.mem_cons_self)
        next => exact (ih inside).imp_right (List.mem_cons_of_mem _)
      next => exact (List.mem_cons.mp h).imp_right (List.mem_cons_of_mem _)

variable [LE κ] [Std.IsLinearOrder κ] [Std.LawfulOrderLT κ]

theorem putEntry_ascending (key : κ) (value : ν) {entries : List (κ × ν)}
    (ascending : entries.Pairwise fun a b => a.1 < b.1) :
    (putEntry key value entries).Pairwise fun a b => a.1 < b.1 := by
  induction entries with
  | nil => simp [putEntry]
  | cons head rest ih =>
    have ⟨first, later⟩ := List.pairwise_cons.mp ascending
    simp only [putEntry]
    split
    next before =>
      refine List.pairwise_cons.mpr ⟨fun entry inside => ?_, ascending⟩
      rcases List.mem_cons.mp inside with same | inside
      next => exact same ▸ before
      next => exact Std.lt_trans before (first entry inside)
    next notBefore =>
      split
      next after =>
        refine List.pairwise_cons.mpr ⟨fun entry inside => ?_, ih later⟩
        rcases mem_putEntry inside with same | inside
        next => exact same ▸ after
        next => exact first entry inside
      next notAfter =>
        have same : head.1 = key := Std.le_antisymm (Std.not_lt.mp notBefore) (Std.not_lt.mp notAfter)
        exact List.pairwise_cons.mpr ⟨fun entry inside => same ▸ first entry inside, later⟩

theorem find?_putEntry [DecidableEq κ] (key : κ) (value : ν) (entries : List (κ × ν)) (other : κ) :
    (putEntry key value entries).find? (fun entry => entry.1 = other) =
      if key = other then some (key, value) else entries.find? fun entry => entry.1 = other := by
  induction entries with
  | nil => by_cases same : key = other <;> simp [putEntry, same]
  | cons head rest ih =>
    simp only [putEntry]
    split
    next => by_cases same : key = other <;> simp [same]
    next notBefore =>
      split
      next after =>
        have different : key = other → head.1 ≠ other := by
          rintro rfl same
          exact Std.lt_irrefl (same ▸ after)
        rw [List.find?_cons, ih]
        by_cases same : key = other
        next => simp [same, different same]
        next => by_cases found : head.1 = other <;> simp [same, found]
      next notAfter =>
        have equal : head.1 = key :=
          Std.le_antisymm (Std.not_lt.mp notBefore) (Std.not_lt.mp notAfter)
        by_cases same : key = other <;> simp [same, equal]

end Insertion

structure Table (κ ν : Type) [LT κ] where
  entries : List (κ × ν)
  ascending : entries.Pairwise fun a b => a.1 < b.1
deriving DecidableEq

namespace Table

variable {κ ν : Type} [LT κ]

def empty : Table κ ν := ⟨[], .nil⟩

def keys (t : Table κ ν) : List κ := t.entries.map (·.1)

def values (t : Table κ ν) : List ν := t.entries.map (·.2)

def size (t : Table κ ν) : Nat := t.entries.length

def get? [DecidableEq κ] (t : Table κ ν) (key : κ) : Option ν :=
  (t.entries.find? fun entry => entry.1 = key).map (·.2)

@[simp] theorem get?_empty [DecidableEq κ] (key : κ) : (empty : Table κ ν).get? key = none := rfl

variable [DecidableLT κ] [LE κ] [Std.IsLinearOrder κ] [Std.LawfulOrderLT κ]

def put (t : Table κ ν) (key : κ) (value : ν) : Table κ ν :=
  ⟨putEntry key value t.entries, putEntry_ascending key value t.ascending⟩

theorem get?_put [DecidableEq κ] (t : Table κ ν) (key : κ) (value : ν) (other : κ) :
    (t.put key value).get? other = if key = other then some value else t.get? other := by
  simp only [get?, put, find?_putEntry]
  split <;> rfl

def putAll (t : Table κ ν) (entries : List (κ × ν)) : Table κ ν :=
  entries.foldl (fun table entry => table.put entry.1 entry.2) t

def ofList (entries : List (κ × ν)) : Table κ ν := empty.putAll entries

end Table

structure Names where
  toList : List String
  ascending : toList.Pairwise (· < ·)
deriving DecidableEq

namespace Names

def empty : Names := ⟨[], .nil⟩

def ofTable (t : Table String Unit) : Names := ⟨t.keys, List.pairwise_map.mpr t.ascending⟩

def toTable (names : Names) : Table String Unit :=
  ⟨names.toList.map (·, ()), List.pairwise_map.mpr names.ascending⟩

def contains (names : Names) (name : String) : Bool := names.toList.contains name

def size (names : Names) : Nat := names.toList.length

def insert (names : Names) (name : String) : Names := ofTable (names.toTable.put name ())

def insertAll (names : Names) (more : List String) : Names := more.foldl insert names

def ofList (names : List String) : Names := empty.insertAll names

def union (a b : Names) : Names := a.insertAll b.toList

def popFirst : Names → Option (String × Names)
  | ⟨[], _⟩ => none
  | ⟨first :: rest, ascending⟩ => some (first, ⟨rest, (List.pairwise_cons.mp ascending).2⟩)

end Names

end StoragePlan
