import StoragePlan.Ascending
import StoragePlan.Error
import StoragePlan.Net.Basic

set_option autoImplicit false

namespace StoragePlan

/-- The moments of a schedule: one for each operation in line, one before the first, and the one after
a given one, which in machine words need not be later. -/
class Clock (τ : Type) where
  position : Nat → τ
  entry : τ
  next : τ → τ

@[default_instance]
instance : Clock Int := ⟨Int.ofNat, -1, (· + 1)⟩

instance : Clock Int64 := ⟨Int64.ofNat, -1, (· + 1)⟩

abbrev Sizes := String → Option UInt64

structure LiveRange (τ : Type := Int) where
  defined : Option τ
  used : Option τ
  size : Option UInt64
deriving DecidableEq

structure Entry (τ : Type := Int) where
  blob : String
  range : LiveRange τ
deriving DecidableEq

section Entries

variable {τ : Type}

def LiveRange.unknown : LiveRange τ := ⟨none, none, none⟩

def Entry.bytes (entry : Entry τ) : UInt64 := entry.range.size.getD 0

end Entries

/-- The ranges in the order of first mention, and the place of each name among them. -/
structure BlobRanges (τ : Type := Int) where
  entries : List (Entry τ)
  index : Table String Nat
  indexed : ∀ blob place,
    index.get? blob = some place ↔ entries[place]?.map (·.blob) = some blob

namespace BlobRanges

variable {τ : Type}

def empty : BlobRanges τ := ⟨[], .empty, by simp⟩

def size (ranges : BlobRanges τ) : Nat := ranges.entries.length

def get? (ranges : BlobRanges τ) (blob : String) : Option (LiveRange τ) :=
  (ranges.index.get? blob).bind fun place => ranges.entries[place]?.map (·.range)

def append (ranges : BlobRanges τ) (blob : String) (fresh : ranges.index.get? blob = none) :
    BlobRanges τ where
  entries := ranges.entries ++ [⟨blob, .unknown⟩]
  index := ranges.index.put blob ranges.size
  indexed other place := by
    rw [Table.get?_put]
    split
    next same =>
      subst same
      have absent : ranges.entries[place]?.map (·.blob) ≠ some blob := fun here => by
        rw [← ranges.indexed, fresh] at here
        exact nomatch here
      simp only [size, Option.some.injEq, List.getElem?_append]
      split <;> grind
    next other' =>
      rw [ranges.indexed, List.getElem?_append]
      split <;> grind

/-- A blob that is not listed yet comes last, with nothing known about it. -/
def locate (ranges : BlobRanges τ) (blob : String) : BlobRanges τ × Nat :=
  match found : ranges.index.get? blob with
  | some place => (ranges, place)
  | none => (ranges.append blob found, ranges.size)

def modify (ranges : BlobRanges τ) (place : Nat) (change : LiveRange τ → LiveRange τ) :
    BlobRanges τ where
  entries := ranges.entries.modify place fun entry => { entry with range := change entry.range }
  index := ranges.index
  indexed blob other := by
    rw [ranges.indexed, List.getElem?_modify]
    cases ranges.entries[other]? <;> grind

def update (ranges : BlobRanges τ) (blob : String) (change : LiveRange τ → LiveRange τ) :
    BlobRanges τ :=
  let (ranges, place) := ranges.locate blob
  ranges.modify place change

/-- A later range of a blob replaces an earlier one in its place. -/
def ofEntries (entries : List (Entry τ)) : BlobRanges τ :=
  entries.foldl (fun ranges entry => ranges.update entry.blob fun _ => entry.range) .empty

theorem nodup_names (ranges : BlobRanges τ) : (ranges.entries.map (·.blob)).Nodup := by
  refine List.pairwise_iff_getElem.mpr fun i j first second less same => ?_
  have place (k : Nat) (bound : k < (ranges.entries.map (·.blob)).length) :
      ranges.index.get? (ranges.entries.map (·.blob))[k] = some k := by
    rw [ranges.indexed, ← List.getElem?_map, List.getElem?_eq_getElem]
  have equal := (place i first).symm.trans (same ▸ place j second)
  exact absurd (Option.some.inj equal) (Nat.ne_of_lt less)

end BlobRanges

/-- What the index adds to the ranges is read off them. -/
structure LiveTable (τ : Type := Int) where
  entries : List (Entry τ)
  nodup : (entries.map (·.blob)).Nodup
deriving DecidableEq

def LiveTable.size {τ : Type} (table : LiveTable τ) : Nat := table.entries.length

def LiveTable.get? {τ : Type} (table : LiveTable τ) (blob : String) : Option (LiveRange τ) :=
  (table.entries.find? fun entry => entry.blob = blob).map (·.range)

def BlobRanges.view {τ : Type} (ranges : BlobRanges τ) : LiveTable τ :=
  ⟨ranges.entries, ranges.nodup_names⟩

inductive AccessKind
  | read
  | write
deriving DecidableEq

structure Access where
  position : Nat
  blob : String
  kind : AccessKind
deriving DecidableEq

/-- All accesses of the operations in order, the reads of an operation before its writes. -/
def accesses (ops : List Op) : List Access :=
  ops.zipIdx.flatMap fun (op, position) =>
    op.inputs.map (⟨position, ·, .read⟩) ++ op.outputs.map (⟨position, ·, .write⟩)

def sizeOf? (sizes : Option Sizes) (blob : String) : Except PlanError (Option UInt64) :=
  match sizes with
  | none => .ok none
  | some sizes =>
    match sizes blob with
    | some size => .ok (some size)
    | none => .error (.missingSize blob)

section Times

variable {τ : Type} [Clock τ] [Max τ] [Min τ]

def LiveRange.touch (range : LiveRange τ) (access : Access) (size : Option UInt64) : LiveRange τ :=
  let here := Clock.position access.position
  match access.kind with
  | .read => { range with used := some (range.used.elim here (max · here)), size }
  | .write => { range with defined := some (range.defined.elim here (min · here)), size }

def BlobRanges.record (sizes : Option Sizes) (ranges : BlobRanges τ) (access : Access) :
    Except PlanError (BlobRanges τ) := do
  let size ← sizeOf? sizes access.blob
  return ranges.update access.blob (·.touch access size)

def BlobRanges.ofOps (sizes : Option Sizes) (ops : List Op) : Except PlanError (BlobRanges τ) :=
  (accesses ops).foldlM (record sizes) .empty

def LiveTable.ofOps (sizes : Option Sizes) (ops : List Op) : Except PlanError (LiveTable τ) :=
  (BlobRanges.ofOps sizes ops).map BlobRanges.view

def endOfUse (entries : List (Entry τ)) : τ :=
  match (entries.filterMap (·.range.used)).max? with
  | none => Clock.position 0
  | some last => Clock.next last

/-- Not written: live on entry. Not read: live until the given end. Of unknown size: one byte. -/
def LiveRange.resolve (range : LiveRange τ) (lastUse : τ) : LiveRange τ where
  defined := some (range.defined.getD Clock.entry)
  used := some (range.used.getD lastUse)
  size := some (range.size.getD 1)

def resolveEntries (entries : List (Entry τ)) (lastUse : Option τ) : List (Entry τ) :=
  let lastUse := lastUse.getD (endOfUse entries)
  entries.map fun entry => { entry with range := entry.range.resolve lastUse }

end Times

end StoragePlan
