import StoragePlan.Live.Basic
import StoragePlan.Sorting

set_option autoImplicit false

namespace StoragePlan

abbrev Slot (τ : Type := Int) := List (Entry τ)

def Slot.bytes {τ : Type} (slot : Slot τ) : UInt64 := (slot.map Entry.bytes).foldr max 0

section Before

variable {τ : Type} [LT τ] [DecidableLT τ]

/-- The later range starts strictly after the earlier one ends. -/
def LiveRange.before (earlier later : LiveRange τ) : Bool :=
  match earlier.used, later.defined with
  | some used, some defined => used < defined
  | _, _ => false

/-- Static blobs never hand their slot on. -/
def Slot.accepts (statics : Names) (slot : Slot τ) (candidate : LiveRange τ) : Bool :=
  match slot.getLast? with
  | none => false
  | some last =>
    !statics.contains last.blob && last.range.defined.isSome && last.range.before candidate

end Before

def firstLeast {α : Type} (key : α → Nat) : List α → Option α
  | [] => none
  | item :: rest =>
    match firstLeast key rest with
    | none => some item
    | some other => if key other < key item then some other else some item

def sizeGap (a b : UInt64) : UInt64 := if a ≤ b then b - a else a - b

section Placing

variable {τ : Type} [LT τ] [DecidableLT τ]

/-- The number of the accepting slot that is nearest in size, the first one of several. -/
def nearestSlot? (statics : Names) (slots : List (Slot τ)) (entry : Entry τ) : Option Nat :=
  (firstLeast (fun numbered : Slot τ × Nat => (sizeGap numbered.1.bytes entry.bytes).toNat)
    (slots.zipIdx.filter fun numbered => numbered.1.accepts statics entry.range)).map (·.2)

def place (statics : Names) (slots : List (Slot τ)) (entry : Entry τ) : List (Slot τ) :=
  match nearestSlot? statics slots entry with
  | some index => slots.modify index (· ++ [entry])
  | none => slots ++ [[entry]]

/-- Places the entries in order. Blobs that have a slot from the start are passed over. -/
def placeAll (statics : Names) (slots : List (Slot τ)) (entries : List (Entry τ)) : List (Slot τ) :=
  let taken := slots.flatMap fun slot => slot.map (·.blob)
  (entries.filter fun entry => !taken.contains entry.blob).foldl (place statics) slots

end Placing

/-- By last use, blobs without one last. -/
def byLastUse {τ : Type} [LE τ] [DecidableLE τ] (a b : Entry τ) : Bool :=
  match a.range.used, b.range.used with
  | some x, some y => x ≤ y
  | none, some _ => false
  | _, none => true

/-- Static blobs get slots of their own behind the shared ones. -/
def assignSlots {τ : Type} [Clock τ] [Max τ] [LE τ] [DecidableLE τ] [LT τ] [DecidableLT τ]
    (table : LiveTable τ) (statics : Names) : List (Slot τ) :=
  let entries := resolveEntries (sortBy byLastUse table.entries) none
  let (apart, sharable) := entries.partition fun entry => statics.contains entry.blob
  placeAll statics [] sharable ++ apart.map ([·])

section Slots

variable {τ : Type}

def sharableCount (table : LiveTable τ) (statics : Names) : Nat :=
  (table.entries.filter fun entry => !statics.contains entry.blob).length

def sharedSlots (slots : List (Slot τ)) : List (Slot τ) := slots.filter fun slot => 1 < slot.length

variable [LT τ] [DecidableLT τ]

def Slot.firstOverlap? : Slot τ → Option (Entry τ × Entry τ)
  | earlier :: later :: rest =>
    if earlier.range.before later.range then firstOverlap? (later :: rest)
    else some (earlier, later)
  | _ => none

def verifySlots (slots : List (Slot τ)) : Except PlanError Unit :=
  match slots.findSome? Slot.firstOverlap? with
  | none => .ok ()
  | some (earlier, later) => .error (.overlap earlier.blob later.blob)

end Slots

end StoragePlan
