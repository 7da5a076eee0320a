import Mathlib.Data.List.Forall2
import StoragePlan.Net.Basic

set_option autoImplicit false

namespace StoragePlan

abbrev Store (V : Type) := String → V

abbrev Kernel (V : Type) := List V → Nat → V

abbrev Schedule := List (Op × Nat)

def schedule (ops : List Op) (order : List Nat) : Schedule :=
  order.filterMap fun number => ops[number]?.map (·, number)

section Semantics

variable {V : Type}

def Store.write (store : Store V) (blob : String) (value : V) : Store V :=
  fun other => if other = blob then value else store other

def Store.writeFrom (store : Store V) (values : Nat → V) (number : Nat) : List String → Store V
  | [] => store
  | blob :: rest => (store.write blob (values number)).writeFrom values (number + 1) rest

def Op.run (op : Op) (kernel : Kernel V) (store : Store V) : Store V :=
  store.writeFrom (kernel (op.inputs.map store)) 0 op.outputs

def readsOf (kernels : Nat → Kernel V) : Schedule → Store V → List (List V)
  | [], _ => []
  | (op, number) :: rest, store =>
    op.inputs.map store :: readsOf kernels rest (op.run (kernels number) store)

def finalStore (kernels : Nat → Kernel V) : Schedule → Store V → Store V
  | [], store => store
  | (op, number) :: rest, store => finalStore kernels rest (op.run (kernels number) store)

variable {kernels : Nat → Kernel V}

theorem finalStore_append (before after : Schedule) (store : Store V) :
    finalStore kernels (before ++ after) store =
      finalStore kernels after (finalStore kernels before store) := by
  induction before generalizing store with
  | nil => rfl
  | cons entry rest ih => exact ih _

theorem readsOf_getElem? (steps : Schedule) (store : Store V) (position : Nat) :
    (readsOf kernels steps store)[position]? = steps[position]?.map fun entry =>
      entry.1.inputs.map (finalStore kernels (steps.take position) store) := by
  induction steps generalizing store position with
  | nil => rfl
  | cons entry rest ih =>
    cases position with
    | zero => rfl
    | succ position => simpa [readsOf, finalStore] using ih _ position

theorem writeFrom_const (store : Store V) (value : V) (number : Nat) (outputs : List String)
    (blob : String) : store.writeFrom (fun _ => value) number outputs blob =
      if blob ∈ outputs then value else store blob := by
  induction outputs generalizing store number with
  | nil => simp [Store.writeFrom]
  | cons output rest ih =>
    rw [Store.writeFrom, ih]
    by_cases later : blob ∈ rest
    next => simp [later]
    next => simp [later, Store.write]

theorem finalStore_const {value : Nat → V} {steps : Schedule} {store : Store V} {blob : String} {v : V}
    (agree : ∀ entry ∈ steps, blob ∈ entry.1.outputs → value entry.2 = v)
    (start : store blob = v ∨ ∃ entry ∈ steps, blob ∈ entry.1.outputs) :
    finalStore (fun number _ _ => value number) steps store blob = v := by
  induction steps generalizing store with
  | nil => exact start.resolve_right (by simp)
  | cons entry rest ih =>
    have ⟨first, later⟩ := List.forall_mem_cons.mp agree
    apply ih later
    by_cases written : blob ∈ entry.1.outputs
    next =>
      -- From here on it does not matter what stood there before.
      left
      simp [Op.run, writeFrom_const, written, first written]
    next =>
      refine start.imp (fun same => ?_) fun ⟨other, member, output⟩ => ?_
      next => simpa [Op.run, writeFrom_const, written] using same
      next =>
        cases List.mem_cons.mp member with
        | inl same => exact absurd (same ▸ output) written
        | inr inside => exact ⟨other, inside, output⟩

end Semantics

def WrittenAt (ops : List Op) (blob : String) (position : Nat) : Prop :=
  ∃ op, ops[position]? = some op ∧ blob ∈ op.outputs

def ReadAt (ops : List Op) (blob : String) (position : Nat) : Prop :=
  ∃ op, ops[position]? = some op ∧ blob ∈ op.inputs

def ReadsFirst (ops : List Op) (blob : String) (position : Nat) : Prop :=
  ReadAt ops blob position ∧ ∀ earlier < position, ¬ WrittenAt ops blob earlier

/-- The value that the blob has before the operations run is read by one of them, or kept. -/
def LiveIn (keep : String → Prop) : List Op → String → Prop
  | [], blob => keep blob
  | op :: rest, blob => blob ∈ op.inputs ∨ blob ∉ op.outputs ∧ LiveIn keep rest blob

section Positions

variable {op : Op} {rest ops : List Op} {blob : String} {position : Nat}

@[simp] theorem writtenAt_nil : ¬ WrittenAt [] blob position := by
  simp [WrittenAt]

@[simp] theorem writtenAt_cons_zero : WrittenAt (op :: rest) blob 0 ↔ blob ∈ op.outputs := by
  simp [WrittenAt]

@[simp] theorem writtenAt_cons_succ :
    WrittenAt (op :: rest) blob (position + 1) ↔ WrittenAt rest blob position := by
  simp [WrittenAt]

@[simp] theorem writtenAt_drop {start : Nat} :
    WrittenAt (ops.drop start) blob position ↔ WrittenAt ops blob (start + position) := by
  simp [WrittenAt]

@[simp] theorem readAt_drop {start : Nat} :
    ReadAt (ops.drop start) blob position ↔ ReadAt ops blob (start + position) := by
  simp [ReadAt]

theorem forall_not_writtenAt_cons : (∀ position, ¬ WrittenAt (op :: rest) blob position) ↔
    blob ∉ op.outputs ∧ ∀ position, ¬ WrittenAt rest blob position := by
  constructor
  next =>
    intro untouched
    exact ⟨by simpa using untouched 0, fun position => by simpa using untouched (position + 1)⟩
  next =>
    rintro ⟨fresh, untouched⟩ position
    cases position with
    | zero => simpa using fresh
    | succ position => simpa using untouched position

theorem readsFirst_cons_succ : ReadsFirst (op :: rest) blob (position + 1) ↔
    blob ∉ op.outputs ∧ ReadsFirst rest blob position := by
  have same : ReadAt (op :: rest) blob (position + 1) ↔ ReadAt rest blob position := by simp [ReadAt]
  rw [ReadsFirst, ReadsFirst, same]
  constructor
  next =>
    rintro ⟨reads, untouched⟩
    refine ⟨by simpa using untouched 0 (Nat.succ_pos _), reads, fun earlier less => ?_⟩
    simpa using untouched (earlier + 1) (Nat.succ_lt_succ less)
  next =>
    rintro ⟨fresh, reads, untouched⟩
    refine ⟨reads, fun earlier less => ?_⟩
    cases earlier with
    | zero => simpa using fresh
    | succ earlier => simpa using untouched earlier (Nat.lt_of_succ_lt_succ less)

theorem liveIn_iff {keep : String → Prop} : LiveIn keep ops blob ↔
    (∃ position, ReadsFirst ops blob position) ∨ keep blob ∧ ∀ position, ¬ WrittenAt ops blob position := by
  induction ops with
  | nil => simp [LiveIn, ReadsFirst, ReadAt]
  | cons op rest ih =>
    rw [LiveIn, ih, forall_not_writtenAt_cons]
    constructor
    next =>
      rintro (read | ⟨fresh, ⟨position, first⟩ | ⟨kept, untouched⟩⟩)
      next => exact .inl ⟨0, ⟨op, rfl, read⟩, by simp⟩
      next => exact .inl ⟨position + 1, readsFirst_cons_succ.mpr ⟨fresh, first⟩⟩
      next => exact .inr ⟨kept, fresh, untouched⟩
    next =>
      rintro (⟨position, first⟩ | ⟨kept, fresh, untouched⟩)
      next =>
        cases position with
        | zero =>
          obtain ⟨⟨other, found, read⟩, -⟩ := first
          obtain rfl : op = other := Option.some.inj found
          exact .inl read
        | succ position =>
          obtain ⟨fresh, later⟩ := readsFirst_cons_succ.mp first
          exact .inr ⟨fresh, .inl ⟨position, later⟩⟩
      next => exact .inr ⟨fresh, .inr ⟨kept, untouched⟩⟩

theorem mem_blobNames_iff {net : Net} : blob ∈ net.blobNames ↔
    ∃ (number : Nat) (op : Op), net.ops[number]? = some op ∧ (blob ∈ op.inputs ∨ blob ∈ op.outputs) := by
  rw [Net.blobNames, List.mem_eraseDups, List.mem_flatMap]
  constructor
  next =>
    intro operand
    obtain ⟨op, member, inside⟩ := operand
    obtain ⟨number, here⟩ := List.mem_iff_getElem?.mp member
    exact ⟨number, op, here, List.mem_append.mp inside⟩
  next =>
    intro operand
    obtain ⟨number, op, here, inside⟩ := operand
    exact ⟨op, List.mem_of_getElem? here, List.mem_append.mpr inside⟩

theorem mem_blobNames_of_writtenAt {net : Net} (written : WrittenAt net.ops blob position) :
    blob ∈ net.blobNames := by
  obtain ⟨op, here, output⟩ := written
  exact mem_blobNames_iff.mpr ⟨position, op, here, .inr output⟩

theorem mem_blobNames_of_readAt {net : Net} (read : ReadAt net.ops blob position) :
    blob ∈ net.blobNames := by
  obtain ⟨op, here, input⟩ := read
  exact mem_blobNames_iff.mpr ⟨position, op, here, .inl input⟩

end Positions

def Op.RenamedBy (name : String → String) (op renamed : Op) : Prop :=
  renamed.inputs = op.inputs.map name ∧ renamed.outputs = op.outputs.map name

theorem getElem?_of_forall₂ {α β : Type} {related : α → β → Prop} {before : List α} {after : List β}
    (each : List.Forall₂ related before after) {index : Nat} {item : α} (here : before[index]? = some item) :
    ∃ item', after[index]? = some item' ∧ related item item' := by
  induction each generalizing index with
  | nil => simp at here
  | cons first _ ih =>
    cases index with
    | zero =>
      obtain rfl := Option.some.inj here
      exact ⟨_, rfl, first⟩
    | succ index => exact ih here

/-- No write hits the new name of another blob that is needed afterwards. -/
def Undisturbed (name : String → String) (keep : String → Prop) : List Op → Prop
  | [] => True
  | op :: rest =>
    (∀ written ∈ op.outputs, ∀ live, LiveIn keep rest live → name live = name written →
      live = written) ∧ Undisturbed name keep rest

theorem undisturbed_of_positions {name : String → String} {keep : String → Prop} {ops : List Op}
    (apart : ∀ position written, WrittenAt ops written position → ∀ live,
      LiveIn keep (ops.drop (position + 1)) live → name live = name written → live = written) :
    Undisturbed name keep ops := by
  induction ops with
  | nil => trivial
  | cons op rest ih =>
    refine ⟨fun written output => apart 0 written (by simpa using output), ih ?_⟩
    intro position written output
    exact apart (position + 1) written (by simpa using output)

section Simulation

variable {V : Type} {name : String → String}

theorem writeFrom_agree {needed : String → Prop} {outputs : List String}
    (apart : ∀ written ∈ outputs, ∀ live, needed live → name live = name written → live = written)
    {store store' : Store V}
    (agree : ∀ live, needed live → live ∉ outputs → store' (name live) = store live)
    (values : Nat → V) (number : Nat) (live : String) (need : needed live) :
    store'.writeFrom values number (outputs.map name) (name live) =
      store.writeFrom values number outputs live := by
  induction outputs generalizing store store' number with
  | nil => exact agree live need (by simp)
  | cons blob rest ih =>
    refine ih (fun written inside => apart written (List.mem_cons_of_mem _ inside)) ?_ (number + 1)
    intro other need' fresh
    by_cases same : other = blob
    next => simp [Store.write, same]
    next =>
      have different : name other ≠ name blob := fun hit =>
        same (apart blob List.mem_cons_self other need' hit)
      simp only [Store.write, same, different, if_false]
      exact agree other need' (by simp [same, fresh])

theorem reads_renamed {keep : String → Prop} {ops ops' : List Op}
    (renamed : List.Forall₂ (Op.RenamedBy name) ops ops') (safe : Undisturbed name keep ops)
    (kernels : Nat → Kernel V) {numbers : List Nat} (length : numbers.length = ops.length)
    {store store' : Store V} (agree : ∀ blob, LiveIn keep ops blob → store' (name blob) = store blob) :
    readsOf kernels (ops'.zip numbers) store' = readsOf kernels (ops.zip numbers) store ∧
      ∀ blob, keep blob → finalStore kernels (ops'.zip numbers) store' (name blob) =
        finalStore kernels (ops.zip numbers) store blob := by
  induction renamed generalizing numbers store store' with
  | nil => exact ⟨rfl, agree⟩
  | @cons op op' rest rest' same renamed ih =>
    cases numbers with
    | nil => simp at length
    | cons number numbers =>
      obtain ⟨apart, safe⟩ := safe
      -- The stores agree on what is live before the operation: on all it reads, and on all that is
      -- live behind it except for its own writes.
      have read : op'.inputs.map store' = op.inputs.map store := by
        rw [same.1, List.map_map]
        exact List.map_congr_left fun blob inside => agree blob (.inl inside)
      have later : ∀ blob, LiveIn keep rest blob →
          op'.run (kernels number) store' (name blob) = op.run (kernels number) store blob := by
        intro blob live
        rw [Op.run, Op.run, read, same.2]
        exact writeFrom_agree apart (fun other live fresh => agree other (.inr ⟨fresh, live⟩)) _ 0
          blob live
      obtain ⟨reads, final⟩ := ih safe (Nat.succ.inj length) later
      exact ⟨by simp only [List.zip_cons_cons, readsOf, read, reads], final⟩

end Simulation

end StoragePlan
