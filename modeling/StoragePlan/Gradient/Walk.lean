import StoragePlan.Gradient.Scope
import StoragePlan.Weight

set_option autoImplicit false

namespace StoragePlan

/-- One entry into an operation: what it released, and which outputs were given storage. -/
structure Visit where
  op : Nat
  pool : Nat
  released : List (String × String)
  handed : List (String × String)

structure Branching where
  pool : Nat
  pending : List Nat
  -- None of the readers has been entered yet; the first one to be takes over the pool.
  first : Bool

structure Walk where
  branchings : List Branching
  -- Readers of losses that the walk has still to start from.
  starts : List Nat
  -- The readers told so far, once for each input that has arrived.
  arrivals : List Nat
  reads : List String
  produced : List String
  pools : List Names
  -- Whose storage a gradient was given, the latest first.
  donors : List (String × String)
  visits : List Visit

namespace Walk

def start (b : Backward) : Walk where
  branchings := []
  starts := b.losses.flatMap b.readers
  arrivals := []
  reads := []
  produced := []
  pools := []
  donors := []
  visits := []

def storageOf (w : Walk) (blob : String) : String := (w.donors.lookup blob).getD blob

def release (b : Backward) (w : Walk) : List String → List String × List (String × String)
  | [] => (w.reads, [])
  | input :: rest =>
    let reads := input :: w.reads
    let (final, released) := release b { w with reads } rest
    if reads.count input = (b.readers input).length then
      (final, (input, w.storageOf input) :: released)
    else (final, released)

structure Handout where
  pool : Names
  produced : List String
  handed : List (String × String)

/-- An output that is written for the first time takes the least free storage, if there is any. -/
def handOut (h : Handout) (output : String) : Handout :=
  let produced := output :: h.produced
  if h.produced.contains output then { h with produced }
  else
    match h.pool.popFirst with
    | none => { h with produced }
    | some (storage, pool) => ⟨pool, produced, (output, storage) :: h.handed⟩

def enter (b : Backward) (w : Walk) (index pool : Nat) : Walk :=
  match b.ops[index]? with
  | none => w
  | some op =>
    let (reads, released) := release b w (op.inputs.filter b.scope.isGradient)
    let served := (op.outputs.filter b.scope.isGradient).foldl handOut
      ⟨(w.pools[pool]?).getD .empty, w.produced, []⟩
    { w with
      branchings := ⟨pool, b.branches index, true⟩ :: w.branchings
      reads
      produced := served.produced
      pools := w.pools.set pool (served.pool.insertAll (released.map (·.2)))
      donors := served.handed ++ w.donors
      visits := ⟨index, pool, released, served.handed⟩ :: w.visits }

def openPool (w : Walk) : Walk := { w with pools := w.pools ++ [.empty] }

def step (b : Backward) (w : Walk) : Option Walk :=
  match w.branchings with
  | [] =>
    match w.starts with
    | [] => none
    | index :: starts => some (enter b { w with starts }.openPool index w.pools.length)
  | ⟨_, [], _⟩ :: branchings => some { w with branchings }
  | ⟨pool, reader :: pending, first⟩ :: branchings =>
    let arrivals := reader :: w.arrivals
    if arrivals.count reader = b.needed reader then
      let told := { w with arrivals, branchings := ⟨pool, pending, false⟩ :: branchings }
      if first then some (enter b told reader pool)
      else some (enter b told.openPool reader w.pools.length)
    else some { w with arrivals, branchings := ⟨pool, pending, first⟩ :: branchings }

def isWaiting (b : Backward) (w : Walk) (index : Nat) : Bool := w.arrivals.count index < b.needed index

/-- What an entry into the operation costs: the steps through its branches and one more. -/
def entryWork (b : Backward) (index : Nat) : Nat := (b.branches index).length + 2

def waitingWork (b : Backward) (w : Walk) : Nat :=
  weightOf (entryWork b) (w.isWaiting b) (List.range b.ops.length)

def startWork (b : Backward) (w : Walk) : Nat := total (w.starts.map (entryWork b))

def openWork (w : Walk) : Nat :=
  total (w.branchings.map fun branching => branching.pending.length + 1)

def work (b : Backward) (w : Walk) : Nat := w.waitingWork b + w.startWork b + w.openWork

@[simp] theorem enter_arrivals (b : Backward) (w : Walk) (index pool : Nat) :
    (enter b w index pool).arrivals = w.arrivals := by
  unfold enter; split <;> rfl

@[simp] theorem enter_starts (b : Backward) (w : Walk) (index pool : Nat) :
    (enter b w index pool).starts = w.starts := by
  unfold enter; split <;> rfl

theorem enter_openWork (b : Backward) (w : Walk) (index pool : Nat) :
    (enter b w index pool).openWork < w.openWork + entryWork b index := by
  unfold enter entryWork
  split
  next => omega
  next => simp only [openWork, List.map_cons, total_cons]; omega

theorem waitingWork_congr (b : Backward) {w w' : Walk} (same : w'.arrivals = w.arrivals) :
    w'.waitingWork b = w.waitingWork b := by
  unfold waitingWork isWaiting; rw [same]

theorem isWaiting_of_cons (b : Backward) {w w' : Walk} {reader index : Nat}
    (told : w'.arrivals = reader :: w.arrivals) (h : isWaiting b w' index) : isWaiting b w index := by
  simp only [isWaiting, told, decide_eq_true_eq] at h ⊢
  exact Nat.lt_of_le_of_lt List.count_le_count_cons h

theorem waitingWork_cons_le (b : Backward) {w w' : Walk} {reader : Nat}
    (told : w'.arrivals = reader :: w.arrivals) : w'.waitingWork b ≤ w.waitingWork b :=
  weightOf_le (fun _ => isWaiting_of_cons b told) _

theorem lt_of_ready (b : Backward) {reader : Nat} {arrivals : List Nat}
    (ready : (reader :: arrivals).count reader = b.needed reader) : reader < b.ops.length := by
  refine Nat.lt_of_not_le fun outside => ?_
  simp [Backward.needed, List.getElem?_eq_none outside] at ready

theorem waitingWork_cons_ready (b : Backward) {w w' : Walk} {reader : Nat}
    (told : w'.arrivals = reader :: w.arrivals)
    (ready : (reader :: w.arrivals).count reader = b.needed reader) :
    w'.waitingWork b + entryWork b reader ≤ w.waitingWork b := by
  have inside := List.mem_range.mpr (lt_of_ready b ready)
  refine weightOf_add_le (fun _ => isWaiting_of_cons b told) inside ?_ ?_
  next => simp [isWaiting, ← ready]
  next => simp [isWaiting, told, ready]

theorem step_work (b : Backward) {w w' : Walk} (h : w.step b = some w') : w'.work b < w.work b := by
  unfold step at h
  split at h
  next empty =>
    split at h
    next => simp at h
    next index starts begin =>
      obtain rfl := Option.some.inj h
      have bound := enter_openWork b { w with starts }.openPool index w.pools.length
      have same : (enter b { w with starts }.openPool index w.pools.length).waitingWork b =
          w.waitingWork b := waitingWork_congr b (by simp [openPool])
      simp only [work, same, startWork, enter_starts, begin, List.map_cons, total_cons]
      simp only [openPool, openWork] at bound ⊢
      omega
  next rest here =>
    obtain rfl := Option.some.inj h
    have same : ({ w with branchings := rest } : Walk).waitingWork b = w.waitingWork b := rfl
    simp only [work, same, startWork, openWork, here, List.map_cons, total_cons]
    omega
  next pool reader pending first rest here =>
    dsimp only at h
    split at h
    next ready =>
      let told : Walk :=
        { w with arrivals := reader :: w.arrivals, branchings := ⟨pool, pending, false⟩ :: rest }
      have less : told.openWork < w.openWork := by
        simp only [told, openWork, here, List.map_cons, total_cons, List.length_cons]
        omega
      split at h
      next =>
        obtain rfl := Option.some.inj h
        have bound := enter_openWork b told reader pool
        have freed : (enter b told reader pool).waitingWork b + entryWork b reader ≤
            w.waitingWork b := waitingWork_cons_ready b (by simp [told]) ready
        simp only [work, startWork, enter_starts]
        simp only [told] at bound freed less ⊢
        omega
      next =>
        obtain rfl := Option.some.inj h
        have bound := enter_openWork b told.openPool reader w.pools.length
        have freed : (enter b told.openPool reader w.pools.length).waitingWork b +
            entryWork b reader ≤ w.waitingWork b :=
          waitingWork_cons_ready b (by simp [told, openPool]) ready
        have opened : told.openPool.openWork = told.openWork := rfl
        simp only [work, startWork, enter_starts, openPool]
        simp only [told, openPool] at bound freed less opened ⊢
        omega
    next =>
      obtain rfl := Option.some.inj h
      have told : ({ w with arrivals := reader :: w.arrivals,
                            branchings := ⟨pool, pending, first⟩ :: rest } : Walk).arrivals =
          reader :: w.arrivals := rfl
      have fewer := waitingWork_cons_le b told
      simp only [work, startWork, openWork, here, List.map_cons, total_cons, List.length_cons]
      omega

def run (b : Backward) (w : Walk) : Walk :=
  match _h : w.step b with
  | none => w
  | some next => run b next
termination_by w.work b
decreasing_by exact step_work b _h

end Walk

end StoragePlan
