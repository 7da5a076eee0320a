import Mathlib.Algebra.Order.BigOperators.Group.List
import Mathlib.Algebra.Order.Group.Nat
import Mathlib.Data.List.Perm.Subperm
import StoragePlan.Proofs.Gradient.Sharing
import StoragePlan.Proofs.Gradient.Storage
import StoragePlan.Proofs.Slot.Footprint

set_option autoImplicit false

namespace StoragePlan

-- No item but those of weight zero stands in the list twice.
theorem total_map_le_of_distinct {weight : Nat → Nat} {items all : List Nat}
    (distinct : ∀ item, weight item ≠ 0 → items.count item ≤ 1)
    (inside : ∀ item ∈ items, weight item ≠ 0 → item ∈ all) :
    total (items.map weight) ≤ total (all.map weight) := by
  let heavy := items.filter fun item => weight item ≠ 0
  have kept : total (items.map weight) = total (heavy.map weight) := by
    clear distinct inside
    induction items with
    | nil => rfl
    | cons item rest ih => by_cases light : weight item = 0 <;> simp [heavy, light, ih]
  have nodup : heavy.Nodup := by
    refine List.nodup_iff_count_le_one.mpr fun item => ?_
    by_cases light : weight item = 0
    next => simp [heavy, List.count_eq_zero_of_not_mem, light]
    next =>
      rw [List.count_filter (by simpa using light)]
      exact distinct item light
  have among : heavy ⊆ all := by
    intro item member
    have ⟨member, light⟩ := List.mem_filter.mp member
    exact inside item member (by simpa using light)
  obtain ⟨part, perm, sub⟩ := List.subperm_of_subset nodup among
  rw [kept, ← total_perm (perm.map weight), total_eq_sum, total_eq_sum]
  exact (sub.map weight).sum_le_sum fun _ _ => Nat.zero_le _

namespace Backward

def uses (b : Backward) (index : Nat) (blob : String) : Nat :=
  match b.ops[index]? with
  | none => 0
  | some op => op.inputs.count blob

theorem uses_eq_zero_iff {b : Backward} {index : Nat} {blob : String} : b.uses index blob = 0 ↔
    ∀ op, b.ops[index]? = some op → blob ∉ op.inputs := by
  unfold uses
  split
  next missing => simp [missing]
  next op found => simp [found, List.count_eq_zero]

-- The uses by operations that update the gradient in place are missing from the readers.
theorem length_readers {b : Backward} {blob : String} (gradient : b.scope.isGradient blob = true)
    (moved : ∀ op ∈ b.ops, blob ∈ op.inputs → blob ∉ op.outputs) :
    (b.readers blob).length = total ((List.range b.ops.length).map fun index => b.uses index blob) := by
  have single (op : Op) (member : op ∈ b.ops) : (op.inputs.filter fun input =>
      input = blob && b.waitsFor op input).length = op.inputs.count blob := by
    rw [List.count_eq_length_filter]
    refine congrArg List.length (List.filter_congr fun input inside => ?_)
    by_cases same : input = blob
    next =>
      subst same
      simp [waitsFor, gradient, moved op member inside]
    next => simp [same]
  rw [readers, List.length_flatMap, total_eq_sum]
  refine congrArg List.sum (List.ext_getElem (by simp) fun index here there => ?_)
  have bound : index < b.ops.length := by simpa using here
  simp [uses, single _ (List.getElem_mem bound), List.getElem?_eq_getElem bound]

end Backward

namespace Walk

def readsIn (b : Backward) (visits : List Visit) (blob : String) : Nat :=
  total (visits.map fun visit => b.uses visit.op blob)

def entries (visits : List Visit) (index : Nat) : Nat := (visits.map (·.op)).count index

def ReadByAll (b : Backward) (visits : List Visit) (blob : String) : Prop :=
  ∀ index op, b.ops[index]? = some op → blob ∈ op.inputs → ∃ visit ∈ visits, visit.op = index

def FilledBy (b : Backward) (visit : Visit) (earlier : List Visit) (blob : String) : Prop :=
  b.scope.isGradient blob = true ∧ readsIn b earlier blob < (b.readers blob).length ∧
    (b.readers blob).length ≤ readsIn b (visit :: earlier) blob

def ReleasesFilled (b : Backward) : List Visit → Prop
  | [] => True
  | visit :: earlier =>
    (∀ blob, (∃ storage, (blob, storage) ∈ visit.released) ↔ FilledBy b visit earlier blob) ∧
      ReleasesFilled b earlier

theorem ReleasesFilled.at {b : Backward} {later earlier : List Visit} {visit : Visit}
    (filled : ReleasesFilled b (later ++ visit :: earlier)) :
    ReleasesFilled b (visit :: earlier) := by
  induction later with
  | nil => exact filled
  | cons _ rest ih => exact ih filled.2

theorem exists_released {b : Backward} {w : Walk} {inputs : List String} {blob : String}
    (early : w.reads.count blob < (b.readers blob).length)
    (full : (b.readers blob).length ≤ w.reads.count blob + inputs.count blob) :
    ∃ storage, (blob, storage) ∈ (release b w inputs).2 := by
  induction inputs generalizing w with
  | nil =>
    rw [List.count_nil] at full
    omega
  | cons input rest ih =>
    let read : Walk := { w with reads := input :: w.reads }
    have counted : (input :: rest).count blob + w.reads.count blob =
        read.reads.count blob + rest.count blob := by
      simp only [read, List.count_cons]
      omega
    by_cases now : read.reads.count blob = (b.readers blob).length
    next =>
      have same : input = blob := by
        by_contra different
        rw [List.count_cons_of_ne different] at now
        omega
      subst same
      refine ⟨w.storageOf input, ?_⟩
      simp only [release]
      rw [if_pos now]
      exact List.mem_cons_self
    next =>
      have more : read.reads.count blob ≤ w.reads.count blob + 1 := by
        simp only [read, List.count_cons]
        split <;> omega
      obtain ⟨storage, inside⟩ := @ih read (by omega) (by omega)
      refine ⟨storage, ?_⟩
      simp only [release]
      split
      next => exact List.mem_cons_of_mem _ inside
      next => exact inside

theorem released_iff {b : Backward} {w : Walk} {inputs : List String} {blob : String} :
    (∃ storage, (blob, storage) ∈ (release b w inputs).2) ↔
      w.reads.count blob < (b.readers blob).length ∧
        (b.readers blob).length ≤ w.reads.count blob + inputs.count blob := by
  constructor
  next =>
    intro released
    obtain ⟨storage, inside⟩ := released
    obtain ⟨-, -, needed, full⟩ := mem_released inside
    rw [release_reads, List.count_append, List.count_reverse] at full
    rw [UsedUp] at needed
    omega
  next => exact fun full => exists_released full.1 full.2

structure Counted (b : Backward) (w : Walk) : Prop where
  reads : ∀ blob, b.scope.isGradient blob = true → w.reads.count blob = readsIn b w.visits blob
  filled : ReleasesFilled b w.visits

theorem counted_start (b : Backward) : (start b).Counted b where
  reads := by simp [start, readsIn]
  filled := trivial

theorem Counted.congr {b : Backward} {w w' : Walk} (counted : w.Counted b)
    (reads : w'.reads = w.reads) (visits : w'.visits = w.visits) : w'.Counted b where
  reads := by
    rw [reads, visits]
    exact counted.reads
  filled := visits ▸ counted.filled

theorem Counted.enter {b : Backward} {w : Walk} (counted : w.Counted b) (index pool : Nat) :
    (enter b w index pool).Counted b := by
  cases found : b.ops[index]? with
  | none =>
    have same : Walk.enter b w index pool = w := by simp [Walk.enter, found]
    rw [same]
    exact counted
  | some op =>
    let inputs := op.inputs.filter b.scope.isGradient
    have reads : (Walk.enter b w index pool).reads = inputs.reverse ++ w.reads := by
      simp [Walk.enter, found, inputs, release_reads]
    have visits : ∃ handed, (Walk.enter b w index pool).visits =
        ⟨index, pool, (release b w inputs).2, handed⟩ :: w.visits := by
      simp [Walk.enter, found, inputs]
    obtain ⟨handed, visits⟩ := visits
    have read {blob : String} (gradient : b.scope.isGradient blob = true) :
        inputs.count blob = b.uses index blob := by
      simp [inputs, Backward.uses, found, List.count_filter gradient]
    constructor
    case reads =>
      intro blob gradient
      rw [reads, visits, List.count_append, List.count_reverse, read gradient,
        counted.reads blob gradient]
      rfl
    case filled =>
      rw [visits]
      refine ⟨fun blob => ?_, counted.filled⟩
      rw [released_iff, FilledBy]
      cases gradient : b.scope.isGradient blob with
      | false =>
        -- What is no gradient is never counted.
        have unread : inputs.count blob = 0 :=
          List.count_eq_zero.mpr fun inside => by simp [inputs, gradient] at inside
        simp only [unread, Bool.false_eq_true, false_and, iff_false]
        omega
      | true =>
        rw [read gradient, counted.reads blob gradient]
        simp only [readsIn, List.map_cons, total_cons, true_and, Nat.add_comm]

theorem Counted.step {b : Backward} {w w' : Walk} (counted : w.Counted b)
    (taken : w.step b = some w') : w'.Counted b :=
  step_keeps (Counted b) (fun _ _ same before => before.congr same.reads same.visits)
    (fun _ before => before.congr rfl rfl) (fun _ index pool before => before.enter index pool)
    counted taken

theorem Reached.counted {b : Backward} {w : Walk} (reached : Reached b w) : w.Counted b := by
  induction reached with
  | start => exact counted_start b
  | step _ taken ih => exact ih.step taken

def EntriesBounded (b : Backward) (w : Walk) : Prop :=
  ∀ index, entries w.visits index + w.starts.count index ≤
    (b.losses.flatMap b.readers).count index + if w.isWaiting b index then 0 else 1

theorem entries_enter_le (b : Backward) (w : Walk) (index pool other : Nat) :
    entries (enter b w index pool).visits other ≤
      entries w.visits other + if index = other then 1 else 0 := by
  rcases enter_cases b w index pool with same | ⟨op, released, handed, -, recorded⟩
  next =>
    rw [same]
    exact Nat.le_add_right _ _
  next =>
    simp [recorded.visits, entries, List.count_cons]

theorem EntriesBounded.begin {b : Backward} {w : Walk} (bounded : w.EntriesBounded b) {index : Nat}
    {starts : List Nat} (next_ : w.starts = index :: starts) {left : Walk}
    (arrivals : left.arrivals = w.arrivals) (begun : left.starts = starts)
    (visits : left.visits = w.visits) (pool : Nat) : (enter b left index pool).EntriesBounded b := by
  intro other
  have before := bounded other
  have entered := entries_enter_le b left index pool other
  rw [next_] at before
  rw [visits] at entered
  rw [enter_starts, begun]
  simp only [isWaiting, enter_arrivals, arrivals, decide_eq_true_eq] at before ⊢
  by_cases same : index = other
  next =>
    subst same
    rw [if_pos rfl] at entered
    rw [List.count_cons_self] at before
    omega
  next =>
    rw [if_neg same] at entered
    rw [List.count_cons_of_ne same] at before
    omega

theorem EntriesBounded.ready {b : Backward} {w : Walk} (bounded : w.EntriesBounded b) {reader : Nat}
    (ready : (reader :: w.arrivals).count reader = b.needed reader) {told : Walk}
    (arrivals : told.arrivals = reader :: w.arrivals) (starts : told.starts = w.starts)
    (visits : told.visits = w.visits) (pool : Nat) : (enter b told reader pool).EntriesBounded b := by
  intro index
  have before := bounded index
  have entered := entries_enter_le b told reader pool index
  rw [visits] at entered
  rw [enter_starts, starts]
  simp only [isWaiting, enter_arrivals, arrivals, decide_eq_true_eq] at before ⊢
  by_cases same : reader = index
  next =>
    subst same
    rw [if_pos rfl] at entered
    rw [if_neg (by omega)]
    rw [List.count_cons_self] at ready
    rw [if_pos (by omega)] at before
    omega
  next =>
    rw [if_neg same] at entered
    rw [List.count_cons_of_ne same]
    omega

theorem EntriesBounded.step {b : Backward} {w w' : Walk} (bounded : w.EntriesBounded b)
    (taken : w.step b = some w') : w'.EntriesBounded b := by
  cases step_cases taken with
  | @begin index starts idle next_ =>
    let left : Walk := { w with starts }
    exact @EntriesBounded.begin b w bounded index starts next_ left.openPool rfl rfl rfl w.pools.length
  | leave top => exact bounded
  | @tell pool reader pending first rest top waiting =>
    intro index
    have before := bounded index
    simp only [isWaiting, decide_eq_true_eq] at before ⊢
    by_cases same : reader = index
    next =>
      subst same
      rw [List.count_cons_self] at waiting ⊢
      split at before <;> split <;> omega
    next => rwa [List.count_cons_of_ne same]
  | @onward pool reader pending rest top ready =>
    let told : Walk :=
      { w with arrivals := reader :: w.arrivals, branchings := ⟨pool, pending, false⟩ :: rest }
    exact @EntriesBounded.ready b w bounded reader ready told rfl rfl rfl pool
  | @aside pool reader pending rest top ready =>
    let told : Walk :=
      { w with arrivals := reader :: w.arrivals, branchings := ⟨pool, pending, false⟩ :: rest }
    exact @EntriesBounded.ready b w bounded reader ready told.openPool rfl rfl rfl w.pools.length

theorem Reached.entriesBounded {b : Backward} {w : Walk} (reached : Reached b w) :
    w.EntriesBounded b := by
  induction reached with
  | start =>
    intro index
    simp [Walk.start, entries]
  | step _ taken ih => exact ih.step taken

theorem entries_append (later visits : List Visit) (index : Nat) :
    entries (later ++ visits) index = entries later index + entries visits index := by
  rw [entries, List.map_append, List.count_append, entries, entries]

theorem Reached.entries_le {b : Backward} {w : Walk} (reached : Reached b w)
    {later visits : List Visit} (split : w.visits = later ++ visits) (index : Nat) :
    entries visits index ≤ (b.losses.flatMap b.readers).count index + 1 := by
  have bounded := reached.entriesBounded index
  rw [split, entries_append] at bounded
  split at bounded <;> omega

-- With one of its readers missing, the others would not have read it as often as is needed.
theorem readByAll_of_filled {b : Backward} {visits : List Visit} {blob : String}
    (gradient : b.scope.isGradient blob = true)
    (moved : ∀ op ∈ b.ops, blob ∈ op.inputs → blob ∉ op.outputs)
    (once : ∀ index, b.uses index blob ≠ 0 → entries visits index ≤ 1)
    (filled : (b.readers blob).length ≤ readsIn b visits blob) : ReadByAll b visits blob := by
  intro index op found input
  by_contra unread
  have absent : index ∉ visits.map (·.op) := by simpa using unread
  have used : b.uses index blob ≠ 0 := fun none => Backward.uses_eq_zero_iff.mp none op found input
  have within (i : Nat) (heavy : b.uses i blob ≠ 0) : i ∈ List.range b.ops.length := by
    by_contra outside
    have missing : b.ops[i]? = none := List.getElem?_eq_none (by simpa using outside)
    exact heavy (by simp [Backward.uses, missing])
  have bound : total ((index :: visits.map (·.op)).map fun i => b.uses i blob) ≤
      total ((List.range b.ops.length).map fun i => b.uses i blob) := by
    refine total_map_le_of_distinct (fun i heavy => ?_) fun i _ => within i
    by_cases same : index = i
    next =>
      subst same
      rw [List.count_cons_self, List.count_eq_zero_of_not_mem absent]
    next =>
      rw [List.count_cons_of_ne same]
      exact once i heavy
  rw [← Backward.length_readers gradient moved] at bound
  simp only [readsIn, List.map_map, List.map_cons, total_cons, Function.comp_def] at bound filled
  omega

end Walk

open Walk in
theorem releases_count_reads (net : Net) (losses : List String) (parameters : Names) (scope : String) :
    let b := Backward.ofNet ⟨gradientScopeName scope, parameters⟩ losses net
    Reached b (walkGradients b) ∧ ∀ w, Reached b w → ∀ later visit earlier,
      w.visits = later ++ visit :: earlier →
        (∀ blob, (∃ storage, (blob, storage) ∈ visit.released) ↔ FilledBy b visit earlier blob) ∧
        (∀ index, entries (visit :: earlier) index ≤ (b.losses.flatMap b.readers).count index + 1) ∧
        ∀ blob storage, (blob, storage) ∈ visit.released →
          (∀ op ∈ b.ops, blob ∈ op.inputs → blob ∉ op.outputs) →
          (∀ index ∈ b.losses.flatMap b.readers, b.uses index blob ≠ 0 →
            entries (visit :: earlier) index ≤ 1) →
          ReadByAll b (visit :: earlier) blob := by
  intro b
  refine ⟨Reached.start.run, fun w reached later visit earlier split => ?_⟩
  have filled := (split ▸ reached.counted.filled : ReleasesFilled b _).at.1
  have bounded := reached.entries_le split
  refine ⟨filled, bounded, fun blob storage released moved started => ?_⟩
  have full := (filled blob).mp ⟨storage, released⟩
  refine readByAll_of_filled full.1 moved (fun index used => ?_) full.2.2
  by_cases start : index ∈ b.losses.flatMap b.readers
  next => exact started index start used
  next =>
    have bound := bounded index
    rwa [List.count_eq_zero_of_not_mem start, Nat.zero_add] at bound

theorem Walk.split_of_getElem? {visits : List Visit} {index : Nat} {visit : Visit}
    (here : visits[index]? = some visit) :
    visits = visits.take index ++ visit :: visits.drop (index + 1) := by
  obtain ⟨bound, rfl⟩ := List.getElem?_eq_some_iff.mp here
  rw [← List.drop_eq_getElem_cons bound, List.take_append_drop]

open Walk in
theorem releases_count_reads_chain :
    let b := Backward.ofNet ⟨gradientScopeName "g", .empty⟩ ["loss"] chainNet
    ∃ later visit earlier, (walkGradients b).visits = later ++ visit :: earlier ∧
      ("g/a_grad", "g/a_grad") ∈ visit.released ∧ ReadByAll b (visit :: earlier) "g/a_grad" := by
  intro b
  have ⟨reached, holds⟩ := releases_count_reads chainNet ["loss"] .empty "g"
  have found : ((walkGradients b).visits[1]?).map (·.released) = some [("g/a_grad", "g/a_grad")] := by
    decide +kernel
  obtain ⟨visit, here, freed⟩ := Option.map_eq_some_iff.mp found
  have split := split_of_getElem? here
  have released : ("g/a_grad", "g/a_grad") ∈ visit.released := by simp [freed]
  refine ⟨_, visit, _, split, released, ?_⟩
  refine (holds _ reached _ _ _ split).2.2 _ _ released (by decide +kernel) fun index start used => ?_
  -- The loss starts the first operation only, which reads no gradient.
  have first : b.losses.flatMap b.readers = [0] := by decide +kernel
  rw [first] at start
  obtain rfl := List.mem_singleton.mp start
  exact absurd (by decide +kernel) used

/-- The second operation adds to a gradient in place. Its read counts, although it is no reader, so the
gradient is released by the third operation and written again before the last one reads it. -/
def accumulateNet : Net :=
  (Net.named "accumulate").withOps [⟨"G", ["loss"], ["g/d_grad", "g/b_grad"], []⟩,
    ⟨"Acc", ["g/b_grad", "g/d_grad"], ["g/b_grad"], []⟩, ⟨"Y", ["g/b_grad"], ["g/y_grad"], []⟩,
    ⟨"X", ["g/y_grad"], ["g/x_grad"], []⟩, ⟨"Z", ["g/b_grad"], ["g/z_grad"], []⟩]

open Walk in
theorem releases_before_last_reader_accumulate :
    let b := Backward.ofNet ⟨gradientScopeName "g", .empty⟩ ["loss"] accumulateNet
    (∃ later visit earlier, (walkGradients b).visits = later ++ visit :: earlier ∧
      ("g/b_grad", "g/b_grad") ∈ visit.released ∧ ¬ ReadByAll b (visit :: earlier) "g/b_grad") ∧
    ∃ plan, (shareGradients accumulateNet ["loss"] .empty "g").outcome = .ok plan ∧
      ["g/b_grad", "g/x_grad"].map plan.names.apply = ["g/__m0_", "g/__m0_"] := by
  intro b
  refine ⟨?_, ?_⟩
  next =>
    have found : ((walkGradients b).visits[2]?).map (·.released) =
        some [("g/b_grad", "g/b_grad")] := by decide +kernel
    obtain ⟨visit, here, freed⟩ := Option.map_eq_some_iff.mp found
    have split := split_of_getElem? here
    refine ⟨_, visit, _, split, by simp [freed], fun readByAll => ?_⟩
    have entered : ((walkGradients b).visits.drop 3).map (·.op) = [1, 0] := by decide +kernel
    have last : ((walkGradients b).visits[2]?).map (·.op) = some 2 := by decide +kernel
    obtain ⟨other, member, is⟩ :=
      readByAll 4 ⟨"Z", ["g/b_grad"], ["g/z_grad"], []⟩ (by rfl) (by decide)
    rcases List.mem_cons.mp member with rfl | inside
    next => simp [here, is] at last
    next =>
      have listed : other.op ∈ ((walkGradients b).visits.drop 3).map (·.op) :=
        List.mem_map_of_mem inside
      rw [entered, is] at listed
      exact absurd listed (by decide)
  next => exact exists_ok_of_view (by decide +kernel)

end StoragePlan
