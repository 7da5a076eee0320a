import StoragePlan.Proofs.Capture
import StoragePlan.Proofs.Gradient.Devices
import StoragePlan.Proofs.Nesting

set_option autoImplicit false

namespace StoragePlan

def chainSource (loss : String) (g : Nat → String) : Nat → String
  | 0 => loss
  | k + 1 => g k

/-- Each operation reads the gradient of the one before it, the first one the loss. -/
structure BackwardChain (s : GradientScope) (loss : String) (g : Nat → String) (n : Nat)
    (ops : List Op) : Prop where
  noGradient : s.isGradient loss = false
  gradient : ∀ k ≤ n, s.isGradient (g k) = true
  distinct : ∀ j ≤ n, ∀ k ≤ n, g j = g k → j = k
  reads : ops.map (fun op => op.inputs.filter (s.sees [loss])) =
    (List.range (n + 1)).map fun k => [chainSource loss g k]
  writes : ops.map (fun op => op.outputs.filter (s.sees [loss])) =
    (List.range (n + 1)).map fun k => [g k]

theorem flatMap_eq_of_single {α β : Type} {f : α → List β} {item : α} {items : List α} (nodup : items.Nodup)
    (member : item ∈ items) (others : ∀ other ∈ items, other ≠ item → f other = []) :
    items.flatMap f = f item := by
  induction items with
  | nil => cases member
  | cons first rest ih =>
    have ⟨absent, nodup⟩ := List.nodup_cons.mp nodup
    have ⟨here, later⟩ := List.forall_mem_cons.mp others
    rw [List.flatMap_cons]
    cases List.mem_cons.mp member with
    | inl same =>
      subst same
      have silent : rest.flatMap f = [] := List.flatMap_eq_nil_iff.mpr fun other inside =>
        later other inside fun same => absent (same ▸ inside)
      rw [silent, List.append_nil]
    | inr inside =>
      rw [here fun same => absent (same ▸ inside), List.nil_append]
      exact ih nodup inside later

theorem Backward.readers_eq_singleton {b : Backward} {blob : String} {index : Nat} {op : Op}
    (here : b.ops[index]? = some op)
    (once : op.inputs.filter (fun input => input = blob && b.waitsFor op input) = [blob])
    (others : ∀ other op', b.ops[other]? = some op' → other ≠ index → blob ∉ op'.inputs) :
    b.readers blob = [index] := by
  let reading (entry : Op × Nat) : List Nat :=
    (entry.1.inputs.filter fun input => input = blob && b.waitsFor entry.1 input).map fun _ => entry.2
  have numbered : (op, index) ∈ b.ops.zipIdx := List.mem_zipIdx_iff_getElem?.mpr here
  have nodup : b.ops.zipIdx.Nodup := by
    refine List.Nodup.of_map Prod.snd ?_
    rw [List.zipIdx_map_snd]
    exact List.nodup_range'
  have silent (entry : Op × Nat) (member : entry ∈ b.ops.zipIdx) (different : entry ≠ (op, index)) :
      reading entry = [] := by
    have there := List.mem_zipIdx_iff_getElem?.mp member
    have elsewhere : entry.2 ≠ index := by
      intro same
      rw [same, here] at there
      exact different (Prod.ext (Option.some.inj there).symm same)
    refine List.map_eq_nil_iff.mpr (List.filter_eq_nil_iff.mpr fun input inside waits => ?_)
    simp only [Bool.and_eq_true, decide_eq_true_eq] at waits
    exact others entry.2 entry.1 there elsewhere (waits.1 ▸ inside)
  calc b.readers blob
    _ = b.ops.zipIdx.flatMap reading := rfl
    _ = reading (op, index) := flatMap_eq_of_single nodup numbered silent
    _ = [index] := congrArg (List.map fun _ => index) once

section Links

variable {s : GradientScope} {loss : String} {g : Nat → String} {n : Nat} {ops : List Op}

namespace BackwardChain

variable (chain : BackwardChain s loss g n ops)

include chain

theorem length : ops.length = n + 1 := by
  have lengths := congrArg List.length chain.reads
  simpa using lengths

theorem exists_op {k : Nat} (bound : k ≤ n) : ∃ op, ops[k]? = some op := by
  have length := chain.length
  exact ⟨ops[k], List.getElem?_eq_getElem (by omega)⟩

theorem le_of_op {k : Nat} {op : Op} (here : ops[k]? = some op) : k ≤ n := by
  have bound := (List.getElem?_eq_some_iff.mp here).1
  have length := chain.length
  omega

theorem sees_source {k : Nat} (bound : k ≤ n + 1) : s.sees [loss] (chainSource loss g k) = true := by
  cases k with
  | zero => simp [chainSource, GradientScope.sees]
  | succ k => exact sees_of_gradient (chain.gradient k (by omega))

theorem source_inj {j k : Nat} (bound : j ≤ n + 1) (bound' : k ≤ n + 1)
    (same : chainSource loss g j = chainSource loss g k) : j = k := by
  have apart (k : Nat) (bound : k ≤ n) : loss ≠ g k := by
    intro same
    have gradient := chain.gradient k bound
    rw [← same, chain.noGradient] at gradient
    exact Bool.false_ne_true gradient
  cases j with
  | zero =>
    cases k with
    | zero => rfl
    | succ k => exact absurd same (apart k (by omega))
  | succ j =>
    cases k with
    | zero => exact absurd same.symm (apart j (by omega))
    | succ k => rw [chain.distinct j (by omega) k (by omega) same]

variable {k : Nat} {op : Op} (here : ops[k]? = some op)

include here

theorem inputs_at : op.inputs.filter (s.sees [loss]) = [chainSource loss g k] := by
  have bound := chain.le_of_op here
  have inputs := congrArg (fun lists => lists[k]?) chain.reads
  simpa [here, List.getElem?_range (Nat.lt_succ_of_le bound)] using inputs

theorem outputs_at : op.outputs.filter (s.sees [loss]) = [g k] := by
  have bound := chain.le_of_op here
  have outputs := congrArg (fun lists => lists[k]?) chain.writes
  simpa [here, List.getElem?_range (Nat.lt_succ_of_le bound)] using outputs

theorem mem_inputs {blob : String} (seen : s.sees [loss] blob = true) :
    blob ∈ op.inputs ↔ blob = chainSource loss g k := by
  have filtered : blob ∈ op.inputs.filter (s.sees [loss]) ↔ blob = chainSource loss g k := by
    rw [chain.inputs_at here, List.mem_singleton]
  rwa [List.mem_filter, and_iff_left seen] at filtered

-- The first operation does not write the loss, nor any other what it reads.
theorem moved : chainSource loss g k ∉ op.outputs := by
  have bound := chain.le_of_op here
  intro output
  have seen := chain.sees_source (Nat.le_succ_of_le bound)
  have filtered : chainSource loss g k ∈ op.outputs.filter (s.sees [loss]) :=
    List.mem_filter.mpr ⟨output, seen⟩
  rw [chain.outputs_at here, List.mem_singleton] at filtered
  have same := chain.source_inj (Nat.le_succ_of_le bound) (Nat.succ_le_succ bound) filtered
  omega

theorem filter_inputs (test : String → Bool) :
    op.inputs.filter (fun input => test input && Backward.waitsFor ⟨s, [loss], ops⟩ op input) =
      if test (chainSource loss g k) then [chainSource loss g k] else [] := by
  have split : (fun input => test input && Backward.waitsFor ⟨s, [loss], ops⟩ op input) =
      fun input => (test input && !op.outputs.contains input) && s.sees [loss] input := by
    funext input
    rw [Backward.waitsFor_eq]
    cases test input <;> cases s.sees [loss] input <;> simp
  rw [split, ← List.filter_filter, chain.inputs_at here, List.filter_singleton]
  simp [chain.moved here]

theorem gradient_inputs : op.inputs.filter s.isGradient = [chainSource loss g k].filter s.isGradient := by
  have seen := chain.sees_source (Nat.le_succ_of_le (chain.le_of_op here))
  have same : op.inputs.filter (s.sees [loss]) = [chainSource loss g k].filter (s.sees [loss]) := by
    simp [chain.inputs_at here, seen]
  exact filter_of_seen (fun _ => sees_of_gradient) same

theorem gradient_outputs : op.outputs.filter s.isGradient = [g k] := by
  have gradient := chain.gradient k (chain.le_of_op here)
  have same : op.outputs.filter (s.sees [loss]) = [g k].filter (s.sees [loss]) := by
    simp [chain.outputs_at here, sees_of_gradient gradient]
  rw [filter_of_seen (fun _ => sees_of_gradient) same]
  simp [gradient]

theorem needed : Backward.needed ⟨s, [loss], ops⟩ k = 1 := by
  have filtered := chain.filter_inputs here fun _ => true
  simp only [Bool.true_and] at filtered
  simp [Backward.needed, here, filtered]

theorem readers_source : Backward.readers ⟨s, [loss], ops⟩ (chainSource loss g k) = [k] := by
  have bound := chain.le_of_op here
  refine Backward.readers_eq_singleton here ?_ fun other op' there different input => ?_
  next =>
    rw [chain.filter_inputs here fun input => input = chainSource loss g k]
    simp
  next =>
    have bound' := chain.le_of_op there
    have seen := chain.sees_source (Nat.le_succ_of_le bound)
    have same := (chain.mem_inputs there seen).mp input
    exact different (chain.source_inj (Nat.le_succ_of_le bound') (Nat.le_succ_of_le bound) same.symm)

theorem branches : Backward.branches ⟨s, [loss], ops⟩ k = Backward.readers ⟨s, [loss], ops⟩ (g k) := by
  simp only [Backward.branches, here]
  rw [← Backward.flatMap_readers_seen, chain.outputs_at here, List.flatMap_singleton]

end BackwardChain

theorem BackwardChain.readers_last (chain : BackwardChain s loss g n ops) :
    Backward.readers ⟨s, [loss], ops⟩ (g n) = [] := by
  refine List.eq_nil_iff_forall_not_mem.mpr fun index reads => ?_
  obtain ⟨op, here, input, -⟩ := Backward.mem_readers.mp reads
  have bound := chain.le_of_op here
  have same := (chain.mem_inputs here (sees_of_gradient (chain.gradient n (Nat.le_refl n)))).mp input
  have last : n + 1 = index := chain.source_inj (Nat.le_refl _) (Nat.le_succ_of_le bound) same
  omega

end Links

def handedDown (g : Nat → String) (count : Nat) : List (String × String) :=
  ((List.range count).map fun k => (g (k + 2), g (k % 2))).reverse

theorem handedDown_succ (g : Nat → String) (count : Nat) :
    handedDown g (count + 1) = (g (count + 2), g (count % 2)) :: handedDown g count := by
  simp [handedDown, List.range_succ]

theorem mem_handedDown {g : Nat → String} {count : Nat} {blob storage : String} :
    (blob, storage) ∈ handedDown g count ↔ ∃ k < count, blob = g (k + 2) ∧ storage = g (k % 2) := by
  simp [handedDown, eq_comm]

/-- What the pool of the chain holds when the operation of that number has been entered. -/
def chainPool (g : Nat → String) : Nat → Names
  | 0 => .empty
  | k + 1 => .ofList [g (k % 2)]

namespace Walk

theorem run_of_step {b : Backward} {w w' : Walk} (taken : w.step b = some w') : w.run b = w'.run b := by
  rw [run]
  split
  next stopped => simp [taken] at stopped
  next other taken' => rw [Option.some.inj (taken'.symm.trans taken)]

-- With nobody left to tell, the walk only goes back.
theorem donors_run_of_told {b : Backward} {w : Walk} (starts : w.starts = [])
    (told : ∀ branching ∈ w.branchings, branching.pending = []) : (w.run b).donors = w.donors := by
  fun_induction run b w with
  | case1 w stopped => rfl
  | case2 w next_ taken ih =>
    have pending {pool reader : Nat} {rest : List Nat} {first : Bool} {below : List Branching}
        (top : w.branchings = ⟨pool, reader :: rest, first⟩ :: below) : False := by
      have empty := told _ (top ▸ List.mem_cons_self)
      exact List.cons_ne_nil _ _ empty
    cases step_cases taken with
    | begin _ next_ => simp [starts] at next_
    | leave top =>
      exact ih starts fun branching member => told branching (top ▸ List.mem_cons_of_mem _ member)
    | tell top => exact (pending top).elim
    | onward top => exact (pending top).elim
    | aside top => exact (pending top).elim

structure BeforeLink (g : Nat → String) (n k : Nat) (w : Walk) : Prop where
  starts : w.starts = []
  told : ∀ branching ∈ w.branchings, branching.pending = []
  arrivals : ∀ j, k < j → j ∉ w.arrivals
  reads : ∀ j ≤ n, k ≤ j + 1 → g j ∉ w.reads
  produced : ∀ j ≤ n, k ≤ j → g j ∉ w.produced
  pools : w.pools = [chainPool g (k - 1)]
  donors : w.donors = handedDown g (k - 2)

structure AtLink (b : Backward) (g : Nat → String) (n k : Nat) (w : Walk) : Prop where
  starts : w.starts = []
  branchings : ∃ below, w.branchings = ⟨0, b.readers (g k), true⟩ :: below ∧
    ∀ branching ∈ below, branching.pending = []
  arrivals : ∀ j, k < j → j ∉ w.arrivals
  reads : ∀ j ≤ n, k ≤ j → g j ∉ w.reads
  produced : ∀ j ≤ n, k < j → g j ∉ w.produced
  pools : w.pools = [chainPool g k]
  donors : w.donors = handedDown g (k - 1)

section Links

variable {s : GradientScope} {loss : String} {g : Nat → String} {n : Nat} {ops : List Op}
  (chain : BackwardChain s loss g n ops)

include chain

theorem lookup_handedDown {k count : Nat} (bound : count + 1 ≤ n) (below : k ≤ count + 1) :
    ((handedDown g count).lookup (g k)).getD (g k) = g (k % 2) := by
  induction count with
  | zero =>
    rw [Nat.mod_eq_of_lt (by omega)]
    rfl
  | succ count ih =>
    rw [handedDown_succ, List.lookup_cons]
    by_cases latest : k = count + 2
    next =>
      subst latest
      simp
    next =>
      have different : g k ≠ g (count + 2) := fun same =>
        latest (chain.distinct k (by omega) (count + 2) bound same)
      rw [beq_eq_false_iff_ne.mpr different]
      exact ih (by omega) (by omega)

theorem release_link {k : Nat} {op : Op} {w : Walk} (here : ops[k]? = some op)
    (before : BeforeLink g n k w) : Names.empty.insertAll
      ((release ⟨s, [loss], ops⟩ w (op.inputs.filter s.isGradient)).2.map (·.2)) = chainPool g k := by
  have bound := chain.le_of_op here
  rw [chain.gradient_inputs here]
  cases k with
  | zero => simp [chainSource, chain.noGradient, release, chainPool, Names.insertAll]
  | succ k =>
    have readers : Backward.readers ⟨s, [loss], ops⟩ (g k) = [k + 1] := chain.readers_source here
    have unread : w.reads.count (g k) = 0 :=
      List.count_eq_zero_of_not_mem (before.reads k (by omega) (Nat.le_refl _))
    have storage : w.storageOf (g k) = g (k % 2) := by
      rw [storageOf, before.donors]
      exact lookup_handedDown chain (by omega) (by omega)
    simp [chainSource, chain.gradient k (by omega), release, readers, unread, storage, chainPool,
      Names.ofList]

omit chain in
theorem handOut_link {k : Nat} {produced : List String} (fresh : g k ∉ produced) :
    ∃ handed, handOut ⟨chainPool g (k - 1), produced, []⟩ (g k) = ⟨.empty, g k :: produced, handed⟩ ∧
      handed ++ handedDown g (k - 2) = handedDown g (k - 1) := by
  have unknown : produced.contains (g k) = false := by simpa using fresh
  rcases k with _ | _ | k
  next => exact ⟨[], by simp [handOut, chainPool, Names.empty, Names.popFirst], rfl⟩
  next => exact ⟨[], by simp [handOut, chainPool, Names.empty, Names.popFirst], rfl⟩
  next =>
    have popped : (chainPool g (k + 1)).popFirst = some (g (k % 2), .empty) := rfl
    refine ⟨[(g (k + 2), g (k % 2))], ?_, (handedDown_succ g k).symm⟩
    simp only [handOut, unknown]
    rw [if_neg Bool.false_ne_true, Nat.add_sub_cancel, popped]

theorem enter_link {k : Nat} {w : Walk} (bound : k ≤ n) (before : BeforeLink g n k w) :
    AtLink ⟨s, [loss], ops⟩ g n k (enter ⟨s, [loss], ops⟩ w k 0) := by
  have ⟨op, here⟩ := chain.exists_op bound
  obtain ⟨handed, served, donors⟩ := handOut_link (before.produced k bound (Nat.le_refl k))
  have free : (w.pools[0]?).getD .empty = chainPool g (k - 1) := by simp [before.pools]
  have served : (op.outputs.filter s.isGradient).foldl handOut
      ⟨(w.pools[0]?).getD .empty, w.produced, []⟩ = ⟨.empty, g k :: w.produced, handed⟩ := by
    rw [chain.gradient_outputs here, free]
    exact served
  have pool := release_link chain here before
  have apart {j i : Nat} (inside : j ≤ n) (inside' : i ≤ n) (different : i < j) : g j ≠ g i := fun same =>
    absurd (chain.distinct j inside i inside' same) (by omega)
  constructor
  case starts => rw [enter_starts, before.starts]
  case branchings =>
    refine ⟨w.branchings, ?_, before.told⟩
    simp [enter, here, chain.branches here]
  case arrivals =>
    rw [enter_arrivals]
    exact before.arrivals
  case reads =>
    intro j inside later
    simp only [enter, here, release_reads, List.mem_append, not_or]
    refine ⟨?_, before.reads j inside (by omega)⟩
    rw [List.mem_reverse, chain.gradient_inputs here]
    cases k with
    | zero => simp [chainSource, chain.noGradient]
    | succ i =>
      have gradient := chain.gradient i (by omega)
      simpa [chainSource, gradient] using apart inside (by omega) (show i < j by omega)
  case produced =>
    intro j inside later
    simp only [enter, here, served, List.mem_cons, not_or]
    exact ⟨apart inside bound later, before.produced j inside (by omega)⟩
  case pools =>
    simp only [enter, here, served, pool]
    rw [before.pools, List.set_cons_zero]
  case donors =>
    simp only [enter, here, served, before.donors]
    exact donors

theorem begin_link : ∃ w, (start ⟨s, [loss], ops⟩).step ⟨s, [loss], ops⟩ = some w ∧
    AtLink ⟨s, [loss], ops⟩ g n 0 w := by
  have ⟨op, here⟩ := chain.exists_op (Nat.zero_le n)
  have first : Backward.readers ⟨s, [loss], ops⟩ loss = [0] := chain.readers_source here
  let begun : Walk := { start ⟨s, [loss], ops⟩ with starts := [] }
  have before : BeforeLink g n 0 begun.openPool := by
    constructor <;> simp [begun, openPool, start, chainPool, handedDown]
  refine ⟨_, ?_, enter_link chain (Nat.zero_le n) before⟩
  simp [step, start, first, begun, openPool]

theorem AtLink.onward {k : Nat} {w : Walk} (bound : k < n) (atLink : AtLink ⟨s, [loss], ops⟩ g n k w) :
    ∃ w', w.step ⟨s, [loss], ops⟩ = some w' ∧ AtLink ⟨s, [loss], ops⟩ g n (k + 1) w' := by
  have ⟨op, here⟩ := chain.exists_op (Nat.succ_le_of_lt bound)
  have reader : Backward.readers ⟨s, [loss], ops⟩ (g k) = [k + 1] := chain.readers_source here
  have needed := chain.needed here
  obtain ⟨below, top, told⟩ := atLink.branchings
  rw [reader] at top
  have fresh : w.arrivals.count (k + 1) = 0 :=
    List.count_eq_zero_of_not_mem (atLink.arrivals _ (Nat.lt_succ_self k))
  let next_ : Walk := { w with
    arrivals := (k + 1) :: w.arrivals
    branchings := ⟨0, [], false⟩ :: below }
  have before : BeforeLink g n (k + 1) next_ := by
    refine ⟨atLink.starts, ?told, ?arrivals, ?reads, ?produced, atLink.pools, atLink.donors⟩
    case told => exact List.forall_mem_cons.mpr ⟨rfl, told⟩
    case arrivals =>
      intro j later
      refine List.not_mem_cons_of_ne_of_not_mem (by omega) (atLink.arrivals j (by omega))
    case reads => exact fun j inside later => atLink.reads j inside (by omega)
    case produced => exact fun j inside later => atLink.produced j inside (by omega)
  refine ⟨_, ?_, enter_link chain (Nat.succ_le_of_lt bound) before⟩
  simp [step, top, fresh, needed, next_]

theorem AtLink.donors_run {k : Nat} {w : Walk} (bound : k ≤ n)
    (atLink : AtLink ⟨s, [loss], ops⟩ g n k w) :
    (w.run ⟨s, [loss], ops⟩).donors = handedDown g (n - 1) := by
  have whole (left k : Nat) (w : Walk) (atLink : AtLink ⟨s, [loss], ops⟩ g n k w) (last : k + left = n) :
      (w.run ⟨s, [loss], ops⟩).donors = handedDown g (n - 1) := by
    induction left generalizing k w with
    | zero =>
      obtain rfl : k = n := last
      obtain ⟨below, top, told⟩ := atLink.branchings
      rw [chain.readers_last] at top
      rw [donors_run_of_told atLink.starts (top ▸ List.forall_mem_cons.mpr ⟨rfl, told⟩), atLink.donors]
    | succ left ih =>
      obtain ⟨w', taken, atNext⟩ := atLink.onward chain (by omega)
      rw [run_of_step taken]
      exact ih (k + 1) w' atNext (by omega)
  exact whole (n - k) k w atLink (by omega)

end Links

end Walk

theorem get?_gradientNames_eq_none {scope : String} {w : Walk} {blob : String} :
    (gradientNames scope w).get? blob = none ↔
      blob ∉ w.storages ∧ ∀ storage, (blob, storage) ∉ w.donors := by
  have taken : (∀ entry ∈ takenNames scope w, entry.1 ≠ blob) ↔
      ∀ storage, (blob, storage) ∉ w.donors := by
    simp only [takenNames, List.forall_mem_map, Prod.forall]
    constructor
    next => exact fun apart storage given => apart blob storage given rfl
    next => exact fun absent _ storage given same => absent storage (same ▸ given)
  rw [gradientNames, Table.get?_putAll, Option.or_eq_none_iff, Table.get?_ofList_eq_none,
    lookup_sharedStorage_eq_none, taken]

section Named

variable {g : Nat → String} {n : Nat} {w : Walk} {scope : String} (long : 2 ≤ n)
  (distinct : ∀ j ≤ n, ∀ k ≤ n, g j = g k → j = k) (donors : w.donors = handedDown g (n - 1))

include donors

theorem mem_storages_chain {storage : String} :
    storage ∈ w.storages ↔ ∃ k < n - 1, storage = g (k % 2) := by
  simp only [Walk.mem_storages, donors, mem_handedDown]
  constructor
  next =>
    intro given
    obtain ⟨_, k, bound, -, same⟩ := given
    exact ⟨k, bound, same⟩
  next =>
    intro held
    obtain ⟨k, bound, same⟩ := held
    exact ⟨g (k + 2), k, bound, rfl, same⟩

include distinct

theorem storage_eq_of_holds {k : Nat} (bound : k ≤ n) {storage : String} (shared : storage ∈ w.storages)
    (holds : w.Holds (g k) storage) : storage = g (k % 2) := by
  cases holds with
  | inl own =>
    -- Only the first two gradients lend their storage.
    obtain ⟨i, inside, same⟩ := (mem_storages_chain donors).mp shared
    have number : k = i % 2 := distinct k bound (i % 2) (by omega) (own.trans same)
    rw [← own, Nat.mod_eq_of_lt (by omega)]
  | inr given =>
    rw [donors, mem_handedDown] at given
    obtain ⟨i, inside, taken, same⟩ := given
    have number : k = i + 2 := distinct k bound (i + 2) (by omega) taken
    rw [same, number, Nat.add_mod_right]

include long

theorem get?_chain_eq_none {k : Nat} (bound : k ≤ n) :
    (gradientNames scope w).get? (g k) = none ↔ n = 2 ∧ k = 1 := by
  simp only [get?_gradientNames_eq_none, mem_storages_chain donors, donors, mem_handedDown]
  constructor
  next =>
    intro unnamed
    rcases k with _ | _ | k
    next => exact absurd ⟨0, by omega, rfl⟩ unnamed.1
    next =>
      by_contra further
      exact unnamed.1 ⟨1, by omega, rfl⟩
    next => exact absurd ⟨k, by omega, rfl, rfl⟩ (unnamed.2 _)
  next =>
    intro middle
    obtain ⟨rfl, rfl⟩ := middle
    constructor
    next =>
      intro lent
      obtain ⟨i, inside, same⟩ := lent
      have number := distinct 1 bound (i % 2) (by omega) same
      omega
    next =>
      intro storage taken
      obtain ⟨i, inside, same, -⟩ := taken
      have number := distinct 1 bound (i + 2) (by omega) same
      omega

omit long in
theorem name_of_get?_chain {k : Nat} (bound : k ≤ n) {name : String}
    (found : (gradientNames scope w).get? (g k) = some name) :
    ∃ index : Nat, w.storages[index]? = some (g (k % 2)) ∧ name = sharedName scope index := by
  obtain ⟨index, storage, here, holds, given⟩ := numbered_of_get? found
  obtain rfl := storage_eq_of_holds distinct donors bound (List.mem_of_getElem? here) holds
  exact ⟨index, here, given⟩

theorem get?_chain_eq_iff {j k : Nat} (bound : j ≤ n) (bound' : k ≤ n) :
    (gradientNames scope w).get? (g j) = (gradientNames scope w).get? (g k) ↔ j % 2 = k % 2 := by
  have unnamed {k : Nat} (bound : k ≤ n) := @get?_chain_eq_none g n w scope long distinct donors k bound
  cases found : (gradientNames scope w).get? (g j) with
  | none =>
    have middle := (unnamed bound).mp found
    rw [eq_comm, unnamed bound']
    omega
  | some name =>
    cases found' : (gradientNames scope w).get? (g k) with
    | none =>
      have middle := (unnamed bound').mp found'
      have other : ¬ (n = 2 ∧ j = 1) := fun is => by simp [(unnamed bound).mpr is] at found
      simp only [reduceCtorEq, false_iff]
      omega
    | some name' =>
      obtain ⟨i, here, rfl⟩ := name_of_get?_chain distinct donors bound found
      obtain ⟨i', there, rfl⟩ := name_of_get?_chain distinct donors bound' found'
      have nodup : w.storages.Nodup := Names.nodup _
      rw [Option.some.injEq]
      constructor
      next =>
        intro same
        obtain rfl := sharedName_inj same
        exact distinct _ (by omega) _ (by omega) (Option.some.inj (here.symm.trans there))
      next =>
        intro same
        rw [same] at here
        have bound := (List.getElem?_eq_some_iff.mp here).1
        rw [(List.getElem?_inj bound nodup).mp (here.trans there.symm)]

theorem length_storages_chain : w.storages.length = if n = 2 then 1 else 2 := by
  have nodup : w.storages.Nodup := Names.nodup _
  have lent (storage : String) := @mem_storages_chain g n w donors storage
  split
  next short =>
    have same : w.storages.Perm [g 0] := by
      refine (List.perm_ext_iff_of_nodup nodup (List.nodup_singleton _)).mpr fun storage => ?_
      rw [lent, List.mem_singleton]
      constructor
      next =>
        intro held
        obtain ⟨k, bound, same⟩ := held
        obtain rfl : k = 0 := by omega
        exact same
      next => exact fun same => ⟨0, by omega, same⟩
    exact same.length_eq
  next longer =>
    have same : w.storages.Perm [g 0, g 1] := by
      have apart : g 0 ≠ g 1 := fun same => absurd (distinct 0 (by omega) 1 (by omega) same) (by omega)
      refine (List.perm_ext_iff_of_nodup nodup (by simpa using apart)).mpr fun storage => ?_
      rw [lent, List.mem_pair]
      constructor
      next =>
        intro held
        obtain ⟨k, bound, same⟩ := held
        rw [same]
        exact (Nat.mod_two_eq_zero_or_one k).imp (congrArg g) (congrArg g)
      next => exact fun same => same.elim (fun same => ⟨0, by omega, same⟩) fun same => ⟨1, by omega, same⟩
    exact same.length_eq

end Named

section Shared

variable {net : Net} {loss : String} {parameters : Names} {scope : String} {g : Nat → String} {n : Nat}

theorem donors_walkGradients_chain {s : GradientScope}
    (chain : BackwardChain s loss g n (net.ops.filter s.isGradientOp)) :
    (walkGradients (.ofNet s [loss] net)).donors = handedDown g (n - 1) := by
  obtain ⟨w, taken, atFirst⟩ := Walk.begin_link chain
  have run := Walk.run_of_step taken
  exact (congrArg Walk.donors run).trans (atFirst.donors_run chain (Nat.zero_le n))

theorem shareGradients_of_supported (supported : ∀ address error, ¬ Unsupported net.ops address error)
    (losses : List String) (parameters : Names) (scope : String) :
    ∃ plan, (shareGradients net losses parameters scope).outcome = .ok plan := by
  have settled := Net.settles_rename net .empty
  cases renamed : (net.rename .empty).outcome with
  | ok net' => exact shareGradients_ok renamed losses parameters scope
  | error error =>
    rw [renamed] at settled
    obtain ⟨address, fails, -⟩ := settled
    exact absurd fails (supported address error)

theorem shareGradients_chain (long : 2 ≤ n)
    (chain : BackwardChain ⟨gradientScopeName scope, parameters⟩ loss g n
      (net.ops.filter (GradientScope.isGradientOp ⟨gradientScopeName scope, parameters⟩))) :
    let s := gradientScopeName scope
    (walkGradients (.ofNet ⟨s, parameters⟩ [loss] net)).donors =
        ((List.range (n - 1)).map fun k => (g (k + 2), g (k % 2))).reverse ∧
      ((∀ address error, ¬ Unsupported net.ops address error) →
        ∃ plan, (shareGradients net [loss] parameters scope).outcome = .ok plan) ∧
      ∀ plan, (shareGradients net [loss] parameters scope).outcome = .ok plan →
        (∀ k ≤ n, plan.names.get? (g k) = none ↔ n = 2 ∧ k = 1) ∧
        (∀ j ≤ n, ∀ k ≤ n, plan.names.get? (g j) = plan.names.get? (g k) ↔ j % 2 = k % 2) ∧
        (∀ name, name ∈ plan.names.values ↔
          ∃ index < if n = 2 then 1 else 2, name = sharedName s index) ∧
        ∀ blob ∈ plan.names.keys, ∃ k ≤ n, blob = g k := by
  intro s
  have donors := donors_walkGradients_chain chain
  refine ⟨donors, fun supported => shareGradients_of_supported supported _ _ _, fun plan planned => ?_⟩
  rw [(names_of_outcome planned).1]
  refine ⟨?unnamed, ?same, ?values, ?keys⟩
  case unnamed => exact fun k bound => get?_chain_eq_none long chain.distinct donors bound
  case same => exact fun j bound k bound' => get?_chain_eq_iff long chain.distinct donors bound bound'
  case values =>
    intro name
    rw [Table.mem_values_iff, exists_get?_gradientNames, length_storages_chain long chain.distinct donors]
  case keys =>
    intro blob mapped
    have ⟨name, found⟩ := Option.isSome_iff_exists.mp (Table.mem_keys_iff.mp mapped)
    obtain ⟨index, storage, here, holds, -⟩ := numbered_of_get? found
    cases holds with
    | inl own =>
      obtain ⟨k, bound, same⟩ := (mem_storages_chain donors).mp (List.mem_of_getElem? here)
      exact ⟨k % 2, by omega, own.trans same⟩
    | inr given =>
      rw [donors, mem_handedDown] at given
      obtain ⟨k, bound, same, -⟩ := given
      exact ⟨k + 2, by omega, same⟩

end Shared

/-- Four links with an operation between them that has no gradients; weights and states go with some. -/
def relayNet : Net :=
  (Net.named "relay").withOps [⟨"A", ["loss", "x"], ["g/a_grad"], []⟩, ⟨"Log", ["loss"], ["line"], []⟩,
    ⟨"B", ["weight", "g/a_grad"], ["g/b_grad", "state"], []⟩, ⟨"C", ["g/b_grad"], ["g/c_grad"], []⟩,
    ⟨"D", ["g/c_grad", "weight"], ["g/d_grad"], []⟩]

def relayGradient : Nat → String
  | 0 => "g/a_grad"
  | 1 => "g/b_grad"
  | 2 => "g/c_grad"
  | _ => "g/d_grad"

theorem shareGradients_chain_relay :
    ∃ plan, (shareGradients relayNet ["loss"] .empty "g").outcome = .ok plan ∧
      plan.names.get? "g/a_grad" = plan.names.get? "g/c_grad" ∧
      plan.names.get? "g/b_grad" = plan.names.get? "g/d_grad" ∧
      plan.names.get? "g/a_grad" ≠ plan.names.get? "g/b_grad" := by
  have chain : BackwardChain ⟨gradientScopeName "g", .empty⟩ "loss" relayGradient 3
      (relayNet.ops.filter (GradientScope.isGradientOp ⟨gradientScopeName "g", .empty⟩)) := by
    constructor <;> decide +kernel
  have ⟨donors, succeeds, shares⟩ := shareGradients_chain (by decide) chain
  have ⟨plan, planned, _⟩ := @shareGradients_plain relayNet ["loss"] .empty "g" (by decide +kernel)
  have ⟨_, same, _, _⟩ := shares plan planned
  have apart : plan.names.get? "g/a_grad" ≠ plan.names.get? "g/b_grad" := fun equal =>
    absurd ((same 0 (by decide) 1 (by decide)).mp equal) (by decide)
  exact ⟨plan, planned, (same 0 (by decide) 2 (by decide)).mpr rfl,
    (same 1 (by decide) 3 (by decide)).mpr rfl, apart⟩

end StoragePlan
