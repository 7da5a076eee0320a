import Mathlib.Data.List.Pairwise
import StoragePlan.Gradient.Walk
import StoragePlan.Proofs.Ascending
import StoragePlan.Proofs.Gradient.Scope

set_option autoImplicit false

namespace StoragePlan.Walk

/-- Storage belongs to the gradient it is named after and to those it was given to. -/
def Holds (w : Walk) (blob storage : String) : Prop := blob = storage ∨ (blob, storage) ∈ w.donors

def UsedUp (b : Backward) (w : Walk) (blob : String) : Prop :=
  (b.readers blob).length ≤ w.reads.count blob

def WrittenBefore (b : Backward) (blob : String) (position : Nat) : Prop :=
  ∀ writer, WrittenAt b.ops blob writer → writer < position

def WrittenInTurn (b : Backward) (earlier later : String) : Prop :=
  ∀ writer, WrittenAt b.ops later writer → WrittenBefore b earlier writer

def Follows (b : Backward) (w : Walk) (later earlier : String) : Prop :=
  UsedUp b w earlier ∧ WrittenInTurn b earlier later

def Free (w : Walk) (pool : Nat) (storage : String) : Prop :=
  ∃ free, w.pools[pool]? = some free ∧ storage ∈ free.toList

structure OnlyGradients (b : Backward) (w : Walk) : Prop where
  free : ∀ pool storage, w.Free pool storage → b.scope.isGradient storage = true
  donors : ∀ blob storage, (blob, storage) ∈ w.donors →
    b.scope.isGradient blob = true ∧ b.scope.isGradient storage = true

structure Sound (b : Backward) (w : Walk) : Prop where
  -- Nothing that free storage ever held is still to be read.
  free : ∀ pool storage, w.Free pool storage → ∀ blob, w.Holds blob storage → UsedUp b w blob
  apart : ∀ pool pool' storage, w.Free pool storage → w.Free pool' storage → pool = pool'
  first : ∀ blob storage, (blob, storage) ∈ w.donors → Follows b w blob storage
  inTurn : w.donors.Pairwise fun later earlier =>
    later.2 = earlier.2 → Follows b w later.1 earlier.1
  gradients : w.OnlyGradients b

def Ready (b : Backward) (w : Walk) (index pool : Nat) : Prop :=
  ∀ storage, w.Free pool storage → ∀ blob, w.Holds blob storage → WrittenBefore b blob index

def Framed (b : Backward) (w : Walk) : Prop :=
  match w.branchings with
  | [] => True
  | top :: below => (top.first = true → ∀ reader ∈ top.pending, w.Ready b reader top.pool) ∧
    ∀ branching ∈ below, branching.first = false

section Facts

variable {b : Backward} {w w' : Walk} {blob storage : String}

theorem UsedUp.mono (more : ∃ new, w'.reads = new ++ w.reads) (used : UsedUp b w blob) :
    UsedUp b w' blob := by
  obtain ⟨new, reads⟩ := more
  rw [UsedUp, reads, List.count_append]
  exact Nat.le_trans used (Nat.le_add_left _ _)

theorem Follows.mono (more : ∃ new, w'.reads = new ++ w.reads) {later earlier : String}
    (follows : Follows b w later earlier) : Follows b w' later earlier :=
  ⟨follows.1.mono more, follows.2⟩

theorem holds_storageOf (w : Walk) (blob : String) : w.Holds blob (w.storageOf blob) := by
  unfold storageOf
  cases found : w.donors.lookup blob with
  | none => exact .inl rfl
  | some storage =>
    obtain ⟨before, after, split, -⟩ := List.lookup_eq_some_iff.mp found
    right
    rw [split]
    exact List.mem_append_right _ List.mem_cons_self

theorem Sound.follows_of_holds (sound : w.Sound b) {other : String}
    (needed : ¬ UsedUp b w blob) (holds : w.Holds other (w.storageOf blob)) (different : other ≠ blob) :
    Follows b w blob other := by
  -- A gradient with reads to come has its storage to itself: all others have been done with before.
  -- None was given the storage later, since its use would have had to be up by then.
  cases holds_storageOf w blob with
  | inl own =>
    rw [← own] at holds
    cases holds with
    | inl same => exact absurd same different
    | inr given => exact absurd (sound.first other blob given).1 needed
  | inr given =>
    cases holds with
    | inl same =>
      rw [← same] at given
      exact sound.first blob other given
    | inr given' =>
      obtain ⟨before, after, split⟩ := List.append_of_mem given
      have inTurn := sound.inTurn
      rw [split] at inTurn given'
      obtain ⟨-, later, cross⟩ := List.pairwise_append.mp inTurn
      cases List.mem_append.mp given' with
      | inl late => exact absurd (cross _ late _ List.mem_cons_self rfl).1 needed
      | inr early =>
        cases List.mem_cons.mp early with
        | inl same => exact absurd (Prod.mk.inj same).1 different
        | inr early => exact (List.pairwise_cons.mp later).1 _ early rfl

theorem Sound.not_together (sound : w.Sound b) {other : String} (different : blob ≠ other)
    (holds : w.Holds blob storage) (holds' : w.Holds other storage) :
    WrittenInTurn b blob other ∨ WrittenInTurn b other blob := by
  cases holds with
  | inl own =>
    cases holds' with
    | inl own' => exact absurd (own.trans own'.symm) different
    | inr given =>
      rw [← own] at given
      exact .inl (sound.first other blob given).2
  | inr given =>
    cases holds' with
    | inl own =>
      rw [← own] at given
      exact .inr (sound.first blob other given).2
    | inr given' =>
      have symm : Std.Symm fun x y : String × String => x.2 = y.2 →
          WrittenInTurn b x.1 y.1 ∨ WrittenInTurn b y.1 x.1 :=
        ⟨fun _ _ either same => (either same.symm).symm⟩
      have inTurn : w.donors.Pairwise fun x y => x.2 = y.2 →
          WrittenInTurn b x.1 y.1 ∨ WrittenInTurn b y.1 x.1 :=
        sound.inTurn.imp fun follows same => .inr (follows same).2
      exact inTurn.forall given given' (fun same => different (Prod.mk.inj same).1) rfl

theorem onlyGradients_start (b : Backward) : (start b).OnlyGradients b where
  free := by simp [start, Free]
  donors := by simp [start]

theorem sound_start (b : Backward) : (start b).Sound b where
  free := by simp [start, Free]
  apart := by simp [start, Free]
  first := by simp [start]
  inTurn := .nil
  gradients := onlyGradients_start b

end Facts

theorem release_reads (b : Backward) (w : Walk) (inputs : List String) :
    (release b w inputs).1 = inputs.reverse ++ w.reads := by
  induction inputs generalizing w with
  | nil => rfl
  | cons input rest ih =>
    have later := ih { w with reads := input :: w.reads }
    simp only [release]
    split <;> simp [later]

theorem mem_released {b : Backward} {w : Walk} {inputs : List String} {blob storage : String}
    (released : (blob, storage) ∈ (release b w inputs).2) :
    blob ∈ inputs ∧ storage = w.storageOf blob ∧ ¬ UsedUp b w blob ∧
      (b.readers blob).length ≤ (release b w inputs).1.count blob := by
  induction inputs generalizing w with
  | nil => simp [release] at released
  | cons input rest ih =>
    have total := release_reads b { w with reads := input :: w.reads } rest
    have same : (release b w (input :: rest)).1 =
        (release b { w with reads := input :: w.reads } rest).1 := by
      simp only [release]
      split <;> rfl
    rw [same]
    have later (inside : (blob, storage) ∈ (release b { w with reads := input :: w.reads } rest).2) :
        blob ∈ input :: rest ∧ storage = w.storageOf blob ∧ ¬ UsedUp b w blob ∧ (b.readers blob).length ≤
          (release b { w with reads := input :: w.reads } rest).1.count blob := by
      obtain ⟨member, storage', needed, bound⟩ := ih inside
      have before : ¬ UsedUp b w blob := fun used => needed (used.mono ⟨[input], rfl⟩)
      exact ⟨List.mem_cons_of_mem _ member, storage', before, bound⟩
    simp only [release] at released
    split at released
    next last =>
      -- This is the read that makes the count full, so it was not full before.
      cases List.mem_cons.mp released with
      | inl here =>
        obtain ⟨rfl, rfl⟩ := Prod.mk.inj here
        rw [List.count_cons_self] at last
        refine ⟨List.mem_cons_self, rfl, ?_, ?_⟩
        next =>
          rw [UsedUp]
          omega
        next =>
          rw [total, List.count_append, List.count_cons_self]
          omega
      | inr inside => exact later inside
    next => exact later released

theorem nodup_released (b : Backward) (w : Walk) (inputs : List String) :
    ((release b w inputs).2.map (·.1)).Nodup := by
  induction inputs generalizing w with
  | nil => exact .nil
  | cons input rest ih =>
    simp only [release]
    split
    next full =>
      -- Whatever is released later was not used up yet, and the input is.
      refine List.nodup_cons.mpr ⟨fun again => ?_, ih _⟩
      obtain ⟨⟨blob, storage⟩, released, rfl⟩ := List.mem_map.mp again
      exact (mem_released released).2.2.1 (Nat.le_of_eq full.symm)
    next => exact ih _

structure Served (pool : Names) (outputs : List String) (h : Handout) : Prop where
  rest : ∀ storage ∈ h.pool.toList, storage ∈ pool.toList
  handed : ∀ blob storage, (blob, storage) ∈ h.handed →
    blob ∈ outputs ∧ storage ∈ pool.toList ∧ storage ∉ h.pool.toList
  distinct : h.handed.Pairwise fun a b => a.2 ≠ b.2

theorem Served.handOut {pool : Names} {outputs : List String} {h : Handout}
    (served : Served pool outputs h) (output : String) :
    Served pool (outputs ++ [output]) (Walk.handOut h output) := by
  have still (blob storage : String) (given : (blob, storage) ∈ h.handed) :
      blob ∈ outputs ++ [output] ∧ storage ∈ pool.toList ∧ storage ∉ h.pool.toList := by
    have ⟨member, before, taken⟩ := served.handed blob storage given
    exact ⟨List.mem_append_left _ member, before, taken⟩
  unfold Walk.handOut
  dsimp only
  split
  next => exact ⟨served.rest, still, served.distinct⟩
  next =>
    split
    next => exact ⟨served.rest, still, served.distinct⟩
    next storage rest popped =>
      have split := Names.toList_of_popFirst popped
      have nodup := h.pool.nodup
      rw [split] at nodup
      have ⟨fresh, _⟩ := List.nodup_cons.mp nodup
      constructor
      case rest =>
        intro other inside
        exact served.rest other (split ▸ List.mem_cons_of_mem _ inside)
      case handed =>
        intro blob other given
        cases List.mem_cons.mp given with
        | inl same =>
          obtain ⟨rfl, rfl⟩ := Prod.mk.inj same
          exact ⟨by simp, served.rest _ (split ▸ List.mem_cons_self), fresh⟩
        | inr before =>
          have ⟨member, inside, taken⟩ := still blob other before
          rw [split] at taken
          exact ⟨member, inside, fun left => taken (List.mem_cons_of_mem _ left)⟩
      case distinct =>
        apply List.pairwise_cons.mpr
        refine ⟨fun other given same => ?_, served.distinct⟩
        have taken := (served.handed other.1 other.2 given).2.2
        rw [← same, split] at taken
        exact taken List.mem_cons_self

theorem served_foldl (pool : Names) (produced outputs : List String) :
    Served pool outputs (outputs.foldl Walk.handOut ⟨pool, produced, []⟩) := by
  have all (before after : List String) (h : Handout) (served : Served pool before h) :
      Served pool (before ++ after) (after.foldl Walk.handOut h) := by
    induction after generalizing before h with
    | nil => simpa using served
    | cons output rest ih =>
      rw [List.append_cons]
      exact ih _ _ (served.handOut output)
  exact all [] outputs ⟨pool, produced, []⟩ ⟨fun _ inside => inside, by simp, .nil⟩

structure Entered (b : Backward) (w w' : Walk) (op : Op) (index pool : Nat)
    (handed : List (String × String)) : Prop where
  branchings : w'.branchings = ⟨pool, b.branches index, true⟩ :: w.branchings
  reads : ∃ new, w'.reads = new ++ w.reads
  donors : w'.donors = handed ++ w.donors
  served : ∀ blob storage, (blob, storage) ∈ handed →
    blob ∈ op.outputs ∧ b.scope.isGradient blob = true ∧ w.Free pool storage
  distinct : handed.Pairwise fun a b => a.2 ≠ b.2
  elsewhere : ∀ other, other ≠ pool → ∀ storage, w'.Free other storage → w.Free other storage
  inPool : ∀ storage, w'.Free pool storage →
    (w.Free pool storage ∧ ∀ blob, (blob, storage) ∉ handed) ∨
    ∃ blob ∈ op.inputs, b.scope.isGradient blob = true ∧ storage = w.storageOf blob ∧
      ¬ UsedUp b w blob ∧ UsedUp b w' blob

structure Recorded (b : Backward) (w w' : Walk) (op : Op) (index pool : Nat)
    (released handed : List (String × String)) : Prop
    extends Entered b w w' op index pool handed where
  visits : w'.visits = ⟨index, pool, released, handed⟩ :: w.visits
  spent : ∀ blob storage, (blob, storage) ∈ released →
    storage = w.storageOf blob ∧ ¬ UsedUp b w blob ∧ UsedUp b w' blob
  once : (released.map (·.1)).Nodup
  gained : ∀ storage, w'.Free pool storage →
    (w.Free pool storage ∧ ∀ blob, (blob, storage) ∉ handed) ∨ ∃ blob, (blob, storage) ∈ released

theorem enter_recorded {b : Backward} {w : Walk} {index pool : Nat} {op : Op}
    (found : b.ops[index]? = some op) :
    ∃ released handed, Recorded b w (enter b w index pool) op index pool released handed := by
  let inputs := op.inputs.filter b.scope.isGradient
  let outputs := op.outputs.filter b.scope.isGradient
  let free := (w.pools[pool]?).getD .empty
  let served := outputs.foldl handOut ⟨free, w.produced, []⟩
  have fair : Served free outputs served := served_foldl free w.produced outputs
  have known (storage : String) (inside : storage ∈ free.toList) : w.Free pool storage := by
    cases here : w.pools[pool]? with
    | none => simp [free, here, Names.empty] at inside
    | some names => exact ⟨names, here, by simpa [free, here] using inside⟩
  have pools : (enter b w index pool).pools =
      w.pools.set pool (served.pool.insertAll ((release b w inputs).2.map (·.2))) := by
    simp [enter, found, served, free, inputs, outputs]
  have reads : (enter b w index pool).reads = (release b w inputs).1 := by
    simp [enter, found, inputs]
  have spent (blob storage : String) (released : (blob, storage) ∈ (release b w inputs).2) :
      blob ∈ op.inputs ∧ b.scope.isGradient blob = true ∧ storage = w.storageOf blob ∧
        ¬ UsedUp b w blob ∧ UsedUp b (enter b w index pool) blob := by
    obtain ⟨member, same, needed, bound⟩ := mem_released released
    obtain ⟨input, gradient⟩ := List.mem_filter.mp member
    exact ⟨input, gradient, same, needed, by rwa [UsedUp, reads]⟩
  have gained (storage : String) (kept : (enter b w index pool).Free pool storage) :
      (w.Free pool storage ∧ ∀ blob, (blob, storage) ∉ served.handed) ∨
        ∃ blob, (blob, storage) ∈ (release b w inputs).2 := by
    obtain ⟨names, here, inside⟩ := kept
    -- The pool gets what was released on top of what the outputs have left of it.
    rw [pools, List.getElem?_set_self'] at here
    obtain ⟨_, _, rfl⟩ := Option.map_eq_some_iff.mp here
    cases Names.mem_insertAll.mp inside with
    | inl fresh =>
      obtain ⟨⟨blob, storage'⟩, released, rfl⟩ := List.mem_map.mp fresh
      exact .inr ⟨blob, released⟩
    | inr left =>
      refine .inl ⟨known storage (fair.rest storage left), fun blob given => ?_⟩
      exact (fair.handed blob storage given).2.2 left
  refine ⟨(release b w inputs).2, served.handed, ⟨?branchings, ?reads, ?donors, ?served, fair.distinct,
    ?elsewhere, ?inPool⟩, ?visits, fun blob storage released => (spent blob storage released).2.2,
    nodup_released b w inputs, gained⟩
  case branchings => simp [enter, found]
  case visits => simp [enter, found, served, free, inputs, outputs]
  case reads => exact ⟨inputs.reverse, reads.trans (release_reads b w inputs)⟩
  case donors => simp [enter, found, served, free, outputs]
  case served =>
    intro blob storage given
    obtain ⟨member, inside, -⟩ := fair.handed blob storage given
    obtain ⟨output, gradient⟩ := List.mem_filter.mp member
    exact ⟨output, gradient, known storage inside⟩
  case elsewhere =>
    intro other different storage kept
    obtain ⟨names, here, inside⟩ := kept
    rw [pools, List.getElem?_set_ne (Ne.symm different)] at here
    exact ⟨names, here, inside⟩
  case inPool =>
    intro storage kept
    exact (gained storage kept).imp_right (Exists.imp fun blob => spent blob storage)

theorem enter_cases (b : Backward) (w : Walk) (index pool : Nat) : enter b w index pool = w ∨
    ∃ op released handed, b.ops[index]? = some op ∧
      Recorded b w (enter b w index pool) op index pool released handed := by
  cases found : b.ops[index]? with
  | none => exact .inl (by simp [enter, found])
  | some op =>
    obtain ⟨released, handed, recorded⟩ := @enter_recorded b w index pool op found
    exact .inr ⟨op, released, handed, rfl, recorded⟩

section Entry

variable {b : Backward} {w w' : Walk} {op : Op} {index pool : Nat} {handed : List (String × String)}

theorem Entered.holds (entered : Entered b w w' op index pool handed) {blob storage : String} :
    w'.Holds blob storage ↔ w.Holds blob storage ∨ (blob, storage) ∈ handed := by
  rw [Holds, Holds, entered.donors, List.mem_append, or_assoc]
  exact or_congr_right or_comm

theorem Entered.onlyGradients (entered : Entered b w w' op index pool handed)
    (only : w.OnlyGradients b) : w'.OnlyGradients b where
  free place storage free := by
    by_cases here : place = pool
    next =>
      subst here
      cases entered.inPool storage free with
      | inl kept => exact only.free place storage kept.1
      | inr released =>
        obtain ⟨blob, _, gradient, same, _⟩ := released
        cases holds_storageOf w blob with
        | inl own => rwa [same, ← own]
        | inr given =>
          rw [← same] at given
          exact (only.donors blob storage given).2
    next => exact only.free place storage (entered.elsewhere place here storage free)
  donors blob storage given := by
    rw [entered.donors] at given
    cases List.mem_append.mp given with
    | inl new =>
      have ⟨_, gradient, free⟩ := entered.served blob storage new
      exact ⟨gradient, only.free pool storage free⟩
    | inr old => exact only.donors blob storage old

theorem Entered.apart_after (entered : Entered b w w' op index pool handed)
    (apart : ∀ pool pool' storage, w.Free pool storage → w.Free pool' storage → pool = pool')
    (locked : ∀ blob, ¬ UsedUp b w blob → ∀ other, ¬ w.Free other (w.storageOf blob))
    (place place' : Nat) (storage : String) (free : w'.Free place storage)
    (free' : w'.Free place' storage) : place = place' := by
  -- Only the pool of the entry gains storage, and what it gains was free nowhere.
  have other (place place' : Nat) (free : w'.Free place storage) (free' : w'.Free place' storage)
      (different : place' ≠ pool) : place = place' := by
    have kept' := entered.elsewhere place' different storage free'
    by_cases here : place = pool
    next =>
      subst here
      cases entered.inPool storage free with
      | inl kept => exact apart _ _ storage kept.1 kept'
      | inr released =>
        obtain ⟨blob, _, _, same, needed, _⟩ := released
        exact absurd (same ▸ kept') (locked blob needed place')
    next => exact apart _ _ storage (entered.elsewhere place here storage free) kept'
  by_cases here' : place' = pool
  next =>
    by_cases here : place = pool
    next => exact here.trans here'.symm
    next => exact (other place' place free' free here).symm
  next => exact other place place' free free' here'

variable (pass : SinglePass b.scope b.ops) (found : b.ops[index]? = some op)
  (sound : w.Sound b) (ready : w.Ready b index pool) (entered : Entered b w w' op index pool handed)

include found sound ready entered pass

theorem Entered.follows {blob storage : String} (given : (blob, storage) ∈ handed) {earlier : String}
    (holds : w.Holds earlier storage) : Follows b w' blob earlier := by
  have ⟨output, _, free⟩ := entered.served blob storage given
  have used := sound.free pool storage free earlier holds
  refine ⟨used.mono entered.reads, fun writer written => ?_⟩
  obtain rfl := pass.writer_eq written ⟨op, found, output⟩
  exact ready storage free earlier holds

omit pass found ready in
theorem Entered.released {blob storage : String} (needed : ¬ UsedUp b w blob)
    (same : storage = w.storageOf blob) :
    (∀ other, ¬ w.Free other storage) ∧ ∀ other, (other, storage) ∉ handed := by
  have locked (other : Nat) (free : w.Free other storage) : False := by
    subst same
    exact needed (sound.free other _ free blob (holds_storageOf w blob))
  refine ⟨locked, fun other given => ?_⟩
  exact locked pool (entered.served other storage given).2.2

omit ready in
theorem Entered.released_holds {blob storage : String} (input : blob ∈ op.inputs)
    (gradient : b.scope.isGradient blob = true) (needed : ¬ UsedUp b w blob) (used : UsedUp b w' blob)
    (same : storage = w.storageOf blob) {other : String} (holds : w'.Holds other storage) :
    UsedUp b w' other ∧ WrittenBefore b other index := by
  obtain ⟨-, notHanded⟩ := entered.released sound needed same
  have holds := (entered.holds.mp holds).resolve_right (notHanded other)
  have reads : ReadAt b.ops blob index := ⟨op, found, input⟩
  by_cases here : other = blob
  next =>
    subst here
    exact ⟨used, fun writer written => pass.writer_lt written reads⟩
  next =>
    subst same
    have follows := sound.follows_of_holds needed holds here
    refine ⟨follows.1.mono entered.reads, fun writer written => ?_⟩
    -- The gradient that is read lies between the two in time.
    obtain ⟨middle, between⟩ := pass.exists_writer reads gradient
    exact Nat.lt_trans (follows.2 middle between writer written) (pass.writer_lt between reads)

omit ready in
theorem Entered.free_after (place : Nat) (storage : String) (free : w'.Free place storage)
    (blob : String) (holds : w'.Holds blob storage) : UsedUp b w' blob := by
  -- Storage that was free before and has not been handed on now holds what it held then.
  have old (kept : w.Free place storage) (fresh : ∀ blob, (blob, storage) ∉ handed) :
      UsedUp b w' blob := by
    have holds := (entered.holds.mp holds).resolve_right (fresh blob)
    exact (sound.free place storage kept blob holds).mono entered.reads
  by_cases here : place = pool
  next =>
    subst here
    cases entered.inPool storage free with
    | inl kept => exact old kept.1 kept.2
    | inr released =>
      obtain ⟨_, input, gradient, same, needed, used⟩ := released
      exact (entered.released_holds pass found sound input gradient needed used same holds).1
  next =>
    have kept := entered.elsewhere place here storage free
    refine old kept fun other given => ?_
    exact here (sound.apart _ _ storage kept (entered.served other storage given).2.2)

theorem Entered.sound_after : w'.Sound b where
  free := entered.free_after pass found sound
  apart := entered.apart_after sound.apart fun _ needed => (entered.released sound needed rfl).1
  first := by
    intro blob storage given
    rw [entered.donors] at given
    cases List.mem_append.mp given with
    | inl new => exact entered.follows pass found sound ready new (.inl rfl)
    | inr old => exact (sound.first blob storage old).mono entered.reads
  inTurn := by
    rw [entered.donors]
    refine List.pairwise_append.mpr ⟨entered.distinct.imp fun different same => absurd same different,
      sound.inTurn.imp fun follows same => (follows same).mono entered.reads, ?_⟩
    intro later new earlier old same
    exact entered.follows pass found sound ready new (.inr (same ▸ old))
  gradients := entered.onlyGradients sound.gradients

theorem Entered.ready_after {reader : Nat} (branch : reader ∈ b.branches index) :
    w'.Ready b reader pool := by
  intro storage free blob holds writer written
  -- The reader runs after the operation, and the operation was ready for what stays in the pool.
  have less := Backward.lt_of_mem_branches pass branch
  refine Nat.lt_trans ?_ less
  cases entered.inPool storage free with
  | inl kept =>
    have holds := (entered.holds.mp holds).resolve_right (kept.2 blob)
    exact ready storage kept.1 blob holds writer written
  | inr released =>
    obtain ⟨_, input, gradient, same, needed, used⟩ := released
    exact (entered.released_holds pass found sound input gradient needed used same holds).2 writer written

end Entry

theorem OnlyGradients.congr {b : Backward} {w w' : Walk} (only : w.OnlyGradients b)
    (donors : w'.donors = w.donors)
    (free : ∀ pool storage, w'.Free pool storage → w.Free pool storage) : w'.OnlyGradients b where
  free pool storage kept := only.free pool storage (free _ _ kept)
  donors := by
    rw [donors]
    exact only.donors

theorem Sound.congr {b : Backward} {w w' : Walk} (sound : w.Sound b) (reads : w'.reads = w.reads)
    (donors : w'.donors = w.donors)
    (free : ∀ pool storage, w'.Free pool storage → w.Free pool storage) : w'.Sound b where
  free pool storage kept blob holds := by
    rw [Holds, donors] at holds
    rw [UsedUp, reads]
    exact sound.free pool storage (free _ _ kept) blob holds
  apart pool pool' storage kept kept' := sound.apart _ _ _ (free _ _ kept) (free _ _ kept')
  first blob storage given := by
    rw [Follows, UsedUp, reads]
    exact sound.first blob storage (donors ▸ given)
  inTurn := by
    simp only [donors, Follows, UsedUp, reads]
    exact sound.inTurn
  gradients := sound.gradients.congr donors free

theorem free_openPool {w : Walk} {pool : Nat} {storage : String} (free : w.openPool.Free pool storage) :
    w.Free pool storage ∧ pool ≠ w.pools.length := by
  obtain ⟨names, here, inside⟩ := free
  simp only [openPool, List.getElem?_append] at here
  split at here
  next known => exact ⟨⟨names, here, inside⟩, Nat.ne_of_lt known⟩
  next =>
    have empty : names = .empty := by
      rw [List.getElem?_singleton] at here
      split at here
      next => exact (Option.some.inj here).symm
      next => simp at here
    simp [empty, Names.empty] at inside

theorem OnlyGradients.enter {b : Backward} {w : Walk} (only : w.OnlyGradients b) (index pool : Nat) :
    (enter b w index pool).OnlyGradients b := by
  rcases enter_cases b w index pool with same | ⟨op, released, handed, found, recorded⟩
  next =>
    rw [same]
    exact only
  next => exact recorded.toEntered.onlyGradients only

theorem OnlyGradients.openPool {b : Backward} {w : Walk} (only : w.OnlyGradients b) :
    w.openPool.OnlyGradients b :=
  only.congr rfl fun _ _ free => (free_openPool free).1

structure SameStorage (w w' : Walk) : Prop where
  reads : w'.reads = w.reads
  produced : w'.produced = w.produced
  pools : w'.pools = w.pools
  donors : w'.donors = w.donors
  visits : w'.visits = w.visits

theorem SameStorage.free {w w' : Walk} (same : SameStorage w w') {pool : Nat} {storage : String} :
    w'.Free pool storage ↔ w.Free pool storage := by
  rw [Free, Free, same.pools]

inductive Step (b : Backward) (w : Walk) : Walk → Prop
  | begin {index : Nat} {starts : List Nat} (idle : w.branchings = [])
      (next_ : w.starts = index :: starts) :
      Step b w (enter b { w with starts }.openPool index w.pools.length)
  | leave {pool : Nat} {first : Bool} {rest : List Branching}
      (top : w.branchings = ⟨pool, [], first⟩ :: rest) : Step b w { w with branchings := rest }
  | tell {pool reader : Nat} {pending : List Nat} {first : Bool} {rest : List Branching}
      (top : w.branchings = ⟨pool, reader :: pending, first⟩ :: rest)
      (waiting : (reader :: w.arrivals).count reader ≠ b.needed reader) :
      Step b w { w with
        arrivals := reader :: w.arrivals
        branchings := ⟨pool, pending, first⟩ :: rest }
  | onward {pool reader : Nat} {pending : List Nat} {rest : List Branching}
      (top : w.branchings = ⟨pool, reader :: pending, true⟩ :: rest)
      (ready : (reader :: w.arrivals).count reader = b.needed reader) :
      Step b w (enter b { w with
        arrivals := reader :: w.arrivals
        branchings := ⟨pool, pending, false⟩ :: rest } reader pool)
  | aside {pool reader : Nat} {pending : List Nat} {rest : List Branching}
      (top : w.branchings = ⟨pool, reader :: pending, false⟩ :: rest)
      (ready : (reader :: w.arrivals).count reader = b.needed reader) :
      Step b w (enter b { w with
        arrivals := reader :: w.arrivals
        branchings := ⟨pool, pending, false⟩ :: rest }.openPool reader w.pools.length)

theorem step_cases {b : Backward} {w w' : Walk} (taken : w.step b = some w') : Step b w w' := by
  unfold step at taken
  split at taken
  next idle =>
    split at taken
    next => simp at taken
    next index starts next_ => exact Option.some.inj taken ▸ .begin idle next_
  next top => exact Option.some.inj taken ▸ .leave top
  next pool reader pending first rest top =>
    dsimp only at taken
    split at taken
    next ready =>
      cases first with
      | true => exact Option.some.inj taken ▸ .onward top ready
      | false => exact Option.some.inj taken ▸ .aside top ready
    next waiting => exact Option.some.inj taken ▸ .tell top waiting

-- As far as storage is concerned, a step opens a pool or enters an operation or does nothing.
theorem step_keeps {b : Backward} (holds : Walk → Prop)
    (quiet : ∀ w w', SameStorage w w' → holds w → holds w')
    (opening : ∀ w, holds w → holds w.openPool)
    (entry : ∀ w index pool, holds w → holds (enter b w index pool)) {w w' : Walk}
    (before : holds w) (taken : w.step b = some w') : holds w' := by
  cases step_cases taken with
  | begin => exact entry _ _ _ (opening _ (quiet w _ ⟨rfl, rfl, rfl, rfl, rfl⟩ before))
  | leave => exact quiet w _ ⟨rfl, rfl, rfl, rfl, rfl⟩ before
  | tell => exact quiet w _ ⟨rfl, rfl, rfl, rfl, rfl⟩ before
  | onward => exact entry _ _ _ (quiet w _ ⟨rfl, rfl, rfl, rfl, rfl⟩ before)
  | aside => exact entry _ _ _ (opening _ (quiet w _ ⟨rfl, rfl, rfl, rfl, rfl⟩ before))

theorem OnlyGradients.step {b : Backward} {w w' : Walk} (only : w.OnlyGradients b)
    (taken : w.step b = some w') : w'.OnlyGradients b :=
  step_keeps (OnlyGradients b) (fun _ _ same only => only.congr same.donors fun _ _ => same.free.mp)
    (fun _ => OnlyGradients.openPool) (fun _ index pool only => only.enter index pool) only taken

-- Holds for all nets, also where a blob has several writers.
theorem OnlyGradients.run {b : Backward} {w : Walk} (only : w.OnlyGradients b) :
    (w.run b).OnlyGradients b := by
  fun_induction Walk.run b w with
  | case1 w stopped => exact only
  | case2 w next_ taken ih => exact ih (only.step taken)

theorem framed_of_told {b : Backward} {w : Walk}
    (told : ∀ branching ∈ w.branchings, branching.first = false) : w.Framed b := by
  unfold Framed
  split
  next => trivial
  next top below here =>
    rw [here] at told
    have ⟨first, rest⟩ := List.forall_mem_cons.mp told
    exact ⟨fun open_ => by simp [first] at open_, rest⟩

theorem enter_invariant {b : Backward} (pass : SinglePass b.scope b.ops) {w : Walk} (sound : w.Sound b)
    {index pool : Nat} (ready : w.Ready b index pool)
    (told : ∀ branching ∈ w.branchings, branching.first = false) :
    (enter b w index pool).Sound b ∧ (enter b w index pool).Framed b := by
  rcases enter_cases b w index pool with same | ⟨op, released, handed, found, recorded⟩
  next =>
    rw [same]
    exact ⟨sound, framed_of_told told⟩
  next =>
    have entered := recorded.toEntered
    refine ⟨entered.sound_after pass found sound ready, ?_⟩
    rw [Framed, entered.branchings]
    exact ⟨fun _ reader branch => entered.ready_after pass found sound ready branch, told⟩

theorem enter_openPool {b : Backward} (pass : SinglePass b.scope b.ops) {w : Walk} (sound : w.Sound b)
    (index : Nat) (told : ∀ branching ∈ w.branchings, branching.first = false) :
    (enter b w.openPool index w.pools.length).Sound b ∧
      (enter b w.openPool index w.pools.length).Framed b := by
  have opened : w.openPool.Sound b := sound.congr rfl rfl fun _ _ free => (free_openPool free).1
  apply enter_invariant pass opened _ told
  intro storage free
  exact absurd rfl (free_openPool free).2

-- What is still to be told has no part in it.
theorem Sound.told {b : Backward} {w : Walk} (sound : w.Sound b) (arrivals : List Nat)
    (branchings : List Branching) : ({ w with arrivals, branchings } : Walk).Sound b :=
  sound.congr rfl rfl fun _ _ free => free

theorem step_invariant {b : Backward} (pass : SinglePass b.scope b.ops) {w w' : Walk}
    (sound : w.Sound b) (framed : w.Framed b) (taken : w.step b = some w') :
    w'.Sound b ∧ w'.Framed b := by
  cases step_cases taken with
  | @begin index starts idle next_ =>
    have same : ({ w with starts } : Walk).Sound b := sound.congr rfl rfl fun _ _ free => free
    exact enter_openPool pass same index (by simp [idle])
  | @leave pool first rest top =>
    rw [Framed, top] at framed
    exact ⟨sound.told w.arrivals rest, framed_of_told framed.2⟩
  | @tell pool reader pending first rest top waiting =>
    rw [Framed, top] at framed
    refine ⟨sound.told (reader :: w.arrivals) (⟨pool, pending, first⟩ :: rest), ?_, framed.2⟩
    intro isFirst other member
    exact framed.1 isFirst other (List.mem_cons_of_mem _ member)
  -- The first reader to become ready gets the pool, and every later one a new pool.
  | @onward pool reader pending rest top ready =>
    rw [Framed, top] at framed
    have same := sound.told (reader :: w.arrivals) (⟨pool, pending, false⟩ :: rest)
    have below : ∀ branching ∈ (⟨pool, pending, false⟩ : Branching) :: rest, branching.first = false :=
      List.forall_mem_cons.mpr ⟨rfl, framed.2⟩
    exact enter_invariant pass same (framed.1 rfl reader List.mem_cons_self) below
  | @aside pool reader pending rest top ready =>
    rw [Framed, top] at framed
    have same := sound.told (reader :: w.arrivals) (⟨pool, pending, false⟩ :: rest)
    have below : ∀ branching ∈ (⟨pool, pending, false⟩ : Branching) :: rest, branching.first = false :=
      List.forall_mem_cons.mpr ⟨rfl, framed.2⟩
    exact enter_openPool pass same reader below

theorem run_sound {b : Backward} (pass : SinglePass b.scope b.ops) {w : Walk} (sound : w.Sound b)
    (framed : w.Framed b) : (w.run b).Sound b := by
  fun_induction run b w with
  | case1 w stopped => exact sound
  | case2 w next_ taken ih =>
    have later := step_invariant pass sound framed taken
    exact ih later.1 later.2

end StoragePlan.Walk
