import StoragePlan.Gradient.Sharing
import StoragePlan.Proofs.Gradient.Walk

set_option autoImplicit false

namespace StoragePlan.Walk

def ReleasedIn (visits : List Visit) (blob : String) : Prop :=
  ∃ visit ∈ visits, ∃ storage, (blob, storage) ∈ visit.released

def releasedBlobs (visits : List Visit) : List String :=
  visits.flatMap fun visit => visit.released.map (·.1)

theorem mem_releasedBlobs {visits : List Visit} {blob : String} :
    blob ∈ releasedBlobs visits ↔ ReleasedIn visits blob := by
  simp [releasedBlobs, ReleasedIn]

theorem ReleasedIn.further {visits : List Visit} {blob : String} (released : ReleasedIn visits blob)
    (later : List Visit) : ReleasedIn (later ++ visits) blob := by
  obtain ⟨visit, member, given⟩ := released
  exact ⟨visit, List.mem_append_right later member, given⟩

structure Clear (visits : List Visit) (storage : String) : Prop where
  own : ReleasedIn visits storage
  given : ∀ later visit before, visits = later ++ visit :: before →
    ∀ blob, (blob, storage) ∈ visit.handed → ReleasedIn later blob

def InTurn : List Visit → Prop
  | [] => True
  | visit :: before =>
    (∀ blob storage, (blob, storage) ∈ visit.handed → Clear before storage) ∧
      visit.handed.Pairwise (fun a b => a.2 ≠ b.2) ∧ InTurn before

theorem InTurn.at {later before : List Visit} {visit : Visit}
    (inTurn : InTurn (later ++ visit :: before)) : InTurn (visit :: before) := by
  induction later with
  | nil => exact inTurn
  | cons _ rest ih => exact ih inTurn.2.2

theorem ReleasedIn.cons {visits : List Visit} {blob : String} (released : ReleasedIn visits blob)
    (visit : Visit) : ReleasedIn (visit :: visits) blob :=
  released.further [visit]

theorem InTurn.distinct {visits : List Visit} {visit : Visit} (inTurn : InTurn (visit :: visits))
    {blob other storage : String} (given : (blob, storage) ∈ visit.handed)
    (given' : (other, storage) ∈ visit.handed) : blob = other := by
  by_contra different
  have symm : Std.Symm fun x y : String × String => x.2 ≠ y.2 := ⟨fun _ _ => Ne.symm⟩
  exact inTurn.2.1.forall given given' (fun same => different (Prod.mk.inj same).1) rfl

theorem InTurn.others_released {visits : List Visit} (inTurn : InTurn visits) {blob storage : String}
    (unreleased : ¬ ReleasedIn visits blob) (given : ∃ visit ∈ visits, (blob, storage) ∈ visit.handed)
    {later before : List Visit} {visit : Visit} (split : visits = later ++ visit :: before)
    {other : String} (inside : (other, storage) ∈ visit.handed) (different : other ≠ blob) :
    ReleasedIn later other := by
  induction visits generalizing later with
  | nil => simp at split
  | cons latest rest ih =>
    obtain ⟨holder, member, here⟩ := given
    cases later with
    | nil =>
      obtain ⟨rfl, rfl⟩ := List.cons.inj split
      rcases List.mem_cons.mp member with rfl | earlier
      next => exact absurd (inTurn.distinct inside here) different
      next =>
        -- The storage would not have been handed on before the gradient was released.
        obtain ⟨between, before', rfl⟩ := List.append_of_mem earlier
        have released := (inTurn.1 other storage inside).given between holder before' rfl blob here
        obtain ⟨visit', member', given'⟩ := released
        exact absurd ⟨visit', by simp [member'], given'⟩ unreleased
    | cons first later =>
      obtain ⟨rfl, rfl⟩ := List.cons.inj split
      rcases List.mem_cons.mp member with rfl | earlier
      next => exact ((inTurn.1 blob storage here).given later visit before rfl other inside).cons holder
      next =>
        have still : ¬ ReleasedIn (later ++ visit :: before) blob :=
          fun released => unreleased (released.cons latest)
        exact (ih inTurn.2.2 still ⟨holder, earlier, here⟩ rfl).cons latest

structure Exclusive (b : Backward) (w : Walk) : Prop where
  clear : ∀ pool storage, w.Free pool storage → Clear w.visits storage
  apart : ∀ pool pool' storage, w.Free pool storage → w.Free pool' storage → pool = pool'
  once : (releasedBlobs w.visits).Nodup
  used : ∀ blob, ReleasedIn w.visits blob → UsedUp b w blob
  donors : w.donors = w.visits.flatMap (·.handed)
  inTurn : InTurn w.visits

theorem exclusive_start (b : Backward) : (start b).Exclusive b where
  clear := by simp [start, Free]
  apart := by simp [start, Free]
  once := .nil
  used := by simp [start, ReleasedIn]
  donors := rfl
  inTurn := trivial

section Entry

variable {b : Backward} {w w' : Walk} {op : Op} {index pool : Nat} {blob storage : String}
  {released handed : List (String × String)}

theorem Clear.further {visits : List Visit} (clear : Clear visits storage) {visit : Visit}
    (kept : ∀ blob, (blob, storage) ∉ visit.handed) : Clear (visit :: visits) storage where
  own := clear.own.further [visit]
  given later earlier before split blob inside := by
    cases later with
    | nil =>
      obtain ⟨rfl, -⟩ := List.cons.inj split
      exact absurd inside (kept blob)
    | cons first later =>
      obtain ⟨rfl, rfl⟩ := List.cons.inj split
      exact (clear.given later earlier before rfl blob inside).further [visit]

theorem Exclusive.mem_donors (exclusive : w.Exclusive b) :
    (blob, storage) ∈ w.donors ↔ ∃ visit ∈ w.visits, (blob, storage) ∈ visit.handed := by
  rw [exclusive.donors, List.mem_flatMap]

-- What a gradient holds that is still to be read is in no pool.
theorem Exclusive.locked (exclusive : w.Exclusive b) (needed : ¬ UsedUp b w blob) (other : Nat) :
    ¬ w.Free other (w.storageOf blob) := by
  intro free
  have clear := exclusive.clear other _ free
  refine needed (exclusive.used blob ?_)
  cases holds_storageOf w blob with
  | inl own => exact own ▸ clear.own
  | inr given =>
    obtain ⟨visit, member, inside⟩ := exclusive.mem_donors.mp given
    obtain ⟨later, before, split⟩ := List.append_of_mem member
    obtain ⟨visit', member', given'⟩ := clear.given later visit before split blob inside
    exact ⟨visit', split ▸ List.mem_append_left _ member', given'⟩

theorem Exclusive.clear_released (exclusive : w.Exclusive b) (needed : ¬ UsedUp b w blob)
    {visit : Visit} (here : (blob, w.storageOf blob) ∈ visit.released)
    (kept : ∀ other, (other, w.storageOf blob) ∉ visit.handed) :
    Clear (visit :: w.visits) (w.storageOf blob) := by
  have unreleased : ¬ ReleasedIn w.visits blob := fun released => needed (exclusive.used blob released)
  have cleared {later before : List Visit} {earlier : Visit}
      (split : w.visits = later ++ earlier :: before) {other : String}
      (inside : (other, w.storageOf blob) ∈ earlier.handed) :
      ReleasedIn w.visits (w.storageOf blob) := by
    have inTurn := exclusive.inTurn
    rw [split] at inTurn ⊢
    rw [List.append_cons]
    exact (inTurn.at.1 other _ inside).own.further _
  constructor
  case own =>
    cases holds_storageOf w blob with
    | inl own => exact ⟨visit, List.mem_cons_self, _, own ▸ here⟩
    | inr given =>
      obtain ⟨earlier, member, inside⟩ := exclusive.mem_donors.mp given
      obtain ⟨later, before, split⟩ := List.append_of_mem member
      exact (cleared split inside).cons visit
  case given =>
    intro later earlier before split other inside
    cases later with
    | nil =>
      obtain ⟨rfl, -⟩ := List.cons.inj split
      exact absurd inside (kept other)
    | cons first later =>
      obtain ⟨rfl, rest⟩ := List.cons.inj split
      by_cases same : other = blob
      next =>
        subst same
        exact ⟨visit, List.mem_cons_self, _, here⟩
      next =>
        cases holds_storageOf w blob with
        | inl own => exact absurd (own ▸ cleared rest inside) unreleased
        | inr given =>
          have holder := exclusive.mem_donors.mp given
          exact (exclusive.inTurn.others_released unreleased holder rest inside same).cons visit

theorem Exclusive.entered (exclusive : w.Exclusive b)
    (recorded : Recorded b w w' op index pool released handed) : w'.Exclusive b := by
  have visits := recorded.visits
  have notHanded (blob : String) (needed : ¬ UsedUp b w blob) (other : String) :
      (other, w.storageOf blob) ∉ handed := fun given =>
    exclusive.locked needed pool (recorded.served other _ given).2.2
  constructor
  case clear =>
    intro place storage free
    rw [visits]
    by_cases here : place = pool
    next =>
      subst here
      cases recorded.gained storage free with
      | inl kept => exact (exclusive.clear place storage kept.1).further kept.2
      | inr gained =>
        obtain ⟨blob, inside⟩ := gained
        obtain ⟨rfl, needed, -⟩ := recorded.spent blob storage inside
        exact exclusive.clear_released needed inside (notHanded blob needed)
    next =>
      have kept := recorded.elsewhere place here storage free
      refine (exclusive.clear place storage kept).further fun other given => here ?_
      exact exclusive.apart _ _ storage kept (recorded.served other storage given).2.2
  case apart => exact recorded.toEntered.apart_after exclusive.apart fun _ => exclusive.locked
  case once =>
    rw [visits, releasedBlobs, List.flatMap_cons]
    refine List.nodup_append.mpr ⟨recorded.once, exclusive.once, fun blob now other before same => ?_⟩
    subst same
    obtain ⟨⟨_, storage⟩, inside, rfl⟩ := List.mem_map.mp now
    exact (recorded.spent _ storage inside).2.1 (exclusive.used _ (mem_releasedBlobs.mp before))
  case used =>
    intro blob released
    obtain ⟨visit, member, storage, inside⟩ := visits ▸ released
    rcases List.mem_cons.mp member with rfl | earlier
    next => exact (recorded.spent blob storage inside).2.2
    next => exact (exclusive.used blob ⟨visit, earlier, storage, inside⟩).mono recorded.reads
  case donors => rw [recorded.donors, visits, List.flatMap_cons, exclusive.donors]
  case inTurn =>
    rw [visits]
    refine ⟨fun blob storage given => ?_, recorded.distinct, exclusive.inTurn⟩
    exact exclusive.clear pool storage (recorded.served blob storage given).2.2

end Entry

section Steps

variable {b : Backward} {w w' : Walk}

theorem Exclusive.congr (exclusive : w.Exclusive b) (reads : w'.reads = w.reads)
    (donors : w'.donors = w.donors) (visits : w'.visits = w.visits)
    (free : ∀ pool storage, w'.Free pool storage → w.Free pool storage) : w'.Exclusive b where
  clear pool storage kept := visits ▸ exclusive.clear pool storage (free _ _ kept)
  apart pool pool' storage kept kept' := exclusive.apart _ _ _ (free _ _ kept) (free _ _ kept')
  once := visits ▸ exclusive.once
  used blob released := by
    rw [UsedUp, reads]
    exact exclusive.used blob (visits ▸ released)
  donors := by rw [donors, visits, exclusive.donors]
  inTurn := visits ▸ exclusive.inTurn

theorem Exclusive.enter (exclusive : w.Exclusive b) (index pool : Nat) :
    (enter b w index pool).Exclusive b := by
  rcases enter_cases b w index pool with same | ⟨op, released, handed, -, recorded⟩
  next =>
    rw [same]
    exact exclusive
  next => exact exclusive.entered recorded

theorem Exclusive.openPool (exclusive : w.Exclusive b) : w.openPool.Exclusive b :=
  exclusive.congr rfl rfl rfl fun _ _ free => (free_openPool free).1

theorem Exclusive.step (exclusive : w.Exclusive b) (taken : w.step b = some w') : w'.Exclusive b :=
  step_keeps (Exclusive b)
    (fun _ _ same before => before.congr same.reads same.donors same.visits fun _ _ => same.free.mp)
    (fun _ => Exclusive.openPool) (fun _ index pool before => before.enter index pool) exclusive taken

end Steps

inductive Reached (b : Backward) : Walk → Prop
  | start : Reached b (start b)
  | step {w w' : Walk} (reached : Reached b w) (taken : w.step b = some w') : Reached b w'

theorem Reached.exclusive {b : Backward} {w : Walk} (reached : Reached b w) : w.Exclusive b := by
  induction reached with
  | start => exact exclusive_start b
  | step _ taken ih => exact ih.step taken

theorem Reached.run {b : Backward} {w : Walk} (reached : Reached b w) : Reached b (w.run b) := by
  fun_induction Walk.run b w with
  | case1 w stopped => exact reached
  | case2 w next_ taken ih => exact ih (reached.step taken)

end StoragePlan.Walk

namespace StoragePlan

open Walk in
theorem walk_hands_on_in_turn (net : Net) (losses : List String) (parameters : Names) (scope : String) :
    let b := Backward.ofNet ⟨gradientScopeName scope, parameters⟩ losses net
    Reached b (walkGradients b) ∧ ∀ w, Reached b w →
      (∀ pool pool' storage, w.Free pool storage → w.Free pool' storage → pool = pool') ∧
      (releasedBlobs w.visits).Nodup ∧ w.donors = w.visits.flatMap (·.handed) ∧
      (∀ visit ∈ w.visits, ∀ blob other storage, (blob, storage) ∈ visit.handed →
        (other, storage) ∈ visit.handed → blob = other) ∧
      ∀ later second between first earlier,
        w.visits = later ++ second :: (between ++ first :: earlier) →
        ∀ blob other storage, (blob, storage) ∈ first.handed → (other, storage) ∈ second.handed →
          ReleasedIn earlier storage ∧ ReleasedIn between blob := by
  intro b
  refine ⟨Reached.start.run, fun w reached => ?_⟩
  have exclusive := reached.exclusive
  refine ⟨exclusive.apart, exclusive.once, exclusive.donors, ?together, ?inTurn⟩
  case together =>
    intro visit member blob other storage given given'
    obtain ⟨later, before, split⟩ := List.append_of_mem member
    exact (split ▸ exclusive.inTurn : InTurn _).at.distinct given given'
  case inTurn =>
    intro later second between first earlier split blob other storage given given'
    have inTurn : InTurn (second :: (between ++ first :: earlier)) :=
      (split ▸ exclusive.inTurn : InTurn _).at
    exact ⟨(inTurn.2.2.at.1 blob storage given).own,
      (inTurn.1 other storage given').given between first earlier rfl blob given⟩

end StoragePlan
