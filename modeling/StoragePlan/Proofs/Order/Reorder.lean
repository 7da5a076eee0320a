import Mathlib.Data.List.Perm.Subperm
import StoragePlan.Order.Strategy
import StoragePlan.Proofs.Run.Basic

set_option autoImplicit false

namespace StoragePlan

structure DistinctBelow (size : Nat) (numbers : List Nat) : Prop where
  nodup : numbers.Nodup
  inside : ∀ number ∈ numbers, number < size

structure LongestFront (size : Nat) (order front : List Nat) : Prop where
  part : front <+: order
  distinct : DistinctBelow size front
  longest : ∀ other, other <+: order → DistinctBelow size other → other.length ≤ front.length

section Distinct

variable {size : Nat} {front order : List Nat} {number : Nat}

theorem distinctBelow_nil (size : Nat) : DistinctBelow size [] := ⟨.nil, nofun⟩

theorem distinctBelow_concat :
    DistinctBelow size (front ++ [number]) ↔
      DistinctBelow size front ∧ number < size ∧ number ∉ front := by
  constructor
  next =>
    intro distinct
    have ⟨nodup, _, apart⟩ := List.nodup_append.mp distinct.nodup
    have ⟨inside, here⟩ := List.forall_mem_append.mp distinct.inside
    have fresh : number ∉ front := fun before => apart number before number (by simp) rfl
    exact ⟨⟨nodup, inside⟩, here number (by simp), fresh⟩
  next =>
    rintro ⟨distinct, inside, fresh⟩
    constructor
    next =>
      have apart (other : Nat) (before : other ∈ front) : other ≠ number :=
        ne_of_mem_of_not_mem before fresh
      simpa [List.nodup_append, distinct.nodup] using apart
    next => simpa [or_imp, forall_and] using ⟨distinct.inside, inside⟩

theorem DistinctBelow.of_prefix (distinct : DistinctBelow size order) (part : front <+: order) :
    DistinctBelow size front where
  nodup := part.sublist.nodup distinct.nodup
  inside number member := distinct.inside number (part.subset member)

theorem perm_range_iff :
    order.Perm (List.range size) ↔ order.length = size ∧ DistinctBelow size order := by
  constructor
  next =>
    intro perm
    have inside (number : Nat) (member : number ∈ order) : number < size :=
      List.mem_range.mp (perm.mem_iff.mp member)
    exact ⟨by simpa using perm.length_eq, perm.nodup_iff.mpr List.nodup_range, inside⟩
  next =>
    rintro ⟨length, distinct⟩
    have among : order ⊆ List.range size := fun number member =>
      List.mem_range.mpr (distinct.inside number member)
    exact (List.subperm_of_subset distinct.nodup among).perm_of_length_le (by simp [length])

theorem longestFront_of_clash (next : front ++ [number] <+: order) (distinct : DistinctBelow size front)
    (clash : ¬ DistinctBelow size (front ++ [number])) : LongestFront size order front where
  part := (List.prefix_append front [number]).trans next
  distinct := distinct
  longest other part distinct' := by
    -- A longer front would have the number that clashes.
    refine Nat.le_of_not_lt fun longer => clash (distinct'.of_prefix ?_)
    exact List.prefix_of_prefix_length_le next part (by simpa using Nat.succ_le_of_lt longer)

end Distinct

theorem schedule_of_placeOps {ops ops' : List Op} {placed order : List Nat}
    (brought : placeOps ops placed order = .ok ops') :
    ops'.length = order.length ∧ schedule ops order = ops'.zip order ∧
      ∀ position : Nat, ops'[position]? = order[position]?.bind (ops[·]?) := by
  induction order generalizing placed ops' with
  | nil =>
    obtain rfl : [] = ops' := Except.ok.inj brought
    exact ⟨rfl, rfl, by simp⟩
  | cons number rest ih =>
    rw [placeOps] at brought
    split at brought
    next => simp at brought
    next op found =>
      split at brought
      next => simp at brought
      next =>
        obtain ⟨rest', later, rfl⟩ := map_eq_ok.mp brought
        obtain ⟨length, same, each⟩ := ih later
        have first : schedule ops (number :: rest) = (op, number) :: schedule ops rest := by
          simp [schedule, found]
        refine ⟨by simp [length], by rw [first, same, List.zip_cons_cons], fun position => ?_⟩
        cases position with
        | zero => simp [found]
        | succ position => simpa using each position

theorem schedule_of_reorderOps {ops ops' : List Op} {order : List Nat}
    (brought : reorderOps ops order = .ok ops') :
    ops'.length = order.length ∧ schedule ops order = ops'.zip order ∧
      ∀ position : Nat, ops'[position]? = order[position]?.bind (ops[·]?) := by
  simp only [reorderOps, checkCount] at brought
  split at brought
  next => exact schedule_of_placeOps brought
  next => simp at brought

section Brought

variable {ops ops' : List Op} {order : List Nat} (brought : reorderOps ops order = .ok ops')

include brought

theorem getElem?_of_reorderOps {position : Nat} {op : Op} (found : ops'[position]? = some op) :
    ∃ number : Nat, order[position]? = some number ∧ ops[number]? = some op := by
  rw [(schedule_of_reorderOps brought).2.2 position] at found
  exact Option.bind_eq_some_iff.mp found

theorem mem_of_reorderOps {op : Op} (inside : op ∈ ops') : op ∈ ops := by
  obtain ⟨position, here⟩ := List.mem_iff_getElem?.mp inside
  obtain ⟨number, -, found⟩ := getElem?_of_reorderOps brought here
  exact List.mem_of_getElem? found

theorem writtenAt_of_reorderOps {blob : String} {position : Nat} (written : WrittenAt ops' blob position) :
    ∃ number, order[position]? = some number ∧ WrittenAt ops blob number := by
  obtain ⟨op, found, output⟩ := written
  obtain ⟨number, here, original⟩ := getElem?_of_reorderOps brought found
  exact ⟨number, here, op, original, output⟩

theorem readAt_of_reorderOps {blob : String} {position : Nat} (read : ReadAt ops' blob position) :
    ∃ number, order[position]? = some number ∧ ReadAt ops blob number := by
  obtain ⟨op, found, input⟩ := read
  obtain ⟨number, here, original⟩ := getElem?_of_reorderOps brought found
  exact ⟨number, here, op, original, input⟩

end Brought

section Placing

variable {ops : List Op} {front rest order : List Nat} {number : Nat}

-- The numbers placed so far are the front of the order, the last of them first.
theorem placeOps_cons_of_distinct (distinct : DistinctBelow ops.length (front ++ [number]))
    (rest : List Nat) :
    ∃ op, ops[number]? = some op ∧ placeOps ops front.reverse (number :: rest) =
      (placeOps ops (front ++ [number]).reverse rest).map (op :: ·) := by
  have ⟨_, inside, fresh⟩ := distinctBelow_concat.mp distinct
  exact ⟨ops[number], by simp, by simp [placeOps, inside, fresh]⟩

theorem placeOps_cons_of_clash (distinct : DistinctBelow ops.length front)
    (clash : ¬ DistinctBelow ops.length (front ++ [number])) :
    placeOps ops front.reverse (number :: rest) =
      .error (.shapeMismatch .distinctOpIndices ops.length front.length) := by
  rw [distinctBelow_concat] at clash
  rw [placeOps]
  split
  next => simp
  next op found =>
    have inside := (List.getElem?_eq_some_iff.mp found).1
    have before : number ∈ front := by simpa [distinct, inside] using clash
    simp [before]

theorem placeOps_ok (distinct : DistinctBelow ops.length (front ++ rest)) :
    ∃ ops', placeOps ops front.reverse rest = .ok ops' := by
  induction rest generalizing front with
  | nil => exact ⟨[], rfl⟩
  | cons number rest ih =>
    have here : DistinctBelow ops.length (front ++ [number]) := distinct.of_prefix ⟨rest, by simp⟩
    obtain ⟨op, -, placed⟩ := placeOps_cons_of_distinct here rest
    have whole : DistinctBelow ops.length (front ++ [number] ++ rest) := by simpa using distinct
    obtain ⟨rest', brought⟩ := ih whole
    exact ⟨op :: rest', by rw [placed, brought]; rfl⟩

theorem placeOps_stops (distinct : DistinctBelow ops.length front)
    (clash : ¬ DistinctBelow ops.length (front ++ rest)) :
    ∃ kept, LongestFront ops.length (front ++ rest) kept ∧ placeOps ops front.reverse rest =
      .error (.shapeMismatch .distinctOpIndices ops.length kept.length) := by
  induction rest generalizing front with
  | nil => exact absurd distinct (by simpa using clash)
  | cons number rest ih =>
    by_cases further : DistinctBelow ops.length (front ++ [number])
    next =>
      obtain ⟨op, -, placed⟩ := placeOps_cons_of_distinct further rest
      obtain ⟨kept, longest, stopped⟩ := ih further (by simpa using clash)
      exact ⟨kept, by simpa using longest, by rw [placed, stopped]; rfl⟩
    next =>
      have longest : LongestFront ops.length (front ++ number :: rest) front :=
        longestFront_of_clash (by simp) distinct further
      exact ⟨front, longest, placeOps_cons_of_clash distinct further⟩

theorem reorderOps_ok (perm : order.Perm (List.range ops.length)) :
    ∃ ops', reorderOps ops order = .ok ops' ∧ ops'.Perm ops := by
  obtain ⟨length, distinct⟩ := perm_range_iff.mp perm
  have whole : DistinctBelow ops.length ([] ++ order) := distinct
  obtain ⟨ops', placed⟩ := placeOps_ok whole
  have brought : reorderOps ops order = .ok ops' := by
    simpa [reorderOps, checkCount, length] using placed
  refine ⟨ops', brought, ?_⟩
  obtain ⟨-, -, each⟩ := schedule_of_reorderOps brought
  have line : ops'.map some = order.map (ops[·]?) := by
    apply List.ext_getElem?
    intro position
    rw [List.getElem?_map, List.getElem?_map, each]
    cases here : order[position]? with
    | none => rfl
    | some number => simp [distinct.inside number (List.mem_of_getElem? here)]
  have all : ops.map some = (List.range ops.length).map (ops[·]?) := by
    apply List.ext_getElem
    next => simp
    next => simp
  have perm' : (ops'.map some).Perm (ops.map some) := line ▸ all ▸ perm.map (ops[·]?)
  simpa using perm'.filterMap id

theorem reorderOps_of_length_ne (different : order.length ≠ ops.length) :
    reorderOps ops order = .error (.shapeMismatch .opOrder ops.length order.length) := by
  simp [reorderOps, checkCount, different.symm]

theorem reorderOps_of_clash (length : order.length = ops.length)
    (clash : ¬ order.Perm (List.range ops.length)) :
    ∃ front, LongestFront ops.length order front ∧ reorderOps ops order =
      .error (.shapeMismatch .distinctOpIndices ops.length front.length) := by
  have clash' : ¬ DistinctBelow ops.length ([] ++ order) := fun distinct =>
    clash (perm_range_iff.mpr ⟨length, distinct⟩)
  obtain ⟨front, longest, stopped⟩ := placeOps_stops (distinctBelow_nil _) clash'
  exact ⟨front, longest, by simpa [reorderOps, checkCount, length] using stopped⟩

theorem reorderOps_isOk_iff :
    (∃ ops', reorderOps ops order = .ok ops') ↔ order.Perm (List.range ops.length) := by
  constructor
  next =>
    rintro ⟨ops', brought⟩
    by_contra clash
    by_cases length : order.length = ops.length
    next =>
      obtain ⟨front, -, stopped⟩ := reorderOps_of_clash length clash
      simp [stopped] at brought
    next => simp [reorderOps_of_length_ne length] at brought
  next =>
    intro perm
    obtain ⟨ops', brought, -⟩ := reorderOps_ok perm
    exact ⟨ops', brought⟩

end Placing

end StoragePlan
