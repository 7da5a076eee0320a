import StoragePlan.Proofs.Gradient.Branch
import StoragePlan.Proofs.Gradient.Readers

set_option autoImplicit false

namespace StoragePlan

namespace Walk

def stepped (b : Backward) : Nat → Walk → Option Walk
  | 0, w => some w
  | count + 1, w => (w.step b).bind (stepped b count)

section Steps

variable {b : Backward} {w w' : Walk}

-- Each step takes away from the work that is left.
theorem work_of_stepped {count : Nat} (taken : stepped b count w = some w') :
    count + w'.work b ≤ w.work b := by
  induction count generalizing w with
  | zero =>
    obtain rfl := Option.some.inj taken
    omega
  | succ count ih =>
    obtain ⟨middle, first, rest⟩ := Option.bind_eq_some_iff.mp taken
    have less := step_work b first
    have later := ih rest
    omega

theorem exists_stepped_run (b : Backward) (w : Walk) :
    (∃ count, stepped b count w = some (w.run b)) ∧ (w.run b).step b = none := by
  fun_induction run b w with
  | case1 w stopped => exact ⟨⟨0, rfl⟩, stopped⟩
  | case2 w next_ taken ih =>
    obtain ⟨⟨count, rest⟩, stopped⟩ := ih
    exact ⟨⟨count + 1, by rw [stepped, taken, Option.bind_some, rest]⟩, stopped⟩

end Steps

namespace Lineage

def entered (t : Lineage) (w : Walk) : List (Nat × Option Nat) := (w.visits.reverse.map (·.op)).zip t.parents

def begun (t : Lineage) (w : Walk) : List Nat := ((t.entered w).filter (!·.2.isSome)).map (·.1)

def children (t : Lineage) (w : Walk) : List Nat := ((t.entered w).filter (·.2.isSome)).map (·.1)

variable {t : Lineage} {w w' : Walk}

theorem length_visits (counted : t.parents.length = w.visits.length) :
    w.visits.length = (t.begun w).length + (t.children w).length := by
  have length : (t.entered w).length = w.visits.length := by simp [entered, counted]
  rw [← length, begun, children, List.length_map, List.length_map, Nat.add_comm,
    List.length_eq_length_filter_add (·.2.isSome)]

theorem entered_congr {t' : Lineage} (parents : t'.parents = t.parents) (visits : w'.visits = w.visits) :
    t'.entered w' = t.entered w := by rw [entered, parents, visits, entered]

theorem entered_enter (counted : t.parents.length = w.visits.length) {visit : Visit}
    (visits : w'.visits = visit :: w.visits) :
    (t.grow w w').entered w' = t.entered w ++ [(visit.op, t.opened.head?)] := by
  have grown : t.grow w w' = t.enter := by simp [grow, visits]
  rw [grown, entered, visits, enter, List.reverse_cons, List.map_append, List.zip_append (by simp [counted])]
  rfl

end Lineage

structure Tallied (b : Backward) (w : Walk) (t : Lineage) : Prop where
  begun : t.begun w ++ w.starts = b.losses.flatMap b.readers
  children : ∀ index, (t.children w).count index ≤ if w.isWaiting b index then 0 else 1
  inside : ∀ index ∈ t.children w, index < b.ops.length

section Tally

variable {b : Backward} {w w' : Walk} {t : Lineage}

theorem tallied_start (b : Backward) : (start b).Tallied b ⟨[], []⟩ where
  begun := rfl
  children := by simp [Lineage.children, Lineage.entered, start]
  inside := by simp [Lineage.children, Lineage.entered, start]

theorem lt_of_mem_readers {blob : String} {index : Nat} (reads : index ∈ b.readers blob) :
    index < b.ops.length := by
  obtain ⟨op, here, -⟩ := Backward.mem_readers.mp reads
  exact (List.getElem?_eq_some_iff.mp here).1

theorem exists_visit_of_enter {index : Nat} (inside : index < b.ops.length) (w : Walk) (pool : Nat) :
    ∃ visit, visit.op = index ∧ (enter b w index pool).visits = visit :: w.visits := by
  obtain ⟨released, handed, recorded⟩ :=
    @enter_recorded b w index pool _ (List.getElem?_eq_getElem inside)
  exact ⟨_, rfl, recorded.visits⟩

theorem Tallied.congr (tallied : w.Tallied b t) {t' : Lineage} (parents : t'.parents = t.parents)
    (visits : w'.visits = w.visits) (starts : w'.starts = w.starts)
    (waiting : ∀ index, w'.isWaiting b index = true → w.isWaiting b index = true) : w'.Tallied b t' := by
  have same := Lineage.entered_congr parents visits
  constructor
  case begun => rw [Lineage.begun, same, starts]; exact tallied.begun
  case children =>
    intro index
    rw [Lineage.children, same]
    have before := tallied.children index
    rw [Lineage.children] at before
    split
    next still => rwa [if_pos (waiting index still)] at before
    next => split at before <;> omega
  case inside => rw [Lineage.children, same]; exact tallied.inside

theorem Tallied.begin (tallied : w.Tallied b t) (counted : t.parents.length = w.visits.length) {index : Nat}
    {starts : List Nat} (next_ : w.starts = index :: starts) (idle : t.opened = []) {visit : Visit}
    (entry : visit.op = index) (visits : w'.visits = visit :: w.visits) (left : w'.starts = starts)
    (arrivals : w'.arrivals = w.arrivals) : w'.Tallied b (t.grow w w') := by
  have entered := Lineage.entered_enter counted visits
  rw [idle, List.head?_nil, entry] at entered
  have children : (t.grow w w').children w' = t.children w := by simp [Lineage.children, entered]
  constructor
  case begun =>
    rw [← tallied.begun, next_, Lineage.begun, entered, left]
    simp [Lineage.begun]
  case children =>
    intro other
    rw [children, isWaiting, arrivals]
    exact tallied.children other
  case inside => rw [children]; exact tallied.inside

theorem Tallied.ready (tallied : w.Tallied b t) (counted : t.parents.length = w.visits.length) {reader : Nat}
    (ready : (reader :: w.arrivals).count reader = b.needed reader) {number : Nat} {below : List Nat}
    (opened : t.opened = number :: below) {visit : Visit} (entry : visit.op = reader)
    (visits : w'.visits = visit :: w.visits) (starts : w'.starts = w.starts)
    (arrivals : w'.arrivals = reader :: w.arrivals) : w'.Tallied b (t.grow w w') := by
  have entered := Lineage.entered_enter counted visits
  rw [opened, List.head?_cons, entry] at entered
  have children : (t.grow w w').children w' = t.children w ++ [reader] := by
    simp [Lineage.children, entered]
  constructor
  case begun =>
    rw [← tallied.begun, starts, Lineage.begun, entered]
    simp [Lineage.begun]
  case children =>
    intro index
    have before := tallied.children index
    rw [children, List.count_append]
    simp only [isWaiting, arrivals, decide_eq_true_eq] at before ⊢
    by_cases same : reader = index
    next =>
      subst same
      rw [if_neg (by omega), List.count_singleton_self]
      rw [List.count_cons_self] at ready
      rw [if_pos (by omega)] at before
      omega
    next =>
      rw [List.count_cons_of_ne same, List.count_nil, List.count_cons_of_ne same]
      exact before
  case inside =>
    rw [children]
    intro index member
    cases List.mem_append.mp member with
    | inl old => exact tallied.inside index old
    | inr new => exact List.mem_singleton.mp new ▸ lt_of_ready b ready

theorem Tallied.step (tallied : w.Tallied b t) (branched : w.Branched b t) (taken : w.step b = some w') :
    w'.Tallied b (t.grow w w') := by
  have counted := branched.counted
  cases step_cases taken with
  | @begin index starts idle next_ =>
    have inside : index < b.ops.length := by
      have among : index ∈ b.losses.flatMap b.readers := by
        rw [← tallied.begun, next_]
        exact List.mem_append_right _ List.mem_cons_self
      obtain ⟨loss, -, reads⟩ := List.mem_flatMap.mp among
      exact lt_of_mem_readers reads
    have opened := branched.opened
    rw [idle] at opened
    obtain ⟨visit, entry, visits⟩ := exists_visit_of_enter inside { w with starts }.openPool w.pools.length
    exact tallied.begin counted next_ (List.forall₂_nil_left_iff.mp opened) entry visits
      (enter_starts ..) (enter_arrivals ..)
  | @leave pool first rest top =>
    refine tallied.congr ?_ rfl rfl fun _ still => still
    simp [Lineage.grow, top]
  | @tell pool reader pending first rest top waiting =>
    refine tallied.congr ?_ rfl rfl fun _ still => isWaiting_of_cons b rfl still
    simp [Lineage.grow, top]
  | @onward pool reader pending rest top ready =>
    obtain ⟨number, below, opened, -⟩ := branched.top top
    obtain ⟨visit, entry, visits⟩ := exists_visit_of_enter (lt_of_ready b ready) { w with
      arrivals := reader :: w.arrivals
      branchings := ⟨pool, pending, false⟩ :: rest } pool
    exact tallied.ready counted ready opened entry visits (enter_starts ..) (enter_arrivals ..)
  | @aside pool reader pending rest top ready =>
    obtain ⟨number, below, opened, -⟩ := branched.top top
    obtain ⟨visit, entry, visits⟩ := exists_visit_of_enter (lt_of_ready b ready) { w with
      arrivals := reader :: w.arrivals
      branchings := ⟨pool, pending, false⟩ :: rest }.openPool w.pools.length
    exact tallied.ready counted ready opened entry visits (enter_starts ..) (enter_arrivals ..)

theorem Grown.tallied (grown : Grown b w t) : w.Tallied b t := by
  induction grown with
  | start => exact tallied_start b
  | step before taken ih => exact ih.step before.branched taken

theorem Tallied.nodup (tallied : w.Tallied b t) : (t.children w).Nodup := by
  refine List.nodup_iff_count_le_one.mpr fun index => ?_
  have bound := tallied.children index
  split at bound <;> omega

theorem Tallied.length_children (tallied : w.Tallied b t) : (t.children w).length ≤ b.ops.length := by
  have among : t.children w ⊆ List.range b.ops.length :=
    fun index member => List.mem_range.mpr (tallied.inside index member)
  have bound := (List.subperm_of_subset tallied.nodup among).length_le
  rwa [List.length_range] at bound

theorem Tallied.length_begun (tallied : w.Tallied b t) :
    (t.begun w).length ≤ total (b.losses.map fun loss => (b.readers loss).length) := by
  have length := congrArg List.length tallied.begun
  rw [List.length_append, List.length_flatMap] at length
  rw [total_eq_sum]
  omega

end Tally

end Walk

/-- How the entries of a walk come about: from the readers of the losses in turn, or from another entry. -/
structure Walk.Entries (b : Backward) (losses : List String) (w : Walk) (t : Lineage) : Prop where
  split : w.visits.length = (t.begun w).length + (t.children w).length
  begun : t.begun w ++ w.starts = losses.flatMap b.readers
  nodup : (t.children w).Nodup
  inside : ∀ index ∈ t.children w, index < b.ops.length
  bounded : w.visits.length ≤ b.ops.length + total (losses.map fun loss => (b.readers loss).length)

open Walk in
theorem walk_ends (net : Net) (losses : List String) (parameters : Names) (scope : String) :
    let b := Backward.ofNet ⟨gradientScopeName scope, parameters⟩ losses net
    (∃ count ≤ (start b).work b, stepped b count (start b) = some (walkGradients b) ∧
      (walkGradients b).step b = none) ∧
    (∃ t, Grown b (walkGradients b) t) ∧ ∀ w t, Grown b w t → w.Entries b losses t := by
  intro b
  obtain ⟨⟨count, taken⟩, stopped⟩ := exists_stepped_run b (start b)
  have bound := work_of_stepped taken
  refine ⟨⟨count, by omega, taken, stopped⟩, Reached.start.run.grown, fun w t grown => ?_⟩
  have tallied := grown.tallied
  have length := Lineage.length_visits grown.branched.counted
  have children := tallied.length_children
  have begun := tallied.length_begun
  refine ⟨length, tallied.begun, tallied.nodup, tallied.inside, ?_⟩
  rw [length]
  exact Nat.add_comm _ _ ▸ Nat.add_le_add children begun

/-- The gradients depend on each other in a cycle, which the loss enters. -/
def cyclicNet : Net :=
  (Net.named "cyclic").withOps [⟨"A", ["loss", "g/c_grad"], ["g/a_grad"], []⟩,
    ⟨"B", ["g/a_grad"], ["g/b_grad"], []⟩, ⟨"C", ["g/b_grad"], ["g/c_grad"], []⟩]

-- The loss stands there twice, so its reader is entered twice, and the others are entered once.
open Walk in
theorem walk_ends_cyclic :
    let b := Backward.ofNet ⟨gradientScopeName "g", .empty⟩ ["loss", "loss"] cyclicNet
    let w := walkGradients b
    ∃ t, Grown b w t ∧ w.visits.map (·.op) = [0, 2, 1, 0] ∧ t.begun w = [0, 0] ∧
      (t.children w).length = 2 ∧ (t.children w).Nodup ∧ w.visits.length ≤ 3 + (1 + 1) := by
  intro b w
  obtain ⟨-, ⟨t, grown⟩, holds⟩ := walk_ends cyclicNet ["loss", "loss"] .empty "g"
  obtain ⟨length, begun, nodup, -, bound⟩ := holds w t grown
  have visits : w.visits.map (·.op) = [0, 2, 1, 0] := by decide +kernel
  have four : w.visits.length = 4 := by rw [← List.length_map (·.op), visits]; rfl
  have done : w.starts = [] := by decide +kernel
  have readers : ["loss", "loss"].flatMap b.readers = [0, 0] := by decide +kernel
  rw [done, List.append_nil, readers] at begun
  rw [four, begun, List.length_cons, List.length_singleton] at length
  exact ⟨t, grown, visits, begun, by omega, nodup, by omega⟩

end StoragePlan
