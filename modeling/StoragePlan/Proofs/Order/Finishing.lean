import StoragePlan.Proofs.Order.DepthFirst
import StoragePlan.Proofs.Order.LongestPath

set_option autoImplicit false

namespace StoragePlan

namespace Search

def VisitedFirst (distance : Nat → Nat) (a b : Nat) : Prop :=
  distance a < distance b ∨ distance a = distance b ∧ b < a

theorem inVisitingOrder_pairwise (distance : Nat → Nat) {successors : List Nat}
    (ascending : successors.Pairwise (· < ·)) :
    (inVisitingOrder distance successors).Pairwise (VisitedFirst distance) := by
  have total (a b : Nat) : decide (distance b ≤ distance a) = true ∨
      decide (distance a ≤ distance b) = true := by
    simpa using Nat.le_total (distance b) (distance a)
  have trans (a b c : Nat) : decide (distance b ≤ distance a) = true →
      decide (distance c ≤ distance b) = true → decide (distance c ≤ distance a) = true := by
    simpa using fun first second => Nat.le_trans second first
  rw [inVisitingOrder, List.pairwise_reverse]
  refine (sortBy_stable total trans ascending).imp fun {a b} stable => ?_
  obtain ⟨farther, tied⟩ := stable
  have far : distance b ≤ distance a := by simpa using farther
  rcases Nat.lt_or_eq_of_le far with less | same
  next => exact .inl less
  next => exact .inr ⟨same, tied (by simp [same])⟩

theorem ahead_ascending (g : Graph) (s : Search) (node : Nat) :
    (s.ahead g node).Pairwise (· < ·) :=
  (g.successors_ascending node).filter _

inductive Move (g : Graph) (distance : Nat → Nat) (s : Search) : Search → Prop
  | drop {node : Nat} {below : List Nat} (front : s.fringe = node :: below)
      (settled : s.isSettled g node = true) : Move g distance s { s with fringe := below }
  | finish {node : Nat} {below : List Nat} (front : s.fringe = node :: below)
      (unsettled : s.isSettled g node = false) (nothing : s.ahead g node = []) :
      Move g distance s ⟨below, node :: s.seen, node :: s.finished⟩
  | enter {node : Nat} {below : List Nat} (front : s.fringe = node :: below)
      (unsettled : s.isSettled g node = false) : Move g distance s
        ⟨inVisitingOrder distance (s.ahead g node) ++ node :: below, node :: s.seen, s.finished⟩

section Moves

variable {g : Graph} {distance : Nat → Nat} {s s' : Search}

theorem move_of_step (went : s.step g distance = .ok (some s')) : s.Move g distance s' := by
  unfold step at went
  split at went
  next => simp at went
  next node below front =>
    split at went
    next settled =>
      obtain rfl := Option.some.inj (Except.ok.inj went)
      exact .drop front settled
    next unsettled =>
      dsimp only at went
      split at went
      next => simp at went
      next =>
        have open_ : s.isSettled g node = false := by simpa using unsettled
        split at went
        next nothing =>
          obtain rfl := Option.some.inj (Except.ok.inj went)
          exact .finish front open_ (List.isEmpty_iff.mp nothing)
        next =>
          obtain rfl := Option.some.inj (Except.ok.inj went)
          rw [front]
          exact .enter front open_

theorem run_keeps {Holds : Search → Prop}
    (kept : ∀ s s', Holds s → s.Move g distance s' → Holds s') (holds : Holds s)
    (ran : s.run g distance = .ok s') : Holds s' := by
  fun_induction Search.run g distance s with
  | case1 s error stopped => simp at ran
  | case2 s stopped => exact Except.ok.inj ran ▸ holds
  | case3 s next taken ih => exact ih (kept s next holds (move_of_step taken)) ran

end Moves

structure OneSource (g : Graph) (start : Nat) (known : List Nat) (s : Search) : Prop where
  fringe : ∀ node ∈ s.fringe, node ∈ g.sources → node = start
  finished : s.finished.filter g.sources.contains =
    if start ∈ s.finished then start :: known else known

theorem OneSource.move {g : Graph} {distance : Nat → Nat} {start : Nat} {known : List Nat}
    {s s' : Search} (one : s.OneSource g start known) (source : start ∈ g.sources)
    (move : s.Move g distance s') : s'.OneSource g start known := by
  cases move with
  | @drop node below front settled =>
    exact ⟨fun other inside => one.fringe other (front ▸ List.mem_cons_of_mem _ inside), one.finished⟩
  | @finish node below front unsettled nothing =>
    refine ⟨fun other inside => one.fringe other (front ▸ List.mem_cons_of_mem _ inside), ?_⟩
    by_cases first : node ∈ g.sources
    next =>
      obtain rfl : node = start := one.fringe node (front ▸ List.mem_cons_self) first
      have fresh := (not_isSettled.mp unsettled).1
      simp [source, one.finished, fresh]
    next =>
      have different : start ≠ node := fun same => first (same ▸ source)
      simp [first, different, one.finished]
  | @enter node below front unsettled =>
    refine ⟨fun other inside first => ?_, one.finished⟩
    rcases List.mem_append.mp inside with pushed | waiting
    next =>
      have edge := (mem_ahead.mp ((mem_inVisitingOrder distance).mp pushed)).1
      exact absurd edge ((Graph.mem_sources.mp first).2 node)
    next => exact one.fringe other (front ▸ waiting) first

structure FinishesFirst (first second : Nat) (s : Search) : Prop where
  waiting : first ∈ s.finished ∨ s.fringe.idxOf first ≤ s.fringe.idxOf second
  done : second ∈ s.finished → first ∈ s.finished
  finished : s.finished.Pairwise fun a b => a = first → b ≠ second

theorem VisitedFirst.asymm {distance : Nat → Nat} {a b : Nat} (before : VisitedFirst distance a b) :
    ¬ VisitedFirst distance b a := by
  unfold VisitedFirst at *
  omega

section Siblings

variable {g : Graph} {distance : Nat → Nat} {first second producer : Nat}
  (one : ∀ node, g.Leads node first ↔ node = producer)
  (same : ∀ node, g.Leads node second ↔ node = producer)
  (sooner : VisitedFirst distance first second) (valid : ∀ a b, g.Leads a b → b < g.size)

theorem FinishesFirst.below {s : Search} (before : s.FinishesFirst first second) {node : Nat}
    {below : List Nat} (front : s.fringe = node :: below) (other : node ≠ first) :
    first ∈ s.finished ∨ node ≠ second ∧ below.idxOf first ≤ below.idxOf second := by
  refine before.waiting.imp_right fun bound => ?_
  rw [front, List.idxOf_cons_ne _ other] at bound
  by_cases equal : node = second
  next => simp [equal] at bound
  next =>
    rw [List.idxOf_cons_ne _ equal] at bound
    exact ⟨equal, Nat.le_of_succ_le_succ bound⟩

include one same sooner valid

theorem idxOf_entered {s : Search} {node : Nat} {fringe : List Nat} (unknown : first ∉ s.finished)
    (unknown' : second ∉ s.finished) (bound : fringe.idxOf first ≤ fringe.idxOf second) :
    (inVisitingOrder distance (s.ahead g node) ++ fringe).idxOf first ≤
      (inVisitingOrder distance (s.ahead g node) ++ fringe).idxOf second := by
  by_cases here : node = producer
  next =>
    have pushed (next : Nat) (edge : g.Leads node next) (open_ : next ∉ s.finished) :
        next ∈ inVisitingOrder distance (s.ahead g node) :=
      (mem_inVisitingOrder distance).mpr
        (mem_ahead.mpr ⟨edge, not_isSettled.mpr ⟨open_, valid _ _ edge⟩⟩)
    have front := pushed first ((one node).mpr here) unknown
    have front' := pushed second ((same node).mpr here) unknown'
    have different : first ≠ second := fun equal => sooner.asymm (equal ▸ sooner)
    rw [List.idxOf_append_of_mem front, List.idxOf_append_of_mem front']
    exact Nat.le_of_lt (idxOf_lt_of_pairwise
      (inVisitingOrder_pairwise distance (ahead_ascending g s node)) front front' different
      sooner.asymm)
  next =>
    have absent (next : Nat) (only : ∀ node, g.Leads node next ↔ node = producer) :
        next ∉ inVisitingOrder distance (s.ahead g node) := fun inside =>
      here ((only node).mp (mem_ahead.mp ((mem_inVisitingOrder distance).mp inside)).1)
    rw [List.idxOf_append_of_notMem (absent first one), List.idxOf_append_of_notMem (absent second same)]
    exact Nat.add_le_add_left bound _

theorem FinishesFirst.move {s s' : Search} (before : s.FinishesFirst first second)
    (move : s.Move g distance s') : s'.FinishesFirst first second := by
  have inside : first < g.size := valid producer first ((one producer).mpr rfl)
  cases move with
  | @drop node below front settled =>
    refine ⟨?_, before.done, before.finished⟩
    by_cases here : node = first
    next =>
      left
      simpa [isSettled, here, Nat.not_le_of_lt inside] using settled
    next => exact (before.below front here).imp_right And.right
  | @finish node below front unsettled nothing =>
    have fresh := (not_isSettled.mp unsettled).1
    by_cases here : node = first
    next =>
      subst here
      refine ⟨.inl List.mem_cons_self, fun _ => List.mem_cons_self, ?_⟩
      refine List.pairwise_cons.mpr ⟨fun other member _ equal => ?_, before.finished⟩
      exact fresh (before.done (equal ▸ member))
    next =>
      have below := before.below front here
      refine ⟨below.imp (List.mem_cons_of_mem _) And.right, fun done => ?_,
        List.pairwise_cons.mpr ⟨fun _ _ equal => absurd equal here, before.finished⟩⟩
      rcases List.mem_cons.mp done with equal | done
      next => exact List.mem_cons_of_mem _ (below.resolve_right fun later => later.1 equal.symm)
      next => exact List.mem_cons_of_mem _ (before.done done)
  | @enter node below front unsettled =>
    refine ⟨?_, before.done, before.finished⟩
    by_cases known : first ∈ s.finished
    next => exact .inl known
    next =>
      right
      have bound := front ▸ before.waiting.resolve_left known
      exact idxOf_entered one same sooner valid known (mt before.done known) bound

end Siblings

end Search

namespace Graph

variable {g : Graph} {distance : Nat → Nat} {starts order : List Nat}

theorem depthFirstOrder_eq_ok : g.depthFirstOrder distance starts = .ok order ↔
    ∃ s, starts.foldlM (fun s node => Search.run g distance { s with fringe := [node] }) .start =
      .ok s ∧ s.finished = order := by
  rw [depthFirstOrder, bind_eq_ok]
  simp [pure, Except.pure]

theorem filter_sources_of_runs {rank : Nat → Nat} (ranked : g.Ranked rank)
    (valid : ∀ a b, g.Leads a b → b < g.size) {s s' : Search} (sound : s.Sound g rank [])
    (nodup : starts.Nodup) (sources : ∀ start ∈ starts, start ∈ g.sources)
    (fresh : ∀ start ∈ starts, start ∉ s.finished)
    (ran : starts.foldlM (fun s node => Search.run g distance { s with fringe := [node] }) s = .ok s') :
    s'.finished.filter g.sources.contains =
      starts.reverse ++ s.finished.filter g.sources.contains := by
  induction starts generalizing s with
  | nil => exact Except.ok.inj ran ▸ rfl
  | cons start rest ih =>
    rw [List.foldlM_cons] at ran
    obtain ⟨middle, first, ran⟩ := bind_eq_ok.mp ran
    have ⟨here, others⟩ := List.forall_mem_cons.mp sources
    have ⟨new, newer⟩ := List.forall_mem_cons.mp fresh
    have ⟨different, nodup⟩ := List.nodup_cons.mp nodup
    obtain ⟨last, ran', empty, later, keeps⟩ := (sound.restart start).run ranked valid distance
    obtain rfl : middle = last := Except.ok.inj (first.symm.trans ran')
    have done : start ∈ middle.finished := by
      simpa [empty] using keeps.fringe start List.mem_cons_self (mem_sources.mp here).1
    have begun : ({ s with fringe := [start] } : Search).OneSource g start
        (s.finished.filter g.sources.contains) :=
      ⟨fun node inside _ => List.mem_singleton.mp inside, by simp [new]⟩
    have one := (Search.run_keeps (fun _ _ one => one.move here) begun first).finished
    rw [if_pos done] at one
    rw [ih later nodup others ?_ ran, one, List.reverse_cons, List.append_assoc, List.singleton_append]
    intro other inside finished
    have among : other ∈ middle.finished.filter g.sources.contains :=
      List.mem_filter.mpr ⟨finished, by simpa using others other inside⟩
    rw [one] at among
    rcases List.mem_cons.mp among with same | earlier
    next => exact different (same ▸ inside)
    next => exact newer other inside (List.mem_filter.mp earlier).1

theorem depthFirstOrder_sources (built : g.Built) (nodup : starts.Nodup)
    (sources : ∀ start ∈ starts, start ∈ g.sources)
    (searched : g.depthFirstOrder distance starts = .ok order) :
    order.filter g.sources.contains = starts.reverse := by
  obtain ⟨rank, ranked⟩ := built.ranked
  obtain ⟨s, ran, rfl⟩ := depthFirstOrder_eq_ok.mp searched
  have found := filter_sources_of_runs ranked (fun _ _ => built.valid) (Search.start_sound g rank)
    nodup sources (by simp [Search.start]) ran
  simpa [Search.start] using found

theorem finishesFirst_of_runs {first second producer : Nat}
    (one : ∀ node, g.Leads node first ↔ node = producer)
    (same : ∀ node, g.Leads node second ↔ node = producer)
    (sooner : Search.VisitedFirst distance first second) (valid : ∀ a b, g.Leads a b → b < g.size)
    (sources : ∀ start ∈ starts, start ∈ g.sources) {s s' : Search}
    (before : s.FinishesFirst first second)
    (ran : starts.foldlM (fun s node => Search.run g distance { s with fringe := [node] }) s = .ok s') :
    s'.FinishesFirst first second := by
  induction starts generalizing s with
  | nil => exact Except.ok.inj ran ▸ before
  | cons start rest ih =>
    rw [List.foldlM_cons] at ran
    obtain ⟨middle, taken, ran⟩ := bind_eq_ok.mp ran
    have ⟨here, others⟩ := List.forall_mem_cons.mp sources
    -- A run starts with a source, so with none of the two.
    have apart (node : Nat) (only : ∀ other, g.Leads other node ↔ other = producer) : start ≠ node :=
      fun equal => (mem_sources.mp here).2 producer (equal ▸ (only producer).mpr rfl)
    have begun : ({ s with fringe := [start] } : Search).FinishesFirst first second :=
      ⟨.inr (by simp [List.idxOf_cons_ne, apart first one, apart second same]), before.done,
        before.finished⟩
    exact ih others
      (Search.run_keeps (fun _ _ before => before.move one same sooner valid) begun taken) ran

theorem depthFirstOrder_siblings (built : g.Built) {first second producer : Nat}
    (one : ∀ node, g.Leads node first ↔ node = producer)
    (same : ∀ node, g.Leads node second ↔ node = producer)
    (sooner : Search.VisitedFirst distance first second)
    (sources : ∀ start ∈ starts, start ∈ g.sources)
    (searched : g.depthFirstOrder distance starts = .ok order) (linear : g.Linear order) :
    order.idxOf second < order.idxOf first := by
  obtain ⟨s, ran, rfl⟩ := depthFirstOrder_eq_ok.mp searched
  have begun : Search.start.FinishesFirst first second :=
    ⟨.inr (Nat.le_refl _), by simp [Search.start], .nil⟩
  have final := finishesFirst_of_runs one same sooner (fun _ _ => built.valid) sources begun ran
  have placed (node : Nat) (only : ∀ other, g.Leads other node ↔ other = producer) :
      node ∈ s.finished :=
    linear.mem_iff.mpr (built.valid ((only producer).mpr rfl))
  have different : second ≠ first := fun equal => sooner.asymm (equal ▸ sooner)
  exact idxOf_lt_of_pairwise final.finished (placed second same) (placed first one) different
    (fun never => never rfl rfl)

theorem leads_iff_of_predecessors {node producer : Nat} (only : g.predecessors node = [producer])
    (other : Nat) : g.Leads other node ↔ other = producer := by
  rw [← mem_predecessors, only, List.mem_singleton]

theorem longestPathOrder_siblings (built : g.Built) {producer u v : Nat}
    (first : g.predecessors u = [producer]) (second : g.predecessors v = [producer])
    (different : u ≠ v) :
    ∃ tree order du dv, g.pathTree = .ok tree ∧ g.longestPathOrder = .ok order ∧ g.Linear order ∧
      tree.distance[u]? = some du ∧ tree.distance[v]? = some dv ∧
      (order.idxOf u < order.idxOf v ↔ dv < du ∨ du = dv ∧ u < v) := by
  have one := leads_iff_of_predecessors first
  have same := leads_iff_of_predecessors second
  have inside : u < g.size := built.valid ((one producer).mpr rfl)
  have inside' : v < g.size := built.valid ((same producer).mpr rfl)
  have nonempty : g.size ≠ 0 := by omega
  obtain ⟨tree, order, found, leaves, searched, linear, planned⟩ :=
    longestPathOrder_searched built nonempty
  obtain ⟨tree', routed, found', planted⟩ := pathTree_cases built nonempty
  obtain rfl : tree = tree' := Except.ok.inj (found.symm.trans found')
  have known := planted.getElem?_distance.mpr ⟨lt_extent_of_lt inside, rfl⟩
  have known' := planted.getElem?_distance.mpr ⟨lt_extent_of_lt inside', rfl⟩
  refine ⟨tree, order, _, _, found, planned, linear, known, known', ?_⟩
  have sources := fun start member => (leaves start).mp member
  have forth := fun sooner => depthFirstOrder_siblings built one same sooner sources searched linear
  have back := fun sooner => depthFirstOrder_siblings built same one sooner sources searched linear
  simp only [Search.VisitedFirst, known, known', Option.getD_some] at forth back
  constructor
  next =>
    intro before
    by_contra neither
    exact Nat.lt_asymm before (forth (by omega))
  next => exact fun longer => back (by omega)

theorem longestPathOrder_siblings_fork :
    let fork := (((empty 4).setLabel 0 1 .empty).setLabel 0 2 .empty).setLabel 2 3 .empty
    fork.Built ∧ fork.predecessors 1 = [0] ∧ fork.predecessors 2 = [0] ∧
      ∃ order, fork.longestPathOrder = .ok order ∧ order.idxOf 2 < order.idxOf 1 := by
  intro fork
  have first : (empty 4).addEdge 0 1 .empty = .ok ((empty 4).setLabel 0 1 .empty) := by
    decide +kernel
  have second : ((empty 4).setLabel 0 1 .empty).addEdge 0 2 .empty =
      .ok (((empty 4).setLabel 0 1 .empty).setLabel 0 2 .empty) := by decide +kernel
  have third : (((empty 4).setLabel 0 1 .empty).setLabel 0 2 .empty).addEdge 2 3 .empty = .ok fork := by
    decide +kernel
  have built : fork.Built := .addEdge (.addEdge (.addEdge (.isolated 4) first) second) third
  have one : fork.predecessors 1 = [0] := by decide +kernel
  have same : fork.predecessors 2 = [0] := by decide +kernel
  obtain ⟨tree, order, d₂, d₁, found, planned, -, far, near, order_iff⟩ :=
    longestPathOrder_siblings built same one (by decide)
  obtain ⟨evaluated, known, distances⟩ : ∃ tree, fork.pathTree = .ok tree ∧
      (tree.distance[2]?, tree.distance[1]?) = (some 2, some 1) :=
    exists_ok_of_view (by decide +kernel)
  obtain rfl : evaluated = tree := Except.ok.inj (known.symm.trans found)
  obtain ⟨far', near'⟩ := Prod.mk.inj distances
  obtain rfl : 2 = d₂ := Option.some.inj (far'.symm.trans far)
  obtain rfl : 1 = d₁ := Option.some.inj (near'.symm.trans near)
  exact ⟨built, one, same, order, planned, order_iff.mpr (.inl (by decide))⟩

end Graph

end StoragePlan
