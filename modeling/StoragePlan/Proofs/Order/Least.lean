import StoragePlan.Proofs.Order.Linear

set_option autoImplicit false

namespace StoragePlan

-- An ascending list comes before everything that it can be rearranged to.
theorem eq_or_lex_of_ascending {first other : List Nat} (ascending : first.Pairwise (· < ·))
    (perm : other.Perm first) : other = first ∨ List.Lex (· < ·) first other := by
  induction first generalizing other with
  | nil => exact .inl perm.eq_nil
  | cons least rest ih =>
    cases other with
    | nil => exact absurd perm.nil_eq (by simp)
    | cons head tail =>
      have ⟨below, later⟩ := List.pairwise_cons.mp ascending
      rcases List.mem_cons.mp (perm.mem_iff.mp List.mem_cons_self) with rfl | inside
      next => exact (ih later perm.cons_inv).imp (congrArg _) .cons
      next => exact .inr (.rel (below head inside))

namespace Graph

structure Completes (g : Graph) (placed rest : List Nat) : Prop where
  perm : rest.Perm (g.unplaced placed)
  apart : rest.Pairwise fun a b => ¬ g.Leads b a

section Completes

variable {g : Graph} {placed rest : List Nat} {node : Nat}

theorem Linear.completes {order : List Nat} (linear : g.Linear order) : g.Completes [] order where
  perm := by simpa [unplaced] using linear.perm
  apart := linear.apart

theorem Completes.ready {rank : Nat → Nat} (ranked : g.Ranked rank)
    (completes : g.Completes placed (node :: rest)) : (node, []) ∈ g.stillWaiting placed := by
  have waits := completes.perm.mem_iff.mp List.mem_cons_self
  refine mem_stillWaiting.mpr ⟨waits, (List.eq_nil_iff_forall_not_mem.mpr fun producer left => ?_).symm⟩
  obtain ⟨edge, unplaced⟩ := mem_unplaced_of_left left
  rcases List.mem_cons.mp (completes.perm.mem_iff.mpr unplaced) with rfl | later
  next => exact Nat.lt_irrefl _ (ranked _ _ edge)
  next => exact (List.pairwise_cons.mp completes.apart).1 producer later edge

theorem Completes.tail (completes : g.Completes placed (node :: rest)) :
    g.Completes (node :: placed) rest where
  perm := by
    have nodup : (node :: rest).Nodup := completes.perm.nodup_iff.mpr (List.nodup_range.filter _)
    have fresh := (List.nodup_cons.mp nodup).1
    have others : (node :: rest).filter (fun other => other ≠ node) = rest := by
      rw [List.filter_cons_of_neg (by simp)]
      exact List.filter_eq_self.mpr fun other inside => decide_eq_true fun same => fresh (same ▸ inside)
    rw [unplaced_cons, ← others]
    exact completes.perm.filter _
  apart := (List.pairwise_cons.mp completes.apart).2

theorem stillWaiting_ascending (g : Graph) (placed : List Nat) :
    (g.stillWaiting placed).Pairwise fun a b => a.1 < b.1 :=
  List.pairwise_map.mpr (List.pairwise_lt_range.filter _)

theorem le_of_ready {first : Nat × List Nat}
    (found : (g.stillWaiting placed).find? (fun entry => entry.2.isEmpty) = some first)
    (ready : (node, []) ∈ g.stillWaiting placed) : first.1 ≤ node := by
  obtain ⟨-, front, back, split, stuck⟩ := List.find?_eq_some_iff_append.mp found
  have ascending := g.stillWaiting_ascending placed
  rw [split] at ready ascending
  have behind := (List.pairwise_append.mp ascending).2.1
  rcases List.mem_append.mp ready with before | after
  next => exact absurd (stuck _ before) (by simp)
  next =>
    rcases List.mem_cons.mp after with same | later
    next => exact Nat.le_of_eq (congrArg Prod.fst same).symm
    next => exact Nat.le_of_lt ((List.pairwise_cons.mp behind).1 _ later)

theorem drain_least {rank : Nat → Nat} (ranked : g.Ranked rank) {steps : Nat}
    (completes : g.Completes placed rest) (enough : rest.length ≤ steps) :
    rest = (drain steps (g.stillWaiting placed)).1 ∨
      List.Lex (· < ·) (drain steps (g.stillWaiting placed)).1 rest := by
  induction rest generalizing placed steps with
  | nil =>
    have nothing : g.stillWaiting placed = [] := by
      rw [stillWaiting, List.nil_perm.mp completes.perm, List.map_nil]
    left
    rw [nothing]
    cases steps with
    | zero => rfl
    | succ steps => rfl
  | cons node rest ih =>
    cases steps with
    | zero => simp at enough
    | succ steps =>
      have ready := completes.ready ranked
      cases found : (g.stillWaiting placed).find? fun entry => entry.2.isEmpty with
      | none => simpa using List.find?_eq_none.mp found _ ready
      | some first =>
        have least := le_of_ready found ready
        simp only [drain, found, release_stillWaiting]
        rcases Nat.lt_or_eq_of_le least with less | same
        next => exact .inr (.rel less)
        next =>
          rw [same]
          exact (ih completes.tail (Nat.le_of_succ_le_succ enough)).imp (congrArg _) .cons

end Completes

theorem plainOrder_least {g : Graph} (built : g.Built) :
    (∃ order, g.plainOrder = .ok order ∧ g.Linear order ∧
      ∀ other, g.Linear other → other = order ∨ List.Lex (· < ·) order other) ∧
    ((∀ producer consumer, g.hasEdge producer consumer = true → producer < consumer) →
      g.plainOrder = .ok (List.range g.size)) := by
  obtain ⟨rank, ranked⟩ := built.ranked
  obtain ⟨order, sorted, linear⟩ := plainOrder_linear built
  have drained : (drain g.size g.waiting).1 = order := by
    simp only [plainOrder_eq] at sorted
    split at sorted
    next => exact Except.ok.inj sorted
    next => simp at sorted
  have least (other : List Nat) (linear : g.Linear other) :
      other = order ∨ List.Lex (· < ·) order other := by
    have first := drain_least ranked linear.completes (Nat.le_of_eq linear.length)
    rwa [← waiting_eq, drained] at first
  refine ⟨⟨order, sorted, linear, least⟩, fun forward => ?_⟩
  have numbered : g.Ranked id := fun a b edge => forward a b (hasEdge_iff.mpr edge)
  have inOrder : g.Linear (List.range g.size) :=
    linear_of_pairwise numbered (fun _ _ => built.valid) List.nodup_range (fun _ => List.mem_range)
      (List.pairwise_lt_range.imp fun less edge => Nat.lt_asymm less (numbered _ _ edge))
  -- The numbers in ascending order come before every other order of them, the plain one included.
  have same : order = List.range g.size := by
    rcases eq_or_lex_of_ascending List.pairwise_lt_range linear.perm with same | before
    next => exact same
    next =>
      rcases least _ inOrder with same | after
      next => exact same.symm
      next => exact absurd after (List.lex_asymm Nat.lt_asymm before)
  rw [sorted, same]

theorem plainOrder_least_fork :
    let fork := ((empty 3).setLabel 2 0 .empty).setLabel 2 1 .empty
    let link := (empty 3).setLabel 0 2 .empty
    (fork.Built ∧ fork.plainOrder = .ok [2, 0, 1] ∧
      ∀ other, fork.Linear other → other = [2, 0, 1] ∨ List.Lex (· < ·) [2, 0, 1] other) ∧
    link.Built ∧ (∀ producer consumer, link.hasEdge producer consumer = true → producer < consumer) ∧
      link.plainOrder = .ok (List.range 3) := by
  intro fork link
  constructor
  next =>
    have first : (empty 3).addEdge 2 0 .empty = .ok ((empty 3).setLabel 2 0 .empty) := by
      decide +kernel
    have second : ((empty 3).setLabel 2 0 .empty).addEdge 2 1 .empty = .ok fork := by decide +kernel
    have built : fork.Built := .addEdge (.addEdge (.isolated 3) first) second
    have evaluated : fork.plainOrder = .ok [2, 0, 1] := by decide +kernel
    obtain ⟨⟨order, sorted, -, least⟩, -⟩ := plainOrder_least built
    obtain rfl : [2, 0, 1] = order := Except.ok.inj (evaluated.symm.trans sorted)
    exact ⟨built, sorted, least⟩
  next =>
    have added : (empty 3).addEdge 0 2 .empty = .ok link := by decide +kernel
    have built : link.Built := .addEdge (.isolated 3) added
    have forward (producer consumer : Nat) (edge : link.hasEdge producer consumer = true) :
        producer < consumer := by
      rcases (leads_setLabel (by decide)).mp (hasEdge_iff.mp edge) with none_ | ⟨rfl, rfl⟩
      next => exact absurd none_ (not_leads_empty 3 producer consumer)
      next => decide
    exact ⟨built, forward, (plainOrder_least built).2 forward⟩

end Graph

end StoragePlan
