import StoragePlan.Proofs.Graph.Built

set_option autoImplicit false

namespace StoragePlan

def Cyclic (leads : Nat → Nat → Prop) : Prop := ∃ node, Relation.TransGen leads node node

section Relations

variable {leads more : Nat → Nat → Prop} {producer consumer : Nat}

theorem Cyclic.mono (further : ∀ a b, leads a b → more a b) (cyclic : Cyclic leads) : Cyclic more := by
  obtain ⟨node, cycle⟩ := cyclic
  exact ⟨node, Relation.TransGen.mono further node node cycle⟩

-- A path along the new edge needs it only once.
theorem path_with_edge (new : ∀ a b, more a b ↔ leads a b ∨ a = producer ∧ b = consumer) {a b : Nat}
    (path : Relation.TransGen more a b) : Relation.TransGen leads a b ∨
      Relation.ReflTransGen leads a producer ∧ Relation.ReflTransGen leads consumer b := by
  have append {m c : Nat} (edge : more m c) (before : Relation.ReflTransGen leads a m ∨
      Relation.ReflTransGen leads a producer ∧ Relation.ReflTransGen leads consumer m) :
      Relation.TransGen leads a c ∨
        Relation.ReflTransGen leads a producer ∧ Relation.ReflTransGen leads consumer c := by
    rcases (new m c).mp edge with old | ⟨rfl, rfl⟩
    next => exact before.imp (.tail' · old) fun ⟨first, second⟩ => ⟨first, second.tail old⟩
    next => exact .inr ⟨before.elim id And.left, .refl⟩
  induction path with
  | single edge => exact append edge (.inl .refl)
  | tail _ edge ih => exact append edge (ih.imp_left Relation.TransGen.to_reflTransGen)

theorem cyclic_with_edge (new : ∀ a b, more a b ↔ leads a b ∨ a = producer ∧ b = consumer) :
    Cyclic more ↔ Cyclic leads ∨ Relation.ReflTransGen leads consumer producer := by
  have kept (a b : Nat) (edge : leads a b) : more a b := (new a b).mpr (.inl edge)
  constructor
  next =>
    rintro ⟨node, cycle⟩
    rcases path_with_edge new cycle with old | ⟨first, second⟩
    next => exact .inl ⟨node, old⟩
    next => exact .inr (second.trans first)
  next =>
    rintro (cyclic | path)
    next => exact cyclic.mono kept
    next =>
      have back : Relation.ReflTransGen more consumer producer :=
        Relation.ReflTransGen.mono kept _ _ path
      exact ⟨producer, .head' ((new _ _).mpr (.inr ⟨rfl, rfl⟩)) back⟩

end Relations

def Linked (edges : List Edge) (producer consumer : Nat) : Prop :=
  ∃ edge ∈ edges, edge.producer = producer ∧ edge.consumer = consumer

instance (edges : List Edge) (producer consumer : Nat) : Decidable (Linked edges producer consumer) :=
  inferInstanceAs (Decidable (∃ edge ∈ edges, edge.producer = producer ∧ edge.consumer = consumer))

theorem linked_concat (edges : List Edge) (edge : Edge) (a b : Nat) :
    Linked (edges ++ [edge]) a b ↔ Linked edges a b ∨ a = edge.producer ∧ b = edge.consumer := by
  simp only [Linked, List.mem_append, List.mem_singleton, or_and_right, exists_or, exists_eq_left]
  exact or_congr_right (and_congr eq_comm eq_comm)

namespace Graph

theorem Ranked.acyclic {g : Graph} {rank : Nat → Nat} (ranked : g.Ranked rank) : ¬ Cyclic g.Leads := by
  rintro ⟨node, cycle⟩
  have rising {a b : Nat} (path : Relation.TransGen g.Leads a b) : rank a < rank b := by
    induction path with
    | single edge => exact ranked _ _ edge
    | tail _ edge ih => exact Nat.lt_trans ih (ranked _ _ edge)
  exact Nat.lt_irrefl _ (rising cycle)

theorem Built.acyclic {g : Graph} (built : g.Built) : ¬ Cyclic g.Leads := by
  obtain ⟨rank, ranked⟩ := built.ranked
  exact ranked.acyclic

theorem leads_iff_label {g : Graph} {producer consumer : Nat} :
    g.Leads producer consumer ↔ ∃ label, g.label? producer consumer = some label := by
  rw [← hasEdge_iff, hasEdge, Option.isSome_iff_exists]

section Adding

variable {g : Graph} {producer consumer : Nat} (blobs : Names)

theorem addEdge_known {label : Names} (known : g.label? producer consumer = some label) :
    g.addEdge producer consumer blobs =
      .ok (g.setLabel producer consumer (label.union blobs)) := by
  simp [addEdge, known]

variable (built : g.Built) (first : producer < g.size) (second : consumer < g.size)
  (new : ¬ g.Leads producer consumer)

include built first second new

theorem addEdge_refused (path : Relation.ReflTransGen g.Leads consumer producer) :
    g.addEdge producer consumer blobs = .error (.closesCycle producer consumer blobs) := by
  have unlabelled : g.label? producer consumer = none := by
    simpa [leads_iff_label, Option.eq_none_iff_forall_ne_some] using new
  have found := (reaches_iff (fun _ _ => built.valid) second).mpr path
  simp [addEdge, unlabelled, Nat.not_le_of_lt first, Nat.not_le_of_lt second, found]

theorem addEdge_taken (noPath : ¬ Relation.ReflTransGen g.Leads consumer producer) :
    g.addEdge producer consumer blobs = .ok (g.setLabel producer consumer blobs) := by
  have unlabelled : g.label? producer consumer = none := by
    simpa [leads_iff_label, Option.eq_none_iff_forall_ne_some] using new
  have different : producer ≠ consumer := fun same => noPath (same ▸ .refl)
  have unfound : g.reaches consumer producer = false := by
    rw [← Bool.not_eq_true, reaches_iff (fun _ _ => built.valid) second]
    exact noPath
  simp [addEdge, unlabelled, different, Nat.not_le_of_lt first, Nat.not_le_of_lt second, unfound]

end Adding

end Graph

end StoragePlan
