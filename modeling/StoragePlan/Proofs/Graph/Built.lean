import StoragePlan.Proofs.Graph.Edges

set_option autoImplicit false

namespace StoragePlan.Graph

inductive Built : Graph → Prop
  | isolated (size : Nat) : Built (empty size)
  | addEdge {g g' : Graph} {producer consumer : Nat} {blobs : Names} (built : Built g)
      (added : g.addEdge producer consumer blobs = .ok g') : Built g'

def Ranked (g : Graph) (rank : Nat → Nat) : Prop :=
  ∀ producer consumer, g.Leads producer consumer → rank producer < rank consumer

theorem addEdge_cases {g g' : Graph} {producer consumer : Nat} {blobs : Names}
    (added : g.addEdge producer consumer blobs = .ok g') :
    ∃ label, g' = g.setLabel producer consumer label ∧ producer < g.size ∧
      (g.Leads producer consumer ∨ consumer < g.size ∧ g.reaches consumer producer = false) := by
  unfold addEdge at added
  split at added
  next known present =>
    have edge : g.Leads producer consumer := hasEdge_iff.mp (by simp [hasEdge, present])
    exact ⟨_, (Except.ok.inj added).symm, edge.inside, .inl edge⟩
  next =>
    split at added
    next => simp at added
    next =>
      split at added
      next => simp at added
      next consumerInside =>
        split at added
        next => simp at added
        next producerInside =>
          split at added
          next => simp at added
          next unreached =>
            exact ⟨_, (Except.ok.inj added).symm, Nat.lt_of_not_le producerInside,
              .inr ⟨Nat.lt_of_not_le consumerInside, by simpa using unreached⟩⟩

theorem size_addEdge {g g' : Graph} {producer consumer : Nat} {blobs : Names}
    (added : g.addEdge producer consumer blobs = .ok g') : g'.size = g.size := by
  obtain ⟨label, rfl, -⟩ := addEdge_cases added
  exact size_setLabel g producer consumer label

theorem leads_addEdge {g g' : Graph} {producer consumer : Nat} {blobs : Names}
    (added : g.addEdge producer consumer blobs = .ok g') {a b : Nat} :
    g'.Leads a b ↔ g.Leads a b ∨ a = producer ∧ b = consumer := by
  obtain ⟨label, rfl, inside, -⟩ := addEdge_cases added
  exact leads_setLabel inside

theorem Built.valid {g : Graph} (built : g.Built) {producer consumer : Nat}
    (edge : g.Leads producer consumer) : consumer < g.size := by
  induction built generalizing producer consumer with
  | isolated size => exact absurd edge (not_leads_empty size producer consumer)
  | addEdge built added ih =>
    rw [size_addEdge added]
    rcases (leads_addEdge added).mp edge with old | ⟨rfl, rfl⟩
    next => exact ih old
    next =>
      obtain ⟨-, -, -, known | ⟨inside, -⟩⟩ := addEdge_cases added
      next => exact ih known
      next => exact inside

theorem Ranked.addEdge {g g' : Graph} {rank : Nat → Nat} {producer consumer : Nat} {blobs : Names}
    (ranked : g.Ranked rank) (valid : ∀ a b, g.Leads a b → b < g.size)
    (added : g.addEdge producer consumer blobs = .ok g') : ∃ rank', g'.Ranked rank' := by
  -- What the consumer of a new edge leads to is ranked behind the producer.
  classical
  obtain ⟨-, -, -, known | ⟨inside, unreached⟩⟩ := addEdge_cases added
  next =>
    refine ⟨rank, fun a b edge => ?_⟩
    rcases (leads_addEdge added).mp edge with old | ⟨rfl, rfl⟩
    next => exact ranked a b old
    next => exact ranked a b known
  next =>
    let behind (node : Nat) : Prop := Relation.ReflTransGen g.Leads consumer node
    -- The producer keeps its rank, since no path leads from the consumer back to it.
    have apart : ¬ behind producer := by
      intro path
      simp [reaches_of_path valid inside path] at unreached
    refine ⟨fun node => if behind node then rank node + rank producer + 1 else rank node, ?_⟩
    intro a b edge
    rcases (leads_addEdge added).mp edge with old | ⟨rfl, rfl⟩
    next =>
      have less := ranked a b old
      by_cases reached : behind a
      next =>
        have further : behind b := reached.tail old
        simp only [reached, further, if_true]
        omega
      next => by_cases further : behind b <;> simp only [reached, further, if_true, if_false] <;> omega
    next =>
      have here : behind b := .refl
      simp only [apart, here, if_true, if_false]
      omega

theorem Built.ranked {g : Graph} (built : g.Built) : ∃ rank, g.Ranked rank := by
  induction built with
  | isolated size => exact ⟨id, fun a b edge => absurd edge (not_leads_empty size a b)⟩
  | addEdge built added ih =>
    obtain ⟨rank, ranked⟩ := ih
    exact ranked.addEdge (fun _ _ => built.valid) added

end StoragePlan.Graph
