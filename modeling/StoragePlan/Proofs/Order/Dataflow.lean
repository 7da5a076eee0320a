import StoragePlan.Proofs.Order.DepthFirst
import StoragePlan.Proofs.Run.Basic

set_option autoImplicit false

namespace StoragePlan

def writes (ops : List Op) (blob : String) (number : Nat) : Bool :=
  ops[number]?.any fun op => op.outputs.contains blob

def earlierWriters (ops : List Op) (line : List Nat) (blob : String) (reader : Nat) : List Nat :=
  (line.takeWhile (· ≠ reader)).filter (writes ops blob)

def source? (ops : List Op) (line : List Nat) (blob : String) (reader : Nat) : Option Nat :=
  (earlierWriters ops line blob reader).getLast?

section Sources

variable {ops : List Op} {line : List Nat} {blob : String} {reader writer : Nat}

theorem writes_iff : writes ops blob writer = true ↔ WrittenAt ops blob writer := by
  simp [writes, WrittenAt, Option.any_eq_true]

theorem mem_takeWhile_ne {other : Nat} :
    other ∈ line.takeWhile (· ≠ reader) ↔ line.idxOf other < line.idxOf reader := by
  induction line with
  | nil => simp
  | cons head rest ih =>
    by_cases here : head = reader
    next => simp [here]
    next =>
      by_cases same : head = other
      next => simp [same ▸ here, same]
      next =>
        rw [List.idxOf_cons_ne _ same, List.idxOf_cons_ne _ here, Nat.succ_lt_succ_iff, ← ih]
        simp [here, Ne.symm same]

theorem mem_earlierWriters {other : Nat} : other ∈ earlierWriters ops line blob reader ↔
    WrittenAt ops blob other ∧ line.idxOf other < line.idxOf reader := by
  rw [earlierWriters, List.mem_filter, mem_takeWhile_ne, writes_iff, and_comm]

theorem written_of_mem_earlierWriters {other : Nat}
    (member : other ∈ earlierWriters ops line blob reader) : WrittenAt ops blob other ∧ other ≠ reader := by
  obtain ⟨written, before⟩ := mem_earlierWriters.mp member
  refine ⟨written, fun same => ?_⟩
  rw [same] at before
  exact Nat.lt_irrefl _ before

theorem earlierWriters_sublist (ops : List Op) (line : List Nat) (blob : String) (reader : Nat) :
    (earlierWriters ops line blob reader).Sublist line :=
  List.filter_sublist.trans (List.takeWhile_sublist _)

theorem le_of_source? (nodup : line.Nodup) (source : source? ops line blob reader = some writer)
    {other : Nat} (member : other ∈ earlierWriters ops line blob reader) :
    line.idxOf other ≤ line.idxOf writer := by
  obtain ⟨front, split⟩ := List.getLast?_eq_some_iff.mp source
  have sorted := (pairwise_idxOf nodup).sublist (earlierWriters_sublist ops line blob reader)
  rw [split] at sorted member
  cases List.mem_append.mp member with
  | inl inside =>
    exact Nat.le_of_lt ((List.pairwise_append.mp sorted).2.2 other inside writer List.mem_cons_self)
  | inr same => exact Nat.le_of_eq (by rw [List.mem_singleton.mp same])

theorem source?_eq_some (nodup : line.Nodup) : source? ops line blob reader = some writer ↔
    writer ∈ earlierWriters ops line blob reader ∧
      ∀ other ∈ earlierWriters ops line blob reader, line.idxOf other ≤ line.idxOf writer := by
  constructor
  next =>
    intro source
    exact ⟨List.mem_of_getLast? source, fun other member => le_of_source? nodup source member⟩
  next =>
    intro ⟨member, greatest⟩
    cases source : source? ops line blob reader with
    | none => simp [List.getLast?_eq_none_iff.mp source] at member
    | some last =>
      -- Each of the two stands behind the other one.
      have before := le_of_source? nodup source member
      have after := greatest last (List.mem_of_getLast? source)
      have inside := (earlierWriters_sublist ops line blob reader).subset member
      exact congrArg some ((List.idxOf_inj inside).mp (Nat.le_antisymm before after)).symm

end Sources

namespace Graph

section Line

variable {ops : List Op} {g : Graph} {line : List Nat} (planned : ofOps ops = .ok g)
  (linear : g.Linear line) {blob : String} {reader : Nat} (reads : ReadAt ops blob reader)

include planned linear

omit planned in
theorem Linear.le_of_path {a b : Nat} (path : Relation.ReflTransGen g.Leads a b) :
    line.idxOf a ≤ line.idxOf b := by
  induction path with
  | refl => exact Nat.le_refl _
  | tail _ edge ih => exact Nat.le_trans ih (Nat.le_of_lt (linear.forward _ _ (hasEdge_iff.mpr edge)))

include reads

theorem Linear.mem_earlierWriters_iff {writer : Nat} :
    writer ∈ earlierWriters ops line blob reader ↔ WrittenAt ops blob writer ∧ writer ≠ reader := by
  constructor
  next => exact written_of_mem_earlierWriters
  next =>
    intro ⟨written, different⟩
    obtain ⟨producer, here, output⟩ := written
    obtain ⟨consumer, there, input⟩ := reads
    have edge : g.Leads writer reader :=
      (leads_ofOps planned).mpr ⟨different, producer, consumer, here, there, blob, output, input⟩
    have before := linear.forward _ _ (hasEdge_iff.mpr edge)
    exact mem_earlierWriters.mpr ⟨⟨producer, here, output⟩, before⟩

theorem Linear.source?_iff (given : Option Nat)
    (earlier : ∀ last, given = some last → WrittenAt ops blob last ∧ last ≠ reader) :
    source? ops line blob reader = given ↔
      ∀ writer, WrittenAt ops blob writer → writer ≠ reader →
        ∃ last, given = some last ∧ line.idxOf writer ≤ line.idxOf last := by
  have nodup := linear.nodup
  constructor
  next =>
    intro source writer written different
    have member := (linear.mem_earlierWriters_iff planned reads).mpr ⟨written, different⟩
    cases given with
    | none => simp [List.getLast?_eq_none_iff.mp source] at member
    | some last => exact ⟨last, rfl, le_of_source? nodup source member⟩
  next =>
    intro latest
    cases given with
    | none =>
      apply List.getLast?_eq_none_iff.mpr
      apply List.eq_nil_iff_forall_not_mem.mpr
      intro writer member
      have ⟨written, different⟩ := (linear.mem_earlierWriters_iff planned reads).mp member
      simpa using latest writer written different
    | some last =>
      apply (source?_eq_some nodup).mpr
      constructor
      next => exact (linear.mem_earlierWriters_iff planned reads).mpr (earlier last rfl)
      next =>
        intro other member
        have ⟨written, different⟩ := (linear.mem_earlierWriters_iff planned reads).mp member
        obtain ⟨last', same, bound⟩ := latest other written different
        rwa [Option.some.inj same]

end Line

theorem linearize_keeps_source_iff {ops : List Op} {g : Graph} (planned : ofOps ops = .ok g)
    (strategy : Strategy) :
    ∃ line, g.linearize strategy = .ok line ∧ line.Perm (List.range ops.length) ∧
      ∀ blob reader, ReadAt ops blob reader →
        let given := source? ops (List.range ops.length) blob reader
        (source? ops line blob reader = given ↔
          ∀ writer, WrittenAt ops blob writer → writer ≠ reader →
            ∃ last, given = some last ∧ line.idxOf writer ≤ line.idxOf last) ∧
        ((∀ writer, WrittenAt ops blob writer → writer ≠ reader →
            ∃ last, given = some last ∧ Relation.ReflTransGen g.Leads writer last) →
          source? ops line blob reader = given) := by
  obtain ⟨line, sorted, linear⟩ := linearize_linear (built_ofOps planned) strategy
  have perm := linear.perm
  rw [nodes, size_ofOps planned] at perm
  refine ⟨line, sorted, perm, fun blob reader reads => ?_⟩
  have earlier (last : Nat) (source : source? ops (List.range ops.length) blob reader = some last) :
      WrittenAt ops blob last ∧ last ≠ reader :=
    written_of_mem_earlierWriters (List.mem_of_getLast? source)
  have latest := linear.source?_iff planned reads _ earlier
  refine ⟨latest, fun chained => latest.mpr fun writer written different => ?_⟩
  obtain ⟨last, source, path⟩ := chained writer written different
  exact ⟨last, source, linear.le_of_path path⟩

theorem linearize_keeps_source_iff_inPlace :
    let ops : List Op := [⟨"Fill", [], ["x"], []⟩, ⟨"Scale", ["x"], ["x"], []⟩, ⟨"Print", ["x"], [], []⟩]
    ∃ g line, ofOps ops = .ok g ∧ g.linearize .longestPath = .ok line ∧
      ReadAt ops "x" 2 ∧ source? ops line "x" 2 = some 1 := by
  intro ops
  obtain ⟨g, planned, edge⟩ : ∃ g, ofOps ops = .ok g ∧ g.hasEdge 0 1 = true :=
    exists_ok_of_view (by decide +kernel)
  have reads : ReadAt ops "x" 2 := ⟨⟨"Print", ["x"], [], []⟩, rfl, by simp⟩
  have given : source? ops (List.range ops.length) "x" 2 = some 1 := by decide +kernel
  obtain ⟨line, sorted, -, sources⟩ := linearize_keeps_source_iff planned .longestPath
  refine ⟨g, line, planned, sorted, reads, ?_⟩
  rw [(sources "x" 2 reads).2, given]
  intro writer written different
  refine ⟨1, given, ?_⟩
  -- The writers are the first two operations, and a dependency leads from one to the other.
  obtain ⟨op, here, output⟩ := written
  rcases writer with _ | _ | _ | writer
  next => exact .single (hasEdge_iff.mp edge)
  next => exact .refl
  next => exact absurd rfl different
  next => simp [ops] at here

/-- The update comes last. It writes what the reader reads, so in line it goes in front of the reader,
and behind the first writer, whose value it updates. -/
def updatedLater : List Op :=
  [⟨"First", [], ["b"], []⟩, ⟨"Reader", ["b"], [], []⟩, ⟨"Scale", ["b"], ["b"], []⟩]

theorem linearize_moves_source :
    (∀ blob reader, ReadAt updatedLater blob reader →
      (∃ writer < reader, WrittenAt updatedLater blob writer) ∨
        ∀ writer, WrittenAt updatedLater blob writer → writer = reader) ∧
    ReadAt updatedLater "b" 1 ∧
    source? updatedLater (List.range updatedLater.length) "b" 1 = some 0 ∧
    ∃ g, ofOps updatedLater = .ok g ∧ ∀ strategy, ∃ line, g.linearize strategy = .ok line ∧
      source? updatedLater line "b" 1 ≠ some 0 := by
  have reads : ReadAt updatedLater "b" 1 := ⟨⟨"Reader", ["b"], [], []⟩, rfl, by simp⟩
  have written : WrittenAt updatedLater "b" 2 := ⟨⟨"Scale", ["b"], ["b"], []⟩, rfl, by simp⟩
  refine ⟨?runnable, reads, by decide +kernel, ?moved⟩
  case runnable =>
    intro blob reader reads
    obtain ⟨op, here, input⟩ := reads
    rcases reader with _ | _ | _ | reader <;> simp [updatedLater] at here <;> subst here <;>
      simp at input
    all_goals
      subst input
      exact .inl ⟨0, by simp, ⟨"First", [], ["b"], []⟩, rfl, by simp⟩
  case moved =>
    obtain ⟨g, planned, edge⟩ : ∃ g, ofOps updatedLater = .ok g ∧ g.hasEdge 0 2 = true :=
      exists_ok_of_view (by decide +kernel)
    refine ⟨g, planned, fun strategy => ?_⟩
    obtain ⟨line, sorted, linear⟩ := linearize_linear (built_ofOps planned) strategy
    refine ⟨line, sorted, fun source => ?_⟩
    have before := linear.forward 0 2 edge
    have after := le_of_source? linear.nodup source
      ((linear.mem_earlierWriters_iff planned reads).mpr ⟨written, by simp⟩)
    omega

end Graph

end StoragePlan
