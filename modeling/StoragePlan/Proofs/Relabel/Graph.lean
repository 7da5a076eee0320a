import StoragePlan.Proofs.Graph.Labels
import StoragePlan.Proofs.Ascending
import StoragePlan.Proofs.Rename

set_option autoImplicit false

namespace StoragePlan

section Relabel

variable (ρ : String → String)

def Names.relabel (names : Names) : Names := .ofList (names.toList.map ρ)

def Net.relabel (net : Net) : Net := { net with ops := net.ops.map (Op.relabel ρ) }

def Edge.relabel (edge : Edge) : Edge := { edge with blobs := edge.blobs.relabel ρ }

def PlanError.relabel : PlanError → PlanError
  | .closesCycle producer consumer blobs => .closesCycle producer consumer (blobs.relabel ρ)
  | .missingSize blob => .missingSize (ρ blob)
  | .shapeMismatch what expected actual => .shapeMismatch what expected actual
  | .unsupportedNesting opType arg => .unsupportedNesting opType arg
  | .overlap earlier later => .overlap (ρ earlier) (ρ later)
  | .noSuchNode node => .noSuchNode node

def relabelOutcome {α β : Type} (f : α → β) : Except PlanError α → Except PlanError β
  | .ok result => .ok (f result)
  | .error error => .error (error.relabel ρ)

end Relabel

section Outcome

variable {ρ : String → String} {α α' β β' : Type}

@[simp] theorem relabelOutcome_ok (f : α → β) (result : α) :
    relabelOutcome ρ f (.ok result) = .ok (f result) := rfl

@[simp] theorem relabelOutcome_error (f : α → β) (error : PlanError) :
    relabelOutcome ρ f (.error error : Except PlanError α) = .error (error.relabel ρ) := rfl

theorem relabelOutcome_bind {f : α → α'} {g : β → β'} {outcome : Except PlanError α}
    {outcome' : Except PlanError α'} {next : α → Except PlanError β} {next' : α' → Except PlanError β'}
    (first : outcome' = relabelOutcome ρ f outcome)
    (later : ∀ result, outcome = .ok result → next' (f result) = relabelOutcome ρ g (next result)) :
    outcome' >>= next' = relabelOutcome ρ g (outcome >>= next) := by
  rw [first]
  cases outcome with
  | error error => rfl
  | ok result => exact later result rfl

theorem relabelOutcome_foldlM {f : α → α'} {g : β → β'} {next : β → α → Except PlanError β}
    {next' : β' → α' → Except PlanError β'}
    (same : ∀ start item, next' (g start) (f item) = relabelOutcome ρ g (next start item))
    (items : List α) (start : β) :
    (items.map f).foldlM next' (g start) = relabelOutcome ρ g (items.foldlM next start) := by
  induction items generalizing start with
  | nil => rfl
  | cons item rest ih =>
    rw [List.map_cons, List.foldlM_cons, List.foldlM_cons]
    exact relabelOutcome_bind (same start item) fun later _ => ih later

end Outcome

theorem checkCount_relabel (ρ : String → String) (what : Quantity) (expected actual : Nat) :
    checkCount what expected actual = relabelOutcome ρ id (checkCount what expected actual) := by
  unfold checkCount
  split
  next => rfl
  next => rfl

theorem Names.mem_relabel {ρ : String → String} {names : Names} {name : String} :
    name ∈ (names.relabel ρ).toList ↔ ∃ blob ∈ names.toList, ρ blob = name := by
  rw [relabel, mem_ofList, List.mem_map]

theorem Names.relabel_union (ρ : String → String) (a b : Names) :
    (a.union b).relabel ρ = (a.relabel ρ).union (b.relabel ρ) := by
  rw [ext_iff]
  intro name
  simp only [mem_relabel, mem_union, or_and_right, exists_or]

theorem Names.relabel_eq_nil_iff {ρ : String → String} {names : Names} :
    (names.relabel ρ).toList = [] ↔ names.toList = [] := by
  simp [List.eq_nil_iff_forall_not_mem, mem_relabel]

theorem contains_map {ρ : String → String} (injective : Function.Injective ρ) (names : List String)
    (name : String) : (names.map ρ).contains (ρ name) = names.contains name := by
  simp [injective.eq_iff]

theorem modify_map {α β : Type} {f : α → β} {change : α → α} {change' : β → β}
    (same : ∀ item, change' (f item) = f (change item)) (items : List α) (index : Nat) :
    (items.map f).modify index change' = (items.modify index change).map f := by
  induction items generalizing index with
  | nil => simp
  | cons item rest ih =>
    cases index with
    | zero => simp [same]
    | succ index => simp [ih]

namespace Table

variable {κ ν μ : Type} [LT κ]

def mapValues (f : ν → μ) (t : Table κ ν) : Table κ μ :=
  ⟨t.entries.map fun entry => (entry.1, f entry.2), List.pairwise_map.mpr t.ascending⟩

@[simp] theorem mapValues_empty (f : ν → μ) : (empty : Table κ ν).mapValues f = empty := rfl

@[simp] theorem keys_mapValues (f : ν → μ) (t : Table κ ν) : (t.mapValues f).keys = t.keys := by
  simp [keys, mapValues]

theorem get?_mapValues [DecidableEq κ] (f : ν → μ) (t : Table κ ν) (key : κ) :
    (t.mapValues f).get? key = (t.get? key).map f := by
  simp [get?, mapValues, List.find?_map, Function.comp_def]

theorem putEntry_mapValues [DecidableLT κ] (f : ν → μ) (key : κ) (value : ν) (entries : List (κ × ν)) :
    putEntry key (f value) (entries.map fun entry => (entry.1, f entry.2)) =
      (putEntry key value entries).map fun entry => (entry.1, f entry.2) := by
  induction entries with
  | nil => rfl
  | cons entry rest ih =>
    simp only [List.map_cons, putEntry, ih]
    split
    next => rfl
    next => split <;> rfl

theorem put_mapValues [DecidableLT κ] [LE κ] [Std.IsLinearOrder κ] [Std.LawfulOrderLT κ] (f : ν → μ)
    (t : Table κ ν) (key : κ) (value : ν) :
    (t.put key value).mapValues f = (t.mapValues f).put key (f value) := by
  simp only [put, mapValues, putEntry_mapValues]

end Table

namespace Graph

def relabel (ρ : String → String) (g : Graph) : Graph := ⟨g.rows.map (Table.mapValues (Names.relabel ρ))⟩

section Relabel

variable (ρ : String → String) (g : Graph)

@[simp] theorem size_relabel : (g.relabel ρ).size = g.size := by
  simp [relabel, size]

@[simp] theorem nodes_relabel : (g.relabel ρ).nodes = g.nodes := by
  rw [nodes, size_relabel, nodes]

theorem row_relabel (node : Nat) : (g.relabel ρ).row node = (g.row node).mapValues (Names.relabel ρ) := by
  rw [row, row, relabel, List.getElem?_map]
  cases g.rows[node]? with
  | none => rfl
  | some row => rfl

@[simp] theorem successors_relabel (node : Nat) : (g.relabel ρ).successors node = g.successors node := by
  rw [successors, row_relabel, Table.keys_mapValues, successors]

@[simp] theorem label?_relabel (producer consumer : Nat) :
    (g.relabel ρ).label? producer consumer = (g.label? producer consumer).map (Names.relabel ρ) := by
  rw [label?, row_relabel, Table.get?_mapValues, label?]

@[simp] theorem hasEdge_relabel (producer consumer : Nat) :
    (g.relabel ρ).hasEdge producer consumer = g.hasEdge producer consumer := by
  simp [hasEdge]

@[simp] theorem predecessors_relabel (node : Nat) :
    (g.relabel ρ).predecessors node = g.predecessors node := by
  simp [predecessors]

@[simp] theorem sources_relabel : (g.relabel ρ).sources = g.sources := by
  simp [sources]

@[simp] theorem sinks_relabel : (g.relabel ρ).sinks = g.sinks := by
  simp [sinks]

theorem explore_relabel (seen pending : List Nat) :
    (g.relabel ρ).explore seen pending = g.explore seen pending := by
  fun_induction g.explore seen pending with
  | case1 seen => simp [explore]
  | case2 seen node pending known ih => simp [explore, known, ih]
  | case3 seen node pending new ih => simpa [explore, new] using ih

@[simp] theorem reaches_relabel (start target : Nat) :
    (g.relabel ρ).reaches start target = g.reaches start target := by
  rw [reaches, explore_relabel, reaches]

theorem setLabel_relabel (producer consumer : Nat) (blobs : Names) :
    (g.setLabel producer consumer blobs).relabel ρ =
      (g.relabel ρ).setLabel producer consumer (blobs.relabel ρ) := by
  have same (row : Table Nat Names) : (row.mapValues (Names.relabel ρ)).put consumer (blobs.relabel ρ) =
      (row.put consumer blobs).mapValues (Names.relabel ρ) :=
    (Table.put_mapValues ..).symm
  exact congrArg Graph.mk (modify_map same g.rows producer).symm

theorem addEdge_relabel (producer consumer : Nat) (blobs : Names) :
    (g.relabel ρ).addEdge producer consumer (blobs.relabel ρ) =
      relabelOutcome ρ (relabel ρ) (g.addEdge producer consumer blobs) := by
  unfold addEdge
  rw [label?_relabel]
  cases g.label? producer consumer with
  | some known =>
    simp [setLabel_relabel, Names.relabel_union]
  | none =>
    simp only [Option.map_none, size_relabel, reaches_relabel]
    split
    next => rfl
    next =>
      split
      next => rfl
      next =>
        split
        next => rfl
        next =>
          split
          next => rfl
          next => simp [setLabel_relabel]

end Relabel

end Graph

section Dependencies

variable {ρ : String → String} (injective : Function.Injective ρ)

include injective

theorem handedOver_relabel (producer consumer : Op) :
    handedOver (producer.relabel ρ) (consumer.relabel ρ) = (handedOver producer consumer).relabel ρ := by
  rw [Names.ext_iff]
  intro name
  simp only [handedOver, Op.relabel, Names.mem_relabel, Names.mem_ofList, List.filter_map, List.mem_map,
    Function.comp_def, contains_map injective]

theorem dependencies_relabel (ops : List Op) :
    dependencies (ops.map (Op.relabel ρ)) = (dependencies ops).map (Edge.relabel ρ) := by
  simp only [dependencies, List.zipIdx_map, List.flatMap_map, List.map_flatMap, List.filterMap_map,
    List.map_filterMap]
  congr 1
  funext producer
  congr 1
  funext consumer
  simp only [Function.comp_apply, Prod.map_fst, Prod.map_snd, id, handedOver_relabel injective,
    Names.relabel_eq_nil_iff]
  split
  next => rfl
  next => rfl

theorem Graph.ofOps_relabel (ops : List Op) :
    ofOps (ops.map (Op.relabel ρ)) = relabelOutcome ρ (relabel ρ) (ofOps ops) := by
  have start : empty (ops.map (Op.relabel ρ)).length = (empty ops.length).relabel ρ := by
    simp [empty, relabel]
  rw [ofOps_eq, ofOps_eq, dependencies_relabel injective, start]
  exact relabelOutcome_foldlM (fun g edge => g.addEdge_relabel ρ edge.producer edge.consumer edge.blobs) _ _

end Dependencies

end StoragePlan
