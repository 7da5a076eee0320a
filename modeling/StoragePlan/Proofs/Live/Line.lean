import StoragePlan.Proofs.Outcome

set_option autoImplicit false

namespace StoragePlan

section Ranges

variable {ops : List Op} {table : LiveTable} {blob : String} {range : LiveRange}

theorem LiveTable.exists_ofOps_iff {sizes : Option Sizes} :
    (∃ table : LiveTable, LiveTable.ofOps sizes ops = .ok table) ↔
      ∀ op ∈ ops, ∀ blob ∈ op.operands, lacks sizes blob = false := by
  have given : (ops.flatMap Op.operands).find? (lacks sizes) = none ↔
      ∀ op ∈ ops, ∀ blob ∈ op.operands, lacks sizes blob = false := by
    simp only [List.find?_eq_none, List.mem_flatMap, forall_exists_index, and_imp, Bool.not_eq_true]
    exact forall_comm.trans (forall_congr' fun op => forall_comm)
  have outcome := ofOps_outcome sizes ops
  rw [← given]
  cases missing : (ops.flatMap Op.operands).find? (lacks sizes) with
  | none =>
    rw [missing] at outcome
    exact iff_of_true outcome rfl
  | some blob =>
    rw [missing] at outcome
    simp [outcome]

variable (covers : table.Covers (accesses ops)) (known : table.get? blob = some range)

include covers known

theorem LiveTable.Covers.defined_iff :
    (∃ start, range.defined = some start) ↔ ∃ position, WrittenAt ops blob position := by
  constructor
  next =>
    intro given
    obtain ⟨start, defined⟩ := given
    obtain ⟨position, -, access⟩ := (covers.ranges blob range known).defined start defined
    exact ⟨position, mem_accesses_write.mp access⟩
  next =>
    intro given
    obtain ⟨position, written⟩ := given
    obtain ⟨start, defined, -⟩ :=
      (covers.ranges blob range known).written position (mem_accesses_write.mpr written)
    exact ⟨start, defined⟩

theorem LiveTable.Covers.used_iff :
    (∃ final, range.used = some final) ↔ ∃ position, ReadAt ops blob position := by
  constructor
  next =>
    intro given
    obtain ⟨final, used⟩ := given
    obtain ⟨position, -, access⟩ := (covers.ranges blob range known).used final used
    exact ⟨position, mem_accesses_read.mp access⟩
  next =>
    intro given
    obtain ⟨position, read⟩ := given
    obtain ⟨final, used, -⟩ :=
      (covers.ranges blob range known).read position (mem_accesses_read.mpr read)
    exact ⟨final, used⟩

variable (sorted : WritesFirst ops)

include sorted

theorem LiveTable.Covers.defined_le_read {start : Int} (defined : range.defined = some start)
    {position : Nat} (read : ReadAt ops blob position) : start ≤ position := by
  obtain ⟨writer, rfl, access⟩ := (covers.ranges blob range known).defined start defined
  exact Int.ofNat_le.mpr (sorted.le (mem_accesses_write.mp access) read)

theorem LiveTable.Covers.within {start final : Int} (defined : range.defined = some start)
    (used : range.used = some final) {position : Nat}
    (accessed : ReadAt ops blob position ∨ WrittenAt ops blob position) :
    start ≤ position ∧ position ≤ final := by
  have spans := covers.ranges blob range known
  cases accessed with
  | inl read =>
    obtain ⟨last, same, bound⟩ := spans.read position (mem_accesses_read.mpr read)
    obtain rfl := Option.some.inj (used.symm.trans same)
    exact ⟨covers.defined_le_read known sorted defined read, bound⟩
  | inr written =>
    obtain ⟨first, same, bound⟩ := spans.written position (mem_accesses_write.mpr written)
    obtain rfl := Option.some.inj (defined.symm.trans same)
    exact ⟨bound, covers.written_le_used sorted written known used⟩

end Ranges

structure LiveTable.Brackets (table : LiveTable) (line : List Op) : Prop where
  listed : ∀ blob, (∃ range, table.get? blob = some range) ↔
    ∃ position, ReadAt line blob position ∨ WrittenAt line blob position
  defined : ∀ blob range, table.get? blob = some range →
    ((∃ start, range.defined = some start) ↔ ∃ position, WrittenAt line blob position)
  used : ∀ blob range, table.get? blob = some range →
    ((∃ final, range.used = some final) ↔ ∃ position, ReadAt line blob position)
  within : ∀ blob range, table.get? blob = some range →
    ∀ start final, range.defined = some start → range.used = some final →
      start ≤ final ∧ ∀ position : Nat, ReadAt line blob position ∨ WrittenAt line blob position →
        start ≤ position ∧ position ≤ final

theorem linearize_live_ranges {ops : List Op} {g : Graph} (built : Graph.ofOps ops = .ok g)
    (strategy : Strategy) :
    ∃ order line, g.linearize strategy = .ok order ∧ reorderOps ops order = .ok line ∧
      (∀ blob writer reader, WrittenAt line blob writer → ReadAt line blob reader →
        writer ≠ reader → writer < reader) ∧
      ∀ sizes,
        ((∃ table : LiveTable, LiveTable.ofOps sizes line = .ok table) ↔
          ∀ op ∈ ops, ∀ blob ∈ op.operands, lacks sizes blob = false) ∧
        ∀ table : LiveTable, LiveTable.ofOps sizes line = .ok table → table.Brackets line := by
  obtain ⟨order, line, found, linear, brought, perm⟩ := linearize_brought built strategy
  have sorted : WritesFirst line := linear.writesFirst built brought
  refine ⟨order, line, found, brought, sorted, fun sizes => ⟨?computed, fun table computed => ?_⟩⟩
  case computed => simp only [LiveTable.exists_ofOps_iff, perm.mem_iff]
  have covers := LiveTable.covers_ofOps computed
  refine ⟨fun blob => covers.exists_get?, fun blob range known => covers.defined_iff known,
    fun blob range known => covers.used_iff known, fun blob range known start final defined used => ?_⟩
  have within (position : Nat) (accessed : ReadAt line blob position ∨ WrittenAt line blob position) :
      start ≤ position ∧ position ≤ final :=
    covers.within known sorted defined used accessed
  obtain ⟨reader, read⟩ := (covers.used_iff known).mp ⟨final, used⟩
  have ⟨low, high⟩ := within reader (.inl read)
  exact ⟨Int.le_trans low high, within⟩

theorem linearize_live_ranges_in_place :
    let ops : List Op := [⟨"Show", ["x"], ["y"], []⟩, ⟨"Fill", [], ["x"], []⟩, ⟨"Scale", ["x"], ["x"], []⟩]
    ∃ g order line table, Graph.ofOps ops = .ok g ∧ g.linearize .plain = .ok order ∧
      reorderOps ops order = .ok line ∧ LiveTable.ofOps none line = .ok table ∧
      table.get? "x" = some ⟨some 0, some 2, none⟩ ∧
      (∀ writer, WrittenAt line "x" writer → writer ≠ 2 → writer < 2) ∧
      ∀ position : Nat, ReadAt line "x" position ∨ WrittenAt line "x" position →
        0 ≤ (position : Int) ∧ (position : Int) ≤ 2 := by
  intro ops
  obtain ⟨⟨g, order, line, table⟩, evaluated, view⟩ : ∃ result : Graph × List Nat × List Op × LiveTable,
      (do
        let g ← Graph.ofOps ops
        let order ← g.linearize .plain
        let line ← reorderOps ops order
        let table ← LiveTable.ofOps none line
        return (g, order, line, table)) = .ok result ∧
      (result.2.2.1[2]?.map (·.inputs), result.2.2.2.get? "x") =
        (some ["x"], some ⟨some 0, some 2, none⟩) :=
    exists_ok_of_view (by decide +kernel)
  obtain ⟨g', built, evaluated⟩ := bind_eq_ok.mp evaluated
  obtain ⟨order', sorted, evaluated⟩ := bind_eq_ok.mp evaluated
  obtain ⟨line', brought, evaluated⟩ := bind_eq_ok.mp evaluated
  obtain ⟨table', computed, evaluated⟩ := bind_eq_ok.mp evaluated
  obtain ⟨rfl, rfl, rfl, rfl⟩ : g' = g ∧ order' = order ∧ line' = line ∧ table' = table := by
    simpa [pure, Except.pure] using evaluated
  obtain ⟨last, known⟩ := Prod.mk.inj view
  obtain ⟨order, line, sorted', brought', first, ranges⟩ := linearize_live_ranges built .plain
  obtain rfl := Except.ok.inj (sorted.symm.trans sorted')
  obtain rfl := Except.ok.inj (brought.symm.trans brought')
  obtain ⟨reader, here, inputs⟩ := Option.map_eq_some_iff.mp last
  have reads : ReadAt line' "x" 2 := ⟨reader, here, by simp [inputs]⟩
  have enclosed := ((ranges none).2 table' computed).within "x" _ known
  exact ⟨g', order', line', table', built, sorted, brought, computed, known,
    fun writer written => first "x" writer 2 written reads, (enclosed 0 2 rfl rfl).2⟩

end StoragePlan
