import StoragePlan.Gradient.Sharing
import StoragePlan.Proofs.Gradient.Walk
import StoragePlan.Proofs.Rename
import StoragePlan.Proofs.Slot.Naming

set_option autoImplicit false

namespace StoragePlan

def Walk.storages (w : Walk) : List String := (Names.ofList (w.donors.map (·.2))).toList

theorem Walk.mem_storages {w : Walk} {storage : String} :
    storage ∈ w.storages ↔ ∃ blob, (blob, storage) ∈ w.donors := by
  simp [storages, Names.mem_ofList]

theorem mem_sharedStorage {scope : String} {w : Walk} {storage name : String} :
    (storage, name) ∈ sharedStorage scope w ↔
      ∃ index : Nat, w.storages[index]? = some storage ∧ name = sharedName scope index := by
  simp only [sharedStorage, List.mem_map, Prod.exists, List.mem_zipIdx_iff_getElem?, Prod.mk.injEq]
  constructor
  next =>
    rintro ⟨_, index, here, rfl, rfl⟩
    exact ⟨index, here, rfl⟩
  next =>
    rintro ⟨index, here, rfl⟩
    exact ⟨storage, index, here, rfl, rfl⟩

theorem lookup_sharedStorage_eq_none {scope : String} {w : Walk} {blob : String} :
    (sharedStorage scope w).reverse.lookup blob = none ↔ blob ∉ w.storages := by
  have keys : (sharedStorage scope w).map Prod.fst = w.storages := by
    rw [sharedStorage, List.map_map, ← Walk.storages]
    exact List.zipIdx_map_fst 0 _
  rw [← keys, List.lookup_eq_none_iff]
  simp only [List.mem_reverse, bne_iff_ne, List.mem_map, not_exists, not_and]
  exact forall₂_congr fun _ _ => ne_comm

theorem mem_of_lookup {entries : List (String × String)} {key value : String}
    (found : entries.lookup key = some value) : (key, value) ∈ entries := by
  obtain ⟨before, after, split, -⟩ := List.lookup_eq_some_iff.mp found
  rw [split]
  exact List.mem_append_right _ List.mem_cons_self

section Names

variable (scope : String) (w : Walk)

theorem get?_gradientNames (blob : String) :
    (∃ (index : Nat) (storage : String), w.storages[index]? = some storage ∧ w.Holds blob storage ∧
      (gradientNames scope w).get? blob = some (sharedName scope index)) ∨
    (gradientNames scope w).get? blob = none := by
  have get : (gradientNames scope w).get? blob = ((sharedStorage scope w).reverse.lookup blob).or
      ((Table.ofList (takenNames scope w)).get? blob) :=
    Table.get?_putAll _ _ _
  -- A name as an owner of storage goes before a name as a taker.
  cases own : (sharedStorage scope w).reverse.lookup blob with
  | some name =>
    left
    obtain ⟨index, here, rfl⟩ := mem_sharedStorage.mp (List.mem_reverse.mp (mem_of_lookup own))
    exact ⟨index, blob, here, .inl rfl, by simp [get, own]⟩
  | none =>
    cases given : (Table.ofList (takenNames scope w)).get? blob with
    | none => exact .inr (by simp [get, own, given])
    | some name =>
      left
      obtain ⟨⟨_, storage⟩, holds, same⟩ := List.mem_map.mp (Table.mem_of_get?_ofList given)
      obtain ⟨rfl, rfl⟩ := Prod.mk.inj same
      cases found : (sharedStorage scope w).lookup storage with
      | none =>
        obtain ⟨index, here⟩ := List.mem_iff_getElem?.mp (Walk.mem_storages.mpr ⟨_, holds⟩)
        have named : (storage, sharedName scope index) ∈ sharedStorage scope w :=
          mem_sharedStorage.mpr ⟨index, here, rfl⟩
        simpa using List.lookup_eq_none_iff.mp found _ named
      | some name =>
        obtain ⟨index, here, rfl⟩ := mem_sharedStorage.mp (mem_of_lookup found)
        exact ⟨index, storage, here, .inr holds, by simp [get, own, given, found]⟩

theorem get?_storage {index : Nat} {storage : String} (here : w.storages[index]? = some storage) :
    (gradientNames scope w).get? storage = some (sharedName scope index) := by
  have get : (gradientNames scope w).get? storage =
      ((sharedStorage scope w).reverse.lookup storage).or
        ((Table.ofList (takenNames scope w)).get? storage) := Table.get?_putAll _ _ _
  cases own : (sharedStorage scope w).reverse.lookup storage with
  | none => exact absurd (List.mem_of_getElem? here) (lookup_sharedStorage_eq_none.mp own)
  | some name =>
    obtain ⟨other, there, rfl⟩ := mem_sharedStorage.mp (List.mem_reverse.mp (mem_of_lookup own))
    have nodup : w.storages.Nodup := Names.nodup _
    obtain ⟨bound, first⟩ := List.getElem?_eq_some_iff.mp here
    obtain ⟨bound', second⟩ := List.getElem?_eq_some_iff.mp there
    obtain rfl : index = other := nodup.getElem_inj_iff.mp (first.trans second.symm)
    rw [get, own, Option.some_or]

theorem apply_gradientNames (blob : String) :
    (∃ (index : Nat) (storage : String), w.storages[index]? = some storage ∧ w.Holds blob storage ∧
      (gradientNames scope w).apply blob = sharedName scope index) ∨
    (gradientNames scope w).apply blob = blob := by
  cases get?_gradientNames scope w blob with
  | inl named =>
    obtain ⟨index, storage, here, holds, name⟩ := named
    exact .inl ⟨index, storage, here, holds, by simp [Renaming.apply, name]⟩
  | inr unnamed => exact .inr (by simp [Renaming.apply, unnamed])

end Names

theorem holds_of_same_name {scope : String} {w : Walk} {a b : String}
    (fresh : ∀ index, sharedName scope index ≠ a ∧ sharedName scope index ≠ b)
    (same : (gradientNames scope w).apply a = (gradientNames scope w).apply b) :
    a = b ∨ ∃ storage ∈ w.storages, w.Holds a storage ∧ w.Holds b storage := by
  cases apply_gradientNames scope w a with
  | inl shared =>
    obtain ⟨i, storage, here, holds, name⟩ := shared
    cases apply_gradientNames scope w b with
    | inl shared' =>
      obtain ⟨j, storage', there, holds', name'⟩ := shared'
      rw [name, name'] at same
      obtain rfl := sharedName_inj same
      obtain rfl := Option.some.inj (here.symm.trans there)
      exact .inr ⟨storage, List.mem_of_getElem? here, holds, holds'⟩
    | inr kept =>
      rw [name, kept] at same
      exact absurd same (fresh i).2
  | inr kept =>
    cases apply_gradientNames scope w b with
    | inl shared' =>
      obtain ⟨j, _, _, _, name'⟩ := shared'
      rw [kept, name'] at same
      exact absurd same.symm (fresh j).1
    | inr kept' =>
      rw [kept, kept'] at same
      exact .inl same

theorem Walk.OnlyGradients.of_holds {b : Backward} {w : Walk} (only : w.OnlyGradients b)
    {blob storage : String} (shared : storage ∈ w.storages) (holds : w.Holds blob storage) :
    b.scope.isGradient blob = true := by
  cases holds with
  | inl own =>
    obtain ⟨other, given⟩ := Walk.mem_storages.mp shared
    rw [own]
    exact (only.donors other storage given).2
  | inr given => exact (only.donors blob storage given).1

/-- Storage is written again only when all reads of what it held are over. -/
def ReadInTime (names : Renaming) (ops : List Op) : Prop :=
  ∀ earlier later, earlier ≠ later → names.apply earlier = names.apply later →
    ∀ i j k, WrittenAt ops earlier i → WrittenAt ops later j → ReadAt ops earlier k → i < j → k ≤ j

section Runs

variable {net : Net} {losses : List String} {parameters : Names} {scope : String}

theorem shareGradients_plain (plain : ∀ op ∈ net.ops, op.isRecurrent = false) :
    ∃ plan, (shareGradients net losses parameters scope).outcome = .ok plan ∧
      plan.names = gradientNames (gradientScopeName scope)
        (walkGradients (.ofNet ⟨gradientScopeName scope, parameters⟩ losses net)) ∧
      List.Forall₂ (Op.RenamedBy plan.names.apply) net.ops plan.net.ops := by
  let names := gradientNames (gradientScopeName scope)
    (walkGradients (.ofNet ⟨gradientScopeName scope, parameters⟩ losses net))
  have outcome := Net.rename_plain plain names
  refine ⟨⟨_, names⟩, ?_, rfl, Net.rename_renamed outcome⟩
  simp [shareGradients, names, outcome]

theorem walkGradients_sound (pass : SinglePass ⟨gradientScopeName scope, parameters⟩ net.ops) :
    (walkGradients (.ofNet ⟨gradientScopeName scope, parameters⟩ losses net)).Sound
      (.ofNet ⟨gradientScopeName scope, parameters⟩ losses net) :=
  Walk.run_sound pass.gradientOps (Walk.sound_start _) trivial

theorem apart_of_one_writer {b : Backward} {ops : List Op} {w : Walk} (sound : w.Sound b)
    (filtered : b.ops = ops.filter b.scope.isGradientOp) {a c storage : String}
    (gradient : b.scope.isGradient a = true) (holds : w.Holds a storage) (holds' : w.Holds c storage)
    {position : Nat} (written : WrittenAt ops a position) (written' : WrittenAt ops c position) :
    a = c := by
  obtain ⟨op, here, output⟩ := written
  obtain ⟨op', there, output'⟩ := written'
  obtain rfl := Option.some.inj (here.symm.trans there)
  have touches : b.scope.isGradientOp op = true :=
    List.any_eq_true.mpr ⟨a, List.mem_append_right _ output, gradient⟩
  have member : op ∈ b.ops := by
    rw [filtered]
    exact List.mem_filter.mpr ⟨List.mem_of_getElem? here, touches⟩
  obtain ⟨index, found⟩ := List.mem_iff_getElem?.mp member
  by_contra different
  cases sound.not_together different holds holds' with
  | inl inTurn => exact Nat.lt_irrefl index (inTurn index ⟨op, found, output'⟩ index ⟨op, found, output⟩)
  | inr inTurn => exact Nat.lt_irrefl index (inTurn index ⟨op, found, output⟩ index ⟨op, found, output'⟩)

end Runs

section Iff

variable {s : GradientScope} {ops : List Op} {names : Renaming}

theorem undisturbed_of_readInTime (pass : SinglePass s ops) (inTime : ReadInTime names ops)
    (apart : ∀ a c position, names.apply a = names.apply c → WrittenAt ops a position →
      WrittenAt ops c position → a = c)
    (gradient : ∀ a c i j, names.apply a = names.apply c → a ≠ c → ReadAt ops a i →
      WrittenAt ops c j → s.isGradient a = true) :
    Undisturbed names.apply (fun _ => False) ops := by
  apply undisturbed_of_positions
  intro position written writes live need same
  by_contra different
  cases liveIn_iff.mp need with
  | inr kept => exact kept.1
  | inl first =>
    obtain ⟨later, reads, untouched⟩ := first
    rw [readAt_drop] at reads
    obtain ⟨i, wrote⟩ := pass.exists_writer reads (gradient _ _ _ _ same different reads writes)
    have before := pass.writer_lt wrote reads
    rcases Nat.lt_trichotomy i position with less | rfl | more
    next =>
      have soon := inTime live written different same i position _ wrote writes reads less
      omega
    next => exact different (apart live written i same wrote writes)
    next =>
      -- Between the two positions nothing writes the blob.
      refine untouched (i - (position + 1)) (by omega) ?_
      rwa [writtenAt_drop, Nat.add_sub_cancel' more]

def tagging (tagged : Nat) : Nat → Kernel Bool := fun number _ _ => decide (number = tagged)

theorem finalStore_tagged (pass : SinglePass s ops) {blob : String} {i k : Nat}
    (written : WrittenAt ops blob i) (before : i < k) (store : Store Bool) :
    finalStore (tagging i) (ops.zipIdx.take k) store blob = true := by
  apply finalStore_const
  case agree =>
    intro entry member output
    have here := List.mem_zipIdx_iff_getElem?.mp (List.mem_of_mem_take member)
    exact decide_eq_true (pass.writer_eq ⟨entry.1, here, output⟩ written)
  case start =>
    obtain ⟨op, here, output⟩ := written
    right
    refine ⟨(op, i), List.mem_iff_getElem?.mpr ⟨i, ?_⟩, output⟩
    rw [List.getElem?_take_of_lt before, List.getElem?_zipIdx, here, Option.map_some, Nat.zero_add]

theorem finalStore_overwritten {blob : String} {i j k : Nat} (later : i < j)
    (written : WrittenAt ops blob j) (before : j < k) (store : Store Bool) :
    finalStore (tagging i) (ops.zipIdx.take k) store blob = false := by
  -- After the write at `j` the tagged operation, which stands before it, does not run again.
  rw [← List.take_append_drop j (ops.zipIdx.take k), finalStore_append]
  apply finalStore_const
  case agree =>
    intro entry member _
    obtain ⟨offset, here⟩ := List.mem_iff_getElem?.mp member
    rw [List.getElem?_drop, List.getElem?_take] at here
    split at here
    next =>
      rw [List.getElem?_zipIdx] at here
      obtain ⟨op, _, rfl⟩ := Option.map_eq_some_iff.mp here
      apply decide_eq_false
      omega
    next => simp at here
  case start =>
    obtain ⟨op, here, output⟩ := written
    right
    refine ⟨(op, j), List.mem_iff_getElem?.mpr ⟨0, ?_⟩, output⟩
    rw [List.getElem?_drop, Nat.add_zero, List.getElem?_take_of_lt before, List.getElem?_zipIdx, here,
      Option.map_some, Nat.zero_add]

theorem readInTime_of_reads (pass : SinglePass s ops) {ops' : List Op}
    (renamed : List.Forall₂ (Op.RenamedBy names.apply) ops ops')
    (same : ∀ (kernels : Nat → Kernel Bool) (store : Store Bool),
      readsOf kernels ops'.zipIdx store = readsOf kernels ops.zipIdx store) :
    ReadInTime names ops := by
  -- A read that comes too late finds the value of another operation.
  intro earlier later _ shared i j k written overwritten read less
  apply Nat.le_of_not_lt
  intro late
  obtain ⟨reader, here, input⟩ := read
  obtain ⟨reader', here', inputs, -⟩ := getElem?_of_forall₂ renamed here
  obtain ⟨writer, there, output⟩ := overwritten
  obtain ⟨writer', there', -, outputs⟩ := getElem?_of_forall₂ renamed there
  let store : Store Bool := fun _ => false
  have values := congrArg (fun reads => reads[k]?) (same (tagging i) store)
  simp only [readsOf_getElem?, List.getElem?_zipIdx, here, here', Option.map_some, inputs, List.map_map,
    Option.some.injEq] at values
  have value := List.map_inj_left.mp values earlier input
  -- Under its own name the blob has the tag; under the shared name it has been overwritten.
  have old := finalStore_tagged pass written (Nat.lt_trans less late) store
  have new := finalStore_overwritten less
    ⟨writer', there', outputs ▸ List.mem_map_of_mem output⟩ late store
  rw [old, Function.comp_apply, shared, new] at value
  exact Bool.false_ne_true value

end Iff

section Net

variable {net : Net} {losses : List String} {parameters : Names} {scope : String}
  (pass : SinglePass ⟨gradientScopeName scope, parameters⟩ net.ops)

include pass

theorem undisturbed_gradientNames
    (fresh : ∀ index, sharedName (gradientScopeName scope) index ∉ net.blobNames)
    (inTime : ReadInTime (gradientNames (gradientScopeName scope)
      (walkGradients (.ofNet ⟨gradientScopeName scope, parameters⟩ losses net))) net.ops) :
    Undisturbed (gradientNames (gradientScopeName scope)
      (walkGradients (.ofNet ⟨gradientScopeName scope, parameters⟩ losses net))).apply
      (fun _ => False) net.ops := by
  have sound := @walkGradients_sound net losses parameters scope pass
  have unnamed {blob : String} (inside : blob ∈ net.blobNames) (index : Nat) :
      sharedName (gradientScopeName scope) index ≠ blob := fun same => fresh index (same ▸ inside)
  apply undisturbed_of_readInTime pass inTime
  case apart =>
    intro a c position same written written'
    by_contra different
    have together := holds_of_same_name
      (fun index => ⟨unnamed (mem_blobNames_of_writtenAt written) index,
        unnamed (mem_blobNames_of_writtenAt written') index⟩) same
    obtain ⟨storage, shared, holds, holds'⟩ := together.resolve_left different
    exact different (apart_of_one_writer sound rfl (sound.gradients.of_holds shared holds) holds holds'
      written written')
  case gradient =>
    intro a c i j same different read written
    have together := holds_of_same_name
      (fun index => ⟨unnamed (mem_blobNames_of_readAt read) index,
        unnamed (mem_blobNames_of_writtenAt written) index⟩) same
    obtain ⟨storage, shared, holds, -⟩ := together.resolve_left different
    exact sound.gradients.of_holds shared holds

theorem apply_gradientNames_of_liveIn {blob : String} (live : LiveIn (fun _ => False) net.ops blob) :
    (gradientNames (gradientScopeName scope)
      (walkGradients (.ofNet ⟨gradientScopeName scope, parameters⟩ losses net))).apply blob = blob := by
  have sound := @walkGradients_sound net losses parameters scope pass
  cases apply_gradientNames (gradientScopeName scope)
    (walkGradients (.ofNet ⟨gradientScopeName scope, parameters⟩ losses net)) blob with
  | inr kept => exact kept
  | inl shared =>
    -- A gradient is written before it is read, so its first access is no read.
    obtain ⟨index, storage, here, holds, -⟩ := shared
    have gradient := sound.gradients.of_holds (List.mem_of_getElem? here) holds
    cases liveIn_iff.mp live with
    | inr kept => exact kept.1.elim
    | inl first =>
      obtain ⟨position, read, untouched⟩ := first
      obtain ⟨i, wrote⟩ := pass.exists_writer read gradient
      exact absurd wrote (untouched i (pass.writer_lt wrote read))

end Net

theorem shareGradients_preserves_runs_iff {net : Net} {losses : List String} {parameters : Names}
    {scope : String} (plain : ∀ op ∈ net.ops, op.isRecurrent = false)
    (pass : SinglePass ⟨gradientScopeName scope, parameters⟩ net.ops)
    (fresh : ∀ index, sharedName (gradientScopeName scope) index ∉ net.blobNames) :
    ∃ plan, (shareGradients net losses parameters scope).outcome = .ok plan ∧
      ((∀ (V : Type) (kernels : Nat → Kernel V) (store : Store V),
        readsOf kernels plan.net.ops.zipIdx store = readsOf kernels net.ops.zipIdx store) ↔
      ReadInTime plan.names net.ops) := by
  obtain ⟨plan, outcome, names, renamed⟩ :=
    @shareGradients_plain net losses parameters scope plain
  refine ⟨plan, outcome, fun same => readInTime_of_reads pass renamed (same Bool), ?_⟩
  intro inTime V kernels store
  have safe : Undisturbed plan.names.apply (fun _ => False) net.ops := by
    rw [names] at inTime ⊢
    exact undisturbed_gradientNames pass fresh inTime
  have agree (blob : String) (live : LiveIn (fun _ => False) net.ops blob) :
      store (plan.names.apply blob) = store blob := by
    rw [names, apply_gradientNames_of_liveIn pass live]
  have length := renamed.length_eq
  rw [List.zipIdx_eq_zip_range', List.zipIdx_eq_zip_range', ← length]
  exact (reads_renamed renamed safe kernels List.length_range' agree).1

theorem sharedName_fresh {blobs : List String}
    (endings : ∀ blob ∈ blobs, blob.toList.getLast? ≠ some '_') (scope : String) (index : Nat) :
    sharedName scope index ∉ blobs := by
  intro inside
  apply endings _ inside
  rw [sharedName, String.toList_append, List.getLast?_append]
  rfl

def chainNet : Net :=
  (Net.named "chain").withOps [⟨"A", ["loss"], ["g/a_grad"], []⟩, ⟨"B", ["g/a_grad"], ["g/b_grad"], []⟩,
    ⟨"C", ["g/b_grad"], ["g/c_grad"], []⟩]

theorem chainNet_next {blob : String} {i k : Nat} (written : WrittenAt chainNet.ops blob i)
    (read : ReadAt chainNet.ops blob k) : k = i + 1 := by
  obtain ⟨writer, here, output⟩ := written
  obtain ⟨reader, there, input⟩ := read
  rcases i with _ | _ | _ | i <;> rcases k with _ | _ | _ | k <;>
    simp [chainNet, Net.withOps] at here there <;> subst here there <;> simp_all

theorem shareGradients_preserves_runs_iff_chain :
    ∃ plan, (shareGradients chainNet ["loss"] .empty "g").outcome = .ok plan ∧
      plan.names.apply "g/a_grad" = plan.names.apply "g/c_grad" ∧
      ∀ (V : Type) (kernels : Nat → Kernel V) (store : Store V),
        readsOf kernels plan.net.ops.zipIdx store = readsOf kernels chainNet.ops.zipIdx store := by
  have pass : SinglePass ⟨gradientScopeName "g", .empty⟩ chainNet.ops :=
    ⟨by decide +kernel, by decide +kernel, by decide +kernel, by decide +kernel⟩
  have fresh (index : Nat) : sharedName (gradientScopeName "g") index ∉ chainNet.blobNames :=
    sharedName_fresh (by decide +kernel) _ index
  obtain ⟨plan, outcome, preserved⟩ := @shareGradients_preserves_runs_iff chainNet ["loss"] .empty "g"
    (by decide +kernel) pass fresh
  have evaluated : (shareGradients chainNet ["loss"] .empty "g").outcome.toOption.map (·.names.entries) =
      some [("g/a_grad", "g/__m0_"), ("g/c_grad", "g/__m0_")] := by decide +kernel
  have names : plan.names.entries = [("g/a_grad", "g/__m0_"), ("g/c_grad", "g/__m0_")] := by
    simpa [outcome, Except.toOption] using evaluated
  refine ⟨plan, outcome, by simp [Renaming.apply, Table.get?, names], preserved.mpr ?_⟩
  intro earlier later _ _ i j k written _ read less
  have soon := chainNet_next written read
  omega

/-- The walk enters the second reader of a gradient before the first one, since the first one waits for
another gradient. In the net the second reader runs last, after the storage was written again. -/
def crossingNet : Net :=
  (Net.named "crossing").withOps
    [⟨"G", ["loss"], ["g/b_grad"], []⟩, ⟨"H", ["loss"], ["g/d_grad"], []⟩,
      ⟨"A", ["g/b_grad", "g/d_grad"], ["g/a_grad"], []⟩, ⟨"C", ["g/a_grad"], ["g/c_grad"], []⟩,
      ⟨"E", ["g/b_grad"], ["g/e_grad"], []⟩]

theorem shareGradients_disturbs_crossing :
    (∀ op ∈ crossingNet.ops, op.isRecurrent = false) ∧
      SinglePass ⟨gradientScopeName "g", .empty⟩ crossingNet.ops ∧
      (∀ index, sharedName (gradientScopeName "g") index ∉ crossingNet.blobNames) ∧
      ∃ plan, (shareGradients crossingNet ["loss"] .empty "g").outcome = .ok plan ∧
        readsOf (tagging 0) plan.net.ops.zipIdx (fun _ => false) ≠
          readsOf (tagging 0) crossingNet.ops.zipIdx (fun _ => false) := by
  refine ⟨by decide +kernel, ⟨by decide +kernel, by decide +kernel, by decide +kernel, by decide +kernel⟩,
    sharedName_fresh (by decide +kernel) _, ?_⟩
  have evaluated : (shareGradients crossingNet ["loss"] .empty "g").outcome.toOption.map
      (fun plan => readsOf (tagging 0) plan.net.ops.zipIdx fun _ => false) =
      some [[false], [false], [true, false], [false], [false]] := by decide +kernel
  cases outcome : (shareGradients crossingNet ["loss"] .empty "g").outcome with
  | error => simp [outcome, Except.toOption] at evaluated
  | ok plan =>
    refine ⟨plan, rfl, ?_⟩
    have reads : readsOf (tagging 0) plan.net.ops.zipIdx (fun _ => false) =
        [[false], [false], [true, false], [false], [false]] := by
      simpa [outcome, Except.toOption] using evaluated
    rw [reads]
    decide +kernel

end StoragePlan
