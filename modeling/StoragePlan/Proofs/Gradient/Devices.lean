import StoragePlan.Proofs.Capture
import StoragePlan.Proofs.Gradient.Sight
import StoragePlan.Proofs.Nesting

set_option autoImplicit false

namespace StoragePlan

def UnderScope (scope blob : String) : Prop :=
  scope.toList <+: blob.toList ∨ ("_" ++ scope).toList <+: blob.toList

instance (scope blob : String) : Decidable (UnderScope scope blob) :=
  inferInstanceAs (Decidable (_ ∨ _))

theorem underScope_of_gradient {scope blob : String} {parameters : Names}
    (gradient : (⟨scope, parameters⟩ : GradientScope).isGradient blob = true) : UnderScope scope blob := by
  simp only [GradientScope.isGradient, Bool.and_eq_true, Bool.or_eq_true,
    List.isPrefixOf_iff_prefix] at gradient
  exact gradient.1.2

theorem underScope_sharedName (scope : String) (index : Nat) :
    UnderScope scope (sharedName scope index) := by
  left
  rw [sharedName, String.append_assoc, String.append_assoc, String.toList_append]
  exact List.prefix_append _ _

theorem takeWhile_of_front {stem text : List Char} (whole : '/' ∉ stem)
    (start : stem ++ ['/'] <+: text) : text.takeWhile (· ≠ '/') = stem := by
  obtain ⟨rest, rfl⟩ := start
  have passed : ∀ c ∈ stem, decide (c ≠ '/') = true := by
    intro c member
    have different : c ≠ '/' := fun same => whole (same ▸ member)
    simp [different]
  rw [List.append_assoc, List.takeWhile_append_of_pos passed]
  simp

theorem not_mem_deviceStem (device : Nat) : '/' ∉ "gpu_".toList ++ device.repr.toList := by
  rw [List.mem_append, not_or]
  refine ⟨by decide, fun digit => ?_⟩
  rw [Nat.toList_repr] at digit
  exact absurd (Nat.isDigit_of_mem_toDigits (by decide) (by decide) digit) (by decide)

theorem toList_deviceScope (device : Nat) :
    (deviceScope device).toList = "gpu_".toList ++ device.repr.toList ++ ['/'] := by
  have unscoped : ¬ ("gpu_" ++ device.repr = "" ∨ endsInSlash ("gpu_" ++ device.repr) = true) := by
    rw [not_or]
    constructor
    next =>
      intro empty
      have nothing := congrArg String.toList empty
      simp at nothing
    next =>
      intro ends
      simp only [endsInSlash, decide_eq_true_eq, String.toList_append] at ends
      exact not_mem_deviceStem device (List.mem_of_getLast? ends)
  rw [deviceScope, normalizeScope, if_neg unscoped]
  simp

theorem gradientScopeName_deviceScope (device : Nat) :
    gradientScopeName (deviceScope device) = deviceScope device := by
  have ends : endsInSlash (deviceScope device) = true := by
    rw [endsInSlash, toList_deviceScope, List.getLast?_concat]
    rfl
  rw [gradientScopeName, if_pos ends]

theorem stem_of_underScope {device : Nat} {blob : String} (under : UnderScope (deviceScope device) blob) :
    blob.toList.takeWhile (· ≠ '/') = "gpu_".toList ++ device.repr.toList ∨
      blob.toList.takeWhile (· ≠ '/') = '_' :: ("gpu_".toList ++ device.repr.toList) := by
  have whole := not_mem_deviceStem device
  rcases under with plain | split
  next =>
    rw [toList_deviceScope] at plain
    exact .inl (takeWhile_of_front whole plain)
  next =>
    rw [String.toList_append, toList_deviceScope] at split
    exact .inr (takeWhile_of_front (by simpa using whole) split)

theorem device_unique {device other : Nat} {blob : String} (under : UnderScope (deviceScope device) blob)
    (under' : UnderScope (deviceScope other) blob) : device = other := by
  have digits (same : device.repr.toList = other.repr.toList) : device = other := by
    have values := congrArg (Nat.ofDigitChars 10 · 0) same
    simpa [Nat.toList_repr, Nat.ofDigitChars_toDigits] using values
  rcases stem_of_underScope under with plain | split
  next =>
    rcases stem_of_underScope under' with plain' | split'
    next => exact digits (List.append_cancel_left (plain.symm.trans plain'))
    next => simpa using plain.symm.trans split'
  next =>
    rcases stem_of_underScope under' with plain' | split'
    next => simpa using split.symm.trans plain'
    next => exact digits (List.append_cancel_left (List.cons.inj (split.symm.trans split')).2)

/-- The first mapping that has a name for the blob gives it; without one the blob keeps its own. -/
def Renaming.applyAll (mappings : List Renaming) (blob : String) : String :=
  (mappings.findSome? fun mapping => mapping.get? blob).getD blob

def shareInTurn (parameters : Names) (net : Net) (passes : List (Nat × List String)) : Journal Net :=
  passes.foldlM
    (fun net (device, losses) => do
      return (← shareGradients net losses parameters (deviceScope device)).net) net

def namesOn (net : Net) (parameters : Names) (pass : Nat × List String) : Renaming :=
  gradientNames (deviceScope pass.1)
    (walkGradients (.ofNet ⟨deviceScope pass.1, parameters⟩ pass.2 net))

structure Separate (passes : List (Nat × List String)) : Prop where
  distinct : (passes.map (·.1)).Nodup
  apart : ∀ pass ∈ passes, ∀ other ∈ passes, other.1 ≠ pass.1 →
    ∀ loss ∈ pass.2, ¬ UnderScope (deviceScope other.1) loss

section Passes

variable {net net' : Net} {parameters : Names} {pass other : Nat × List String}
  {passes done : List (Nat × List String)} {blob name : String}

theorem namesOn_of_outcome {plan : GradientPlan}
    (planned : (shareGradients net pass.2 parameters (deviceScope pass.1)).outcome = .ok plan) :
    plan.names = namesOn net parameters pass ∧
      List.Forall₂ (Op.RenamedBy (namesOn net parameters pass).apply) net.ops plan.net.ops := by
  have ⟨names, renamed⟩ := names_of_outcome planned
  rw [gradientScopeName_deviceScope, ← namesOn] at names
  exact ⟨names, names ▸ renamed⟩

theorem underScope_namesOn (found : (namesOn net parameters pass).get? blob = some name) :
    UnderScope (deviceScope pass.1) blob ∧ UnderScope (deviceScope pass.1) name := by
  let s : GradientScope := ⟨deviceScope pass.1, parameters⟩
  let b := Backward.ofNet s pass.2 net
  have only : (walkGradients b).OnlyGradients b := (Walk.onlyGradients_start b).run
  rw [namesOn] at found
  constructor
  next =>
    have gradient : s.isGradient blob = true := gradient_of_get? only found
    exact underScope_of_gradient gradient
  next =>
    obtain ⟨index, _, -, -, rfl⟩ := numbered_of_get? found
    exact underScope_sharedName _ index

-- What is under the scope of another device is out of sight.
theorem unseen_of_underScope (different : other.1 ≠ pass.1)
    (apart : ∀ loss ∈ pass.2, ¬ UnderScope (deviceScope other.1) loss)
    (under : UnderScope (deviceScope other.1) blob) :
    (⟨deviceScope pass.1, parameters⟩ : GradientScope).sees pass.2 blob = false := by
  rw [GradientScope.sees, Bool.or_eq_false_iff]
  constructor
  next =>
    refine Bool.eq_false_iff.mpr fun gradient => different ?_
    exact device_unique under (underScope_of_gradient gradient)
  next =>
    refine Bool.eq_false_iff.mpr fun loss => ?_
    exact apart blob (List.contains_iff_mem.mp loss) under

theorem applyAll_cases (mappings : List Renaming) (blob : String) :
    (∃ mapping ∈ mappings, mapping.get? blob = some (Renaming.applyAll mappings blob)) ∨
      Renaming.applyAll mappings blob = blob := by
  unfold Renaming.applyAll
  cases found : mappings.findSome? fun mapping => mapping.get? blob with
  | none => exact .inr rfl
  | some name => exact .inl (List.exists_of_findSome?_eq_some found)

variable (separate : Separate (done ++ pass :: passes))

include separate

theorem namesOn_later
    (renamed : List.Forall₂ (Op.RenamedBy (Renaming.applyAll (done.map (namesOn net parameters))))
      net.ops net'.ops) : namesOn net' parameters pass = namesOn net parameters pass := by
  let sees := (⟨deviceScope pass.1, parameters⟩ : GradientScope).sees pass.2
  have unseen {other : Nat × List String} (before : other ∈ done) {blob : String}
      (under : UnderScope (deviceScope other.1) blob) : sees blob = false := by
    have different : other.1 ≠ pass.1 := by
      have distinct := separate.distinct
      rw [List.map_append, List.nodup_append] at distinct
      exact distinct.2.2 _ (List.mem_map_of_mem before) _ (by simp)
    exact unseen_of_underScope different
      (separate.apart pass (by simp) other (by simp [before]) different) under
  have given (blob : String) : Renaming.applyAll (done.map (namesOn net parameters)) blob = blob ∨
      sees blob = false ∧ sees (Renaming.applyAll (done.map (namesOn net parameters)) blob) = false := by
    rcases applyAll_cases (done.map (namesOn net parameters)) blob with ⟨_, member, found⟩ | kept
    next =>
      obtain ⟨other, before, rfl⟩ := List.mem_map.mp member
      have ⟨under, under'⟩ := underScope_namesOn found
      exact .inr ⟨unseen before under, unseen before under'⟩
    next => exact .inl kept
  have alike : List.Forall₂ (Op.Alike sees) net.ops net'.ops := by
    refine renamed.imp fun op op' same => same.alike (fun blob => ?_) fun blob seen => ?_
    next =>
      rcases given blob with kept | ⟨before, after⟩
      next => rw [kept]
      next => rw [before, after]
    next =>
      rcases given blob with kept | ⟨before, -⟩
      next => exact kept
      next => simp [before] at seen
  rw [namesOn, walkGradients_alike alike, namesOn]

theorem applyAll_concat (blob : String) :
    Renaming.applyAll ((done ++ [pass]).map (namesOn net parameters)) blob =
      (namesOn net parameters pass).apply
        (Renaming.applyAll (done.map (namesOn net parameters)) blob) := by
  rw [List.map_append, List.map_singleton, Renaming.applyAll, Renaming.applyAll, List.findSome?_append]
  cases found : (done.map (namesOn net parameters)).findSome? fun mapping => mapping.get? blob with
  | none => simp [Renaming.apply]
  | some name =>
    -- A name that an earlier pass gave is under the scope of its device, so this one leaves it.
    obtain ⟨_, member, given⟩ := List.exists_of_findSome?_eq_some found
    obtain ⟨other, before, rfl⟩ := List.mem_map.mp member
    have kept : (namesOn net parameters pass).get? name = none := by
      cases again : (namesOn net parameters pass).get? name with
      | none => rfl
      | some name' =>
        have same := device_unique (underScope_namesOn given).2 (underScope_namesOn again).1
        have distinct := separate.distinct
        rw [List.map_append, List.nodup_append] at distinct
        exact absurd same (distinct.2.2 _ (List.mem_map_of_mem before) _ (by simp))
    simp [Renaming.apply, kept]

omit separate in
theorem renamed_trans {name name' : String → String} {ops ops' ops'' : List Op}
    (first : List.Forall₂ (Op.RenamedBy name) ops ops')
    (second : List.Forall₂ (Op.RenamedBy name') ops' ops'') :
    List.Forall₂ (Op.RenamedBy fun blob => name' (name blob)) ops ops'' := by
  induction first generalizing ops'' with
  | nil =>
    cases second
    exact .nil
  | cons here _ ih =>
    cases second with
    | cons there later =>
      refine .cons ⟨?_, ?_⟩ (ih later)
      next => rw [there.1, here.1, List.map_map, Function.comp_def]
      next => rw [there.2, here.2, List.map_map, Function.comp_def]

omit separate in
theorem shareInTurn_renamed (done : List (Nat × List String)) {current : Net}
    (separate : Separate (done ++ passes))
    (renamed : List.Forall₂ (Op.RenamedBy (Renaming.applyAll (done.map (namesOn net parameters))))
      net.ops current.ops) (shared : (shareInTurn parameters current passes).outcome = .ok net') :
    List.Forall₂ (Op.RenamedBy (Renaming.applyAll ((done ++ passes).map (namesOn net parameters))))
      net.ops net'.ops := by
  induction passes generalizing done current with
  | nil =>
    obtain rfl : current = net' := by simpa [shareInTurn] using shared
    simpa using renamed
  | cons pass passes ih =>
    simp only [shareInTurn, List.foldlM_cons, Journal.outcome_bind, Journal.outcome_pure,
      Except.ok.injEq] at shared
    obtain ⟨_, ⟨plan, planned, rfl⟩, later⟩ := shared
    have here := (namesOn_of_outcome planned).2
    rw [namesOn_later separate renamed] at here
    have both : Renaming.applyAll ((done ++ [pass]).map (namesOn net parameters)) = _ :=
      funext (applyAll_concat separate)
    rw [List.append_cons] at separate ⊢
    exact ih (done ++ [pass]) separate (both ▸ renamed_trans renamed here) later

end Passes

section Plans

variable {net net' : Net} {parameters : Names} {passes passes' : List (Nat × List String)}

theorem rename_ok {mapping : Renaming} (renamed : (net.rename mapping).outcome = .ok net')
    (other : Renaming) : ∃ net'', (net.rename other).outcome = .ok net'' := by
  have settled := Net.settles_rename net mapping
  have settled' := Net.settles_rename net other
  rw [renamed] at settled
  cases outcome : (net.rename other).outcome with
  | ok net'' => exact ⟨net'', rfl⟩
  | error error =>
    rw [outcome] at settled'
    obtain ⟨address, fails, -⟩ := settled'
    exact absurd fails (settled address error)

theorem shareGradients_ok {mapping : Renaming} (renamed : (net.rename mapping).outcome = .ok net')
    (losses : List String) (parameters : Names) (scope : String) :
    ∃ plan, (shareGradients net losses parameters scope).outcome = .ok plan := by
  let names := gradientNames (gradientScopeName scope)
    (walkGradients (.ofNet ⟨gradientScopeName scope, parameters⟩ losses net))
  obtain ⟨net'', outcome⟩ := rename_ok renamed names
  exact ⟨⟨net'', names⟩, by simp [shareGradients, names, outcome]⟩

theorem exists_plans (shared : (shareInTurn parameters net passes).outcome = .ok net') :
    ∃ plans : List GradientPlan, List.Forall₂ (fun (pass : Nat × List String) plan =>
        (shareGradients net pass.2 parameters (deviceScope pass.1)).outcome = .ok plan) passes plans ∧
      plans.map (·.names) = passes.map (namesOn net parameters) := by
  cases passes with
  | nil => exact ⟨[], .nil, rfl⟩
  | cons first rest =>
    simp only [shareInTurn, List.foldlM_cons, Journal.outcome_bind] at shared
    obtain ⟨_, ⟨plan, planned, -⟩, -⟩ := shared
    simp only [shareGradients, Journal.outcome_bind] at planned
    obtain ⟨-, -, -, -, renamed, outcome, -⟩ := planned
    induction first :: rest with
    | nil => exact ⟨[], .nil, rfl⟩
    | cons pass passes ih =>
      obtain ⟨plan, planned⟩ := shareGradients_ok outcome pass.2 parameters (deviceScope pass.1)
      obtain ⟨plans, all, names⟩ := ih
      refine ⟨plan :: plans, .cons planned all, ?_⟩
      rw [List.map_cons, List.map_cons, names, (namesOn_of_outcome planned).1]

theorem namesOn_disjoint (separate : Separate passes) :
    (passes.map (namesOn net parameters)).Pairwise fun a b =>
      (∀ blob, a.get? blob = none ∨ b.get? blob = none) ∧
      ∀ blob blob' name, a.get? blob = some name → b.get? blob' ≠ some name := by
  have distinct : passes.Pairwise fun a b => a.1 ≠ b.1 := List.pairwise_map.mp separate.distinct
  refine List.pairwise_map.mpr (distinct.imp fun {pass other} different => ⟨fun blob => ?_, ?_⟩)
  next =>
    cases found : (namesOn net parameters pass).get? blob with
    | none => exact .inl rfl
    | some name =>
      right
      cases found' : (namesOn net parameters other).get? blob with
      | none => rfl
      | some name' =>
        have same := device_unique (underScope_namesOn found).1 (underScope_namesOn found').1
        exact absurd same different
  next =>
    intro blob blob' name found found'
    exact different (device_unique (underScope_namesOn found).2 (underScope_namesOn found').2)

theorem Separate.perm (separate : Separate passes) (perm : passes'.Perm passes) : Separate passes' where
  distinct := (perm.map _).nodup_iff.mpr separate.distinct
  apart pass member other member' :=
    separate.apart pass (perm.mem_iff.mp member) other (perm.mem_iff.mp member')

theorem findSome?_namesOn (separate : Separate passes) {blob name : String} :
    ((passes.map (namesOn net parameters)).findSome? fun mapping => mapping.get? blob) = some name ↔
      ∃ pass ∈ passes, (namesOn net parameters pass).get? blob = some name := by
  constructor
  next =>
    intro found
    obtain ⟨_, member, given⟩ := List.exists_of_findSome?_eq_some found
    obtain ⟨pass, listed, rfl⟩ := List.mem_map.mp member
    exact ⟨pass, listed, given⟩
  next =>
    intro given
    obtain ⟨pass, listed, given⟩ := given
    cases found : (passes.map (namesOn net parameters)).findSome? fun mapping => mapping.get? blob with
    | none =>
      have nothing := List.findSome?_eq_none_iff.mp found _ (List.mem_map_of_mem listed)
      rw [given] at nothing
      exact absurd nothing (by simp)
    | some name' =>
      -- Only one device can have a name for the blob.
      obtain ⟨_, member, given'⟩ := List.exists_of_findSome?_eq_some found
      obtain ⟨other, listed', rfl⟩ := List.mem_map.mp member
      have same := device_unique (underScope_namesOn given).1 (underScope_namesOn given').1
      obtain rfl := List.inj_on_of_nodup_map separate.distinct listed listed' same
      exact given'.symm.trans given

theorem applyAll_perm (separate : Separate passes) (perm : passes'.Perm passes) :
    Renaming.applyAll (passes'.map (namesOn net parameters)) =
      Renaming.applyAll (passes.map (namesOn net parameters)) := by
  funext blob
  unfold Renaming.applyAll
  congr 1
  apply Option.ext
  intro name
  rw [findSome?_namesOn (separate.perm perm), findSome?_namesOn separate]
  simp only [perm.mem_iff]

end Plans

theorem shareDeviceGradients_together {net net' : Net} {losses : Table Nat (List String)}
    {parameters : Names}
    (apart : ∀ pass ∈ losses.entries, ∀ other ∈ losses.entries, other.1 ≠ pass.1 →
      ∀ loss ∈ pass.2, ¬ UnderScope (deviceScope other.1) loss)
    (shared : (shareDeviceGradients net losses parameters).outcome = .ok net') :
    ∃ plans : List GradientPlan, List.Forall₂ (fun (pass : Nat × List String) plan =>
        (shareGradients net pass.2 parameters (deviceScope pass.1)).outcome = .ok plan)
          losses.entries plans ∧
      plans.Pairwise (fun a b => (∀ blob, a.names.get? blob = none ∨ b.names.get? blob = none) ∧
        ∀ blob blob' name, a.names.get? blob = some name → b.names.get? blob' ≠ some name) ∧
      List.Forall₂ (Op.RenamedBy (Renaming.applyAll (plans.map (·.names)))) net.ops net'.ops ∧
      ∀ passes net'', passes.Perm losses.entries →
        (shareInTurn parameters net passes).outcome = .ok net'' →
          List.Forall₂ (Op.RenamedBy (Renaming.applyAll (plans.map (·.names)))) net.ops net''.ops := by
  have distinct : (losses.entries.map (·.1)).Nodup :=
    List.pairwise_map.mpr (losses.ascending.imp Nat.ne_of_lt)
  have separate : Separate losses.entries := ⟨distinct, apart⟩
  have unchanged : List.Forall₂ (Op.RenamedBy (Renaming.applyAll [])) net.ops net.ops := by
    have kept : Renaming.applyAll [] = id := rfl
    exact List.forall₂_same.mpr fun op _ => by simp [Op.RenamedBy, kept]
  obtain ⟨plans, all, names⟩ := exists_plans shared
  refine ⟨plans, all, ?disjoint, ?together, ?order⟩
  case disjoint =>
    have disjoint := @namesOn_disjoint net parameters _ separate
    rw [← names] at disjoint
    exact List.pairwise_map.mp disjoint
  case together =>
    rw [names]
    exact shareInTurn_renamed [] separate unchanged shared
  case order =>
    intro passes net'' perm shared'
    rw [names, ← applyAll_perm separate perm]
    exact shareInTurn_renamed [] (separate.perm perm) unchanged shared'

/-- Two devices with a common operation; the number of one begins like that of the other. -/
def replicaNet : Net :=
  (Net.named "replicas").withOps
    [⟨"A", ["gpu_1/loss"], ["gpu_1/a_grad"], []⟩, ⟨"A", ["gpu_10/loss"], ["gpu_10/a_grad"], []⟩,
      ⟨"B", ["gpu_1/a_grad"], ["gpu_1/b_grad"], []⟩, ⟨"B", ["gpu_10/a_grad"], ["gpu_10/b_grad"], []⟩,
      ⟨"C", ["gpu_1/b_grad"], ["gpu_1/c_grad"], []⟩, ⟨"C", ["gpu_10/b_grad"], ["gpu_10/c_grad"], []⟩,
      ⟨"Sum", ["gpu_1/c_grad", "gpu_10/c_grad"], ["sum"], []⟩]

def replicaLosses : Table Nat (List String) := .ofList [(1, ["gpu_1/loss"]), (10, ["gpu_10/loss"])]

theorem shareDeviceGradients_together_replicas :
    ∃ net' plans, (shareDeviceGradients replicaNet replicaLosses .empty).outcome = .ok net' ∧
      List.Forall₂ (fun (pass : Nat × List String) plan =>
        (shareGradients replicaNet pass.2 .empty (deviceScope pass.1)).outcome = .ok plan)
          replicaLosses.entries plans ∧
      List.Forall₂ (Op.RenamedBy (Renaming.applyAll (plans.map (·.names)))) replicaNet.ops net'.ops ∧
      net'.ops.getLast?.map (·.inputs) = some ["gpu_1/__m0_", "gpu_10/__m0_"] := by
  obtain ⟨net', outcome, last⟩ := exists_ok_of_view (show
    (shareDeviceGradients replicaNet replicaLosses .empty).outcome.toOption.map
      (fun net => net.ops.getLast?.map (·.inputs)) = some (some ["gpu_1/__m0_", "gpu_10/__m0_"])
    by decide +kernel)
  obtain ⟨plans, all, -, together, -⟩ := shareDeviceGradients_together (by decide +kernel) outcome
  exact ⟨net', plans, outcome, all, together, last⟩

end StoragePlan
