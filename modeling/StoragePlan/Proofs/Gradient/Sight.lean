import Mathlib.Data.List.Basic
import StoragePlan.Gradient.Sharing
import StoragePlan.Proofs.Gradient.Scope
import StoragePlan.Proofs.Run.Basic

set_option autoImplicit false

namespace StoragePlan

def GradientScope.sees (s : GradientScope) (losses : List String) (blob : String) : Bool :=
  s.isGradient blob || losses.contains blob

structure Op.Alike (seen : String → Bool) (op op' : Op) : Prop where
  inputs : op'.inputs.filter seen = op.inputs.filter seen
  outputs : op'.outputs.filter seen = op.outputs.filter seen

theorem filter_of_seen {seen test : String → Bool} (finer : ∀ blob, test blob = true → seen blob = true)
    {blobs blobs' : List String} (same : blobs'.filter seen = blobs.filter seen) :
    blobs'.filter test = blobs.filter test := by
  have both : (fun blob => test blob && seen blob) = test := by
    funext blob
    cases tested : test blob with
    | false => rfl
    | true => simp [finer blob tested]
  have filtered (more : List String) : (more.filter seen).filter test = more.filter test := by
    rw [List.filter_filter, both]
  rw [← filtered, same, filtered]

theorem Op.RenamedBy.alike {name : String → String} {seen : String → Bool} {op op' : Op}
    (renamed : op.RenamedBy name op') (blind : ∀ blob, seen (name blob) = seen blob)
    (fixed : ∀ blob, seen blob = true → name blob = blob) : op.Alike seen op' := by
  have same (blobs : List String) : (blobs.map name).filter seen = blobs.filter seen := by
    have kept : seen ∘ name = seen := funext blind
    rw [List.filter_map, kept]
    have still : (blobs.filter seen).map name = (blobs.filter seen).map id :=
      List.map_congr_left fun blob member => fixed blob (List.mem_filter.mp member).2
    rw [still, List.map_id]
  exact ⟨renamed.1 ▸ same op.inputs, renamed.2 ▸ same op.outputs⟩

section Alike

variable {s : GradientScope} {losses : List String}

theorem sees_of_gradient {blob : String} (gradient : s.isGradient blob = true) :
    s.sees losses blob = true := by
  simp [GradientScope.sees, gradient]

theorem Op.Alike.isGradientOp {op op' : Op} (alike : op.Alike (s.sees losses) op') :
    s.isGradientOp op' = s.isGradientOp op := by
  have any (blobs : List String) : blobs.any s.isGradient = !(blobs.filter s.isGradient).isEmpty := by
    rw [Bool.eq_iff_iff]
    simp [List.filter_eq_nil_iff]
  simp only [GradientScope.isGradientOp, operands, any, List.filter_append,
    filter_of_seen (fun _ => sees_of_gradient) alike.inputs,
    filter_of_seen (fun _ => sees_of_gradient) alike.outputs]

theorem alike_gradientOps {ops ops' : List Op} (alike : List.Forall₂ (Op.Alike (s.sees losses)) ops ops') :
    List.Forall₂ (Op.Alike (s.sees losses)) (ops.filter s.isGradientOp) (ops'.filter s.isGradientOp) := by
  induction alike with
  | nil => exact .nil
  | @cons op op' _ _ same _ ih =>
    rw [List.filter_cons, List.filter_cons, same.isGradientOp]
    split
    next => exact .cons same ih
    next => exact ih

namespace Backward

variable {ops ops' : List Op} (alike : List.Forall₂ (Op.Alike (s.sees losses)) ops ops')

theorem waitsFor_eq (op : Op) (blob : String) : waitsFor ⟨s, losses, ops⟩ op blob =
    (s.sees losses blob && !op.outputs.contains blob) := rfl

theorem waitsFor_alike {op op' : Op} (same : op.Alike (s.sees losses) op') :
    waitsFor ⟨s, losses, ops'⟩ op' = waitsFor ⟨s, losses, ops⟩ op := by
  funext blob
  cases seen : s.sees losses blob with
  | false => simp only [waitsFor_eq, seen, Bool.false_and]
  | true =>
    -- An operand that is seen is among the outputs of both or of none.
    have written : op'.outputs.contains blob = op.outputs.contains blob := by
      have filtered := congrArg (blob ∈ ·) same.outputs
      simp only [List.mem_filter, seen, and_true] at filtered
      simp [filtered]
    simp only [waitsFor_eq, written]

theorem inputs_alike {op op' : Op} (same : op.Alike (s.sees losses) op') (test : String → Bool) :
    op'.inputs.filter (fun input => test input && waitsFor ⟨s, losses, ops'⟩ op' input) =
      op.inputs.filter (fun input => test input && waitsFor ⟨s, losses, ops⟩ op input) := by
  rw [@waitsFor_alike s losses ops ops' op op' same]
  refine filter_of_seen (fun blob waits => ?_) same.inputs
  simp only [waitsFor_eq, Bool.and_eq_true] at waits
  exact waits.2.1

theorem readers_unseen {blob : String} (unseen : s.sees losses blob = false) :
    readers ⟨s, losses, ops⟩ blob = [] := by
  refine List.eq_nil_iff_forall_not_mem.mpr fun index reads => ?_
  obtain ⟨op, -, -, waits⟩ := mem_readers.mp reads
  simp [waitsFor_eq, unseen] at waits

theorem flatMap_readers_seen (blobs : List String) :
    (blobs.filter (s.sees losses)).flatMap (readers ⟨s, losses, ops⟩) =
      blobs.flatMap (readers ⟨s, losses, ops⟩) := by
  induction blobs with
  | nil => rfl
  | cons blob rest ih =>
    cases seen : s.sees losses blob with
    | false => simp [seen, ih, readers_unseen seen]
    | true => simp [seen, ih]

include alike

theorem found_alike (index : Nat) : (ops[index]? = none ∧ ops'[index]? = none) ∨
    ∃ op op', ops[index]? = some op ∧ ops'[index]? = some op' ∧ op.Alike (s.sees losses) op' := by
  induction alike generalizing index with
  | nil => simp
  | cons same _ ih =>
    cases index with
    | zero => exact .inr ⟨_, _, rfl, rfl, same⟩
    | succ index => exact ih index

theorem needed_alike : needed ⟨s, losses, ops'⟩ = needed ⟨s, losses, ops⟩ := by
  funext index
  rcases found_alike alike index with ⟨missing, missing'⟩ | ⟨op, op', here, there, same⟩
  next => simp [needed, missing, missing']
  next =>
    have filtered := @inputs_alike s losses ops ops' op op' same (fun _ => true)
    simp only [Bool.true_and] at filtered
    simp only [needed, here, there]
    exact congrArg List.length filtered

theorem readers_alike : readers ⟨s, losses, ops'⟩ = readers ⟨s, losses, ops⟩ := by
  funext blob
  have numbered (ops₀ ops₀' : List Op) (same : List.Forall₂ (Op.Alike (s.sees losses)) ops₀ ops₀')
      (start : Nat) :
      ((ops₀'.zipIdx start).flatMap fun entry => (entry.1.inputs.filter fun input =>
        input = blob && waitsFor ⟨s, losses, ops'⟩ entry.1 input).map fun _ => entry.2) =
      (ops₀.zipIdx start).flatMap fun entry => (entry.1.inputs.filter fun input =>
        input = blob && waitsFor ⟨s, losses, ops⟩ entry.1 input).map fun _ => entry.2 := by
    induction same generalizing start with
    | nil => rfl
    | cons first _ ih =>
      have filtered := @inputs_alike s losses ops ops' _ _ first (fun input => decide (input = blob))
      simp only [List.zipIdx_cons, List.flatMap_cons, ih (start + 1), filtered]
  exact numbered ops ops' alike 0

theorem branches_alike : branches ⟨s, losses, ops'⟩ = branches ⟨s, losses, ops⟩ := by
  funext index
  rcases found_alike alike index with ⟨missing, missing'⟩ | ⟨op, op', here, there, same⟩
  next => simp [branches, missing, missing']
  next =>
    simp only [branches, here, there]
    rw [← flatMap_readers_seen, same.outputs, readers_alike alike, flatMap_readers_seen]

end Backward

namespace Walk

variable {ops ops' : List Op}

theorem release_congr {b b' : Backward} (same : b'.readers = b.readers) (w : Walk)
    (inputs : List String) : release b' w inputs = release b w inputs := by
  induction inputs generalizing w with
  | nil => rfl
  | cons input rest ih => simp only [release, same, ih]

variable (alike : List.Forall₂ (Op.Alike (s.sees losses)) ops ops')

include alike

theorem enter_alike (w : Walk) (index pool : Nat) :
    enter ⟨s, losses, ops'⟩ w index pool = enter ⟨s, losses, ops⟩ w index pool := by
  rcases Backward.found_alike alike index with ⟨missing, missing'⟩ | ⟨op, op', here, there, same⟩
  next => simp [enter, missing, missing']
  next =>
    simp only [enter, here, there, filter_of_seen (fun _ => sees_of_gradient) same.inputs,
      filter_of_seen (fun _ => sees_of_gradient) same.outputs, Backward.branches_alike alike,
      release_congr (Backward.readers_alike alike)]

theorem step_alike (w : Walk) : step ⟨s, losses, ops'⟩ w = step ⟨s, losses, ops⟩ w := by
  simp only [step, enter_alike alike, Backward.needed_alike alike]

theorem run_alike (w : Walk) : run ⟨s, losses, ops'⟩ w = run ⟨s, losses, ops⟩ w := by
  fun_induction run ⟨s, losses, ops⟩ w with
  | case1 w stopped =>
    rw [run]
    split
    next => rfl
    next taken => simp [step_alike alike, stopped] at taken
  | case2 w next_ taken ih =>
    rw [run]
    split
    next stopped => simp [step_alike alike, taken] at stopped
    next other taken' =>
      rw [step_alike alike, taken] at taken'
      rw [← Option.some.inj taken', ih]

end Walk

theorem walkGradients_alike {net net' : Net}
    (alike : List.Forall₂ (Op.Alike (s.sees losses)) net.ops net'.ops) :
    walkGradients (.ofNet s losses net') = walkGradients (.ofNet s losses net) := by
  have same := alike_gradientOps alike
  have start : Walk.start (.ofNet s losses net') = Walk.start (.ofNet s losses net) := by
    simp only [Walk.start, Backward.ofNet, Backward.readers_alike same]
  rw [walkGradients, start]
  exact Walk.run_alike same _

end Alike

end StoragePlan
