import Mathlib.Data.List.Infix
import StoragePlan.Gradient.Scope
import StoragePlan.Proofs.Run.Basic

set_option autoImplicit false

namespace StoragePlan

theorem occursIn_iff {pattern text : List Char} : occursIn pattern text = true ↔ pattern <:+: text := by
  induction text with
  | nil => simp [occursIn]
  | cons c cs ih =>
    rw [occursIn, Bool.or_eq_true, List.isPrefixOf_iff_prefix, ih, List.infix_cons_iff]

-- The last character of the mark shows that no match reaches into what is appended.
theorem unmarked_append {text rest : List Char} (unmarked : occursIn "_grad".toList text = false)
    (absent : 'd' ∉ rest) : occursIn "_grad".toList (text ++ rest) = false := by
  have ends : "_grad".toList.getLast? = some 'd' := by decide
  rw [← Bool.not_eq_true, occursIn_iff] at unmarked ⊢
  intro inside
  rcases List.infix_append_iff.mp inside with before | after | ⟨front, back, split, closes, opens⟩
  next => exact unmarked before
  next => exact absent (after.subset (List.mem_of_getLast? ends))
  next =>
    rw [split] at unmarked ends
    cases final : back.getLast? with
    | none =>
      rw [List.getLast?_eq_none_iff.mp final, List.append_nil] at unmarked
      exact unmarked closes.isInfix
    | some last =>
      rw [List.getLast?_append, final, Option.some_or] at ends
      obtain rfl := Option.some.inj ends
      exact absent (opens.subset (List.mem_of_getLast? final))

theorem unmarked_sharedName {scope : String}
    (unmarked : occursIn "_grad".toList scope.toList = false) (index : Nat) :
    occursIn "_grad".toList (sharedName scope index).toList = false := by
  have digits : 'd' ∉ index.repr.toList := by
    rw [Nat.toList_repr]
    intro digit
    exact absurd (Nat.isDigit_of_mem_toDigits (by decide) (by decide) digit) (by decide)
  simp only [sharedName, String.toList_append]
  exact unmarked_append (unmarked_append (unmarked_append unmarked (by decide)) digits) (by decide)

/-- Blobs have one writer at most, no operation reads what it or a later one writes, and every gradient
that is read is written. -/
structure SinglePass (s : GradientScope) (ops : List Op) : Prop where
  single : ops.Pairwise fun a b => ∀ blob ∈ a.outputs, blob ∉ b.outputs
  notInPlace : ∀ op ∈ ops, ∀ blob ∈ op.inputs, blob ∉ op.outputs
  forward : ops.Pairwise fun a b => ∀ blob ∈ a.inputs, blob ∉ b.outputs
  written : ∀ op ∈ ops, ∀ blob ∈ op.inputs, s.isGradient blob = true →
    ∃ writer ∈ ops, blob ∈ writer.outputs

section Positions

variable {s : GradientScope} {ops : List Op} {blob : String} {i j : Nat}

theorem SinglePass.writer_eq (pass : SinglePass s ops) (first : WrittenAt ops blob i)
    (second : WrittenAt ops blob j) : i = j := by
  obtain ⟨a, here, written⟩ := first
  obtain ⟨b, there, written'⟩ := second
  obtain ⟨bound, rfl⟩ := List.getElem?_eq_some_iff.mp here
  obtain ⟨bound', rfl⟩ := List.getElem?_eq_some_iff.mp there
  have apart := List.pairwise_iff_getElem.mp pass.single
  apply Nat.le_antisymm
  · apply Nat.le_of_not_lt
    intro less
    exact apart j i bound' bound less blob written' written
  · apply Nat.le_of_not_lt
    intro less
    exact apart i j bound bound' less blob written written'

theorem SinglePass.writer_lt (pass : SinglePass s ops) (written : WrittenAt ops blob i)
    (read : ReadAt ops blob j) : i < j := by
  obtain ⟨a, here, output⟩ := written
  obtain ⟨b, there, input⟩ := read
  obtain ⟨bound, rfl⟩ := List.getElem?_eq_some_iff.mp here
  obtain ⟨bound', rfl⟩ := List.getElem?_eq_some_iff.mp there
  apply Nat.lt_of_not_le
  intro late
  cases Nat.lt_or_eq_of_le late with
  | inl less => exact List.pairwise_iff_getElem.mp pass.forward j i bound' bound less blob input output
  | inr same =>
    subst same
    exact pass.notInPlace _ (List.getElem_mem bound) blob input output

theorem SinglePass.exists_writer (pass : SinglePass s ops) (read : ReadAt ops blob j)
    (gradient : s.isGradient blob = true) : ∃ i, WrittenAt ops blob i := by
  obtain ⟨op, here, input⟩ := read
  obtain ⟨writer, member, output⟩ := pass.written op (List.mem_of_getElem? here) blob input gradient
  obtain ⟨position, there⟩ := List.mem_iff_getElem?.mp member
  exact ⟨position, writer, there, output⟩

end Positions

theorem SinglePass.gradientOps {s : GradientScope} {ops : List Op} (pass : SinglePass s ops) :
    SinglePass s (ops.filter s.isGradientOp) where
  single := pass.single.filter _
  notInPlace op member := pass.notInPlace op (List.mem_filter.mp member).1
  forward := pass.forward.filter _
  written op member blob input gradient := by
    obtain ⟨writer, among, output⟩ :=
      pass.written op (List.mem_filter.mp member).1 blob input gradient
    have touches : s.isGradientOp writer = true :=
      List.any_eq_true.mpr ⟨blob, List.mem_append_right _ output, gradient⟩
    exact ⟨writer, List.mem_filter.mpr ⟨among, touches⟩, output⟩

namespace Backward

theorem mem_readers {b : Backward} {blob : String} {index : Nat} :
    index ∈ b.readers blob ↔ ∃ op, b.ops[index]? = some op ∧ blob ∈ op.inputs ∧
      b.waitsFor op blob = true := by
  simp only [readers, List.mem_flatMap, Prod.exists, List.mem_zipIdx_iff_getElem?, List.mem_map,
    List.mem_filter, Bool.and_eq_true, decide_eq_true_eq]
  constructor
  · rintro ⟨op, position, here, _, ⟨input, rfl, waits⟩, rfl⟩
    exact ⟨op, here, input, waits⟩
  · rintro ⟨op, here, input, waits⟩
    exact ⟨op, index, here, blob, ⟨input, rfl, waits⟩, rfl⟩

theorem lt_of_mem_branches {b : Backward} (pass : SinglePass b.scope b.ops) {index reader : Nat}
    (branch : reader ∈ b.branches index) : index < reader := by
  unfold branches at branch
  split at branch
  next => simp at branch
  next op here =>
    obtain ⟨blob, output, reads⟩ := List.mem_flatMap.mp branch
    obtain ⟨op', there, input, -⟩ := mem_readers.mp reads
    exact pass.writer_lt ⟨op, here, output⟩ ⟨op', there, input⟩

end Backward

end StoragePlan
