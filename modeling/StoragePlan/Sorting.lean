set_option autoImplicit false

namespace StoragePlan

variable {α : Type} (before : α → α → Bool)

/-- Puts an item in front of the first one that it may stand before. -/
def insertSorted (item : α) : List α → List α
  | [] => [item]
  | head :: rest =>
    if before item head then item :: head :: rest else head :: insertSorted item rest

def sortBy (items : List α) : List α := items.foldr (insertSorted before) []

theorem insertSorted_perm (item : α) (items : List α) :
    (insertSorted before item items).Perm (item :: items) := by
  induction items with
  | nil => exact .refl _
  | cons head rest ih =>
    simp only [insertSorted]
    split
    next => exact .refl _
    next => exact (ih.cons head).trans (.swap item head rest)

theorem sortBy_perm (items : List α) : (sortBy before items).Perm items := by
  induction items with
  | nil => exact .refl _
  | cons head rest ih => exact (insertSorted_perm before head _).trans (ih.cons head)

@[simp] theorem mem_sortBy {item : α} {items : List α} : item ∈ sortBy before items ↔ item ∈ items :=
  (sortBy_perm before items).mem_iff

section Sorted

variable {before} (total : ∀ a b, before a b = true ∨ before b a = true)
  (trans : ∀ a b c, before a b = true → before b c = true → before a c = true)
  {kept : α → α → Prop}

include total trans

theorem insertSorted_stable (item : α) {items : List α} (new : ∀ other ∈ items, kept item other)
    (sorted : items.Pairwise fun a b => before a b = true ∧ (before b a = true → kept a b)) :
    (insertSorted before item items).Pairwise fun a b =>
      before a b = true ∧ (before b a = true → kept a b) := by
  induction items with
  | nil => simp [insertSorted]
  | cons head rest ih =>
    have ⟨least, later⟩ := List.pairwise_cons.mp sorted
    have ⟨here, newer⟩ := List.forall_mem_cons.mp new
    simp only [insertSorted]
    split
    next first =>
      refine List.pairwise_cons.mpr ⟨fun other inside => ⟨?_, fun _ => new other inside⟩, sorted⟩
      rcases List.mem_cons.mp inside with rfl | inside
      next => exact first
      next => exact trans _ _ _ first (least other inside).1
    next notFirst =>
      refine List.pairwise_cons.mpr ⟨fun other inside => ?_, ih newer later⟩
      rcases List.mem_cons.mp ((insertSorted_perm before item rest).mem_iff.mp inside) with rfl | inside
      next => exact ⟨(total _ _).resolve_left notFirst, fun first => absurd first notFirst⟩
      next => exact least other inside

theorem sortBy_stable {items : List α} (given : items.Pairwise kept) :
    (sortBy before items).Pairwise fun a b => before a b = true ∧ (before b a = true → kept a b) := by
  induction items with
  | nil => exact .nil
  | cons head rest ih =>
    have ⟨new, later⟩ := List.pairwise_cons.mp given
    exact insertSorted_stable total trans head
      (fun other inside => new other ((mem_sortBy before).mp inside)) (ih later)

theorem sortBy_pairwise (items : List α) :
    (sortBy before items).Pairwise fun a b => before a b = true := by
  have unrelated : items.Pairwise fun _ _ => True := List.pairwise_of_forall fun _ _ => trivial
  exact (sortBy_stable total trans unrelated).imp And.left

end Sorted

end StoragePlan
