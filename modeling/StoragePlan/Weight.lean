set_option autoImplicit false

namespace StoragePlan

def total : List Nat → Nat
  | [] => 0
  | n :: rest => n + total rest

@[simp] theorem total_nil : total [] = 0 := rfl

@[simp] theorem total_cons (n : Nat) (rest : List Nat) : total (n :: rest) = n + total rest := rfl

def weightOf {α : Type} (weight : α → Nat) (test : α → Bool) (items : List α) : Nat :=
  total ((items.filter test).map weight)

section Weight

variable {α : Type} {weight : α → Nat} {weak strong : α → Bool}

theorem weightOf_le (weaker : ∀ item, strong item → weak item) (items : List α) :
    weightOf weight strong items ≤ weightOf weight weak items := by
  unfold weightOf
  induction items with
  | nil => simp
  | cons head rest ih =>
    cases hw : weak head <;> cases hs : strong head <;> simp [hw, hs]
    next => exact ih
    next => exact absurd (weaker head hs) (by simp [hw])
    next => omega
    next => omega

theorem weightOf_add_le {items : List α} {item : α} (weaker : ∀ item, strong item → weak item)
    (inside : item ∈ items) (kept : weak item) (dropped : strong item = false) :
    weightOf weight strong items + weight item ≤ weightOf weight weak items := by
  induction items with
  | nil => simp at inside
  | cons head rest ih =>
    rcases List.mem_cons.mp inside with same | inside
    next =>
      have tail : weightOf weight strong rest ≤ weightOf weight weak rest := weightOf_le weaker rest
      unfold weightOf at tail ⊢
      subst same
      simp [kept, dropped]
      omega
    next =>
      have tail := ih inside
      unfold weightOf at tail ⊢
      cases hw : weak head <;> cases hs : strong head <;> simp [hw, hs]
      next => exact tail
      next => exact absurd (weaker head hs) (by simp [hw])
      next => omega
      next => omega

end Weight

end StoragePlan
