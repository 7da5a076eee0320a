import StoragePlan.Proofs.Live.Index

set_option autoImplicit false

namespace StoragePlan

theorem max_int64 (a b : Int64) : max a b = if a ≤ b then b else a := rfl

instance lawfulOrderMax_int64 : Std.LawfulOrderMax Int64 where
  max_eq_or a b := by
    rw [max_int64]
    split
    next => exact .inr rfl
    next => exact .inl rfl
  max_le_iff a b c := by
    rw [max_int64]
    split
    next below => exact ⟨fun bound => ⟨Std.le_trans below bound, bound⟩, And.right⟩
    next above =>
      have below := Std.le_of_not_ge above
      exact ⟨fun bound => ⟨bound, Std.le_trans below bound⟩, And.left⟩

theorem toInt_next {time : Int64} (early : time ≠ Int64.maxValue) :
    (Clock.next time).toInt = time.toInt + 1 := by
  have distinct : time.toInt ≠ Int64.maxValue.toInt := fun same => early (Int64.toInt_inj.mp same)
  have low := time.le_toInt
  have high := time.toInt_lt
  rw [Int64.toInt_maxValue] at distinct
  rw [show Clock.next time = time + 1 from rfl, Int64.toInt_add, Int64.toInt_one]
  exact Int.bmod_eq_of_le (by omega) (by omega)

theorem le_next {time : Int64} (early : time ≠ Int64.maxValue) : time ≤ Clock.next time := by
  rw [Int64.le_iff_toInt_le, toInt_next early]
  omega

end StoragePlan
