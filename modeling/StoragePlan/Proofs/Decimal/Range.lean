import Mathlib.Algebra.Group.Nat.Defs
import StoragePlan.Decimal.Binary64

set_option autoImplicit false

namespace StoragePlan.Binary64

theorem hiddenBit_eq : hiddenBit = 2 ^ 52 := rfl

theorem isFinite_iff {x : Binary64} : x.isFinite = true ↔ x.magnitude < 2047 * hiddenBit := decide_eq_true_iff

theorem magnitude_ofMagnitude (negative : Bool) {m : Nat} (small : m < signBit) :
    (ofMagnitude negative m).magnitude = m := by
  have size : signBit = 2 ^ 63 := rfl
  simp only [ofMagnitude, magnitude, UInt64.toNat_ofNat']
  rw [size] at small ⊢
  cases negative with
  | false =>
    rw [if_neg Bool.false_ne_true]
    omega
  | true =>
    rw [if_pos rfl]
    omega

theorem magnitude_negate (x : Binary64) : x.negate.magnitude = x.magnitude :=
  magnitude_ofMagnitude _ (Nat.mod_lt _ (by decide))

theorem roundQuotient_le (num den : Nat) : roundQuotient num den ≤ num / den + 1 := by
  simp only [roundQuotient]
  split
  next => omega
  next =>
    split
    next => omega
    next => omega

theorem magnitude_ofQuotient_le (num den : Nat) : (ofQuotient num den).magnitude ≤ infiniteMagnitude := by
  have small (n : Nat) : (ofMagnitude false (min infiniteMagnitude n)).magnitude ≤ infiniteMagnitude := by
    have below : infiniteMagnitude < signBit := by decide
    rw [magnitude_ofMagnitude false (by omega)]
    omega
  simp only [ofQuotient]
  split
  next => decide
  next => exact small _

section Place

variable {num den k : Nat} {place : Int}

theorem roundQuotient_scaled_le (positive : 0 < den) (fine : (num.log2 : Int) - den.log2 - 53 ≤ place) :
    roundQuotient (num * twoTo (-place).toNat) (den * twoTo place.toNat) ≤ 4 * hiddenBit := by
  have top : num < 2 ^ (num.log2 + 1) := Nat.lt_log2_self
  have bottom : 2 ^ den.log2 ≤ den := Nat.log2_self_le (by omega)
  have exponents : num.log2 + 1 + (-place).toNat ≤ den.log2 + place.toNat + 54 := by omega
  have below : num * 2 ^ (-place).toNat < den * 2 ^ place.toNat * 2 ^ 54 := by
    calc num * 2 ^ (-place).toNat
      _ < 2 ^ (num.log2 + 1) * 2 ^ (-place).toNat := Nat.mul_lt_mul_of_pos_right top (Nat.two_pow_pos _)
      _ = 2 ^ (num.log2 + 1 + (-place).toNat) := (Nat.pow_add ..).symm
      _ ≤ 2 ^ (den.log2 + place.toNat + 54) := Nat.pow_le_pow_right (by decide) exponents
      _ = 2 ^ den.log2 * 2 ^ place.toNat * 2 ^ 54 := by rw [Nat.pow_add, Nat.pow_add]
      _ ≤ den * 2 ^ place.toNat * 2 ^ 54 := Nat.mul_le_mul_right _ (Nat.mul_le_mul_right _ bottom)
  have rounded := roundQuotient_le (num * 2 ^ (-place).toNat) (den * 2 ^ place.toNat)
  have quotient := Nat.div_lt_of_lt_mul below
  rw [hiddenBit_eq]
  exact Nat.le_trans rounded (by omega)

end Place

theorem ofQuotient_eq {num : Nat} (den : Nat) (some : num ≠ 0) :
    ∃ place : Int, (num.log2 : Int) - den.log2 - 53 ≤ place ∧
      place ≤ max (-1074) ((num.log2 : Int) - den.log2 - 52) ∧
      ofQuotient num den = ofMagnitude false (min infiniteMagnitude ((place + 1074).toNat * hiddenBit +
        roundQuotient (num * twoTo (-place).toNat) (den * twoTo place.toNat))) := by
  rw [ofQuotient, if_neg some]
  refine ⟨_, ?_, ?_, rfl⟩
  next =>
    split
    next => omega
    next => omega
  next =>
    split
    next => omega
    next => omega

theorem magnitude_ofQuotient_lt {num den k : Nat} (small : num < den * 2 ^ k) :
    (ofQuotient num den).magnitude < (k + 1027) * hiddenBit := by
  by_cases none : num = 0
  next =>
    have nothing : (ofQuotient num den).magnitude = 0 := by
      rw [ofQuotient, if_pos none]
      decide
    rw [nothing, hiddenBit_eq]
    omega
  next =>
    have positive : 0 < den := Nat.pos_of_ne_zero fun none => by simp [none] at small
    have exponent : num.log2 < den.log2 + 1 + k := by
      refine (Nat.pow_lt_pow_iff_right (by decide : 1 < 2)).mp ?_
      calc 2 ^ num.log2
        _ ≤ num := Nat.log2_self_le none
        _ < den * 2 ^ k := small
        _ ≤ 2 ^ (den.log2 + 1) * 2 ^ k := Nat.mul_le_mul_right _ (Nat.le_of_lt Nat.lt_log2_self)
        _ = 2 ^ (den.log2 + 1 + k) := (Nat.pow_add ..).symm
    have ⟨place, fine, coarse, same⟩ := ofQuotient_eq den none
    have units := roundQuotient_scaled_le positive fine
    have above : (place + 1074).toNat * hiddenBit ≤ (k + 1022) * hiddenBit :=
      Nat.mul_le_mul_right _ (by omega)
    have below : infiniteMagnitude < signBit := by decide
    have hidden : 0 < hiddenBit := by decide
    rw [same, magnitude_ofMagnitude false (Nat.lt_of_le_of_lt (Nat.min_le_left ..) below)]
    refine Nat.lt_of_le_of_lt (Nat.min_le_right ..) ?_
    calc _ ≤ (k + 1022) * hiddenBit + 4 * hiddenBit := Nat.add_le_add above units
      _ = (k + 1026) * hiddenBit := (Nat.add_mul ..).symm
      _ < (k + 1027) * hiddenBit := Nat.mul_lt_mul_of_pos_right (by omega) hidden

theorem significand_lt (x : Binary64) : x.significand < 2 ^ 53 := by
  unfold significand
  have rest := Nat.mod_lt x.magnitude (by decide : hiddenBit > 0)
  rw [hiddenBit_eq] at *
  split
  next => omega
  next => omega

theorem scale_le {x : Binary64} {m : Nat} (small : x.magnitude < (m + 1023) * hiddenBit) (enough : 53 ≤ m) :
    x.scale.toNat + 53 ≤ m := by
  unfold scale
  split
  next => simpa using enough
  next =>
    have exponent : x.magnitude / hiddenBit < m + 1023 := Nat.div_lt_of_lt_mul (by rwa [Nat.mul_comm])
    omega

theorem ratio_lt {x : Binary64} {m : Nat} (small : x.magnitude < (m + 1023) * hiddenBit) (enough : 53 ≤ m) :
    x.ratio.1 < x.ratio.2 * 2 ^ m := by
  have short := significand_lt x
  have low := scale_le small enough
  calc x.significand * 2 ^ x.scale.toNat
    _ < 2 ^ 53 * 2 ^ x.scale.toNat := Nat.mul_lt_mul_of_pos_right short (Nat.two_pow_pos _)
    _ = 2 ^ (x.scale.toNat + 53) := by rw [← Nat.pow_add, Nat.add_comm]
    _ ≤ 2 ^ m := Nat.pow_le_pow_right (by decide) low
    _ ≤ 2 ^ (-x.scale).toNat * 2 ^ m := Nat.le_mul_of_pos_left _ (Nat.two_pow_pos _)

theorem magnitude_dividedBy_lt {x y : Binary64} {m : Nat} (small : x.magnitude < (m + 1023) * hiddenBit)
    (enough : 53 ≤ m) (one : y.ratio.2 ≤ y.ratio.1) :
    (x.dividedBy y).magnitude < (m + 4 + 1023) * hiddenBit := by
  apply magnitude_ofQuotient_lt
  have positive : 0 < y.ratio.2 := Nat.pow_pos (by decide)
  calc x.ratio.1 * y.ratio.2
    _ < x.ratio.2 * 2 ^ m * y.ratio.2 := Nat.mul_lt_mul_of_pos_right (ratio_lt small enough) positive
    _ = x.ratio.2 * y.ratio.2 * 2 ^ m := Nat.mul_right_comm ..
    _ ≤ x.ratio.2 * y.ratio.1 * 2 ^ m := Nat.mul_le_mul_right _ (Nat.mul_le_mul_left _ one)

end StoragePlan.Binary64
