import StoragePlan.Error
import StoragePlan.Json.Record

set_option autoImplicit false

namespace StoragePlan.Json

variable {cs rest : List Char}

theorem skipBlank_suffix (cs : List Char) : skipBlank cs <:+ cs := List.dropWhile_suffix isBlank

theorem suffix_of_skipBlank {c : Char} (blank : skipBlank cs = c :: rest) : rest <:+ cs :=
  (List.suffix_cons c rest).trans (blank ▸ skipBlank_suffix cs)

theorem expect_suffix {expected : List Char} (passed : expect expected cs = .ok rest) : rest <:+ cs := by
  fun_induction expect expected cs with
  | case1 => exact Except.ok.inj passed ▸ List.suffix_rfl
  | case3 _ _ _ ih => exact (ih passed).trans (List.suffix_cons _ _)
  | case2 | case4 => simp at passed

theorem expectAfterBlank_suffix {expected : Char} (passed : expectAfterBlank expected cs = .ok rest) :
    rest <:+ cs := by
  unfold expectAfterBlank at passed
  split at passed
  next => simp at passed
  next c tail blank =>
    split at passed
    next => exact Except.ok.inj passed ▸ suffix_of_skipBlank blank
    next => simp at passed

theorem someDigits_suffix {digits : List Nat} (read : someDigits cs = .ok (digits, rest)) :
    rest <:+ cs := by
  unfold someDigits at read
  split at read
  next => simp at read
  next =>
    obtain ⟨-, rfl⟩ := Prod.mk.inj (Except.ok.inj read)
    exact List.dropWhile_suffix isDigit

theorem scanWhole_suffix {digits : List Nat} (read : scanWhole cs = .ok (digits, rest)) :
    rest <:+ cs := by
  obtain ⟨⟨_, _⟩, scanned, read⟩ := bind_eq_ok.mp read
  dsimp only at read
  split at read
  next => simp at read
  next =>
    obtain ⟨rfl, rfl⟩ := Prod.mk.inj (Except.ok.inj read)
    exact someDigits_suffix scanned

theorem scanFraction_suffix {fraction : Option (List Nat)}
    (read : scanFraction cs = .ok (fraction, rest)) : rest <:+ cs := by
  unfold scanFraction at read
  split at read
  next =>
    obtain ⟨⟨_, _⟩, scanned, read⟩ := bind_eq_ok.mp read
    obtain ⟨-, rfl⟩ := Prod.mk.inj (Except.ok.inj read)
    exact (someDigits_suffix scanned).trans (List.suffix_cons _ _)
  next =>
    obtain ⟨-, rfl⟩ := Prod.mk.inj (Except.ok.inj read)
    exact List.suffix_rfl

theorem scanExponentDigits_suffix {negative : Bool} {exponent : Option Int}
    (read : scanExponentDigits negative cs = .ok (exponent, rest)) : rest <:+ cs := by
  obtain ⟨⟨_, _⟩, scanned, read⟩ := bind_eq_ok.mp read
  obtain ⟨-, rfl⟩ := Prod.mk.inj (Except.ok.inj read)
  exact someDigits_suffix scanned

theorem scanExponent_suffix {exponent : Option Int}
    (read : scanExponent cs = .ok (exponent, rest)) : rest <:+ cs := by
  unfold scanExponent at read
  split at read
  next c tail =>
    split at read
    next =>
      refine List.IsSuffix.trans ?_ (List.suffix_cons c tail)
      split at read
      next => exact (scanExponentDigits_suffix read).trans (List.suffix_cons _ _)
      next => exact (scanExponentDigits_suffix read).trans (List.suffix_cons _ _)
      next => exact scanExponentDigits_suffix read
    next =>
      obtain ⟨-, rfl⟩ := Prod.mk.inj (Except.ok.inj read)
      exact List.suffix_rfl
  next =>
    obtain ⟨-, rfl⟩ := Prod.mk.inj (Except.ok.inj read)
    exact List.suffix_rfl

theorem scanUnsigned_suffix {negative : Bool} {numeral : Numeral}
    (read : scanUnsigned negative cs = .ok (numeral, rest)) : rest <:+ cs := by
  obtain ⟨⟨_, _⟩, whole, read⟩ := bind_eq_ok.mp read
  obtain ⟨⟨_, _⟩, fraction, read⟩ := bind_eq_ok.mp read
  obtain ⟨⟨_, _⟩, exponent, read⟩ := bind_eq_ok.mp read
  obtain ⟨-, rfl⟩ := Prod.mk.inj (Except.ok.inj read)
  exact ((scanExponent_suffix exponent).trans (scanFraction_suffix fraction)).trans
    (scanWhole_suffix whole)

theorem scanNumeral_suffix {numeral : Numeral} (read : scanNumeral cs = .ok (numeral, rest)) :
    rest <:+ cs := by
  unfold scanNumeral at read
  split at read
  next => exact (scanUnsigned_suffix read).trans (List.suffix_cons _ _)
  next => exact scanUnsigned_suffix read

theorem readNumber_suffix {found : Number} (read : readNumber cs = .ok (found, rest)) :
    rest <:+ cs := by
  obtain ⟨⟨_, _⟩, scanned, read⟩ := bind_eq_ok.mp read
  obtain ⟨_, -, read⟩ := bind_eq_ok.mp read
  obtain ⟨-, rfl⟩ := Prod.mk.inj (Except.ok.inj read)
  exact scanNumeral_suffix scanned

theorem skipNumber_suffix (passed : skipNumber cs = .ok rest) : rest <:+ cs := by
  unfold skipNumber at passed
  split at passed
  next scanned => exact Except.ok.inj passed ▸ scanNumeral_suffix scanned
  next => simp at passed

theorem skipBody_suffix (passed : skipBody cs = .ok rest) : rest <:+ cs := by
  fun_induction skipBody cs with
  | case2 => exact Except.ok.inj passed ▸ List.suffix_cons _ _
  | case4 _ _ _ _ _ ih => exact (ih passed).trans (List.suffix_cons _ _)
  | case6 _ _ _ _ a b c d _ _ ih => exact (ih passed).trans (List.suffix_append [_, 'u', a, b, c, d] _)
  | case9 _ _ _ _ e _ _ _ _ ih => exact (ih passed).trans (List.suffix_append [_, e] _)
  | case1 | case3 | case5 | case7 | case8 | case10 => simp at passed

theorem skipScalar_suffix (passed : skipScalar cs = .ok rest) : rest <:+ cs := by
  unfold skipScalar at passed
  split at passed
  next => exact (expect_suffix passed).trans (List.suffix_cons _ _)
  next => exact (expect_suffix passed).trans (List.suffix_cons _ _)
  next => exact (expect_suffix passed).trans (List.suffix_cons _ _)
  next => exact (skipBody_suffix passed).trans (List.suffix_cons _ _)
  next =>
    split at passed
    next => exact skipNumber_suffix passed
    next => simp at passed
  next => simp at passed

theorem skipLabel_suffix {bracket : Bracket} (passed : bracket.skipLabel cs = .ok rest) :
    rest <:+ cs := by
  cases bracket with
  | list => exact Except.ok.inj passed ▸ List.suffix_rfl
  | object =>
    obtain ⟨_, quote, passed⟩ := bind_eq_ok.mp passed
    obtain ⟨_, body, passed⟩ := bind_eq_ok.mp passed
    exact ((expectAfterBlank_suffix passed).trans (skipBody_suffix body)).trans
      (expectAfterBlank_suffix quote)

theorem skipFrom_suffix {steps : Nat} {position : Position} {brackets : List Bracket}
    (passed : skipFrom steps position brackets cs = .ok rest) : rest <:+ cs := by
  fun_induction skipFrom steps position brackets cs with
  | case3 _ _ _ _ blank ih | case4 _ _ _ _ blank ih => exact (ih passed).trans (suffix_of_skipBlank blank)
  | case5 _ _ cs _ _ _ ih =>
    obtain ⟨_, scalar, passed⟩ := bind_eq_ok.mp passed
    exact ((ih _ passed).trans (skipScalar_suffix scalar)).trans (skipBlank_suffix cs)
  | case6 => exact Except.ok.inj passed ▸ List.suffix_rfl
  | case8 _ _ _ _ _ blank ih | case11 _ _ _ _ _ blank ih =>
    exact (ih passed).trans (suffix_of_skipBlank blank)
  | case9 _ _ _ cs _ _ blank _ ih =>
    obtain ⟨_, label, passed⟩ := bind_eq_ok.mp passed
    exact ((ih _ passed).trans (skipLabel_suffix label)).trans (blank ▸ skipBlank_suffix cs)
  | case12 _ _ _ _ _ blank _ ih =>
    obtain ⟨_, label, passed⟩ := bind_eq_ok.mp passed
    exact ((ih _ passed).trans (skipLabel_suffix label)).trans (suffix_of_skipBlank blank)
  | case1 | case2 | case7 | case10 | case13 => simp at passed

theorem nextItem_suffix {first : Bool} (found : nextItem first cs = .ok (some rest)) : rest <:+ cs := by
  unfold nextItem at found
  split at found
  next => simp at found
  next c tail blank =>
    have all : c :: tail <:+ cs := blank ▸ skipBlank_suffix cs
    split at found
    next => simp at found
    next =>
      split at found
      next => exact Option.some.inj (Except.ok.inj found) ▸ all
      next =>
        split at found
        next =>
          split at found
          next => simp at found
          next blank' =>
            split at found
            next => simp at found
            next =>
              obtain rfl := Option.some.inj (Except.ok.inj found)
              exact (blank' ▸ skipBlank_suffix tail).trans ((List.suffix_cons c tail).trans all)
        next => simp at found

theorem nextKey_suffix {first more : Bool} (found : Record.nextKey first cs = .ok (rest, more)) :
    rest <:+ cs := by
  unfold Record.nextKey at found
  split at found
  next => simp at found
  next c tail blank =>
    have after : tail <:+ cs := suffix_of_skipBlank blank
    split at found
    next => exact (Prod.mk.inj (Except.ok.inj found)).1 ▸ after
    next =>
      split at found
      next =>
        split at found
        next => exact (Prod.mk.inj (Except.ok.inj found)).1 ▸ after
        next => simp at found
      next =>
        split at found
        next =>
          obtain ⟨_, quote, same⟩ := map_eq_ok.mp found
          exact (Prod.mk.inj same).1 ▸ (expectAfterBlank_suffix quote).trans after
        next => simp at found

end StoragePlan.Json
