set_option autoImplicit false

namespace StoragePlan

def twoTo (n : Nat) : Nat := Nat.pow 2 n

def tenTo (n : Nat) : Nat := Nat.pow 10 n

structure Binary64 where
  bits : UInt64
deriving DecidableEq

namespace Binary64

def signBit : Nat := twoTo 63

/-- The bit above the fraction, which a normal number has without writing it. -/
def hiddenBit : Nat := twoTo 52

def magnitude (x : Binary64) : Nat := x.bits.toNat % signBit

def isNegative (x : Binary64) : Bool := signBit ≤ x.bits.toNat

def infiniteMagnitude : Nat := 0x7ff * hiddenBit

def isFinite (x : Binary64) : Bool := x.magnitude < infiniteMagnitude

def isInfinite (x : Binary64) : Bool := x.magnitude = infiniteMagnitude

def isNaN (x : Binary64) : Bool := infiniteMagnitude < x.magnitude

def isZero (x : Binary64) : Bool := x.magnitude = 0

def significand (x : Binary64) : Nat :=
  if x.magnitude < hiddenBit then x.magnitude else hiddenBit + x.magnitude % hiddenBit

def scale (x : Binary64) : Int :=
  if x.magnitude < hiddenBit then -1074 else (x.magnitude / hiddenBit : Nat) - 1075

def ratio (x : Binary64) : Nat × Nat :=
  (x.significand * twoTo x.scale.toNat, twoTo (-x.scale).toNat)

def sameValue (x y : Binary64) : Bool :=
  !x.isNaN && !y.isNaN && (x.bits = y.bits || (x.isZero && y.isZero))

def ofMagnitude (negative : Bool) (magnitude : Nat) : Binary64 :=
  ⟨UInt64.ofNat (magnitude + if negative then signBit else 0)⟩

def negate (x : Binary64) : Binary64 := ofMagnitude (!x.isNegative) x.magnitude

def zero : Binary64 := ⟨0⟩

def roundQuotient (num den : Nat) : Nat :=
  let floor := num / den
  let twice := 2 * (num % den)
  if twice < den then floor
  else if den < twice then floor + 1
  else floor + floor % 2

/-- The number nearest to the quotient, from half the last step above the largest one on infinity. -/
def ofQuotient (num den : Nat) : Binary64 :=
  if num = 0 then zero else
    -- The last place: the quotient then lies in `[2 ^ 52, 2 ^ 53)` units of it, or is subnormal.
    let estimate : Int := (num.log2 : Int) - den.log2 - 52
    let scaled (place : Int) : Nat × Nat := (num * twoTo (-place).toNat, den * twoTo place.toNat)
    let short := (scaled estimate).1 < (scaled estimate).2 * hiddenBit
    let place := max (-1074) (if short then estimate - 1 else estimate)
    let units := roundQuotient (scaled place).1 (scaled place).2
    -- A carry out of the fraction moves on to the next exponent by itself.
    ofMagnitude false (min infiniteMagnitude ((place + 1074).toNat * hiddenBit + units))

def ofNat (n : Nat) : Binary64 := ofQuotient n 1

/-- Sums, products and quotients are of finite numbers that are not negative, rounded once. -/
def plus (x y : Binary64) : Binary64 :=
  ofQuotient (x.ratio.1 * y.ratio.2 + y.ratio.1 * x.ratio.2) (x.ratio.2 * y.ratio.2)

def times (x y : Binary64) : Binary64 :=
  ofQuotient (x.ratio.1 * y.ratio.1) (x.ratio.2 * y.ratio.2)

def dividedBy (x y : Binary64) : Binary64 :=
  ofQuotient (x.ratio.1 * y.ratio.2) (x.ratio.2 * y.ratio.1)

end Binary64

end StoragePlan
