import StoragePlan.Decimal.Layout
import StoragePlan.Json.Basic

set_option autoImplicit false

namespace StoragePlan.Json

structure Numeral where
  negative : Bool
  whole : List Nat
  fraction : Option (List Nat)
  exponent : Option Int
deriving DecidableEq

def isDigit (c : Char) : Bool := '0' ≤ c && c ≤ '9'

def digitValue (c : Char) : Nat := c.toNat - 48

def digitsValue (digits : List Nat) : Nat := digits.foldl (fun n d => n * 10 + d) 0

def spanDigits (cs : List Char) : List Nat × List Char :=
  ((cs.takeWhile isDigit).map digitValue, cs.dropWhile isDigit)

def someDigits (cs : List Char) : Except Fault (List Nat × List Char) :=
  match spanDigits cs with
  | ([], rest) => .error (.atRest rest)
  | found => .ok found

def scanWhole (cs : List Char) : Except Fault (List Nat × List Char) := do
  let (digits, rest) ← someDigits cs
  match digits with
  | 0 :: _ :: _ => .error .malformed
  | _ => return (digits, rest)

def scanFraction : List Char → Except Fault (Option (List Nat) × List Char)
  | '.' :: cs => do
    let (digits, rest) ← someDigits cs
    return (some digits, rest)
  | cs => .ok (none, cs)

def scanExponentDigits (negative : Bool) (cs : List Char) :
    Except Fault (Option Int × List Char) := do
  let (digits, rest) ← someDigits cs
  let size : Int := digitsValue digits
  return (some (if negative then -size else size), rest)

def scanExponent : List Char → Except Fault (Option Int × List Char)
  | c :: cs =>
    if c = 'e' ∨ c = 'E' then
      match cs with
      | '+' :: cs => scanExponentDigits false cs
      | '-' :: cs => scanExponentDigits true cs
      | cs => scanExponentDigits false cs
    else .ok (none, c :: cs)
  | [] => .ok (none, [])

def scanUnsigned (negative : Bool) (cs : List Char) : Except Fault (Numeral × List Char) := do
  let (whole, cs) ← scanWhole cs
  let (fraction, cs) ← scanFraction cs
  let (exponent, rest) ← scanExponent cs
  return (⟨negative, whole, fraction, exponent⟩, rest)

def scanNumeral : List Char → Except Fault (Numeral × List Char)
  | '-' :: cs => scanUnsigned true cs
  | cs => scanUnsigned false cs

inductive Number
  | whole (n : Int)
  | real (x : Binary64)
deriving DecidableEq

def absorb : Nat → List Nat → Nat × List Nat
  | n, [] => (n, [])
  | n, d :: ds => if n * 10 + d < UInt64.size then absorb (n * 10 + d) ds else (n, d :: ds)

def powerOfTen (exponent : Nat) : Binary64 := .ofNat (tenTo exponent)

/-- The number times `10 ^ exponent`, in steps where the power itself is out of range. -/
def scaleByPower : Nat → Binary64 → Int → Except Fault Binary64
  | 0, x, _ => .ok x
  | steps + 1, x, exponent =>
    if exponent.natAbs ≤ 308 then
      if 0 ≤ exponent then
        let product := x.times (powerOfTen exponent.toNat)
        if product.isInfinite then .error .malformed else .ok product
      else .ok (x.dividedBy (powerOfTen (-exponent).toNat))
    else if x.isZero then .ok x
    else if 0 ≤ exponent then .error .malformed
    else scaleByPower steps (x.dividedBy (powerOfTen 308)) (exponent + 308)

def withSign (negative : Bool) (x : Binary64) : Binary64 := if negative then x.negate else x

def Numeral.real (n : Numeral) : Except Fault Binary64 := do
  let (head, dropped) := absorb 0 n.whole
  let fraction := n.fraction.getD []
  let (significand, unused) := absorb head fraction
  let exponent : Int := dropped.length - (fraction.length - unused.length : Nat) + n.exponent.getD 0
  -- Sixty-four bits divided by `10 ^ 308` three times are zero.
  let x ← scaleByPower 4 (.ofNat significand) exponent
  return withSign n.negative x

def Numeral.evaluate (n : Numeral) : Except Fault Number :=
  let value := digitsValue n.whole
  if n.fraction.isSome ∨ n.exponent.isSome ∨ UInt64.size ≤ value then n.real.map .real
  else if n.negative = false then .ok (.whole value)
  else if value = 0 ∨ -(value : Int) < Int64.minValue.toInt then .ok (.real (Binary64.ofNat value).negate)
  else .ok (.whole (-value))

def Number.toInt64 : Number → Except Fault Int64
  | .whole n =>
    if Int64.minValue.toInt ≤ n ∧ n ≤ Int64.maxValue.toInt then .ok (.ofInt n)
    else .error .mismatched
  | .real _ => .error .mismatched

def Number.toBinary64 : Number → Binary64
  | .whole n => withSign (n < 0) (.ofNat n.natAbs)
  | .real x => x

def readNumber (cs : List Char) : Except Fault (Number × List Char) := do
  let (numeral, rest) ← scanNumeral cs
  return (← numeral.evaluate, rest)

/-- Passes over a literal whatever its size; a literal that ends too early breaks the grammar here. -/
def skipNumber (cs : List Char) : Except Fault (List Char) :=
  match scanNumeral cs with
  | .ok (_, rest) => .ok rest
  | .error _ => .error .malformed

def writeInteger (n : Int64) : List Char :=
  if n.toInt < 0 then '-' :: (decimalDigits n.toInt.natAbs).toList
  else (decimalDigits n.toInt.natAbs).toList

def layout : DecimalLayout where
  tie := .toEven
  leastPositional := -5
  firstScientific := 16
  plus := "+"
  nan := "null"
  infinity := "null"
  negativeInfinity := "null"

def writeReal (x : Binary64) : List Char := (layout.write x).toList

end StoragePlan.Json
