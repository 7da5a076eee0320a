import StoragePlan.Decimal.Shortest

set_option autoImplicit false

namespace StoragePlan

structure DecimalLayout where
  tie : Tie
  leastPositional : Int
  firstScientific : Int
  plus : String
  nan : String
  infinity : String
  negativeInfinity : String

def decimalDigits (n : Nat) : String := n.repr

/-- A point is placed after the first `whole` digits; missing digits on either side are zeros. -/
def positional (digits : List Char) (whole : Int) : List Char :=
  if whole ≤ 0 then
    '0' :: '.' :: (List.replicate (-whole).toNat '0' ++ digits)
  else if digits.length ≤ whole.toNat then
    digits ++ List.replicate (whole.toNat - digits.length) '0' ++ ['.', '0']
  else
    digits.take whole.toNat ++ '.' :: digits.drop whole.toNat

def scientific (plus : String) (digits : List Char) (exponent : Int) : List Char :=
  let mantissa :=
    match digits with
    | first :: second :: rest => first :: '.' :: second :: rest
    | short => short
  let sign := if exponent < 0 then ['-'] else plus.toList
  mantissa ++ 'e' :: sign ++ (decimalDigits exponent.natAbs).toList

def DecimalLayout.write (layout : DecimalLayout) (x : Binary64) : String :=
  if x.isNaN then layout.nan
  else if x.isInfinite then if x.isNegative then layout.negativeInfinity else layout.infinity
  else
    let sign := if x.isNegative then ['-'] else []
    if x.isZero then String.ofList (sign ++ "0.0".toList)
    else
      let s := x.shortest layout.tie
      let digits := (decimalDigits s.digits).toList
      let exponent := s.power + digits.length - 1
      let body :=
        if layout.leastPositional ≤ exponent ∧ exponent < layout.firstScientific then
          positional digits (exponent + 1)
        else scientific layout.plus digits exponent
      String.ofList (sign ++ body)

end StoragePlan
