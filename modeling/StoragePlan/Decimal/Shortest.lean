import StoragePlan.Decimal.Binary64

set_option autoImplicit false

namespace StoragePlan

structure Scientific where
  digits : Nat
  power : Int
deriving DecidableEq

/-- Which of two neighbours at the same distance is taken. -/
inductive Tie
  | toEven
  | upward
deriving DecidableEq

namespace Binary64

structure Neighbourhood where
  value : Nat
  below : Nat
  above : Nat
  closed : Bool

def neighbourhood (x : Binary64) : Neighbourhood :=
  -- Under a power of two the numbers lie twice as dense.
  let halfBelow := if x.significand = hiddenBit ∧ 2 * hiddenBit ≤ x.magnitude then 1 else 2
  { value := 4 * x.significand
    below := 4 * x.significand - halfBelow
    above := 4 * x.significand + 2
    closed := x.significand % 2 = 0 }

/-- The first `e` at or below the given one with `10 ^ e ≤ num / den`. -/
def exponentFrom (num den : Nat) : Nat → Int → Int
  | 0, e => e
  | steps + 1, e =>
    if den * tenTo e.toNat ≤ num * tenTo (-e).toNat then e
    else exponentFrom num den steps (e - 1)

/-- The greatest `e` with `10 ^ e ≤ num / den`. A decimal digit is worth a little more than 100000 /
30103 binary ones, which bounds it from above to within two. -/
def decimalExponent (num den : Nat) : Int :=
  let binary : Int := (num.log2 : Int) - den.log2 + 1
  exponentFrom num den 5 (binary * 30103 / 100000 + 1)

def onGrid (tie : Tie) (x : Binary64) (power : Int) : Option Scientific :=
  let n := x.neighbourhood
  -- Both sides are brought to one unit: `left * a` compares `a` quarter units with `right * g` grid steps.
  let quarter := x.scale - 2
  let left := twoTo quarter.toNat * tenTo (-power).toNat
  let right := twoTo (-quarter).toNat * tenTo power.toNat
  let inside (g : Nat) : Bool :=
    if n.closed then left * n.below ≤ right * g ∧ right * g ≤ left * n.above
    else left * n.below < right * g ∧ right * g < left * n.above
  let low := left * n.value / right
  let remainder := left * n.value % right
  let high := if remainder = 0 then low else low + 1
  let nearerHigh :=
    match compare (2 * remainder) right, tie with
    | .lt, _ => false
    | .gt, _ => true
    | .eq, .toEven => low % 2 = 1
    | .eq, .upward => true
  match inside low && low ≠ 0, inside high with
  | false, false => none
  | true, false => some ⟨low, power⟩
  | false, true => some ⟨high, power⟩
  | true, true => some ⟨if nearerHigh then high else low, power⟩

def shortestFrom (tie : Tie) (x : Binary64) : Nat → Int → Scientific
  | 0, power => ⟨0, power⟩
  | grids + 1, power =>
    match onGrid tie x power with
    | some found => found
    | none => shortestFrom tie x grids (power - 1)

/-- Trailing zeros belong to the power: a carry may turn nines into a one and zeros. -/
def Scientific.trim : Nat → Scientific → Scientific
  | 0, s => s
  | steps + 1, s =>
    if s.digits ≠ 0 ∧ s.digits % 10 = 0 then trim steps ⟨s.digits / 10, s.power + 1⟩ else s

/-- The shortest decimal of a finite number other than zero; seventeen digits always suffice. -/
def shortest (tie : Tie) (x : Binary64) : Scientific :=
  Scientific.trim 18 (shortestFrom tie x 18 (decimalExponent x.ratio.1 x.ratio.2))

end Binary64

end StoragePlan
