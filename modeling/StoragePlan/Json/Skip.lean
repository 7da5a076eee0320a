import StoragePlan.Json.Number
import StoragePlan.Json.Text

set_option autoImplicit false

namespace StoragePlan.Json

inductive Bracket
  | list
  | object
deriving DecidableEq

def Bracket.closing : Bracket → Char
  | .list => ']'
  | .object => '\x7d'

inductive Position
  | beforeValue
  | afterOpening
  | afterValue

def skipScalar : List Char → Except Fault (List Char)
  | 'n' :: cs => expect "ull".toList cs
  | 't' :: cs => expect "rue".toList cs
  | 'f' :: cs => expect "alse".toList cs
  | '"' :: cs => skipBody cs
  | c :: cs => if c = '-' ∨ isDigit c then skipNumber (c :: cs) else .error .malformed
  | [] => .error .truncated

def skipKey (cs : List Char) : Except Fault (List Char) := do
  colon (← skipBody (← expectAfterBlank '"' cs))

def Bracket.skipLabel : Bracket → List Char → Except Fault (List Char)
  | .list, cs => .ok cs
  | .object, cs => skipKey cs

def skipFrom : Nat → Position → List Bracket → List Char → Except Fault (List Char)
  | 0, _, _, _ => .error .malformed
  | steps + 1, .beforeValue, brackets, cs =>
    match skipBlank cs with
    | [] => .error .truncated
    | '[' :: rest => skipFrom steps .afterOpening (.list :: brackets) rest
    | '\x7b' :: rest => skipFrom steps .afterOpening (.object :: brackets) rest
    | scalar => do skipFrom steps .afterValue brackets (← skipScalar scalar)
  | _ + 1, _, [], cs => .ok cs
  | steps + 1, .afterOpening, bracket :: outer, cs =>
    match skipBlank cs with
    | [] => .error .truncated
    | c :: rest =>
      if c = bracket.closing then skipFrom steps .afterValue outer rest
      else do skipFrom steps .beforeValue (bracket :: outer) (← bracket.skipLabel (c :: rest))
  | steps + 1, .afterValue, bracket :: outer, cs =>
    match skipBlank cs with
    | [] => .error .truncated
    | c :: rest =>
      if c = bracket.closing then skipFrom steps .afterValue outer rest
      else if c = ',' then do
        skipFrom steps .beforeValue (bracket :: outer) (← bracket.skipLabel rest)
      else .error .malformed

/-- Two steps for every character are enough: only the step behind an opening bracket takes none. -/
def skipValue (cs : List Char) : Except Fault (List Char) :=
  skipFrom (2 * cs.length + 2) .beforeValue [] cs

end StoragePlan.Json
