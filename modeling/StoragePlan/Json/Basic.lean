set_option autoImplicit false

namespace StoragePlan.Json

inductive Fault
  -- The text breaks the grammar, nests too deep, or has a number too large for a double.
  | malformed
  -- The text is well formed but not what is asked for.
  | mismatched
  -- The text ends too early.
  | truncated
deriving DecidableEq

def isBlank (c : Char) : Bool := c = ' ' || c = '\n' || c = '\t' || c = '\r'

def skipBlank (cs : List Char) : List Char := cs.dropWhile isBlank

/-- The fault of a text that does not go on as it must. -/
def Fault.atRest : List Char → Fault
  | [] => .truncated
  | _ => .malformed

def expect : List Char → List Char → Except Fault (List Char)
  | [], cs => .ok cs
  | _ :: _, [] => .error .truncated
  | e :: es, c :: cs => if c = e then expect es cs else .error .malformed

def expectAfterBlank (expected : Char) (cs : List Char) : Except Fault (List Char) :=
  match skipBlank cs with
  | [] => .error .truncated
  | c :: rest => if c = expected then .ok rest else .error .malformed

def colon (cs : List Char) : Except Fault (List Char) := expectAfterBlank ':' cs

end StoragePlan.Json
