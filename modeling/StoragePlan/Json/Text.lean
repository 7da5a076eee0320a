import StoragePlan.Json.Basic
import StoragePlan.Weight

set_option autoImplicit false

namespace StoragePlan.Json

def hexDigit (n : Nat) : Char := Nat.digitChar n

def escapeChar (c : Char) : List Char :=
  if c = '"' then ['\\', '"']
  else if c = '\\' then ['\\', '\\']
  else if c = '\x08' then ['\\', 'b']
  else if c = '\x0c' then ['\\', 'f']
  else if c = '\n' then ['\\', 'n']
  else if c = '\r' then ['\\', 'r']
  else if c = '\t' then ['\\', 't']
  else if c < ' ' then ['\\', 'u', '0', '0', hexDigit (c.toNat / 16), hexDigit (c.toNat % 16)]
  else [c]

def writeText (s : String) : List Char := '"' :: (s.toList.flatMap escapeChar ++ ['"'])

def newline (depth : Nat) : List Char := '\n' :: List.replicate (2 * depth) ' '

def separated (separator : List Char) : List (List Char) → List Char
  | [] => []
  | [item] => item
  | item :: rest => item ++ (separator ++ separated separator rest)

/-- Items between brackets; the bracket stands at the given depth, the items one deeper. -/
def bracket (opening closing : Char) (depth : Nat) : List (List Char) → List Char
  | [] => [opening, closing]
  | items =>
    opening :: (newline (depth + 1) ++
      (separated (',' :: newline (depth + 1)) items ++ (newline depth ++ [closing])))

def writeList (depth : Nat) (items : List (List Char)) : List Char := bracket '[' ']' depth items

def writeMember (member : String × List Char) : List Char :=
  writeText member.1 ++ (':' :: ' ' :: member.2)

def writeObject (depth : Nat) (members : List (String × List Char)) : List Char :=
  bracket '\x7b' '\x7d' depth (members.map writeMember)

def hexValue (c : Char) : Option Nat :=
  if '0' ≤ c ∧ c ≤ '9' then some (c.toNat - 48)
  else if 'a' ≤ c ∧ c ≤ 'f' then some (c.toNat - 87)
  else if 'A' ≤ c ∧ c ≤ 'F' then some (c.toNat - 55)
  else none

def hexUnit (a b c d : Char) : Option Nat := do
  return (((← hexValue a) * 16 + (← hexValue b)) * 16 + (← hexValue c)) * 16 + (← hexValue d)

/-- Whether fewer than four bytes are left, which is where a text can end inside four digits. -/
def shortOfUnit (cs : List Char) : Fault :=
  if total (cs.map Char.utf8Size) < 4 then .truncated else .malformed

def isHighSurrogate (unit : Nat) : Bool := 0xd800 ≤ unit && unit < 0xdc00

def isLowSurrogate (unit : Nat) : Bool := 0xdc00 ≤ unit && unit < 0xe000

def joinSurrogates (high low : Nat) : Char :=
  Char.ofNat (0x10000 + (high - 0xd800) * 0x400 + (low - 0xdc00))

def simpleEscape (c : Char) : Option Char :=
  match c with
  | '"' => some '"'
  | '\\' => some '\\'
  | '/' => some '/'
  | 'b' => some '\x08'
  | 'f' => some '\x0c'
  | 'n' => some '\n'
  | 'r' => some '\r'
  | 't' => some '\t'
  | _ => none

def prepend (c : Char) : List Char × List Char → List Char × List Char
  | (text, rest) => (c :: text, rest)

def readBody : List Char → Except Fault (List Char × List Char)
  | [] => .error .truncated
  | c :: cs =>
    if c = '"' then .ok ([], cs)
    else if c < ' ' then .error .malformed
    else if c ≠ '\\' then (readBody cs).map (prepend c)
    else
      match cs with
      | [] => .error .truncated
      | 'u' :: a :: b :: c :: d :: rest =>
        match hexUnit a b c d with
        | none => .error .malformed
        | some unit =>
          if isLowSurrogate unit then .error .malformed
          else if isHighSurrogate unit then
            match rest with
            | '\\' :: 'u' :: a :: b :: c :: d :: rest =>
              match hexUnit a b c d with
              | none => .error .malformed
              | some low =>
                if isLowSurrogate low then (readBody rest).map (prepend (joinSurrogates unit low))
                else .error .malformed
            | '\\' :: 'u' :: short => .error (shortOfUnit short)
            | '\\' :: other => .error (.atRest other)
            | other => .error (.atRest other)
          else (readBody rest).map (prepend (Char.ofNat unit))
      | 'u' :: short => .error (shortOfUnit short)
      | e :: rest =>
        match simpleEscape e with
        | some c => (readBody rest).map (prepend c)
        | none => .error .malformed

/-- Skips to behind the closing quote; here surrogates need no partner. -/
def skipBody : List Char → Except Fault (List Char)
  | [] => .error .truncated
  | c :: cs =>
    if c = '"' then .ok cs
    else if c < ' ' then .error .malformed
    else if c ≠ '\\' then skipBody cs
    else
      match cs with
      | [] => .error .truncated
      | 'u' :: a :: b :: c :: d :: rest =>
        if (hexUnit a b c d).isSome then skipBody rest else .error .malformed
      | 'u' :: short => .error (shortOfUnit short)
      | e :: rest => if (simpleEscape e).isSome then skipBody rest else .error .malformed

end StoragePlan.Json
