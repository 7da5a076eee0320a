import StoragePlan.Json.Number
import StoragePlan.Json.Skip
import StoragePlan.Json.Text

set_option autoImplicit false

namespace StoragePlan.Json

structure Budget where
  -- How many more brackets may be opened.
  brackets : Nat
  -- How many members or items one bracket may hold; never fewer than the text has characters.
  items : Nat

def Budget.enter (budget : Budget) : Except Fault Budget :=
  match budget.brackets with
  | 0 => .error .malformed
  | brackets + 1 => .ok { budget with brackets }

abbrev Reader (α : Type) := Budget → List Char → Except Fault (α × List Char)

def wrongKind : List Char → Fault
  | [] => .truncated
  | c :: cs =>
    if c = '[' ∨ c = '\x7b' then .mismatched
    else
      let scalar : Except Fault Unit :=
        if c = '-' ∨ isDigit c then (readNumber (c :: cs)).map fun _ => ()
        else if c = '"' then (readBody cs).map fun _ => ()
        else (skipScalar (c :: cs)).map fun _ => ()
      match scalar with
      | .ok _ => .mismatched
      | .error fault => fault

def text : Reader String := fun _ cs =>
  match skipBlank cs with
  | '"' :: rest => (readBody rest).map fun (found, rest) => (String.ofList found, rest)
  | other => .error (wrongKind other)

def number : Reader Number := fun _ cs =>
  match skipBlank cs with
  | [] => .error .truncated
  | c :: rest =>
    if c = '-' ∨ isDigit c then readNumber (c :: rest) else .error (wrongKind (c :: rest))

def integer : Reader Int64 := fun budget cs => do
  let (found, rest) ← number budget cs
  return (← found.toInt64, rest)

def real : Reader Binary64 := fun budget cs => do
  let (found, rest) ← number budget cs
  return (found.toBinary64, rest)

/-- Moves on to the next item of a list, past the comma unless it is the first one; without result at
the closing bracket, which stays. -/
def nextItem (first : Bool) (cs : List Char) : Except Fault (Option (List Char)) :=
  match skipBlank cs with
  | [] => .error .truncated
  | c :: rest =>
    if c = ']' then .ok none
    else if first then .ok (some (c :: rest))
    else if c = ',' then
      match skipBlank rest with
      | [] => .error .truncated
      | c :: rest => if c = ']' then .error .malformed else .ok (some (c :: rest))
    else .error .malformed

def items {α : Type} (item : Reader α) (budget : Budget) :
    Nat → Bool → List Char → Except Fault (List α × List Char)
  | 0, _, _ => .error .malformed
  | steps + 1, first, cs => do
    match ← nextItem first cs with
    | none => return ([], cs)
    | some cs =>
      let (found, cs) ← item budget cs
      let (more, rest) ← items item budget steps false cs
      return (found :: more, rest)

def closeList (cs : List Char) : Except Fault (List Char) := expectAfterBlank ']' cs

def list {α : Type} (item : Reader α) : Reader (List α) := fun budget cs =>
  match skipBlank cs with
  | '[' :: rest => do
    let inner ← budget.enter
    let (found, rest) ← items item inner (budget.items + 1) true rest
    return (found, ← closeList rest)
  | other => .error (wrongKind other)

structure Field (δ : Type) where
  key : String
  isFilled : δ → Bool
  fill : δ → Reader δ

structure Record (δ α : Type) where
  fields : List (Field δ)
  blank : δ
  complete? : δ → Option α

namespace Record

variable {δ α : Type}

def member (record : Record δ α) (budget : Budget) (draft : δ) (cs : List Char) :
    Except Fault (δ × List Char) := do
  let (key, cs) ← readBody cs
  match record.fields.find? fun field => field.key = String.ofList key with
  | none => return (draft, ← skipValue (← colon cs))
  | some field =>
    if field.isFilled draft then .error .mismatched
    else field.fill draft budget (← colon cs)

def nextKey (first : Bool) (cs : List Char) : Except Fault (List Char × Bool) :=
  match skipBlank cs with
  | [] => .error .truncated
  | c :: rest =>
    if c = '\x7d' then .ok (rest, false)
    else if first then
      if c = '"' then .ok (rest, true) else .error .malformed
    else if c = ',' then (expectAfterBlank '"' rest).map fun rest => (rest, true)
    else .error .malformed

def members (record : Record δ α) (budget : Budget) :
    Nat → Bool → δ → List Char → Except Fault (δ × List Char)
  | 0, _, _, _ => .error .malformed
  | steps + 1, first, draft, cs => do
    match ← nextKey first cs with
    | (rest, false) => return (draft, rest)
    | (rest, true) =>
      let (draft, rest) ← record.member budget draft rest
      members record budget steps false draft rest

def elements (budget : Budget) : Bool → List (Field δ) → δ → List Char → Except Fault (δ × List Char)
  | _, [], draft, cs => .ok (draft, cs)
  | first, field :: fields, draft, cs => do
    match ← nextItem first cs with
    | none => return (draft, cs)
    | some cs =>
      let (draft, rest) ← field.fill draft budget cs
      elements budget false fields draft rest

def finish (record : Record δ α) (draft : δ) : Except Fault α :=
  match record.complete? draft with
  | some found => .ok found
  | none => .error .mismatched

def read (record : Record δ α) : Reader α := fun budget cs =>
  match skipBlank cs with
  | '\x7b' :: rest => do
    let (draft, rest) ← record.members (← budget.enter) (budget.items + 1) true record.blank rest
    return (← record.finish draft, rest)
  | '[' :: rest => do
    let (draft, rest) ← elements (← budget.enter) true record.fields record.blank rest
    let found ← record.finish draft
    return (found, ← closeList rest)
  | other => .error (wrongKind other)

end Record

def tagged {α : Type} (tags : List (String × Reader α)) : Reader α := fun budget cs =>
  match skipBlank cs with
  | [] => .error .truncated
  | c :: rest =>
    if c = '\x7b' then do
      let inner ← budget.enter
      let (tag, rest) ← readBody (← expectAfterBlank '"' rest)
      match tags.lookup (String.ofList tag) with
      | none => .error .mismatched
      | some held =>
        let (found, rest) ← held inner (← colon rest)
        return (found, ← expectAfterBlank '\x7d' rest)
    else if c = '"' then .error (wrongKind (c :: rest))
    else .error .malformed

def readAll {α : Type} (reader : Reader α) (s : String) : Except Fault α := do
  let cs := s.toList
  let (found, rest) ← reader ⟨127, cs.length⟩ cs
  if skipBlank rest = [] then return found else .error .malformed

end StoragePlan.Json
