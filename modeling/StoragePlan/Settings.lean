import StoragePlan.Report.Log
import StoragePlan.Slot.Naming

set_option autoImplicit false

namespace StoragePlan

structure Settings where
  ordering : Strategy := .longestPath
  -- Scope for numbered slot names; without one, the last blob of a slot names it.
  namescope : Option String := none
  -- Checks the slots for overlaps before anything is renamed.
  verify : Bool := true
deriving DecidableEq

namespace Settings

def naming (settings : Settings) : Naming :=
  match settings.namescope with
  | some scope => .scoped scope
  | none => .lastMember

theorem naming_eq_scoped {settings : Settings} {scope : String} :
    settings.naming = .scoped scope ↔ settings.namescope = some scope := by
  unfold naming
  split <;> simp_all

/-- A variable without blanks around it; a blank one counts as unset. -/
def trimmed (given : Option String) : Option String :=
  given.bind fun s => if Text.trim s = "" then none else some (Text.trim s)

def isTrue (s : String) : Bool := Text.lowerCase (Text.trim s) ∈ ["1", "true", "yes", "on"]

def orderingVariable : String := "GRADMEM_ORDERING"

def namescopeVariable : String := "GRADMEM_NAMESCOPE"

def verifyVariable : String := "GRADMEM_VERIFY"

/-- An unknown ordering is logged and leaves the default. -/
def chooseOrdering (given : Option String) : Strategy × List LogEntry :=
  let default : Settings := {}
  match trimmed given with
  | none => (default.ordering, [])
  | some s =>
    match Strategy.ofText s with
    | .ok ordering => (ordering, [])
    | .error name =>
      (default.ordering,
        [⟨.warn, [("var", .text orderingVariable)],
          Strategy.unknownMessage name ++ "; using default ordering"⟩])

def ofEnvironment (lookup : String → Option String) : Settings × List LogEntry :=
  let (ordering, log) := chooseOrdering (lookup orderingVariable)
  ({ ordering
     namescope := trimmed (lookup namescopeVariable)
     verify := (trimmed (lookup verifyVariable)).elim true isTrue }, log)

end Settings

end StoragePlan
