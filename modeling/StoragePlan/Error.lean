import StoragePlan.Ascending
import StoragePlan.Text

set_option autoImplicit false

namespace StoragePlan

inductive Quantity
  | linearizedOrder
  | longestPathOrder
  | leavesAmongSources
  | opOrder
  | distinctOpIndices
deriving DecidableEq

def Quantity.describe : Quantity → String
  | .linearizedOrder => "linearized order"
  | .longestPathOrder => "longest-path order"
  | .leavesAmongSources => "longest-path tree leaves matching graph sources"
  | .opOrder => "op order"
  | .distinctOpIndices => "distinct op indices"

inductive PlanError
  -- The edge from the producer to the consumer of the blobs would close a cycle.
  | closesCycle (producer consumer : Nat) (blobs : Names)
  | missingSize (blob : String)
  | shapeMismatch (what : Quantity) (expected actual : Nat)
  | unsupportedNesting (opType arg : String)
  | overlap (earlier later : String)
  | noSuchNode (node : Nat)
deriving DecidableEq

def PlanError.message : PlanError → String
  | .closesCycle producer consumer blobs =>
    "dependency edge " ++ producer.repr ++ " -> " ++ consumer.repr ++ " over blobs " ++
      Text.bracketed "\x7b" "\x7d" (blobs.toList.map Text.quote) ++
      " closes a cycle; the op sequence is not a single-pass schedule"
  | .missingSize blob => "blob size map has no entry for blob '" ++ blob ++ "'"
  | .shapeMismatch what expected actual =>
    what.describe ++ ": expected " ++ expected.repr ++ " entries, found " ++ actual.repr
  | .unsupportedNesting opType arg =>
    "op '" ++ opType ++ "' carries nested net argument '" ++ arg ++ "' in an unrecognized format"
  | .overlap earlier later =>
    "blob '" ++ later ++ "' reuses a slot while '" ++ earlier ++ "' is still live"
  | .noSuchNode node => "the graph has no node " ++ node.repr

def checkCount (what : Quantity) (expected actual : Nat) : Except PlanError Unit :=
  if expected = actual then .ok () else .error (.shapeMismatch what expected actual)

section Outcome

variable {ε α β : Type} {outcome : Except ε α} {found : β}

@[simp] theorem ok_bind {middle : α} {next : α → Except ε β} :
    (Except.ok middle : Except ε α) >>= next = next middle := rfl

@[simp] theorem error_bind {error : ε} {next : α → Except ε β} :
    (Except.error error : Except ε α) >>= next = .error error := rfl

theorem bind_eq_ok {next : α → Except ε β} :
    outcome >>= next = .ok found ↔ ∃ middle, outcome = .ok middle ∧ next middle = .ok found := by
  cases outcome with
  | error => simp
  | ok middle => simp

theorem map_eq_ok {f : α → β} :
    outcome.map f = .ok found ↔ ∃ middle, outcome = .ok middle ∧ f middle = found := by
  cases outcome with
  | error => simp [Except.map]
  | ok middle => simp [Except.map]

theorem mapError_eq_ok {ε' : Type} {outcome : Except ε β} {f : ε → ε'} :
    outcome.mapError f = .ok found ↔ outcome = .ok found := by
  cases outcome with
  | error => exact ⟨nofun, nofun⟩
  | ok value =>
    exact ⟨fun same => congrArg _ (Except.ok.inj same), fun same => congrArg _ (Except.ok.inj same)⟩

-- For closed inputs: what can be seen of the result is evaluated, and the result itself is not.
theorem exists_ok_of_view {view : α → β} {seen : β}
    (evaluated : outcome.toOption.map view = some seen) :
    ∃ result, outcome = .ok result ∧ view result = seen := by
  cases outcome with
  | error => simp [Except.toOption] at evaluated
  | ok result => exact ⟨result, rfl, Option.some.inj evaluated⟩

end Outcome

end StoragePlan
