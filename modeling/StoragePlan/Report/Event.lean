import StoragePlan.Order.Strategy
import StoragePlan.Slot.Footprint

set_option autoImplicit false

namespace StoragePlan

inductive Stage
  | interference
  | gradients
deriving DecidableEq

def Stage.name : Stage → String
  | .interference => "Interference"
  | .gradients => "ShareGrad"

inductive Event
  | started (net : String) (ops staticBlobs : Nat)
  | experimental (stage : Stage) (message : String)
  | ordered (ordering : Strategy) (order : List Nat)
  | rangesComputed (blobs : Nat)
  | sharableBlobs (count : Nat)
  | assigned (slots sharedSlots : Nat)
  | remapped (blobs shared : Nat)
  | stepNetRenamed (opType arg : String)
  | finished (stage : Stage) (footprint : Option Footprint)
deriving DecidableEq

def Event.kind : Event → String
  | .started .. => "Started"
  | .experimental .. => "Experimental"
  | .ordered .. => "Ordered"
  | .rangesComputed _ => "RangesComputed"
  | .sharableBlobs _ => "SharableBlobs"
  | .assigned .. => "Assigned"
  | .remapped .. => "Remapped"
  | .stepNetRenamed .. => "NestedRewrite"
  | .finished .. => "Finished"

/-- The events so far, and the result or the failure that ended them. -/
structure Journal (α : Type) where
  events : List Event
  outcome : Except PlanError α

namespace Journal

variable {α β : Type}

def ofExcept (outcome : Except PlanError α) : Journal α := ⟨[], outcome⟩

def emit (event : Event) : Journal Unit := ⟨[event], .ok ()⟩

def fail (error : PlanError) : Journal α := ⟨[], .error error⟩

protected def bind (first : Journal α) (next : α → Journal β) : Journal β :=
  match first.outcome with
  | .error error => ⟨first.events, .error error⟩
  | .ok found =>
    let second := next found
    ⟨first.events ++ second.events, second.outcome⟩

instance : Monad Journal where
  pure found := ⟨[], .ok found⟩
  bind := Journal.bind

@[simp] theorem outcome_pure (found : α) : (pure found : Journal α).outcome = .ok found := rfl

@[simp] theorem outcome_ofExcept (outcome : Except PlanError α) : (ofExcept outcome).outcome = outcome :=
  rfl

@[simp] theorem outcome_emit (event : Event) : (emit event).outcome = .ok () := rfl

theorem outcome_bind_eq (first : Journal α) (next : α → Journal β) :
    (first >>= next).outcome = first.outcome >>= fun found => (next found).outcome := by
  show (Journal.bind first next).outcome = _
  unfold Journal.bind
  cases first.outcome with
  | error error => rfl
  | ok found => rfl

@[simp] theorem outcome_bind {first : Journal α} {next : α → Journal β} {found : β} :
    (first >>= next).outcome = .ok found ↔
      ∃ middle, first.outcome = .ok middle ∧ (next middle).outcome = .ok found := by
  rw [outcome_bind_eq, bind_eq_ok]

theorem bind_of_ok {first : Journal α} {next : α → Journal β} {found : α}
    (reached : first.outcome = .ok found) :
    first >>= next = ⟨first.events ++ (next found).events, (next found).outcome⟩ := by
  show Journal.bind first next = _
  simp [Journal.bind, reached]

theorem bind_of_error {first : Journal α} {next : α → Journal β} {error : PlanError}
    (failed : first.outcome = .error error) : first >>= next = ⟨first.events, .error error⟩ := by
  show Journal.bind first next = _
  simp [Journal.bind, failed]

theorem emit_bind (event : Event) (next : Unit → Journal α) :
    emit event >>= next = ⟨event :: (next ()).events, (next ()).outcome⟩ := rfl

theorem ofExcept_ok_bind (found : α) (next : α → Journal β) : ofExcept (.ok found) >>= next = next found := rfl

theorem ofExcept_error_bind (error : PlanError) (next : α → Journal β) :
    ofExcept (.error error) >>= next = fail error := rfl

theorem bind_bind {γ : Type} (first : Journal α) (next : α → Journal β) (last : β → Journal γ) :
    first >>= next >>= last = first >>= fun found => next found >>= last := by
  cases reached : first.outcome with
  | error error => rw [bind_of_error reached, bind_of_error rfl, bind_of_error reached]
  | ok found =>
    rw [bind_of_ok reached, bind_of_ok reached]
    cases reached' : (next found).outcome with
    | error error => rw [bind_of_error rfl, bind_of_error reached']
    | ok found' => rw [bind_of_ok rfl, bind_of_ok reached', List.append_assoc]

end Journal

end StoragePlan
