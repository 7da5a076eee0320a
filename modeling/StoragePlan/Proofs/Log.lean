import StoragePlan.Gradient.Sharing
import StoragePlan.Interference
import StoragePlan.Proofs.Rename.Report

set_option autoImplicit false

namespace StoragePlan

def Journal.Only {α : Type} (told : Event → Prop) (journal : Journal α) : Prop :=
  ∀ event ∈ journal.events, told event

namespace Journal

variable {α β : Type} {told : Event → Prop}

theorem only_pure (found : α) : (pure found : Journal α).Only told := fun _ inside => nomatch inside

theorem only_ofExcept (outcome : Except PlanError α) : (ofExcept outcome).Only told :=
  fun _ inside => nomatch inside

theorem only_emit {event : Event} (tells : told event) : (emit event).Only told :=
  fun _ inside => List.mem_singleton.mp inside ▸ tells

theorem Only.bind {first : Journal α} {next : α → Journal β} (before : first.Only told)
    (after : ∀ found, (next found).Only told) : (first >>= next).Only told := by
  cases reached : first.outcome with
  | error error => exact bind_of_error reached ▸ before
  | ok found =>
    rw [bind_of_ok reached]
    exact fun event inside => (List.mem_append.mp inside).elim (before event) (after found event)

end Journal

section Log

variable (elapsed : Nat)

theorem logEntry_elapsed {event : Event} (unfinished : ∀ stage footprint, event ≠ .finished stage footprint)
    (elapsed' : Nat) : event.logEntry elapsed = event.logEntry elapsed' := by
  cases event with
  | finished stage footprint => exact absurd rfl (unfinished stage footprint)
  | _ => rfl

theorem nodup_fields_logEntry (event : Event) : ((event.logEntry elapsed).fields.map (·.1)).Nodup := by
  cases event with
  | finished stage footprint => cases footprint <;> simp [Event.logEntry]
  | _ => simp [Event.logEntry]

theorem logEntry_warn_iff {event : Event} :
    (event.logEntry elapsed).level = .warn ↔ ∃ stage message, event = .experimental stage message := by
  cases event <;> simp [Event.logEntry]

theorem only_rename {told : Event → Prop} (renames : ∀ opType arg, told (.stepNetRenamed opType arg))
    (net : Net) (mapping : Renaming) : (net.rename mapping).Only told := by
  obtain ⟨sites, -, follows⟩ := net.rename_reports mapping
  intro event inside
  rw [follows.events] at inside
  obtain ⟨site, -, rfl⟩ := List.mem_map.mp inside
  exact renames site.opType site.arg.name

theorem planSharing_warns_never (net : Net) (statics : Names) (sizes : Option Sizes) (settings : Settings) :
    (planSharing net statics sizes settings).Only fun event => (event.logEntry elapsed).level ≠ .warn := by
  refine (Journal.only_emit nofun).bind fun _ => ?_
  refine (Journal.only_ofExcept _).bind fun graph => ?_
  refine (Journal.only_ofExcept _).bind fun order => ?_
  refine (Journal.only_emit nofun).bind fun _ => ?_
  refine (Journal.only_ofExcept _).bind fun line => ?_
  refine (Journal.only_ofExcept _).bind fun table => ?_
  refine (Journal.only_emit nofun).bind fun _ => ?_
  refine (Journal.only_emit nofun).bind fun _ => ?_
  refine (Journal.only_ofExcept _).bind fun _ => ?_
  refine (Journal.only_emit nofun).bind fun _ => ?_
  refine (Journal.only_emit nofun).bind fun _ => ?_
  refine (only_rename (fun _ _ => nofun) _ _).bind fun renamed => ?_
  exact (Journal.only_emit nofun).bind fun _ => Journal.only_pure _

theorem shareGradients_warns_once (net : Net) (losses : List String) (parameters : Names) (scope : String) :
    ∃ first rest, (shareGradients net losses parameters scope).events = first :: rest ∧
      (first.logEntry elapsed).level = .warn ∧ ∀ event ∈ rest, (event.logEntry elapsed).level ≠ .warn := by
  refine ⟨_, _, congrArg Journal.events (Journal.emit_bind _ _), rfl, ?_⟩
  refine (Journal.only_emit nofun).bind fun _ => ?_
  refine (only_rename (fun _ _ => nofun) _ _).bind fun renamed => ?_
  exact (Journal.only_emit nofun).bind fun _ => Journal.only_pure _

end Log

end StoragePlan
