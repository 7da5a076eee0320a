import Mathlib.Data.List.DropRight
import StoragePlan.Settings

set_option autoImplicit false

namespace StoragePlan

namespace Text

theorem toList_trim (s : String) :
    (trim s).toList = (s.toList.dropWhile isBlank).rdropWhile isBlank := by
  rw [trim, String.toList_ofList, List.rdropWhile]

theorem trim_trim (s : String) : trim (trim s) = trim s := by
  have front : ((trim s).toList).dropWhile isBlank = (trim s).toList := by
    rw [toList_trim]
    obtain ⟨back, split⟩ := List.rdropWhile_prefix isBlank (l := s.toList.dropWhile isBlank)
    cases kept : (s.toList.dropWhile isBlank).rdropWhile isBlank with
    | nil => rfl
    | cons first rest =>
      -- What is kept begins where the blanks in front end.
      have visible : isBlank first = false := by
        have start := List.head?_dropWhile_not isBlank s.toList
        rw [← split, kept] at start
        simpa using start
      rw [List.dropWhile_cons_of_neg (by simp [visible])]
  refine String.toList_inj.mp ?_
  rw [toList_trim (trim s), front, toList_trim, List.rdropWhile_idempotent]

theorem trim_eq_empty {s : String} : trim s = "" ↔ ∀ c ∈ s.toList, isBlank c = true := by
  rw [← String.toList_inj, toList_trim]
  constructor
  next =>
    intro nothing c inside
    have blank := List.rdropWhile_eq_nil_iff.mp nothing
    rw [← List.takeWhile_append_dropWhile (p := isBlank) (l := s.toList)] at inside
    rcases List.mem_append.mp inside with front | later
    next => exact List.mem_takeWhile_imp front
    next => exact blank c later
  next =>
    intro blank
    rw [List.dropWhile_eq_nil_iff.mpr blank]
    rfl

end Text

theorem Strategy.ofText_name (strategy : Strategy) : ofText strategy.name = .ok strategy := by
  cases strategy <;> decide +kernel

namespace Settings

def Neat (s : String) : Prop := s ≠ "" ∧ Text.trim s = s

theorem trimmed_eq_some {given : Option String} {s : String} :
    trimmed given = some s ↔ Neat s ∧ ∃ padded, given = some padded ∧ Text.trim padded = s := by
  unfold trimmed Neat
  cases given with
  | none => simp
  | some padded =>
    by_cases blank : Text.trim padded = ""
    next =>
      simp only [Option.bind_some, blank, if_true, reduceCtorEq, Option.some.injEq, exists_eq_left',
        false_iff, not_and]
      exact fun different same => different.1 same.symm
    next =>
      simp only [Option.bind_some, blank, if_false, Option.some.injEq, exists_eq_left']
      constructor
      next => exact fun same => ⟨same ▸ ⟨blank, Text.trim_trim padded⟩, same⟩
      next => exact And.right

theorem trimmed_of_neat {s : String} (neat : Neat s) : trimmed (some s) = some s :=
  trimmed_eq_some.mpr ⟨neat, s, rfl, neat.2⟩

theorem trimmed_eq_none {given : Option String} :
    trimmed given = none ↔ ∀ s, given = some s → ∀ c ∈ s.toList, Text.isBlank c = true := by
  cases given with
  | none => simp only [trimmed, Option.bind_none, reduceCtorEq, false_implies, implies_true]
  | some s =>
    simp only [trimmed, Option.bind_some, Option.some.injEq, forall_eq', ← Text.trim_eq_empty]
    split
    next blank => exact iff_of_true rfl blank
    next visible => exact iff_of_false nofun visible

def environmentNames : List String := [orderingVariable, namescopeVariable, verifyVariable]

section Environment

variable {lookup lookup' : String → Option String}

theorem ofEnvironment_congr (same : ∀ name ∈ environmentNames, trimmed (lookup name) = trimmed (lookup' name)) :
    ofEnvironment lookup = ofEnvironment lookup' := by
  have ordering := same orderingVariable (by simp [environmentNames])
  have namescope := same namescopeVariable (by simp [environmentNames])
  have verify := same verifyVariable (by simp [environmentNames])
  simp only [ofEnvironment, chooseOrdering, ordering, namescope, verify]

theorem ofEnvironment_blank
    (blank : ∀ name ∈ environmentNames, ∀ s, lookup name = some s → ∀ c ∈ s.toList, Text.isBlank c = true) :
    ofEnvironment lookup = ({}, []) := by
  have unset (name : String) (inside : name ∈ environmentNames) : trimmed (lookup name) = trimmed none :=
    trimmed_eq_none.mpr (blank name inside)
  exact (ofEnvironment_congr unset : _ = ofEnvironment fun _ => none)

theorem ofEnvironment_log : (ofEnvironment lookup).2 = [] ∨
    (∃ s name, trimmed (lookup orderingVariable) = some s ∧ Strategy.ofText s = .error name) ∧
      (ofEnvironment lookup).1.ordering = ({} : Settings).ordering ∧
      ∃ entry, (ofEnvironment lookup).2 = [entry] ∧ entry.level = .warn := by
  simp only [ofEnvironment, chooseOrdering]
  split
  next => exact .inl rfl
  next s given =>
    split
    next => exact .inl rfl
    next name unknown => exact .inr ⟨⟨s, name, given, unknown⟩, rfl, _, rfl, rfl⟩

theorem neat_namescope {scope : String} (named : (ofEnvironment lookup).1.namescope = some scope) :
    Neat scope :=
  (trimmed_eq_some.mp named).1

end Environment

/-- An environment in which the settings are found. -/
def toEnvironment (settings : Settings) (name : String) : Option String :=
  if name = orderingVariable then some settings.ordering.name
  else if name = namescopeVariable then settings.namescope
  else if name = verifyVariable then some (if settings.verify then "1" else "0")
  else none

theorem toEnvironment_variables (settings : Settings) :
    settings.toEnvironment orderingVariable = some settings.ordering.name ∧
      settings.toEnvironment namescopeVariable = settings.namescope ∧
      settings.toEnvironment verifyVariable = some (if settings.verify then "1" else "0") := by
  simp [toEnvironment, orderingVariable, namescopeVariable, verifyVariable]

theorem ofEnvironment_toEnvironment {settings : Settings}
    (neat : ∀ scope, settings.namescope = some scope → Neat scope) :
    ofEnvironment settings.toEnvironment = (settings, []) := by
  obtain ⟨orderingGiven, namescopeGiven, verifyGiven⟩ := settings.toEnvironment_variables
  have ordering : trimmed (some settings.ordering.name) = some settings.ordering.name := by
    refine trimmed_of_neat ⟨?_, ?_⟩ <;> cases settings.ordering <;> decide +kernel
  have namescope : trimmed settings.namescope = settings.namescope := by
    cases named : settings.namescope with
    | none => rfl
    | some scope => exact trimmed_of_neat (neat scope named)
  have verify : (trimmed (some (if settings.verify then "1" else "0"))).elim true isTrue =
      settings.verify := by
    cases settings.verify <;> decide +kernel
  simp only [ofEnvironment, chooseOrdering, orderingGiven, namescopeGiven, verifyGiven, ordering,
    Strategy.ofText_name, namescope, verify]

end Settings

end StoragePlan
