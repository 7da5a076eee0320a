import Mathlib.Data.List.Sort
import StoragePlan.Ascending

set_option autoImplicit false

namespace StoragePlan

section Positions

variable {α : Type}

theorem pairwise_zipIdx (items : List α) : items.zipIdx.Pairwise fun a b => a.2 < b.2 := by
  have numbers : (items.zipIdx.map (·.2)).Pairwise (· < ·) := by
    rw [List.zipIdx_map_snd]
    exact List.pairwise_lt_range'
  exact List.pairwise_map.mp numbers

theorem pairwise_idxOf [DecidableEq α] {line : List α} (nodup : line.Nodup) :
    line.Pairwise fun a b => line.idxOf a < line.idxOf b := by
  apply List.pairwise_iff_getElem.mpr
  intro i j first second less
  rwa [nodup.idxOf_getElem, nodup.idxOf_getElem]

end Positions

namespace Table

variable {κ ν : Type} [LT κ] [DecidableEq κ]

omit [DecidableEq κ] in
theorem keys_ascending (t : Table κ ν) : t.keys.Pairwise (· < ·) := List.pairwise_map.mpr t.ascending

theorem mem_keys_iff {t : Table κ ν} {key : κ} : key ∈ t.keys ↔ (t.get? key).isSome := by
  simp [keys, get?]

variable [DecidableLT κ] [LE κ] [Std.IsLinearOrder κ] [Std.LawfulOrderLT κ]

theorem mem_keys_put {t : Table κ ν} {key : κ} {value : ν} {other : κ} :
    other ∈ (t.put key value).keys ↔ other = key ∨ other ∈ t.keys := by
  rw [mem_keys_iff, mem_keys_iff, get?_put]
  by_cases same : key = other
  next => simp [same]
  next => simp [same, Ne.symm same]

theorem get?_putAll (t : Table κ ν) (entries : List (κ × ν)) (key : κ) :
    (t.putAll entries).get? key = (entries.reverse.lookup key).or (t.get? key) := by
  induction entries generalizing t with
  | nil => simp [putAll]
  | cons entry rest ih =>
    obtain ⟨first, value⟩ := entry
    have later := ih (t.put first value)
    simp only [putAll, List.foldl_cons] at later ⊢
    rw [later, get?_put, List.reverse_cons, List.lookup_append, List.lookup_cons,
      List.lookup_nil]
    by_cases same : first = key
    next => simp [same]
    next => simp [same, beq_eq_false_iff_ne.mpr (Ne.symm same)]

theorem mem_of_get?_ofList {entries : List (κ × ν)} {key : κ} {value : ν}
    (found : (ofList entries).get? key = some value) : (key, value) ∈ entries := by
  rw [ofList, get?_putAll, get?_empty, Option.or_none, List.lookup_eq_some_iff] at found
  obtain ⟨before, after, split, -⟩ := found
  rw [← List.mem_reverse, split]
  exact List.mem_append_right _ List.mem_cons_self

theorem get?_ofList_eq_none {entries : List (κ × ν)} {key : κ} :
    (ofList entries).get? key = none ↔ ∀ entry ∈ entries, entry.1 ≠ key := by
  rw [ofList, get?_putAll, get?_empty, Option.or_none, List.lookup_eq_none_iff]
  simp only [List.mem_reverse, bne_iff_ne]
  exact forall₂_congr fun _ _ => ne_comm

omit [DecidableLT κ] [Std.IsLinearOrder κ] in
theorem get?_eq_some_iff {t : Table κ ν} {key : κ} {value : ν} :
    t.get? key = some value ↔ (key, value) ∈ t.entries := by
  obtain ⟨entries, ascending⟩ := t
  unfold get?
  induction entries with
  | nil => simp
  | cons head rest ih =>
    have ⟨first, later⟩ := List.pairwise_cons.mp ascending
    obtain ⟨key', value'⟩ := head
    by_cases same : key' = key
    next =>
      subst same
      have fresh (other : ν) : (key', other) ∉ rest := fun inside => by
        have less : key' < key' := first _ inside
        exact Std.lt_irrefl less
      simp [fresh, eq_comm]
    next => simpa [same, Ne.symm same] using ih later

omit [DecidableLT κ] [Std.IsLinearOrder κ] in
theorem mem_values_iff {t : Table κ ν} {value : ν} :
    value ∈ t.values ↔ ∃ key, t.get? key = some value := by
  simp [values, get?_eq_some_iff]

omit [DecidableLT κ] [Std.IsLinearOrder κ] in
theorem ext_get? {t t' : Table κ ν} (same : ∀ key, t.get? key = t'.get? key) : t = t' := by
  have : Std.Irrefl fun a b : κ × ν => a.1 < b.1 := ⟨fun _ => Std.lt_irrefl⟩
  have members (entry : κ × ν) : entry ∈ t.entries ↔ entry ∈ t'.entries := by
    rw [← get?_eq_some_iff, ← get?_eq_some_iff, same]
  have equal : t.entries = t'.entries := t.ascending.eq_of_mem_iff t'.ascending members
  cases t
  cases t'
  cases equal
  rfl

theorem ofList_entries (t : Table κ ν) : ofList t.entries = t := by
  refine ext_get? fun key => ?_
  cases found : (ofList t.entries).get? key with
  | some value => exact (get?_eq_some_iff.mpr (mem_of_get?_ofList found)).symm
  | none =>
    refine (Option.eq_none_iff_forall_not_mem.mpr fun value here => ?_).symm
    exact get?_ofList_eq_none.mp found _ (get?_eq_some_iff.mp here) rfl

end Table

namespace Names

theorem ext_iff {a b : Names} : a = b ↔ ∀ name, name ∈ a.toList ↔ name ∈ b.toList := by
  constructor
  next => exact fun same name => same ▸ Iff.rfl
  next =>
    intro same
    have equal : a.toList = b.toList := a.ascending.eq_of_mem_iff b.ascending same
    cases a
    cases b
    cases equal
    rfl

theorem mem_insert {names : Names} {new name : String} :
    name ∈ (names.insert new).toList ↔ name = new ∨ name ∈ names.toList := by
  have keys : name ∈ (names.toTable.put new ()).keys ↔ name = new ∨ name ∈ names.toTable.keys :=
    Table.mem_keys_put
  simpa [insert, ofTable, toTable, Table.keys, Function.comp_def] using keys

theorem mem_insertAll {names : Names} {more : List String} {name : String} :
    name ∈ (names.insertAll more).toList ↔ name ∈ more ∨ name ∈ names.toList := by
  induction more generalizing names with
  | nil => simp [insertAll]
  | cons first rest ih =>
    have later := @ih (names.insert first)
    simp only [insertAll, List.foldl_cons] at later ⊢
    rw [later, mem_insert, List.mem_cons]
    exact or_left_comm.trans or_assoc.symm

theorem mem_ofList {names : List String} {name : String} :
    name ∈ (ofList names).toList ↔ name ∈ names := by
  simp [ofList, mem_insertAll, empty]

theorem mem_union {a b : Names} {name : String} :
    name ∈ (a.union b).toList ↔ name ∈ a.toList ∨ name ∈ b.toList :=
  mem_insertAll.trans or_comm

theorem nodup (names : Names) : names.toList.Nodup :=
  names.ascending.imp fun {a b} (less : a < b) (same : a = b) => String.lt_irrefl b (same ▸ less)

theorem toList_of_popFirst {names rest : Names} {first : String}
    (popped : names.popFirst = some (first, rest)) : names.toList = first :: rest.toList := by
  obtain ⟨list, ascending⟩ := names
  cases list with
  | nil => simp [popFirst] at popped
  | cons head tail =>
    simp only [popFirst, Option.some.injEq, Prod.mk.injEq] at popped
    rw [← popped.1, ← popped.2]

end Names

end StoragePlan
