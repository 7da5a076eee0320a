import StoragePlan.Proofs.Slot.Footprint
import StoragePlan.Proofs.Slot.Growth

set_option autoImplicit false

namespace StoragePlan

section Place

variable {τ : Type} [LT τ] [DecidableLT τ] {statics : Names} {placed entries : List (Entry τ)}
  {entry : Entry τ}

theorem Slot.accepts_singleton {other : Entry τ} (free : other.blob ∉ statics.toList)
    (known : other.range.defined.isSome) {candidate : LiveRange τ} :
    Slot.accepts statics [other] candidate = true ↔ other.range.EndsBefore candidate := by
  simp [Slot.accepts_iff, free, known]

theorem exists_longer_of_shared {slots : List (Slot τ)} {number : Nat} {slot : Slot τ}
    (here : slots[number]? = some slot) (shared : 1 < slot.length) (entries : List (Entry τ)) :
    ∃ slot ∈ entries.foldl (place statics) slots, 1 < slot.length := by
  have added := (Added.refl statics slots).foldl_place entries
  have bound := Nat.lt_of_lt_of_le (List.getElem?_eq_some_iff.mp here).1 added.length_le
  have kept := (added.continues number _ (List.getElem?_eq_getElem bound)).kept.length_le
  rw [here] at kept
  exact ⟨_, List.getElem_mem bound, Nat.lt_of_lt_of_le shared kept⟩

theorem foldl_place_alone_iff
    (sharable : ∀ entry ∈ placed ++ entries, entry.blob ∉ statics.toList ∧ entry.range.defined.isSome)
    (apart : placed.Pairwise fun a b => ¬ a.range.EndsBefore b.range) :
    (∀ slot ∈ entries.foldl (place statics) (placed.map ([·])), slot.length = 1) ↔
      (placed ++ entries).Pairwise fun a b => ¬ a.range.EndsBefore b.range := by
  induction entries generalizing placed with
  | nil => simpa using apart
  | cons entry rest ih =>
    have free (other : Entry τ) (inside : other ∈ placed) :
        Slot.accepts statics [other] entry.range = true ↔ other.range.EndsBefore entry.range :=
      have ⟨notStatic, known⟩ := sharable other (List.mem_append_left _ inside)
      Slot.accepts_singleton notStatic known
    rw [List.foldl_cons]
    rcases place_cases statics (placed.map ([·])) entry with
      ⟨number, ⟨_, ⟨slot, _, here, accepted, -⟩, -⟩, same⟩ | ⟨nobody, same⟩
    next =>
      have ⟨other, found, single⟩ := Option.map_eq_some_iff.mp (List.getElem?_map.symm.trans here)
      subst single
      have inside := List.mem_of_getElem? found
      refine iff_of_false (fun alone => ?_) fun pairwise => ?_
      next =>
        have now : (place statics (placed.map ([·])) entry)[number]? = some [other, entry] := by
          simp [same, found]
        obtain ⟨slot, member, longer⟩ := exists_longer_of_shared now (by simp) rest
        have short := alone slot member
        omega
      next =>
        have overlap := (List.pairwise_append.mp pairwise).2.2 other inside entry List.mem_cons_self
        exact overlap ((free other inside).mp accepted)
    next =>
      have apart : (placed ++ [entry]).Pairwise fun a b => ¬ a.range.EndsBefore b.range := by
        refine List.pairwise_append.mpr ⟨apart, List.pairwise_singleton _ _, fun other inside last => ?_⟩
        intro final
        obtain rfl := List.mem_singleton.mp final
        rw [← free other inside, nobody [other] (List.mem_map_of_mem inside)]
        exact Bool.false_ne_true
      have singles : placed.map ([·]) ++ [[entry]] = (placed ++ [entry]).map ([·]) := by simp
      rw [List.append_cons] at sharable ⊢
      rw [same, singles]
      exact ih sharable apart

end Place

theorem pairwise_iff_of_sorted {α : Type} {r s : α → α → Prop} {items : List α} (sorted : items.Pairwise s)
    (asymm : ∀ a b, s a b → ¬ s b a) : items.Pairwise r ↔ ∀ a ∈ items, ∀ b ∈ items, s a b → r a b := by
  constructor
  next =>
    intro related
    -- Looked at from both sides, the relation does not depend on which of two items stands in front.
    have symm : Std.Symm fun a b => (s a b → r a b) ∧ (s b a → r b a) := ⟨fun _ _ => And.symm⟩
    have both : items.Pairwise fun a b => (s a b → r a b) ∧ (s b a → r b a) :=
      related.imp₂ (fun a b here before => ⟨fun _ => here, fun after => absurd after (asymm a b before)⟩) sorted
    intro a first b second before
    have different : a ≠ b := by
      rintro rfl
      exact asymm a a before before
    exact (both.forall first second different).1 before
  next =>
    intro related
    exact sorted.imp_of_mem fun first second before => related _ first _ second before

theorem assignSlots_alone_iff_lined {τ : Type} [Clock τ] [Max τ] [LE τ] [DecidableLE τ] [LT τ]
    [DecidableLT τ] [Std.IsLinearOrder τ] [Std.LawfulOrderMax τ] (table : LiveTable τ) (statics : Names) :
    (∀ slot ∈ assignSlots table statics, slot.length = 1) ↔
      (table.lined.filter (!statics.contains ·.blob)).Pairwise fun a b => ¬ a.range.EndsBefore b.range := by
  have singles : ∀ slot ∈ (table.lined.filter (statics.contains ·.blob)).map ([·]), slot.length = 1 :=
    List.forall_mem_map.mpr fun _ _ => rfl
  rw [assignSlots_eq, List.forall_mem_append, and_iff_left singles]
  generalize within : table.lined.filter (!statics.contains ·.blob) = sharable
  have free : ∀ entry ∈ [] ++ sharable, entry.blob ∉ statics.toList ∧ entry.range.defined.isSome := by
    intro entry inside
    rw [List.nil_append, ← within] at inside
    have ⟨lined, notStatic⟩ := List.mem_filter.mp inside
    obtain ⟨original, -, rfl⟩ := List.mem_map.mp lined
    exact ⟨by simpa [Names.contains] using notStatic, rfl⟩
  have start : placeAll statics [] sharable = sharable.foldl (place statics) [] := by
    simp [placeAll_eq, newcomers]
  rw [start]
  exact foldl_place_alone_iff free .nil

section Order

variable {τ : Type} [LT τ] [DecidableEq τ]

def LiveTable.UsedUpBefore (table : LiveTable τ) (a b : Entry τ) : Prop :=
  a ∈ table.entries ∧ b ∈ table.entries ∧
    match a.range.used, b.range.used with
    | some x, some y => x < y ∨ x = y ∧ table.entries.idxOf a < table.entries.idxOf b
    | some _, none => True
    | none, some _ => False
    | none, none => table.entries.idxOf a < table.entries.idxOf b

variable [LE τ] [Std.IsLinearOrder τ] [Std.LawfulOrderLT τ]

theorem LiveTable.UsedUpBefore.asymm {table : LiveTable τ} {a b : Entry τ} (before : table.UsedUpBefore a b) :
    ¬ table.UsedUpBefore b a := by
  intro after
  have ⟨_, _, first⟩ := before
  have ⟨_, _, second⟩ := after
  cases used : a.range.used <;> cases used' : b.range.used <;> simp only [used, used'] at first second
  all_goals grind

theorem LiveTable.pairwise_usedUpBefore [DecidableLE τ] (table : LiveTable τ) :
    (sortBy byLastUse table.entries).Pairwise table.UsedUpBefore := by
  have stable := sortBy_stable byLastUse_total byLastUse_trans (pairwise_idxOf table.nodup.of_map)
  refine stable.imp_of_mem fun {a b} first second order => ?_
  have ⟨before, same⟩ := order
  refine ⟨(mem_sortBy byLastUse).mp first, (mem_sortBy byLastUse).mp second, ?_⟩
  unfold byLastUse at before same
  cases used : a.range.used <;> cases used' : b.range.used <;> simp_all
  grind

end Order

theorem assignSlots_alone_iff (table : LiveTable Int64) (statics : Names) :
    let slots := assignSlots table statics
    ((∀ slot ∈ slots, slot.length = 1) ↔ ¬ ∃ a b, table.UsedUpBefore a b ∧
      a.blob ∉ statics.toList ∧ b.blob ∉ statics.toList ∧
      (table.normalized a).range.EndsBefore (table.normalized b).range) ∧
    ((∀ slot ∈ slots, slot.length = 1) → (footprint slots).optimized = (footprint slots).baseline) := by
  intro slots
  refine ⟨?_, optimized_eq_baseline_of_alone⟩
  have free (entry : Entry Int64) : (!statics.contains (table.normalized entry).blob) = true ↔
      entry.blob ∉ statics.toList := by simp [LiveTable.normalized, Names.contains]
  rw [assignSlots_alone_iff_lined, List.pairwise_filter, LiveTable.lined, List.pairwise_map,
    pairwise_iff_of_sorted table.pairwise_usedUpBefore fun a b => LiveTable.UsedUpBefore.asymm]
  simp only [free, mem_sortBy]
  constructor
  next =>
    intro apart found
    obtain ⟨a, b, before, first, second, ended⟩ := found
    exact apart a before.1 b before.2.1 before first second ended
  next =>
    intro none a _ b _ before first second ended
    exact none ⟨a, b, before, first, second, ended⟩

theorem assignSlots_alone_iff_dense :
    let table : LiveTable Int64 := ⟨[⟨"a", ⟨some 0, some 2, some 4⟩⟩, ⟨"b", ⟨some 1, some 2, some 8⟩⟩,
      ⟨"c", ⟨some 2, none, some 16⟩⟩], by decide⟩
    (∀ slot ∈ assignSlots table .empty, slot.length = 1) ∧
      (footprint (assignSlots table .empty)).optimized = (footprint (assignSlots table .empty)).baseline := by
  intro table
  have apart : ¬ ∃ a b, table.UsedUpBefore a b ∧ a.blob ∉ Names.empty.toList ∧ b.blob ∉ Names.empty.toList ∧
      (table.normalized a).range.EndsBefore (table.normalized b).range := by
    have overlap : ∀ a ∈ table.entries, ∀ b ∈ table.entries,
        (table.normalized a).range.before (table.normalized b).range = false := by decide
    rintro ⟨a, b, ⟨here, there, -⟩, -, -, ended⟩
    rw [← LiveRange.before_iff, overlap a here b there] at ended
    exact Bool.false_ne_true ended
  have found := assignSlots_alone_iff table .empty
  exact ⟨found.1.mpr apart, found.2 (found.1.mpr apart)⟩

end StoragePlan
