import StoragePlan.Error
import StoragePlan.Json.Record
import StoragePlan.Proofs.Decimal.Range
import StoragePlan.Proofs.Json.Brackets

set_option autoImplicit false

namespace StoragePlan.Json

theorem absorb_lt {n : Nat} (small : n < UInt64.size) (digits : List Nat) :
    (absorb n digits).1 < UInt64.size := by
  fun_induction absorb n digits with
  | case1 => exact small
  | case2 _ _ _ less ih => exact ih less
  | case3 => exact small

theorem one_le_powerOfTen : ∀ exponent < 309, (powerOfTen exponent).ratio.2 ≤ (powerOfTen exponent).ratio.1 := by
  decide +kernel

theorem isFinite_withSign (negative : Bool) {x : Binary64} (finite : x.isFinite = true) :
    (withSign negative x).isFinite = true := by
  cases negative with
  | false => exact finite
  | true =>
    rw [Binary64.isFinite_iff] at finite ⊢
    rwa [withSign, if_pos rfl, Binary64.magnitude_negate]

theorem isFinite_ofNat {n : Nat} (small : n < UInt64.size) : (Binary64.ofNat n).isFinite = true := by
  have less : n < 1 * 2 ^ 64 := by rwa [Nat.one_mul]
  have bound := Binary64.magnitude_ofQuotient_lt less
  rw [Binary64.isFinite_iff]
  exact Nat.lt_of_lt_of_le bound (Nat.mul_le_mul_right _ (by decide))

-- Each division by a power of ten may cost a little for the rounding.
theorem isFinite_scaleByPower {steps m : Nat} {x y : Binary64} {exponent : Int}
    (small : x.magnitude < (m + 1023) * Binary64.hiddenBit) (enough : 53 ≤ m) (few : m + 4 * steps ≤ 1020)
    (scaled : scaleByPower steps x exponent = .ok y) : y.isFinite = true := by
  have finite {x : Binary64} {m : Nat} (small : x.magnitude < (m + 1023) * Binary64.hiddenBit)
      (few : m ≤ 1024) : x.isFinite = true :=
    Binary64.isFinite_iff.mpr (Nat.lt_of_lt_of_le small (Nat.mul_le_mul_right _ (by omega)))
  induction steps generalizing m x exponent with
  | zero => exact Except.ok.inj scaled ▸ finite small (by omega)
  | succ steps ih =>
    unfold scaleByPower at scaled
    split at scaled
    next near =>
      split at scaled
      next =>
        dsimp only at scaled
        split at scaled
        next => simp at scaled
        next inside =>
          obtain rfl := Except.ok.inj scaled
          have least := Binary64.magnitude_ofQuotient_le (x.ratio.1 * (powerOfTen exponent.toNat).ratio.1)
            (x.ratio.2 * (powerOfTen exponent.toNat).ratio.2)
          have different : (x.times (powerOfTen exponent.toNat)).magnitude ≠ Binary64.infiniteMagnitude := by
            simpa [Binary64.isInfinite] using inside
          exact decide_eq_true (Nat.lt_of_le_of_ne least different)
      next =>
        obtain rfl := Except.ok.inj scaled
        have one := one_le_powerOfTen (-exponent).toNat (by omega)
        exact finite (Binary64.magnitude_dividedBy_lt small enough one) (by omega)
    next =>
      split at scaled
      next => exact Except.ok.inj scaled ▸ finite small (by omega)
      next =>
        split at scaled
        next => simp at scaled
        next =>
          have smaller := Binary64.magnitude_dividedBy_lt small enough (one_le_powerOfTen 308 (by decide))
          exact ih smaller (by omega) (by omega) scaled

theorem isFinite_real {numeral : Numeral} {x : Binary64} (read : numeral.real = .ok x) :
    x.isFinite = true := by
  have ⟨y, scaled, same⟩ := bind_eq_ok.mp read
  obtain rfl := Except.ok.inj same
  have head := absorb_lt (by decide : 0 < UInt64.size) numeral.whole
  have significand := absorb_lt head (numeral.fraction.getD [])
  have less : (absorb (absorb 0 numeral.whole).1 (numeral.fraction.getD [])).1 < 1 * 2 ^ 64 := by
    rwa [Nat.one_mul]
  have small := Binary64.magnitude_ofQuotient_lt less
  exact isFinite_withSign _ (isFinite_scaleByPower (m := 68) small (by decide) (by decide) scaled)

theorem isFinite_evaluate {numeral : Numeral} {found : Number} (read : numeral.evaluate = .ok found) :
    found.toBinary64.isFinite = true := by
  simp only [Numeral.evaluate] at read
  split at read
  next =>
    have ⟨x, real, same⟩ := map_eq_ok.mp read
    subst same
    exact isFinite_real real
  next whole =>
    have small : digitsValue numeral.whole < UInt64.size := by
      simp only [not_or, Nat.not_le] at whole
      exact whole.2.2
    split at read
    next =>
      obtain rfl := Except.ok.inj read
      exact isFinite_withSign _ (isFinite_ofNat small)
    next =>
      split at read
      next =>
        obtain rfl := Except.ok.inj read
        exact isFinite_withSign true (isFinite_ofNat small)
      next =>
        obtain rfl := Except.ok.inj read
        refine isFinite_withSign _ (isFinite_ofNat ?_)
        rwa [Int.natAbs_neg, Int.natAbs_natCast]

def Finds {α : Type} (holds : Nat → α → Prop) (reader : Reader α) : Prop :=
  ∀ budget cs found rest, reader budget cs = .ok (found, rest) → holds budget.brackets found

section Readers

variable {α : Type} {holds : Nat → α → Prop} {reader : Reader α} {cs rest : List Char} {budget : Budget}

theorem Finds.anything : Finds (fun _ _ => True) reader := fun _ _ _ _ _ => trivial

theorem real_finds : Finds (fun _ x => x.isFinite = true) real := by
  intro budget cs found rest read
  have ⟨⟨value, _⟩, literal, same⟩ := bind_eq_ok.mp read
  obtain ⟨rfl, rfl⟩ := Prod.mk.inj (Except.ok.inj same)
  unfold number at literal
  split at literal
  next => simp at literal
  next =>
    split at literal
    next =>
      have ⟨⟨numeral, _⟩, scanned, read⟩ := bind_eq_ok.mp literal
      have ⟨_, evaluated, same⟩ := bind_eq_ok.mp read
      obtain ⟨rfl, rfl⟩ := Prod.mk.inj (Except.ok.inj same)
      exact isFinite_evaluate evaluated
    next => simp at literal

theorem brackets_of_enter {inner : Budget} (entered : budget.enter = .ok inner) :
    budget.brackets = inner.brackets + 1 := by
  unfold Budget.enter at entered
  split at entered
  next => simp at entered
  next more => exact Except.ok.inj entered ▸ more

theorem items_find (finds : Finds holds reader) {steps : Nat} {first : Bool} {found : List α}
    (read : items reader budget steps first cs = .ok (found, rest)) :
    ∀ item ∈ found, holds budget.brackets item := by
  induction steps generalizing first cs found with
  | zero => simp [items] at read
  | succ steps ih =>
    have ⟨next?, _, read⟩ := bind_eq_ok.mp read
    cases next? with
    | none =>
      obtain ⟨rfl, rfl⟩ := Prod.mk.inj (Except.ok.inj read)
      simp
    | some cs' =>
      have ⟨⟨item, after⟩, one, read⟩ := bind_eq_ok.mp read
      have ⟨⟨more, _⟩, others, same⟩ := bind_eq_ok.mp read
      obtain ⟨rfl, rfl⟩ := Prod.mk.inj (Except.ok.inj same)
      exact List.forall_mem_cons.mpr ⟨finds _ _ _ _ one, ih others⟩

theorem list_finds (finds : Finds holds reader) :
    Finds (fun brackets all => ∃ inner, brackets = inner + 1 ∧ ∀ item ∈ all, holds inner item)
      (list reader) := by
  intro budget cs found rest read
  unfold list at read
  split at read
  next =>
    have ⟨inner, entered, read⟩ := bind_eq_ok.mp read
    have ⟨⟨_, _⟩, items, read⟩ := bind_eq_ok.mp read
    have ⟨_, _, same⟩ := bind_eq_ok.mp read
    obtain ⟨rfl, rfl⟩ := Prod.mk.inj (Except.ok.inj same)
    exact ⟨inner.brackets, brackets_of_enter entered, items_find finds items⟩
  next => simp at read

theorem tagged_finds {tags : List (String × Reader α)} (finds : ∀ tag ∈ tags, Finds holds tag.2) :
    Finds (fun brackets found => ∃ inner, brackets = inner + 1 ∧ holds inner found) (tagged tags) := by
  intro budget cs found rest read
  unfold tagged at read
  split at read
  next => simp at read
  next =>
    split at read
    next =>
      have ⟨inner, entered, read⟩ := bind_eq_ok.mp read
      have ⟨_, _, read⟩ := bind_eq_ok.mp read
      have ⟨⟨tag, _⟩, _, read⟩ := bind_eq_ok.mp read
      dsimp only at read
      split at read
      next => simp at read
      next held known =>
        have ⟨_, _, read⟩ := bind_eq_ok.mp read
        have ⟨⟨_, _⟩, value, read⟩ := bind_eq_ok.mp read
        have ⟨_, _, same⟩ := bind_eq_ok.mp read
        obtain ⟨rfl, rfl⟩ := Prod.mk.inj (Except.ok.inj same)
        have ⟨front, back, split, _⟩ := List.lookup_eq_some_iff.mp known
        have inside : (_, held) ∈ tags := split ▸ List.mem_append_right front List.mem_cons_self
        exact ⟨inner.brackets, brackets_of_enter entered, finds _ inside _ _ _ _ value⟩
    next =>
      split at read
      next => simp at read
      next => simp at read

end Readers

def Field.Keeps {δ : Type} (kept : Nat → δ → Prop) (field : Field δ) : Prop :=
  ∀ draft budget cs draft' rest, field.fill draft budget cs = .ok (draft', rest) →
    kept budget.brackets draft → kept budget.brackets draft'

namespace Record

variable {δ α : Type}

structure Finds (kept : Nat → δ → Prop) (holds : Nat → α → Prop) (record : Record δ α) : Prop where
  blank : ∀ brackets, kept brackets record.blank
  fill : ∀ field ∈ record.fields, field.Keeps kept
  complete : ∀ brackets draft found, record.complete? draft = some found → kept brackets draft →
    holds (brackets + 1) found

variable {kept : Nat → δ → Prop} {holds : Nat → α → Prop} {record : Record δ α} {budget : Budget}
  {first : Bool} {draft draft' : δ} {cs rest : List Char}

theorem Finds.member (finds : record.Finds kept holds)
    (read : record.member budget draft cs = .ok (draft', rest)) (before : kept budget.brackets draft) :
    kept budget.brackets draft' := by
  have ⟨⟨key, _⟩, _, read⟩ := bind_eq_ok.mp read
  dsimp only at read
  split at read
  next =>
    have ⟨_, _, read⟩ := bind_eq_ok.mp read
    have ⟨_, _, same⟩ := bind_eq_ok.mp read
    obtain ⟨rfl, rfl⟩ := Prod.mk.inj (Except.ok.inj same)
    exact before
  next field known =>
    split at read
    next => simp at read
    next =>
      have ⟨_, _, read⟩ := bind_eq_ok.mp read
      exact finds.fill field (List.mem_of_find?_eq_some known) _ _ _ _ _ read before

theorem Finds.members (finds : record.Finds kept holds) {steps : Nat}
    (read : record.members budget steps first draft cs = .ok (draft', rest))
    (before : kept budget.brackets draft) : kept budget.brackets draft' := by
  induction steps generalizing first draft cs with
  | zero => simp [Record.members] at read
  | succ steps ih =>
    have ⟨⟨after, more⟩, key, read⟩ := bind_eq_ok.mp read
    cases more with
    | false =>
      obtain ⟨rfl, rfl⟩ := Prod.mk.inj (Except.ok.inj read)
      exact before
    | true =>
      have ⟨⟨_, _⟩, one, read⟩ := bind_eq_ok.mp read
      exact ih read (finds.member one before)

theorem Finds.elements (finds : record.Finds kept holds) {fields : List (Field δ)}
    (known : ∀ field ∈ fields, field ∈ record.fields)
    (read : elements budget first fields draft cs = .ok (draft', rest))
    (before : kept budget.brackets draft) : kept budget.brackets draft' := by
  induction fields generalizing first draft cs with
  | nil =>
    obtain ⟨rfl, rfl⟩ := Prod.mk.inj (Except.ok.inj read)
    exact before
  | cons field fields ih =>
    have ⟨here, later⟩ := List.forall_mem_cons.mp known
    have ⟨next?, _, read⟩ := bind_eq_ok.mp read
    cases next? with
    | none =>
      obtain ⟨rfl, rfl⟩ := Prod.mk.inj (Except.ok.inj read)
      exact before
    | some cs' =>
      have ⟨⟨_, _⟩, one, read⟩ := bind_eq_ok.mp read
      exact ih later read (finds.fill field here _ _ _ _ _ one before)

theorem Finds.read (finds : record.Finds kept holds) : Json.Finds holds record.read := by
  have whole {brackets : Nat} {draft : δ} {found : α} (finished : record.finish draft = .ok found)
      (before : kept brackets draft) : holds (brackets + 1) found := by
    unfold Record.finish at finished
    split at finished
    next complete => exact Except.ok.inj finished ▸ finds.complete _ _ _ complete before
    next => simp at finished
  intro budget cs found rest read
  unfold Record.read at read
  split at read
  next =>
    have ⟨inner, entered, read⟩ := bind_eq_ok.mp read
    have ⟨⟨draft, _⟩, members, read⟩ := bind_eq_ok.mp read
    have ⟨_, finished, same⟩ := bind_eq_ok.mp read
    obtain ⟨rfl, rfl⟩ := Prod.mk.inj (Except.ok.inj same)
    rw [brackets_of_enter entered]
    exact whole finished (finds.members members (finds.blank _))
  next =>
    have ⟨inner, entered, read⟩ := bind_eq_ok.mp read
    have ⟨⟨draft, _⟩, elements, read⟩ := bind_eq_ok.mp read
    have ⟨_, finished, read⟩ := bind_eq_ok.mp read
    have ⟨_, _, same⟩ := bind_eq_ok.mp read
    obtain ⟨rfl, rfl⟩ := Prod.mk.inj (Except.ok.inj same)
    rw [brackets_of_enter entered]
    exact whole finished (finds.elements (fun _ => id) elements (finds.blank _))
  next => simp at read

end Record

end StoragePlan.Json
