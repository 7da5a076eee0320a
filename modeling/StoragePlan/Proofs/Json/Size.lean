import Mathlib.Data.String.Basic
import StoragePlan.Proofs.Json.Rest

set_option autoImplicit false

namespace StoragePlan.Json

open String (utf8Len)

def Pays {α : Type} (size : α → Nat) (reader : Reader α) : Prop :=
  ∀ budget cs found rest, reader budget cs = .ok (found, rest) → size found + utf8Len rest ≤ utf8Len cs

variable {cs rest : List Char}

theorem utf8Len_of_skipBlank {c : Char} (blank : skipBlank cs = c :: rest) :
    utf8Len rest < utf8Len cs := by
  have less := String.utf8Len_le_of_suffix (blank ▸ skipBlank_suffix cs)
  have positive := c.utf8Size_pos
  rw [String.utf8Len_cons] at less
  omega

theorem utf8Size_of_simpleEscape {e c : Char} (known : simpleEscape e = some c) : c.utf8Size = 1 := by
  unfold simpleEscape at known
  split at known
  all_goals simp at known
  all_goals exact known ▸ rfl

theorem length_le_utf8Len (cs : List Char) : cs.length ≤ utf8Len cs := by
  induction cs with
  | nil => rfl
  | cons c cs ih =>
    have positive := c.utf8Size_pos
    rw [List.length_cons, String.utf8Len_cons]
    omega

theorem utf8Len_prepend {c : Char} {written : List Char} (shorter : c.utf8Size ≤ utf8Len written)
    {text : List Char} (ih : ∀ {text}, readBody cs = .ok (text, rest) →
      utf8Len text + utf8Len rest < utf8Len cs)
    (read : (readBody cs).map (prepend c) = .ok (text, rest)) :
    utf8Len text + utf8Len rest < utf8Len (written ++ cs) := by
  obtain ⟨⟨text', _⟩, later, same⟩ := map_eq_ok.mp read
  obtain ⟨rfl, rfl⟩ := Prod.mk.inj same
  have less := ih later
  rw [String.utf8Len_cons, String.utf8Len_append]
  omega

theorem readBody_pays {text : List Char} (read : readBody cs = .ok (text, rest)) :
    utf8Len text + utf8Len rest < utf8Len cs := by
  have escaped (c : Char) {written : List Char} (long : 4 ≤ written.length) :
      c.utf8Size ≤ utf8Len written :=
    (c.utf8Size_le_four.trans long).trans (length_le_utf8Len written)
  fun_induction readBody cs generalizing text with
  | case2 cs =>
    obtain ⟨rfl, rfl⟩ := Prod.mk.inj (Except.ok.inj read)
    simp [Char.utf8Size_pos]
  | case4 c cs _ _ _ ih => exact @utf8Len_prepend cs rest c [c] (by simp) text ih read
  | case9 _ _ _ _ a b c d _ _ _ _ a' b' c' d' cs _ _ _ ih =>
    exact @utf8Len_prepend cs rest _ [_, 'u', a, b, c, d, '\\', 'u', a', b', c', d']
      (escaped _ (by simp)) text ih read
  | case14 _ _ _ _ a b c d cs _ _ _ _ ih =>
    exact @utf8Len_prepend cs rest _ [_, 'u', a, b, c, d] (escaped _ (by simp)) text ih read
  | case16 backslash _ _ _ e cs _ _ c known ih =>
    have single : c.utf8Size ≤ utf8Len [backslash, e] := by
      rw [utf8Size_of_simpleEscape known]
      exact Nat.le_trans (by simp) (length_le_utf8Len [backslash, e])
    exact @utf8Len_prepend cs rest c [backslash, e] single text ih read
  | case1 | case3 | case5 | case6 | case7 | case8 | case10 | case11 | case12 | case13 | case15 | case17 =>
    simp at read

section Readers

variable {α : Type} {size : α → Nat} {reader : Reader α}

theorem text_pays : Pays String.utf8ByteSize text := by
  intro budget cs found rest read
  unfold text at read
  split at read
  next quoted blank =>
    obtain ⟨⟨chars, _⟩, body, same⟩ := map_eq_ok.mp read
    obtain ⟨rfl, rfl⟩ := Prod.mk.inj same
    have less := readBody_pays body
    have quote := utf8Len_of_skipBlank blank
    rw [String.utf8ByteSize_ofList]
    omega
  next => simp at read

theorem number_pays : Pays (fun _ => 0) number := by
  intro budget cs found rest read
  unfold number at read
  split at read
  next => simp at read
  next c tail blank =>
    split at read
    next =>
      have shorter := (readNumber_suffix read).trans (blank ▸ skipBlank_suffix cs)
      simpa using String.utf8Len_le_of_suffix shorter
    next => simp at read

theorem integer_pays : Pays (fun _ => 0) integer := by
  intro budget cs found rest read
  obtain ⟨⟨value, _⟩, literal, read⟩ := bind_eq_ok.mp read
  obtain ⟨_, -, same⟩ := bind_eq_ok.mp read
  obtain ⟨-, rfl⟩ := Prod.mk.inj (Except.ok.inj same)
  exact number_pays budget cs value _ literal

theorem real_pays : Pays (fun _ => 0) real := by
  intro budget cs found rest read
  obtain ⟨⟨value, _⟩, literal, same⟩ := bind_eq_ok.mp read
  obtain ⟨-, rfl⟩ := Prod.mk.inj (Except.ok.inj same)
  exact number_pays budget cs value _ literal

theorem items_pay (pays : Pays size reader) {budget : Budget} {steps : Nat} {first : Bool}
    {found : List α} (read : items reader budget steps first cs = .ok (found, rest)) :
    total (found.map size) + utf8Len rest ≤ utf8Len cs := by
  induction steps generalizing first cs found with
  | zero => simp [items] at read
  | succ steps ih =>
    obtain ⟨next?, next_, read⟩ := bind_eq_ok.mp read
    cases next? with
    | none =>
      obtain ⟨rfl, rfl⟩ := Prod.mk.inj (Except.ok.inj read)
      simp
    | some cs' =>
      obtain ⟨⟨item, after⟩, one, read⟩ := bind_eq_ok.mp read
      obtain ⟨⟨more, _⟩, others, same⟩ := bind_eq_ok.mp read
      obtain ⟨rfl, rfl⟩ := Prod.mk.inj (Except.ok.inj same)
      have start := String.utf8Len_le_of_suffix (nextItem_suffix next_)
      have paid := pays _ _ _ _ one
      have rest' := ih others
      rw [List.map_cons, total_cons]
      omega

theorem list_pays (pays : Pays size reader) : Pays (fun found => total (found.map size)) (list reader) := by
  intro budget cs found rest read
  unfold list at read
  split at read
  next blank =>
    obtain ⟨inner, -, read⟩ := bind_eq_ok.mp read
    obtain ⟨⟨_, _⟩, items, read⟩ := bind_eq_ok.mp read
    obtain ⟨_, closed, same⟩ := bind_eq_ok.mp read
    obtain ⟨rfl, rfl⟩ := Prod.mk.inj (Except.ok.inj same)
    have opening := utf8Len_of_skipBlank blank
    have closing := String.utf8Len_le_of_suffix (expectAfterBlank_suffix closed)
    have paid := items_pay pays items
    show total _ + _ ≤ _
    omega
  next => simp at read

theorem tagged_pays {tags : List (String × Reader α)}
    (pays : ∀ tag ∈ tags, Pays size tag.2) : Pays size (tagged tags) := by
  intro budget cs found rest read
  unfold tagged at read
  split at read
  next => simp at read
  next c tail blank =>
    split at read
    next =>
      obtain ⟨inner, -, read⟩ := bind_eq_ok.mp read
      obtain ⟨quoted, quote, read⟩ := bind_eq_ok.mp read
      obtain ⟨⟨tag, _⟩, body, read⟩ := bind_eq_ok.mp read
      dsimp only at read
      split at read
      next => simp at read
      next held known =>
        obtain ⟨_, after, read⟩ := bind_eq_ok.mp read
        obtain ⟨⟨_, _⟩, value, read⟩ := bind_eq_ok.mp read
        dsimp only at read
        obtain ⟨_, closed, same⟩ := bind_eq_ok.mp read
        obtain ⟨rfl, rfl⟩ := Prod.mk.inj (Except.ok.inj same)
        obtain ⟨front, back, rfl, -⟩ := List.lookup_eq_some_iff.mp known
        have opening := utf8Len_of_skipBlank blank
        have quote := String.utf8Len_le_of_suffix (expectAfterBlank_suffix quote)
        have body := readBody_pays body
        have after := String.utf8Len_le_of_suffix (expectAfterBlank_suffix after)
        have paid := pays (_, held) (List.mem_append_right front List.mem_cons_self) _ _ _ _ value
        have closing := String.utf8Len_le_of_suffix (expectAfterBlank_suffix closed)
        omega
    next =>
      split at read
      next => simp at read
      next => simp at read

end Readers

def Field.Pays {δ : Type} (held : δ → Nat) (field : Field δ) : Prop :=
  ∀ draft budget cs draft' rest, field.fill draft budget cs = .ok (draft', rest) →
    held draft' + utf8Len rest ≤ held draft + utf8Len cs

namespace Record

variable {δ α : Type}

structure Pays (held : δ → Nat) (size : α → Nat) (record : Record δ α) : Prop where
  blank : held record.blank = 0
  fill : ∀ field ∈ record.fields, field.Pays held
  complete : ∀ draft found, record.complete? draft = some found → size found ≤ held draft

variable {held : δ → Nat} {size : α → Nat} {record : Record δ α} {budget : Budget} {first : Bool}
  {draft draft' : δ}

theorem Pays.member (pays : record.Pays held size)
    (read : record.member budget draft cs = .ok (draft', rest)) :
    held draft' + utf8Len rest ≤ held draft + utf8Len cs := by
  obtain ⟨⟨key, after⟩, body, read⟩ := bind_eq_ok.mp read
  have body := readBody_pays body
  dsimp only at read
  split at read
  next =>
    obtain ⟨_, start, read⟩ := bind_eq_ok.mp read
    obtain ⟨_, passed, same⟩ := bind_eq_ok.mp read
    obtain ⟨rfl, rfl⟩ := Prod.mk.inj (Except.ok.inj same)
    have shorter := (skipFrom_suffix passed).trans (expectAfterBlank_suffix start)
    have less := String.utf8Len_le_of_suffix shorter
    omega
  next field known =>
    split at read
    next => simp at read
    next =>
      obtain ⟨_, start, read⟩ := bind_eq_ok.mp read
      have start := String.utf8Len_le_of_suffix (expectAfterBlank_suffix start)
      have paid := pays.fill field (List.mem_of_find?_eq_some known) _ _ _ _ _ read
      omega

theorem Pays.members (pays : record.Pays held size) {steps : Nat}
    (read : record.members budget steps first draft cs = .ok (draft', rest)) :
    held draft' + utf8Len rest ≤ held draft + utf8Len cs := by
  induction steps generalizing first draft cs with
  | zero => simp [Record.members] at read
  | succ steps ih =>
    obtain ⟨⟨after, more⟩, key, read⟩ := bind_eq_ok.mp read
    have key := String.utf8Len_le_of_suffix (nextKey_suffix key)
    cases more with
    | false =>
      obtain ⟨rfl, rfl⟩ := Prod.mk.inj (Except.ok.inj read)
      omega
    | true =>
      obtain ⟨⟨_, _⟩, one, read⟩ := bind_eq_ok.mp read
      have paid := pays.member one
      have others := ih read
      omega

theorem Pays.elements (pays : record.Pays held size) {fields : List (Field δ)}
    (known : ∀ field ∈ fields, field ∈ record.fields)
    (read : elements budget first fields draft cs = .ok (draft', rest)) :
    held draft' + utf8Len rest ≤ held draft + utf8Len cs := by
  induction fields generalizing first draft cs with
  | nil =>
    obtain ⟨rfl, rfl⟩ := Prod.mk.inj (Except.ok.inj read)
    exact Nat.le_refl _
  | cons field fields ih =>
    have ⟨here, later⟩ := List.forall_mem_cons.mp known
    obtain ⟨next?, next_, read⟩ := bind_eq_ok.mp read
    cases next? with
    | none =>
      obtain ⟨rfl, rfl⟩ := Prod.mk.inj (Except.ok.inj read)
      exact Nat.le_refl _
    | some cs' =>
      obtain ⟨⟨_, _⟩, one, read⟩ := bind_eq_ok.mp read
      have start := String.utf8Len_le_of_suffix (nextItem_suffix next_)
      have paid := pays.fill field here _ _ _ _ _ one
      have others := ih later read
      omega

theorem Pays.finish (pays : record.Pays held size) {found : α}
    (finished : record.finish draft = .ok found) : size found ≤ held draft := by
  unfold Record.finish at finished
  split at finished
  next complete => exact Except.ok.inj finished ▸ pays.complete draft _ complete
  next => simp at finished

theorem Pays.read_lt (pays : record.Pays held size) {found : α}
    (read : record.read budget cs = .ok (found, rest)) : size found + utf8Len rest < utf8Len cs := by
  have nothing := pays.blank
  unfold Record.read at read
  split at read
  next blank =>
    obtain ⟨inner, -, read⟩ := bind_eq_ok.mp read
    obtain ⟨⟨draft, _⟩, members, read⟩ := bind_eq_ok.mp read
    obtain ⟨_, finished, same⟩ := bind_eq_ok.mp read
    obtain ⟨rfl, rfl⟩ := Prod.mk.inj (Except.ok.inj same)
    have opening := utf8Len_of_skipBlank blank
    have paid := pays.members members
    have complete := pays.finish finished
    omega
  next blank =>
    obtain ⟨inner, -, read⟩ := bind_eq_ok.mp read
    obtain ⟨⟨draft, _⟩, elements, read⟩ := bind_eq_ok.mp read
    obtain ⟨_, finished, read⟩ := bind_eq_ok.mp read
    obtain ⟨_, closed, same⟩ := bind_eq_ok.mp read
    obtain ⟨rfl, rfl⟩ := Prod.mk.inj (Except.ok.inj same)
    have opening := utf8Len_of_skipBlank blank
    have paid := pays.elements (fun _ => id) elements
    have complete := pays.finish finished
    have closing := String.utf8Len_le_of_suffix (expectAfterBlank_suffix closed)
    omega
  next => simp at read

theorem Pays.read (pays : record.Pays held size) : Json.Pays size record.read :=
  fun _ _ _ _ read => Nat.le_of_lt (pays.read_lt read)

end Record

end StoragePlan.Json
