import Mathlib.Data.List.Forall2
import StoragePlan.Proofs.Net.Json

set_option autoImplicit false

namespace StoragePlan

namespace Json

def Budget.wider (budget : Budget) (more : Nat) : Budget :=
  { budget with brackets := budget.brackets + more }

theorem enter_wider {budget inner : Budget} (entered : budget.enter = .ok inner) (more : Nat) :
    (budget.wider more).enter = .ok (inner.wider more) := by
  unfold Budget.enter at entered
  split at entered
  next => simp at entered
  next brackets same =>
    have enough : brackets + more + 1 ≤ (budget.wider more).brackets := by
      simp only [Budget.wider]
      omega
    rw [(enter_of_lt enough).1, ← Except.ok.inj entered]
    simp only [Budget.inside, Budget.wider, same]
    congr 2
    omega

def Wider {α : Type} (reader reader' : Reader α) : Prop :=
  ∀ budget more cs result, reader budget cs = .ok result → reader' (budget.wider more) cs = .ok result

section Readers

variable {α β : Type} {reader reader' : Reader α}

theorem text_wider : Wider text text := fun _ _ _ _ read => read

theorem integer_wider : Wider integer integer := fun _ _ _ _ read => read

theorem real_wider : Wider real real := fun _ _ _ _ read => read

theorem Wider.map (wider : Wider reader reader') (f : α → β) :
    Wider (fun budget cs => (reader budget cs).map fun (found, rest) => (f found, rest))
      fun budget cs => (reader' budget cs).map fun (found, rest) => (f found, rest) := by
  intro budget more cs result read
  have ⟨found, value, same⟩ := map_eq_ok.mp read
  exact map_eq_ok.mpr ⟨found, wider _ more _ _ value, same⟩

theorem items_wider (wider : Wider reader reader') {budget : Budget} {steps : Nat} {first : Bool}
    {cs : List Char} {result : List α × List Char} (read : items reader budget steps first cs = .ok result)
    (more : Nat) : items reader' (budget.wider more) steps first cs = .ok result := by
  induction steps generalizing first cs result with
  | zero => simp [items] at read
  | succ steps ih =>
    obtain ⟨next?, here, read⟩ := bind_eq_ok.mp read
    rw [items, here, ok_bind]
    cases next? with
    | none => exact read
    | some cs' =>
      obtain ⟨one, item, read⟩ := bind_eq_ok.mp read
      obtain ⟨others, later, read⟩ := bind_eq_ok.mp read
      exact bind_eq_ok.mpr ⟨one, wider _ more _ _ item, bind_eq_ok.mpr ⟨others, ih later, read⟩⟩

theorem list_wider (wider : Wider reader reader') : Wider (list reader) (list reader') := by
  intro budget more cs result read
  unfold list at read ⊢
  split at read
  next =>
    have ⟨inner, entered, read⟩ := bind_eq_ok.mp read
    have ⟨all, inside, read⟩ := bind_eq_ok.mp read
    have same := items_wider wider inside more
    exact bind_eq_ok.mpr ⟨_, enter_wider entered more, bind_eq_ok.mpr ⟨all, same, read⟩⟩
  next => simp at read

theorem lookup_wider {tags tags' : List (String × Reader α)}
    (each : List.Forall₂ (fun known known' => known'.1 = known.1 ∧ Wider known.2 known'.2) tags tags')
    (tag : String) : Option.Rel Wider (tags.lookup tag) (tags'.lookup tag) := by
  induction each with
  | nil => exact .none
  | cons here _ ih =>
    have ⟨same, wider⟩ := here
    rw [List.lookup_cons, List.lookup_cons, same]
    split
    next => exact .some wider
    next => exact ih

theorem tagged_wider {tags tags' : List (String × Reader α)}
    (each : List.Forall₂ (fun known known' => known'.1 = known.1 ∧ Wider known.2 known'.2) tags tags') :
    Wider (tagged tags) (tagged tags') := by
  intro budget more cs result read
  unfold tagged at read ⊢
  split at read
  next => simp at read
  next c rest same =>
    split at read
    next brace =>
      have ⟨inner, entered, read⟩ := bind_eq_ok.mp read
      have ⟨after, quote, read⟩ := bind_eq_ok.mp read
      have ⟨⟨tag, behind⟩, body, read⟩ := bind_eq_ok.mp read
      have found := lookup_wider each (String.ofList tag)
      simp only [brace, if_true, enter_wider entered more, quote, body, ok_bind] at read ⊢
      generalize tags.lookup _ = known at found read
      generalize tags'.lookup _ = known' at found
      cases found with
      | none => simp at read
      | some wider =>
        have ⟨after, colon, read⟩ := bind_eq_ok.mp read
        have ⟨found, value, read⟩ := bind_eq_ok.mp read
        exact bind_eq_ok.mpr ⟨after, colon, bind_eq_ok.mpr ⟨found, wider _ more _ _ value, read⟩⟩
    next =>
      split at read
      next => simp at read
      next => simp at read

end Readers

section Records

variable {δ α : Type}

structure Field.Wider (field field' : Field δ) : Prop where
  key : field'.key = field.key
  isFilled : field'.isFilled = field.isFilled
  fill : ∀ draft, Json.Wider (field.fill draft) (field'.fill draft)

structure Record.Wider (record record' : Record δ α) : Prop where
  fields : List.Forall₂ Field.Wider record.fields record'.fields
  blank : record'.blank = record.blank
  complete : record'.complete? = record.complete?

variable {record record' : Record δ α} {budget : Budget} {more : Nat} {first : Bool} {draft : δ}
  {cs : List Char} {result : δ × List Char}

theorem find?_wider {fields fields' : List (Field δ)} (each : List.Forall₂ Field.Wider fields fields')
    (key : String) :
    Option.Rel Field.Wider (fields.find? fun field => field.key = key)
      (fields'.find? fun field => field.key = key) := by
  induction each with
  | nil => exact .none
  | cons here _ ih =>
    simp only [List.find?_cons, here.key]
    split
    next => exact .some here
    next => exact ih

theorem Record.Wider.member (wider : record.Wider record')
    (read : record.member budget draft cs = .ok result) :
    record'.member (budget.wider more) draft cs = .ok result := by
  obtain ⟨⟨key, after⟩, body, read⟩ := bind_eq_ok.mp read
  have found := find?_wider wider.fields (String.ofList key)
  rw [Record.member, body, ok_bind]
  dsimp only at read ⊢
  generalize record.fields.find? _ = known at found read
  generalize record'.fields.find? _ = known' at found
  cases found with
  | none => exact read
  | some same =>
    dsimp only at read ⊢
    rw [same.isFilled]
    split at read
    next => simp at read
    next free =>
      rw [if_neg free]
      obtain ⟨after, colon, read⟩ := bind_eq_ok.mp read
      exact bind_eq_ok.mpr ⟨after, colon, same.fill draft _ more _ _ read⟩

theorem Record.Wider.members (wider : record.Wider record') {steps : Nat}
    (read : record.members budget steps first draft cs = .ok result) :
    record'.members (budget.wider more) steps first draft cs = .ok result := by
  induction steps generalizing first draft cs with
  | zero => simp [Record.members] at read
  | succ steps ih =>
    obtain ⟨⟨after, further⟩, key, read⟩ := bind_eq_ok.mp read
    rw [Record.members, key, ok_bind]
    cases further with
    | false => exact read
    | true =>
      obtain ⟨one, member, read⟩ := bind_eq_ok.mp read
      exact bind_eq_ok.mpr ⟨one, wider.member member, ih read⟩

theorem elements_wider {fields fields' : List (Field δ)} (each : List.Forall₂ Field.Wider fields fields')
    (read : Record.elements budget first fields draft cs = .ok result) :
    Record.elements (budget.wider more) first fields' draft cs = .ok result := by
  induction each generalizing first draft cs with
  | nil => exact read
  | cons here _ ih =>
    have ⟨next?, found, read⟩ := bind_eq_ok.mp read
    rw [Record.elements, found, ok_bind]
    cases next? with
    | none => exact read
    | some cs' =>
      have ⟨one, filled, read⟩ := bind_eq_ok.mp read
      exact bind_eq_ok.mpr ⟨one, here.fill draft _ more _ _ filled, ih read⟩

theorem Record.Wider.read (wider : record.Wider record') : Json.Wider record.read record'.read := by
  intro budget more cs result read
  have finish (draft : δ) : record'.finish draft = record.finish draft := by
    rw [Record.finish, Record.finish, wider.complete]
  unfold Record.read at read ⊢
  simp only [wider.blank, finish]
  split at read
  next =>
    obtain ⟨inner, entered, read⟩ := bind_eq_ok.mp read
    obtain ⟨after, members, read⟩ := bind_eq_ok.mp read
    exact bind_eq_ok.mpr ⟨_, enter_wider entered more, bind_eq_ok.mpr ⟨after, wider.members members, read⟩⟩
  next =>
    obtain ⟨inner, entered, read⟩ := bind_eq_ok.mp read
    obtain ⟨after, elements, read⟩ := bind_eq_ok.mp read
    exact bind_eq_ok.mpr
      ⟨_, enter_wider entered more, bind_eq_ok.mpr ⟨after, elements_wider wider.fields elements, read⟩⟩
  next => simp at read

end Records

section Nets

variable {stepNet stepNet' : Reader Net}

theorem field_wider {δ α : Type} {reader reader' : Reader α} (wider : Wider reader reader') (key : String)
    (get : δ → Option α) (set : δ → α → δ) :
    Field.Wider (field key get set reader) (field key get set reader') :=
  ⟨rfl, rfl, fun draft => wider.map (set draft)⟩

theorem value_wider (wider : Wider stepNet stepNet') : Wider (value stepNet) (value stepNet') := by
  apply tagged_wider
  have held {α : Type} {reader reader' : Reader α} (wider : Wider reader reader') (tag : α → Value) :
      Wider (holding tag reader) (holding tag reader') := wider.map tag
  exact .cons ⟨rfl, held integer_wider .int⟩ (.cons ⟨rfl, held real_wider .float⟩
    (.cons ⟨rfl, held text_wider .text⟩ (.cons ⟨rfl, held (list_wider integer_wider) .ints⟩
      (.cons ⟨rfl, held (list_wider real_wider) .floats⟩ (.cons ⟨rfl, held (list_wider text_wider) .texts⟩
        (.cons ⟨rfl, held wider .net⟩ .nil))))))

theorem arg_wider (wider : Wider stepNet stepNet') : (arg stepNet).Wider (arg stepNet') where
  fields := .cons (field_wider text_wider ..) (.cons (field_wider (value_wider wider) ..) .nil)
  blank := rfl
  complete := rfl

theorem op_wider (wider : Wider stepNet stepNet') : (op stepNet).Wider (op stepNet') where
  fields := .cons (field_wider text_wider ..) (.cons (field_wider (list_wider text_wider) ..)
    (.cons (field_wider (list_wider text_wider) ..)
      (.cons (field_wider (list_wider (arg_wider wider).read) ..) .nil)))
  blank := rfl
  complete := rfl

theorem netRecord_wider (wider : Wider stepNet stepNet') : (netRecord stepNet).Wider (netRecord stepNet') where
  fields := .cons (field_wider text_wider ..) (.cons (field_wider text_wider ..)
    (.cons (field_wider (list_wider (op_wider wider).read) ..)
      (.cons (field_wider (list_wider text_wider) ..) (.cons (field_wider (list_wider text_wider) ..) .nil))))
  blank := rfl
  complete := rfl

theorem net_wider (depth more : Nat) : Wider (net depth) (net (depth + more)) := by
  induction depth with
  | zero => exact fun _ _ _ _ read => by simp [net] at read
  | succ depth ih =>
    rw [Nat.succ_add]
    exact (netRecord_wider ih).read

end Nets

end Json

theorem Net.eq_of_decodeJson {net found : Net} (back : ∀ x ∈ net.reals, Json.ReadsBack x)
    (read : Net.decodeJson net.toJson = .ok found) : found = net := by
  have ⟨⟨inner, rest⟩, whole, outer⟩ := bind_eq_ok.mp read
  dsimp only at outer
  split at outer
  next =>
    -- With that much more room the text is known to be read as the net.
    have wider := Json.net_wider 128 net.brackets _ net.brackets _ _ whole
    have written := Json.net_written (Nat.le_add_left net.brackets 128) back 0
    have whole' := written.read (Json.Budget.wider ⟨127, (Json.writeNet 0 net).length⟩ net.brackets) [] []
      Json.blank_nil nofun (Nat.le_add_left ..) (Nat.le_refl _)
    rw [Net.toJson, String.toList_ofList] at wider
    rw [List.nil_append, List.append_nil, wider, Except.ok.injEq, Prod.mk.injEq] at whole'
    rw [← Except.ok.inj outer, whole'.1]
  next => simp at outer

theorem Net.eq_of_ofJson {net found : Net} (current : net.version = Net.currentVersion)
    (back : ∀ x ∈ net.reals, Json.ReadsBack x) (read : Net.ofJson net.toJson = .ok found) : found = net := by
  have ⟨decoded, outer, checked⟩ := bind_eq_ok.mp read
  have same := Net.eq_of_decodeJson back (mapError_eq_ok.mp outer)
  have ⟨_, either⟩ := Net.withCheckedVersion_eq_ok_iff.mp (mapError_eq_ok.mp checked)
  cases either with
  | inl whole => rw [← whole, same]
  | inr unversioned =>
    have missing : net.version = "" := by rw [← same, unversioned]
    rw [current] at missing
    exact absurd missing (by decide)

end StoragePlan
