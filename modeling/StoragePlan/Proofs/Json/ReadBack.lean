import StoragePlan.Json.Record
import StoragePlan.Proofs.Json.Literal

set_option autoImplicit false

namespace StoragePlan.Json

def Blank (front : List Char) : Prop := ∀ c ∈ front, isBlank c = true

theorem blank_nil : Blank [] := nofun

theorem blank_space : Blank [' '] := fun _ inside => List.mem_singleton.mp inside ▸ rfl

theorem blank_newline (depth : Nat) : Blank (newline depth) := by
  intro c inside
  rcases List.mem_cons.mp inside with rfl | inside
  next => rfl
  next => exact List.eq_of_mem_replicate inside ▸ rfl

theorem skipBlank_append {front : List Char} (blank : Blank front) {c : Char} (visible : isBlank c = false)
    (rest : List Char) : skipBlank (front ++ c :: rest) = c :: rest := by
  unfold skipBlank
  rw [List.dropWhile_append_of_pos blank, List.dropWhile_cons_of_neg (by simp [visible])]

theorem expectAfterBlank_append {front : List Char} (blank : Blank front) {c : Char}
    (visible : isBlank c = false) (rest : List Char) :
    expectAfterBlank c (front ++ c :: rest) = .ok rest := by
  simp [expectAfterBlank, skipBlank_append blank visible]

variable {α β : Type} {reader : Reader α} {found : α} {deepest : Nat} {written : List Char}

structure Written (reader : Reader α) (found : α) (deepest : Nat) (written : List Char) : Prop where
  start : ∃ c tail, written = c :: tail ∧ isBlank c = false ∧ c ≠ ']'
  read : ∀ budget front rest, Blank front → Ended rest → deepest ≤ budget.brackets →
    written.length ≤ budget.items → reader budget (front ++ (written ++ rest)) = .ok (found, rest)

theorem Written.onward (reads : Written reader found deepest written) {reader' : Reader β} {found' : β}
    (next : ∀ budget cs rest, reader budget cs = .ok (found, rest) →
      reader' budget cs = .ok (found', rest)) : Written reader' found' deepest written where
  start := reads.start
  read budget front rest blank ended brackets items :=
    next _ _ _ (reads.read budget front rest blank ended brackets items)

theorem Written.map (reads : Written reader found deepest written) (f : α → β) :
    Written (fun budget cs => (reader budget cs).map fun (found, rest) => (f found, rest)) (f found)
      deepest written :=
  reads.onward fun _ _ _ read => by rw [read]; rfl

theorem text_written (s : String) : Written text s 0 (writeText s) where
  start := ⟨'"', _, rfl, rfl, by decide⟩
  read budget front rest blank ended brackets items := by
    have body := readBody_written s.toList rest
    simp only [text, writeText, List.cons_append, skipBlank_append blank (rfl : isBlank '"' = false),
      List.append_assoc, List.nil_append, body]
    simp [Except.map]

theorem readNumber_start {c : Char} {tail : List Char} {result : Number × List Char}
    (read : readNumber (c :: tail) = .ok result) : c = '-' ∨ isDigit c = true := by
  by_contra other
  have ⟨noMinus, noDigit⟩ := not_or.mp other
  simp [readNumber, scanNumeral, noMinus, scanUnsigned, scanWhole, someDigits, spanDigits, noDigit] at read

theorem number_written {found : Number} (read : readNumber written = .ok (found, []))
    (numeric : Numeric written) : Written number found 0 written := by
  cases written with
  | nil => cases read
  | cons c tail =>
    have ⟨_, visible, noBracket⟩ := isPlain_of_isNumeric (numeric c List.mem_cons_self)
    refine ⟨⟨c, tail, rfl, visible, noBracket⟩, ?_⟩
    intro budget front rest blank ended brackets items
    have whole := readNumber_append ended read
    rw [List.nil_append, List.cons_append] at whole
    simp only [number, List.cons_append, skipBlank_append blank visible, readNumber_start read, if_true,
      whole]

theorem integer_written (n : Int64) : Written integer n 0 (writeInteger n) := by
  refine (number_written (readNumber_writeInteger n) (numeric_writeInteger n)).onward ?_
  intro budget cs rest read
  rw [integer, read, ok_bind]
  dsimp only
  rw [toInt64_whole]
  rfl

def ReadsBack (x : Binary64) : Prop :=
  ∃ found, readNumber (writeReal x) = .ok (found, []) ∧ found.toBinary64 = x

theorem real_written {x : Binary64} (back : ReadsBack x) : Written real x 0 (writeReal x) := by
  have ⟨found, read, same⟩ := back
  refine (number_written read (numeric_writeReal x)).onward ?_
  intro budget cs rest read
  rw [real, read, ok_bind]
  dsimp only
  rw [same]
  rfl

-- Not every number reads back: here the power of ten has been rounded before it divides.
example : writeReal (.ofQuotient 1 (tenTo 30)) = "1e-30".toList ∧
    (readNumber "1e-30".toList).toOption ≠ some (.real (.ofQuotient 1 (tenTo 30)), []) := by decide +kernel

def Budget.inside (budget : Budget) : Budget := { budget with brackets := budget.brackets - 1 }

theorem enter_of_lt {budget : Budget} (brackets : deepest + 1 ≤ budget.brackets) :
    budget.enter = .ok budget.inside ∧ deepest ≤ budget.inside.brackets := by
  refine ⟨?_, Nat.le_sub_of_add_le brackets⟩
  unfold Budget.enter Budget.inside
  split
  next none => omega
  next more => rw [more, Nat.succ_sub_one]

theorem delimits_of_isBlank {c : Char} (blank : isBlank c = true) : c ∈ delimiters := by
  simp only [isBlank, Bool.or_eq_true, decide_eq_true_eq] at blank
  rcases blank with ((rfl | rfl) | rfl) | rfl
  all_goals decide

theorem ended_lines (depth : Nat) (items : List (List Char)) {front : List Char} (blank : Blank front)
    {closing : Char} (closes : closing ∈ delimiters) (rest : List Char) :
    Ended (lines depth false items ++ (front ++ closing :: rest)) := by
  intro c first
  cases items with
  | cons item others =>
    obtain rfl : ',' = c := by simpa [lines] using first
    decide
  | nil =>
    cases front with
    | nil =>
      obtain rfl : closing = c := by simpa [lines] using first
      exact closes
    | cons d front =>
      obtain rfl : d = c := by simpa [lines] using first
      exact delimits_of_isBlank (blank d List.mem_cons_self)

theorem bracket_eq (opening closing : Char) (depth : Nat) (items : List (List Char)) :
    ∃ front, Blank front ∧
      bracket opening closing depth items = opening :: (lines (depth + 1) true items ++ (front ++ [closing])) := by
  cases items with
  | nil => exact ⟨[], blank_nil, rfl⟩
  | cons item others =>
    refine ⟨newline depth, blank_newline depth, ?_⟩
    rw [bracket_cons, List.append_assoc]

theorem length_le_lines (depth : Nat) (first : Bool) (items : List (List Char)) :
    items.length ≤ (lines depth first items).length := by
  induction items generalizing first with
  | nil => exact Nat.le_refl _
  | cons item rest ih =>
    have many := ih false
    simp only [lines, newline, List.length_append, List.length_cons]
    omega

theorem lines_fit {opening closing : Char} {depth steps : Nat} {items : List (List Char)}
    (short : (bracket opening closing depth items).length ≤ steps) :
    items.length < steps + 1 ∧ (lines (depth + 1) true items).length ≤ steps := by
  have ⟨gap, _, same⟩ := bracket_eq opening closing depth items
  have many := length_le_lines (depth + 1) true items
  simp only [same, List.length_cons, List.length_append] at short
  omega

theorem nextItem_closing {front : List Char} (blank : Blank front) (first : Bool) (rest : List Char) :
    nextItem first (front ++ ']' :: rest) = .ok none := by
  simp [nextItem, skipBlank_append blank (rfl : isBlank ']' = false)]

theorem nextItem_line (reads : Written reader found deepest written) (first : Bool) (depth : Nat)
    (rest : List Char) :
    nextItem first ((if first then [] else [',']) ++ (newline depth ++ (written ++ rest))) =
      .ok (some (written ++ rest)) := by
  have ⟨c, tail, same, visible, noBracket⟩ := reads.start
  subst same
  have skipped := skipBlank_append (blank_newline depth) visible (tail ++ rest)
  cases first with
  | true => simp [nextItem, skipped, noBracket]
  | false =>
    have comma (rest : List Char) : skipBlank (',' :: rest) = ',' :: rest := skipBlank_append blank_nil rfl rest
    simp [nextItem, comma, skipped, noBracket]

section Lists

variable {nests : α → Nat} {write : α → List Char} {all : List α}

theorem items_lines (reads : ∀ item ∈ all, Written reader item (nests item) (write item)) {budget : Budget}
    (brackets : ∀ item ∈ all, nests item ≤ budget.brackets) {depth steps : Nat} (first : Bool)
    (enough : all.length < steps) (short : (lines depth first (all.map write)).length ≤ budget.items)
    {front : List Char} (blank : Blank front) (rest : List Char) :
    items reader budget steps first (lines depth first (all.map write) ++ (front ++ ']' :: rest)) =
      .ok (all, front ++ ']' :: rest) := by
  induction all generalizing first steps with
  | nil =>
    cases steps with
    | zero => exact absurd enough (Nat.not_lt_zero _)
    | succ steps =>
      rw [List.map_nil, lines, List.nil_append, items, nextItem_closing blank]
      rfl
  | cons item others ih =>
    have each := List.forall_mem_cons.mp reads
    have low := List.forall_mem_cons.mp brackets
    cases steps with
    | zero => exact absurd enough (Nat.not_lt_zero _)
    | succ steps =>
      simp only [List.map_cons, lines, List.length_append] at short
      have one := each.1.read budget [] (lines depth false (others.map write) ++ (front ++ ']' :: rest))
        blank_nil (ended_lines _ _ blank (by decide) rest) low.1 (by omega)
      have more := ih each.2 low.2 false (Nat.lt_of_succ_lt_succ enough) (by omega)
      simp only [List.map_cons, lines, List.append_assoc, items]
      rw [nextItem_line each.1]
      rw [List.nil_append] at one
      simp only [ok_bind, one, more]
      rfl

theorem list_written (reads : ∀ item ∈ all, Written reader item (nests item) (write item)) (depth : Nat) :
    Written (list reader) all (most (all.map nests) + 1) (writeList depth (all.map write)) := by
  have ⟨gap, blank', same⟩ := bracket_eq '[' ']' depth (all.map write)
  refine ⟨⟨'[', _, same, rfl, by decide⟩, ?_⟩
  intro budget front rest blank ended brackets short
  have ⟨inner, low⟩ := enter_of_lt brackets
  have ⟨enough, fits⟩ := lines_fit short
  rw [List.length_map] at enough
  have lows : ∀ item ∈ all, nests item ≤ budget.inside.brackets := fun item inside =>
    most_le_iff.mp low _ (List.mem_map_of_mem inside)
  have found := items_lines reads lows true enough fits blank' rest
  rw [writeList, same]
  simp only [list, List.cons_append, skipBlank_append blank (rfl : isBlank '[' = false), inner, ok_bind,
    List.append_assoc, List.nil_append, found, closeList,
    expectAfterBlank_append blank' (rfl : isBlank ']' = false)]
  rfl

end Lists

theorem nextKey_closing {front : List Char} (blank : Blank front) (first : Bool) (rest : List Char) :
    Record.nextKey first (front ++ '\x7d' :: rest) = .ok (rest, false) := by
  simp [Record.nextKey, skipBlank_append blank (rfl : isBlank '\x7d' = false)]

theorem nextKey_line (first : Bool) (depth : Nat) (rest : List Char) :
    Record.nextKey first ((if first then [] else [',']) ++ (newline depth ++ '"' :: rest)) =
      .ok (rest, true) := by
  cases first with
  | true => simp [Record.nextKey, skipBlank_append (blank_newline depth) (rfl : isBlank '"' = false)]
  | false =>
    have comma (rest : List Char) : skipBlank (',' :: rest) = ',' :: rest := skipBlank_append blank_nil rfl rest
    have quote := expectAfterBlank_append (blank_newline depth) (rfl : isBlank '"' = false) rest
    simp [Record.nextKey, comma, quote, Except.map]

theorem readKey_written (key : String) (rest : List Char) :
    readBody (key.toList.flatMap escapeChar ++ ('"' :: ':' :: ' ' :: rest)) =
        .ok (key.toList, ':' :: ' ' :: rest) ∧
      colon (':' :: ' ' :: rest) = .ok (' ' :: rest) :=
  ⟨readBody_written _ _, expectAfterBlank_append blank_nil rfl _⟩

section Records

variable {δ : Type} {record : Record δ α} {draft draft' : δ} {members : List (String × List Char)}

inductive Fills (record : Record δ α) : δ → List (String × List Char) → Nat → δ → Prop
  | done (draft : δ) : Fills record draft [] 0 draft
  | member {draft draft' draft'' : δ} {key : String} {written : List Char} {deepest deepest' : Nat}
      {field : Field δ} {members : List (String × List Char)}
      (known : (record.fields.find? fun field => field.key = key) = some field)
      (missing : field.isFilled draft = false) (filled : Written (field.fill draft) draft' deepest written)
      (later : Fills record draft' members deepest' draft'') :
      Fills record draft ((key, written) :: members) (max deepest deepest') draft''

theorem member_written {key : String} {field : Field δ}
    (known : (record.fields.find? fun field => field.key = key) = some field)
    (missing : field.isFilled draft = false) (filled : Written (field.fill draft) draft' deepest written)
    {budget : Budget} (brackets : deepest ≤ budget.brackets) (short : written.length ≤ budget.items)
    {rest : List Char} (ended : Ended rest) :
    record.member budget draft (key.toList.flatMap escapeChar ++ '"' :: ':' :: ' ' :: (written ++ rest)) =
      .ok (draft', rest) := by
  have ⟨body, after⟩ := readKey_written key (written ++ rest)
  have one := filled.read budget [' '] rest blank_space ended brackets short
  rw [Record.member, body, ok_bind]
  dsimp only
  rw [String.ofList_toList, known]
  simp only [missing, Bool.false_eq_true, if_false, after, ok_bind]
  exact one

theorem Fills.read (fills : Fills record draft members deepest draft') {budget : Budget}
    (brackets : deepest ≤ budget.brackets) {depth steps : Nat} (first : Bool) (enough : members.length < steps)
    (short : (lines depth first (members.map writeMember)).length ≤ budget.items) {front : List Char}
    (blank : Blank front) (rest : List Char) :
    record.members budget steps first draft
        (lines depth first (members.map writeMember) ++ (front ++ '\x7d' :: rest)) = .ok (draft', rest) := by
  induction fills generalizing first steps with
  | done draft =>
    cases steps with
    | zero => exact absurd enough (Nat.not_lt_zero _)
    | succ steps =>
      rw [List.map_nil, lines, List.nil_append, Record.members, nextKey_closing blank]
      rfl
  | @member draft draft' draft'' key written _ _ field members known missing filled later ih =>
    cases steps with
    | zero => exact absurd enough (Nat.not_lt_zero _)
    | succ steps =>
      simp only [List.map_cons, lines, List.length_append, writeMember, List.length_cons] at short
      have ended := ended_lines depth (members.map writeMember) blank
        (by decide : '\x7d' ∈ delimiters) rest
      have one := member_written known missing filled (Nat.le_trans (Nat.le_max_left ..) brackets)
        (by omega) ended
      have more := ih (by omega) false (Nat.lt_of_succ_lt_succ enough) (by omega)
      simp only [List.map_cons, lines, List.append_assoc, writeMember, writeText, List.cons_append,
        List.nil_append, Record.members, nextKey_line, ok_bind]
      rw [one]
      exact more

theorem record_written {found : α} (fills : Fills record record.blank members deepest draft)
    (complete : record.complete? draft = some found) (depth : Nat) :
    Written record.read found (deepest + 1) (writeObject depth members) := by
  have ⟨gap, blank', same⟩ := bracket_eq '\x7b' '\x7d' depth (members.map writeMember)
  refine ⟨⟨'\x7b', _, same, rfl, by decide⟩, ?_⟩
  intro budget front rest blank ended brackets short
  have ⟨inner, low⟩ := enter_of_lt brackets
  have ⟨enough, fits⟩ := lines_fit short
  rw [List.length_map] at enough
  have found := fills.read low true enough fits blank' rest
  rw [writeObject, same]
  simp only [Record.read, List.cons_append, skipBlank_append blank (rfl : isBlank '\x7b' = false), inner,
    ok_bind, List.append_assoc, List.nil_append, found, Record.finish, complete]
  rfl

end Records

theorem tagged_written {tags : List (String × Reader α)} {tag : String}
    (known : tags.lookup tag = some reader) (reads : Written reader found deepest written) (depth : Nat) :
    Written (tagged tags) found (deepest + 1) (writeObject depth [(tag, written)]) := by
  refine ⟨⟨'\x7b', _, rfl, rfl, by decide⟩, ?_⟩
  intro budget front rest blank ended brackets short
  have enters := enter_of_lt brackets
  have length : written.length ≤ (writeObject depth [(tag, written)]).length := by
    simp only [writeObject, List.map_cons, List.map_nil, bracket_cons, lines, writeMember, List.length_cons,
      List.length_append]
    omega
  have delimited : Ended (newline depth ++ '\x7d' :: rest) :=
    ended_lines (depth + 1) [] (blank_newline depth) (by decide) rest
  have key := readKey_written tag (written ++ (newline depth ++ '\x7d' :: rest))
  have one := reads.read budget.inside [' '] _ blank_space delimited enters.2 (Nat.le_trans length short)
  have quote := expectAfterBlank_append (blank_newline (depth + 1)) (rfl : isBlank '"' = false)
  have closing := expectAfterBlank_append (blank_newline depth) (rfl : isBlank '\x7d' = false) rest
  simp only [writeObject, List.map_cons, List.map_nil, bracket_cons, lines, writeMember, writeText,
    List.append_assoc, List.cons_append, List.nil_append, if_true, tagged,
    skipBlank_append blank (rfl : isBlank '\x7b' = false), enters.1, ok_bind, quote, key.1,
    String.ofList_toList, known, key.2]
  rw [List.singleton_append] at one
  rw [one, ok_bind]
  dsimp only
  rw [closing]
  rfl

end StoragePlan.Json
