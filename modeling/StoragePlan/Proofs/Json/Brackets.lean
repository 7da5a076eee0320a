import Mathlib.Data.List.Forall2
import Mathlib.Tactic.FinCases
import StoragePlan.Json.Number
import StoragePlan.Json.Text

set_option autoImplicit false

namespace StoragePlan.Json

inductive Place
  | outside
  | quoted
  | escaped

def isOpening (c : Char) : Bool := c = '[' || c = '\x7b'

def isClosing (c : Char) : Bool := c = ']' || c = '\x7d'

def nestingFrom : Place → Nat → List Char → Nat
  | _, depth, [] => depth
  | .outside, depth, c :: cs =>
    if c = '"' then nestingFrom .quoted depth cs
    else if isOpening c then nestingFrom .outside (depth + 1) cs
    else if isClosing c then max depth (nestingFrom .outside (depth - 1) cs)
    else nestingFrom .outside depth cs
  | .quoted, depth, c :: cs =>
    if c = '"' then nestingFrom .outside depth cs
    else if c = '\\' then nestingFrom .escaped depth cs
    else nestingFrom .quoted depth cs
  | .escaped, depth, _ :: cs => nestingFrom .quoted depth cs

def nesting (cs : List Char) : Nat := nestingFrom .outside 0 cs

theorem le_nestingFrom (place : Place) (depth : Nat) (cs : List Char) :
    depth ≤ nestingFrom place depth cs := by
  fun_induction nestingFrom place depth cs with
  | case1 => exact Nat.le_refl _
  | case3 _ _ _ _ _ ih => omega
  | case4 => omega
  | case2 | case5 | case6 | case7 | case8 | case9 => assumption

def Balanced (deepest : Nat) (written : List Char) : Prop :=
  ∀ depth rest, nestingFrom .outside depth (written ++ rest) =
    max (depth + deepest) (nestingFrom .outside depth rest)

theorem Balanced.nesting_eq {deepest : Nat} {written : List Char} (balanced : Balanced deepest written) :
    nesting written = deepest := by
  have whole := balanced 0 []
  rw [List.append_nil] at whole
  simpa [nesting, nestingFrom] using whole

theorem balanced_nil : Balanced 0 [] := by
  intro depth rest
  have least := le_nestingFrom .outside depth rest
  simp only [List.nil_append]
  omega

theorem Balanced.append {deepest deepest' : Nat} {written written' : List Char}
    (first : Balanced deepest written) (second : Balanced deepest' written') :
    Balanced (max deepest deepest') (written ++ written') := by
  intro depth rest
  rw [List.append_assoc, first, second]
  omega

theorem Balanced.enclosed {deepest : Nat} {written : List Char} (balanced : Balanced deepest written)
    {opening closing : Char} (opens : isOpening opening = true) (closes : isClosing closing = true) :
    Balanced (deepest + 1) (opening :: (written ++ [closing])) := by
  intro depth rest
  have noQuote : opening ≠ '"' := by
    rintro rfl
    simp [isOpening] at opens
  have noQuote' : closing ≠ '"' ∧ isOpening closing = false := by
    grind [isClosing, isOpening]
  have least := le_nestingFrom .outside depth rest
  simp only [List.cons_append, List.append_assoc, List.nil_append, nestingFrom, noQuote, noQuote', opens,
    closes, balanced (depth + 1), if_true, if_false, Nat.add_sub_cancel, Bool.false_eq_true]
  omega

def isPlain (c : Char) : Bool := c ≠ '"' && !isOpening c && !isClosing c

theorem balanced_plain {written : List Char} (plain : ∀ c ∈ written, isPlain c) : Balanced 0 written := by
  induction written with
  | nil => exact balanced_nil
  | cons c written ih =>
    have ⟨here, later⟩ := List.forall_mem_cons.mp plain
    simp only [isPlain, Bool.and_eq_true, decide_eq_true_eq, Bool.not_eq_true'] at here
    intro depth rest
    simp only [List.cons_append, nestingFrom, here, if_false, Bool.false_eq_true]
    exact ih later depth rest

theorem escapeChar_cases (c : Char) :
    (∃ e, e ≠ 'u' ∧ simpleEscape e = some c ∧ escapeChar c = ['\\', e]) ∨
      (c < ' ' ∧
        escapeChar c = ['\\', 'u', '0', '0', hexDigit (c.toNat / 16), hexDigit (c.toNat % 16)]) ∨
      (c ≠ '"' ∧ c ≠ '\\' ∧ ¬ c < ' ' ∧ escapeChar c = [c]) := by
  by_cases short : c ∈ ['"', '\\', '\x08', '\x0c', '\n', '\r', '\t']
  next =>
    left
    fin_cases short
    all_goals exact ⟨_, by decide, rfl, rfl⟩
  next =>
    right
    simp only [List.mem_cons, List.not_mem_nil, or_false, not_or] at short
    by_cases control : c < ' '
    next => exact .inl ⟨control, by simp [escapeChar, short, control]⟩
    next => exact .inr ⟨short.1, short.2.1, control, by simp [escapeChar, short, control]⟩

theorem hexDigit_inside : ∀ n < 16, hexDigit n ≠ '"' ∧ hexDigit n ≠ '\\' := by decide

theorem toNat_lt_of_control {c : Char} (control : c < ' ') : c.toNat < 32 := control

theorem nestingFrom_escapeChar (depth : Nat) (c : Char) (rest : List Char) :
    nestingFrom .quoted depth (escapeChar c ++ rest) = nestingFrom .quoted depth rest := by
  rcases escapeChar_cases c with ⟨e, -, -, short⟩ | ⟨control, unit⟩ | ⟨quote, backslash, -, same⟩
  next => simp [short, nestingFrom]
  next =>
    have small := toNat_lt_of_control control
    have high := hexDigit_inside (c.toNat / 16) (by omega)
    have low := hexDigit_inside (c.toNat % 16) (by omega)
    simp [unit, nestingFrom, high, low]
  next => simp [same, nestingFrom, quote, backslash]

theorem balanced_writeText (s : String) : Balanced 0 (writeText s) := by
  intro depth rest
  have least := le_nestingFrom .outside depth rest
  have body (cs : List Char) : nestingFrom .quoted depth (cs.flatMap escapeChar ++ '"' :: rest) =
      nestingFrom .outside depth rest := by
    induction cs with
    | nil => simp [nestingFrom]
    | cons c cs ih => rw [List.flatMap_cons, List.append_assoc, nestingFrom_escapeChar, ih]
  simp only [writeText, List.cons_append, List.append_assoc, List.nil_append, nestingFrom, if_true, body]
  omega

theorem balanced_newline (depth : Nat) : Balanced 0 (newline depth) := by
  apply balanced_plain
  intro c inside
  rcases List.mem_cons.mp inside with rfl | inside
  next => decide
  next =>
    obtain rfl := List.eq_of_mem_replicate inside
    decide

def lines (depth : Nat) : Bool → List (List Char) → List Char
  | _, [] => []
  | first, item :: rest =>
    (if first then [] else [',']) ++ (newline depth ++ (item ++ lines depth false rest))

theorem separated_cons (depth : Nat) (item : List Char) (rest : List (List Char)) :
    separated (',' :: newline depth) (item :: rest) = item ++ lines depth false rest := by
  induction rest generalizing item with
  | nil => simp [separated, lines]
  | cons next rest ih => simp [separated, ih, lines]

theorem bracket_cons (opening closing : Char) (depth : Nat) (item : List Char) (rest : List (List Char)) :
    bracket opening closing depth (item :: rest) =
      opening :: (lines (depth + 1) true (item :: rest) ++ newline depth ++ [closing]) := by
  simp [bracket, separated_cons, lines]

theorem balanced_lines_cons {deepest deepest' : Nat} {item : List Char} {rest : List (List Char)}
    (here : Balanced deepest item) {depth : Nat} (later : Balanced deepest' (lines depth false rest))
    (first : Bool) : Balanced (max deepest deepest') (lines depth first (item :: rest)) := by
  have comma : Balanced 0 (if first then [] else [',']) := by
    cases first with
    | true => exact balanced_nil
    | false => exact balanced_plain (List.all_eq_true.mp rfl)
  have whole := comma.append ((balanced_newline depth).append (here.append later))
  simpa [lines] using whole

theorem balanced_bracket {deepest depth : Nat} {items : List (List Char)}
    (inner : Balanced deepest (lines (depth + 1) true items)) {opening closing : Char}
    (opens : isOpening opening = true) (closes : isClosing closing = true) :
    Balanced (deepest + 1) (bracket opening closing depth items) := by
  cases items with
  | nil => exact inner.enclosed opens closes
  | cons item rest =>
    rw [bracket_cons]
    simpa using (inner.append (balanced_newline depth)).enclosed opens closes

def most (depths : List Nat) : Nat := depths.foldr max 0

theorem most_le_iff {depths : List Nat} {limit : Nat} : most depths ≤ limit ↔ ∀ depth ∈ depths, depth ≤ limit := by
  induction depths with
  | nil => simp [most]
  | cons depth rest ih => simpa [most] using fun _ => ih

theorem le_most {depths : List Nat} {depth : Nat} (inside : depth ∈ depths) : depth ≤ most depths :=
  most_le_iff.mp (Nat.le_refl _) depth inside

theorem balanced_writeList {α : Type} {nests : α → Nat} {write : α → List Char} {all : List α}
    (each : ∀ item ∈ all, Balanced (nests item) (write item)) (depth : Nat) :
    Balanced (most (all.map nests) + 1) (writeList depth (all.map write)) := by
  have inside (depth : Nat) (first : Bool) :
      Balanced (most (all.map nests)) (lines depth first (all.map write)) := by
    induction all generalizing first with
    | nil => exact balanced_nil
    | cons item others ih =>
      have ⟨here, later⟩ := List.forall_mem_cons.mp each
      exact balanced_lines_cons here (ih later false) first
  exact balanced_bracket (inside _ _) rfl rfl

theorem balanced_writeMember {deepest : Nat} {written : List Char} (balanced : Balanced deepest written)
    (key : String) : Balanced deepest (writeMember (key, written)) := by
  have colon : Balanced 0 [':', ' '] := balanced_plain (List.all_eq_true.mp rfl)
  simpa [writeMember] using (balanced_writeText key).append (colon.append balanced)

theorem balanced_writeObject {members : List (String × List Char)} {depths : List Nat}
    (each : List.Forall₂ (fun member deepest => Balanced deepest member.2) members depths) (depth : Nat) :
    Balanced (most depths + 1) (writeObject depth members) := by
  have inside (depth : Nat) (first : Bool) :
      Balanced (most depths) (lines depth first (members.map writeMember)) := by
    induction each generalizing first with
    | nil => exact balanced_nil
    | cons here later ih => exact balanced_lines_cons (balanced_writeMember here _) (ih false) first
  exact balanced_bracket (inside _ _) rfl rfl

end StoragePlan.Json
