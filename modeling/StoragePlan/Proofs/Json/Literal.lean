import Mathlib.Data.List.TakeWhile
import StoragePlan.Error
import StoragePlan.Proofs.Json.Brackets

set_option autoImplicit false

namespace StoragePlan.Json

variable {cs rest tail : List Char}

theorem hexUnit_control : ∀ n < 32, hexUnit '0' '0' (hexDigit (n / 16)) (hexDigit (n % 16)) = some n ∧
    isLowSurrogate n = false ∧ isHighSurrogate n = false := by decide

theorem readBody_escapeChar (c : Char) (cs : List Char) :
    readBody (escapeChar c ++ cs) = (readBody cs).map (prepend c) := by
  rcases escapeChar_cases c with ⟨e, known, simple, short⟩ | ⟨control, unit⟩ | ⟨quote, backslash, visible, same⟩
  next =>
    rw [short, List.cons_append, List.cons_append, List.nil_append, readBody.eq_def]
    simp [known, simple]
  next =>
    have ⟨hex, low, high⟩ := hexUnit_control c.toNat (toNat_lt_of_control control)
    rw [unit, readBody.eq_def]
    simp [hex, low, high]
  next =>
    rw [same, List.cons_append, List.nil_append, readBody.eq_def]
    simp [quote, backslash, visible]

theorem readBody_written (cs rest : List Char) :
    readBody (cs.flatMap escapeChar ++ '"' :: rest) = .ok (cs, rest) := by
  induction cs with
  | nil =>
    rw [List.flatMap_nil, List.nil_append, readBody.eq_def]
    simp
  | cons c cs ih =>
    rw [List.flatMap_cons, List.append_assoc, readBody_escapeChar, ih]
    rfl

def delimiters : List Char := [',', ']', '\x7d', ' ', '\n', '\t', '\r']

def Ended (rest : List Char) : Prop := ∀ c ∈ rest.head?, c ∈ delimiters

theorem apart_of_delimiter {c : Char} (delimits : c ∈ delimiters) :
    isDigit c = false ∧ c ≠ '.' ∧ ¬ (c = 'e' ∨ c = 'E') := by
  fin_cases delimits
  all_goals decide

theorem spanDigits_append (ended : Ended rest) (cs : List Char) :
    spanDigits (cs ++ rest) = ((spanDigits cs).1, (spanDigits cs).2 ++ rest) := by
  induction cs with
  | nil =>
    cases rest with
    | nil => rfl
    | cons c rest =>
      have ⟨noDigit, _⟩ := apart_of_delimiter (ended c rfl)
      simp [spanDigits, noDigit]
  | cons c cs ih =>
    simp only [spanDigits, Prod.mk.injEq] at ih
    cases digit : isDigit c with
    | true => simp [spanDigits, digit, ih]
    | false => simp [spanDigits, digit]

theorem someDigits_append (ended : Ended rest) {digits : List Nat}
    (read : someDigits cs = .ok (digits, tail)) : someDigits (cs ++ rest) = .ok (digits, tail ++ rest) := by
  unfold someDigits at read ⊢
  rw [spanDigits_append ended]
  split at read
  next => simp at read
  next nonempty =>
    obtain ⟨rfl, rfl⟩ := Prod.mk.inj (Except.ok.inj read)
    split
    next empty => simp_all
    next => rfl

theorem scanWhole_append (ended : Ended rest) {digits : List Nat}
    (read : scanWhole cs = .ok (digits, tail)) : scanWhole (cs ++ rest) = .ok (digits, tail ++ rest) := by
  have ⟨⟨found, after⟩, scanned, read⟩ := bind_eq_ok.mp read
  dsimp only at read
  rw [scanWhole, someDigits_append ended scanned, ok_bind]
  dsimp only
  split at read
  next => simp at read
  next =>
    obtain ⟨rfl, rfl⟩ := Prod.mk.inj (Except.ok.inj read)
    rfl

theorem scanFraction_append (ended : Ended rest) {fraction : Option (List Nat)}
    (read : scanFraction cs = .ok (fraction, tail)) :
    scanFraction (cs ++ rest) = .ok (fraction, tail ++ rest) := by
  unfold scanFraction at read
  split at read
  next =>
    have ⟨⟨digits, after⟩, scanned, same⟩ := bind_eq_ok.mp read
    obtain ⟨rfl, rfl⟩ := Prod.mk.inj (Except.ok.inj same)
    rw [List.cons_append, scanFraction, someDigits_append ended scanned]
    rfl
  next noPoint =>
    obtain ⟨rfl, rfl⟩ := Prod.mk.inj (Except.ok.inj read)
    unfold scanFraction
    split
    next after whole =>
      cases cs with
      | nil =>
        have ⟨_, noPoint, _⟩ := apart_of_delimiter (ended '.' (by simp_all))
        exact absurd rfl noPoint
      | cons c cs => simp_all
    next => rfl

theorem scanExponentDigits_append (ended : Ended rest) {negative : Bool} {exponent : Option Int}
    (read : scanExponentDigits negative cs = .ok (exponent, tail)) :
    scanExponentDigits negative (cs ++ rest) = .ok (exponent, tail ++ rest) := by
  have ⟨⟨digits, after⟩, scanned, same⟩ := bind_eq_ok.mp read
  obtain ⟨rfl, rfl⟩ := Prod.mk.inj (Except.ok.inj same)
  rw [scanExponentDigits, someDigits_append ended scanned]
  rfl

theorem scanExponent_append (ended : Ended rest) {exponent : Option Int}
    (read : scanExponent cs = .ok (exponent, tail)) :
    scanExponent (cs ++ rest) = .ok (exponent, tail ++ rest) := by
  cases cs with
  | nil =>
    obtain ⟨rfl, rfl⟩ := Prod.mk.inj (Except.ok.inj read)
    cases rest with
    | nil => rfl
    | cons c rest =>
      have ⟨_, _, noExponent⟩ := apart_of_delimiter (ended c rfl)
      simp [scanExponent, noExponent]
  | cons c cs =>
    simp only [scanExponent, List.cons_append] at read ⊢
    split at read
    next mark =>
      rw [if_pos mark]
      split at read
      next => exact scanExponentDigits_append ended read
      next => exact scanExponentDigits_append ended read
      next noPlus noMinus =>
        -- Without a digit there is no exponent, so the digits do not start behind the literal.
        cases cs with
        | nil => simp [scanExponentDigits, someDigits, spanDigits] at read
        | cons d cs =>
          have plain := scanExponentDigits_append ended read
          split
          next => simp_all
          next => simp_all
          next => exact plain
    next noMark =>
      obtain ⟨rfl, rfl⟩ := Prod.mk.inj (Except.ok.inj read)
      rw [if_neg noMark]
      rfl

theorem scanUnsigned_append (ended : Ended rest) {negative : Bool} {numeral : Numeral}
    (read : scanUnsigned negative cs = .ok (numeral, tail)) :
    scanUnsigned negative (cs ++ rest) = .ok (numeral, tail ++ rest) := by
  have ⟨⟨whole, _⟩, first, read⟩ := bind_eq_ok.mp read
  have ⟨⟨fraction, _⟩, second, read⟩ := bind_eq_ok.mp read
  have ⟨⟨exponent, _⟩, third, same⟩ := bind_eq_ok.mp read
  obtain ⟨rfl, rfl⟩ := Prod.mk.inj (Except.ok.inj same)
  simp only [scanUnsigned, scanWhole_append ended first, scanFraction_append ended second,
    scanExponent_append ended third, ok_bind]
  rfl

theorem scanNumeral_append (ended : Ended rest) {numeral : Numeral}
    (read : scanNumeral cs = .ok (numeral, tail)) :
    scanNumeral (cs ++ rest) = .ok (numeral, tail ++ rest) := by
  cases cs with
  | nil => simp [scanNumeral, scanUnsigned, scanWhole, someDigits, spanDigits] at read
  | cons c cs =>
    unfold scanNumeral at read
    split at read
    next same =>
      obtain ⟨rfl, rfl⟩ := List.cons.inj same
      exact scanUnsigned_append ended read
    next noMinus =>
      have plain := scanUnsigned_append ended read
      unfold scanNumeral
      split
      next => simp_all
      next => exact plain

theorem readNumber_append (ended : Ended rest) {found : Number}
    (read : readNumber cs = .ok (found, tail)) : readNumber (cs ++ rest) = .ok (found, tail ++ rest) := by
  have ⟨⟨numeral, _⟩, scanned, read⟩ := bind_eq_ok.mp read
  have ⟨_, evaluated, same⟩ := bind_eq_ok.mp read
  obtain ⟨rfl, rfl⟩ := Prod.mk.inj (Except.ok.inj same)
  simp only [readNumber, scanNumeral_append ended scanned, ok_bind, evaluated]
  rfl

def digitsOf (n : Nat) : List Nat := (Nat.toDigits 10 n).map digitValue

theorem isDigit_toDigits {n : Nat} {c : Char} (inside : c ∈ Nat.toDigits 10 n) : isDigit c = true := by
  have digit := Nat.isDigit_of_mem_toDigits (by decide) (by decide) inside
  simpa [isDigit, Char.isDigit, Char.le_def] using digit

theorem digitsValue_digitsOf (n : Nat) : digitsValue (digitsOf n) = n := by
  have back := Nat.ofDigitChars_ten_toDigits (n := n)
  simpa [digitsValue, digitsOf, List.foldl_map, Nat.ofDigitChars_eq_foldl, digitValue, Nat.mul_comm] using back

theorem toDigits_head {n : Nat} (positive : 0 < n) (tail : List Char) :
    Nat.toDigits 10 n ≠ '0' :: tail := by
  induction n using Nat.strongRecOn generalizing tail with
  | ind n ih =>
    by_cases small : n < 10
    next =>
      rw [Nat.toDigits_of_lt_base small]
      have few : ∀ m < 10, 0 < m → m.digitChar ≠ '0' := by decide
      have digit := few n small positive
      simp [digit]
    next =>
      intro same
      rw [Nat.toDigits_of_base_le (by decide) (by omega)] at same
      cases front : Nat.toDigits 10 (n / 10) with
      | nil => simp at front
      | cons c rest =>
        rw [front] at same
        have first := (List.cons.inj same).1
        exact ih (n / 10) (by omega) (by omega) rest (first ▸ front)

theorem someDigits_toDigits (n : Nat) : someDigits (Nat.toDigits 10 n) = .ok (digitsOf n, []) := by
  have all : spanDigits (Nat.toDigits 10 n) = (digitsOf n, []) := by
    have digits : ∀ c ∈ Nat.toDigits 10 n, isDigit c = true := fun c => isDigit_toDigits
    rw [spanDigits, List.takeWhile_eq_self_iff.mpr digits, List.dropWhile_eq_nil_iff.mpr digits, digitsOf]
  have some : digitsOf n ≠ [] := by simp [digitsOf]
  rw [someDigits, all]
  split
  next => simp_all
  next => rfl

theorem digitsOf_ne_zero_cons (n d : Nat) (rest : List Nat) : digitsOf n ≠ 0 :: d :: rest := by
  intro same
  cases front : Nat.toDigits 10 n with
  | nil => simp at front
  | cons c tail =>
    rw [digitsOf, front] at same
    have digit : isDigit c = true := isDigit_toDigits (front ▸ List.mem_cons_self)
    have zero : c = '0' := by
      have value := (List.cons.inj same).1
      simp only [isDigit, Bool.and_eq_true, decide_eq_true_eq, Char.le_def, digitValue] at digit value
      apply Char.toNat_inj.mp
      have low : 48 ≤ c.toNat := digit.1
      show c.toNat = 48
      omega
    subst zero
    cases n with
    | zero =>
      obtain rfl := (List.cons.inj front).2
      simp at same
    | succ n => exact toDigits_head (Nat.succ_pos n) tail front

theorem scanUnsigned_toDigits (negative : Bool) (n : Nat) :
    scanUnsigned negative (Nat.toDigits 10 n) = .ok (⟨negative, digitsOf n, none, none⟩, []) := by
  have whole : scanWhole (Nat.toDigits 10 n) = .ok (digitsOf n, []) := by
    rw [scanWhole, someDigits_toDigits, ok_bind]
    dsimp only
    split
    next zero => exact absurd zero (digitsOf_ne_zero_cons n _ _)
    next => rfl
  simp only [scanUnsigned, whole, ok_bind, scanFraction, scanExponent]
  rfl

theorem scanNumeral_writeInteger (n : Int64) :
    scanNumeral (writeInteger n) = .ok (⟨n.toInt < 0, digitsOf n.toInt.natAbs, none, none⟩, []) := by
  have digits := scanUnsigned_toDigits (n.toInt < 0) n.toInt.natAbs
  by_cases negative : n.toInt < 0
  next =>
    simp only [writeInteger, negative, if_true, decimalDigits, Nat.toList_repr, scanNumeral, decide_true]
      at digits ⊢
    exact digits
  next =>
    simp only [writeInteger, negative, if_false, decimalDigits, Nat.toList_repr, decide_false] at digits ⊢
    cases front : Nat.toDigits 10 n.toInt.natAbs with
    | nil => simp at front
    | cons c tail =>
      have digit : isDigit c = true := isDigit_toDigits (front ▸ List.mem_cons_self)
      have noMinus : c ≠ '-' := by
        rintro rfl
        simp [isDigit] at digit
      rw [front] at digits
      unfold scanNumeral
      split
      next => simp_all
      next => exact digits

theorem readNumber_writeInteger (n : Int64) : readNumber (writeInteger n) = .ok (.whole n.toInt, []) := by
  have low := n.minValue_le_toInt
  have least := n.le_toInt
  have high := n.toInt_lt
  have small : ¬ UInt64.size ≤ n.toInt.natAbs := by
    have size : UInt64.size = 2 ^ 64 := rfl
    omega
  have evaluated : (⟨n.toInt < 0, digitsOf n.toInt.natAbs, none, none⟩ : Numeral).evaluate =
      .ok (.whole n.toInt) := by
    simp only [Numeral.evaluate, digitsValue_digitsOf, small, Option.isSome_none, Bool.false_eq_true,
      or_self, if_false]
    by_cases negative : n.toInt < 0
    next =>
      have same : -(n.toInt.natAbs : Int) = n.toInt := by omega
      have inside : ¬ (n.toInt.natAbs = 0 ∨ n.toInt < Int64.minValue.toInt) := by omega
      simp only [negative, same, inside, decide_true, Bool.true_eq_false, if_false]
    next =>
      have same : (n.toInt.natAbs : Int) = n.toInt := by omega
      simp [negative, same]
  simp only [readNumber, scanNumeral_writeInteger, ok_bind, evaluated]
  rfl

theorem toInt64_whole (n : Int64) : (Number.whole n.toInt).toInt64 = .ok n := by
  rw [Number.toInt64, if_pos ⟨n.minValue_le_toInt, n.toInt_le⟩, Int64.ofInt_toInt]

def isNumeric (c : Char) : Bool := isDigit c || c ∈ ['-', '+', '.', 'e', 'n', 'u', 'l']

def Numeric (cs : List Char) : Prop := ∀ c ∈ cs, isNumeric c = true

instance (cs : List Char) : Decidable (Numeric cs) := List.decidableBAll _ cs

theorem isPlain_of_isNumeric {c : Char} (numeric : isNumeric c = true) :
    isPlain c = true ∧ isBlank c = false ∧ c ≠ ']' := by
  cases digit : isDigit c with
  | true =>
    have apart (d : Char) (other : isDigit d = false) : c ≠ d := by
      rintro rfl
      exact Bool.noConfusion (digit.symm.trans other)
    simp [isPlain, isOpening, isClosing, isBlank]
    and_intros
    all_goals exact apart _ rfl
  | false =>
    simp only [isNumeric, digit, Bool.false_or, decide_eq_true_eq] at numeric
    fin_cases numeric
    all_goals decide

theorem numeric_append {cs cs' : List Char} : Numeric (cs ++ cs') ↔ Numeric cs ∧ Numeric cs' :=
  List.forall_mem_append

theorem numeric_cons {c : Char} : Numeric (c :: cs) ↔ isNumeric c = true ∧ Numeric cs :=
  List.forall_mem_cons

theorem numeric_zeros (n : Nat) : Numeric (List.replicate n '0') := fun _ inside =>
  List.eq_of_mem_replicate inside ▸ rfl

theorem numeric_decimalDigits (n : Nat) : Numeric (decimalDigits n).toList := by
  intro c inside
  have digit : isDigit c = true := isDigit_toDigits (by simpa [decimalDigits] using inside)
  simp [isNumeric, digit]

theorem numeric_writeInteger (n : Int64) : Numeric (writeInteger n) := by
  have digits := numeric_decimalDigits n.toInt.natAbs
  unfold writeInteger
  split
  next => exact numeric_cons.mpr ⟨rfl, digits⟩
  next => exact digits

theorem numeric_positional {digits : List Char} (numeric : Numeric digits) (whole : Int) :
    Numeric (positional digits whole) := by
  unfold positional
  split
  next =>
    simp only [numeric_cons, numeric_append]
    exact ⟨rfl, rfl, numeric_zeros _, numeric⟩
  split
  next =>
    simp only [numeric_append]
    exact ⟨⟨numeric, numeric_zeros _⟩, by decide⟩
  next =>
    simp only [numeric_cons, numeric_append]
    exact ⟨fun c inside => numeric c (List.mem_of_mem_take inside), rfl,
      fun c inside => numeric c (List.mem_of_mem_drop inside)⟩

theorem numeric_scientific {digits : List Char} (numeric : Numeric digits) {plus : String}
    (sign : Numeric plus.toList) (exponent : Int) : Numeric (scientific plus digits exponent) := by
  have exponentDigits := numeric_decimalDigits exponent.natAbs
  unfold scientific
  simp only [numeric_cons, numeric_append]
  refine ⟨⟨?_, rfl, ?_⟩, exponentDigits⟩
  next =>
    split
    next =>
      simp only [numeric_cons] at numeric ⊢
      exact ⟨numeric.1, rfl, numeric.2⟩
    next => exact numeric
  next =>
    split
    next => decide
    next => exact sign

theorem numeric_writeReal (x : Binary64) : Numeric (writeReal x) := by
  have sign : Numeric (if x.isNegative then ['-'] else []) := by
    split
    all_goals decide
  have digits := numeric_decimalDigits (x.shortest layout.tie).digits
  unfold writeReal DecimalLayout.write
  generalize (if x.isNegative then ['-'] else []) = front at sign ⊢
  split
  next => decide
  split
  next =>
    split
    all_goals decide
  split
  next =>
    simp only [String.toList_ofList, numeric_append]
    exact ⟨sign, by decide⟩
  next =>
    simp only [String.toList_ofList, numeric_append]
    refine ⟨sign, ?_⟩
    split
    next => exact numeric_positional digits _
    next => exact numeric_scientific digits (by decide) _

end StoragePlan.Json
