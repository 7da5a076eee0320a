import Mathlib.Algebra.Group.Nat.Defs
import Mathlib.Data.List.Basic
import StoragePlan.Error
import StoragePlan.Net.File

set_option autoImplicit false

namespace StoragePlan

namespace Binary

/-- The decoder accepts what is written of valid things, whatever follows, and nothing else. -/
def Codes {α : Type} (valid : α → Prop) (write : α → Bytes) (decode : Decoder α) : Prop :=
  ∀ input found rest, decode input = .ok (found, rest) ↔ valid found ∧ input = write found ++ rest

section Codes

variable {α β : Type} {valid : α → Prop} {write : α → Bytes} {decode : Decoder α}

theorem Codes.bind_eq_ok (codes : Codes valid write decode) {input : Bytes}
    {next : α × Bytes → Except BinaryFault β} {result : β} :
    decode input >>= next = .ok result ↔
      ∃ found rest, valid found ∧ input = write found ++ rest ∧ next (found, rest) = .ok result := by
  rw [StoragePlan.bind_eq_ok]
  constructor
  next =>
    rintro ⟨⟨found, rest⟩, decoded, later⟩
    have ⟨fits, split⟩ := (codes input found rest).mp decoded
    exact ⟨found, rest, fits, split, later⟩
  next =>
    rintro ⟨found, rest, fits, split, later⟩
    exact ⟨(found, rest), (codes input found rest).mpr ⟨fits, split⟩, later⟩

end Codes

theorem pure_eq_ok {ε α : Type} {found found' : α} :
    (pure found : Except ε α) = .ok found' ↔ found = found' := ⟨Except.ok.inj, congrArg _⟩

@[simp] theorem length_word (width n : Nat) : (word width n).length = width := by
  induction width generalizing n with
  | zero => rfl
  | succ width ih => simp [word, ih]

theorem wordValue_word {width n : Nat} (fits : n < 256 ^ width) : wordValue (word width n) = n := by
  induction width generalizing n with
  | zero => simp [word, wordValue, Nat.lt_one_iff.mp fits]
  | succ width ih =>
    have short : n / 256 < 256 ^ width := by
      rw [Nat.div_lt_iff_lt_mul (by decide)]
      exact fits
    simp only [word, wordValue, ih short, UInt8.toNat_ofNat']
    omega

theorem wordValue_lt (bytes : Bytes) : wordValue bytes < 256 ^ bytes.length := by
  induction bytes with
  | nil => simp [wordValue]
  | cons byte rest ih =>
    have low := byte.toNat_lt
    simp only [wordValue, List.length_cons, Nat.pow_succ]
    omega

theorem word_wordValue (bytes : Bytes) : word bytes.length (wordValue bytes) = bytes := by
  induction bytes with
  | nil => rfl
  | cons byte rest ih =>
    have low := byte.toNat_lt
    have first : UInt8.ofNat (byte.toNat + 256 * wordValue rest) = byte := by
      apply UInt8.toNat_inj.mp
      rw [UInt8.toNat_ofNat']
      omega
    have later : (byte.toNat + 256 * wordValue rest) / 256 = wordValue rest := by omega
    simp only [List.length_cons, wordValue, word, first, later, ih]

theorem takeBytes_codes (count : Nat) : Codes (fun bytes => bytes.length = count) id (takeBytes count) := by
  intro input found rest
  simp only [takeBytes]
  split
  next long =>
    simp only [Except.ok.injEq, Prod.mk.injEq, id]
    constructor
    next =>
      rintro ⟨rfl, rfl⟩
      exact ⟨long, (List.take_append_drop count input).symm⟩
    next =>
      rintro ⟨rfl, rfl⟩
      simp
  next short =>
    simp only [reduceCtorEq, id, false_iff, not_and]
    rintro rfl rfl
    simp at short

theorem decodeWord_codes (width : Nat) : Codes (· < 256 ^ width) (word width) (decodeWord width) := by
  intro input found rest
  simp only [decodeWord, (takeBytes_codes width).bind_eq_ok, pure_eq_ok, Prod.mk.injEq]
  constructor
  next =>
    rintro ⟨bytes, after, rfl, rfl, rfl, rfl⟩
    exact ⟨wordValue_lt bytes, by rw [word_wordValue, id]⟩
  next =>
    rintro ⟨fits, rfl⟩
    exact ⟨word width found, rest, length_word width found, rfl, wordValue_word fits, rfl⟩

def longest : Nat := 256 ^ 8

def TextFits (s : String) : Prop := s.utf8ByteSize < longest

instance (s : String) : Decidable (TextFits s) := inferInstanceAs (Decidable (_ < _))

def ListFits {α : Type} (valid : α → Prop) (items : List α) : Prop :=
  items.length < longest ∧ ∀ item ∈ items, valid item

theorem fromUTF8?_eq_some_iff {bytes : Bytes} {s : String} :
    String.fromUTF8? bytes.toByteArray = some s ↔ bytes = s.toUTF8.data.toList := by
  constructor
  next =>
    intro read
    unfold String.fromUTF8? at read
    split at read
    next =>
      have same := congrArg String.toByteArray (Option.some.inj read)
      rw [String.toUTF8_eq_toByteArray, ← same]
      exact (List.data_toByteArray ▸ rfl)
    next => simp at read
  next =>
    rintro rfl
    have same : s.toUTF8.data.toList.toByteArray = s.toUTF8 := by
      apply ByteArray.ext
      simp [List.data_toByteArray]
    rw [same, String.fromUTF8?, String.toUTF8_eq_toByteArray, dif_pos s.isValidUTF8]
    rfl

theorem decodeText_codes : Codes TextFits text decodeText := by
  intro input found rest
  simp only [decodeText, (decodeWord_codes 8).bind_eq_ok, (takeBytes_codes _).bind_eq_ok]
  constructor
  next =>
    rintro ⟨size, after, fits, rfl, bytes, after, rfl, rfl, read⟩
    split at read
    next s valid =>
      obtain ⟨rfl, rfl⟩ := Prod.mk.inj (Except.ok.inj read)
      obtain rfl := fromUTF8?_eq_some_iff.mp valid
      exact ⟨fits, List.append_assoc .. ▸ rfl⟩
    next => simp at read
  next =>
    rintro ⟨fits, rfl⟩
    refine ⟨found.utf8ByteSize, _, fits, List.append_assoc .., found.toUTF8.data.toList, rest, ?_, rfl, ?_⟩
    next => exact Array.length_toList.trans String.size_toByteArray
    next =>
      rw [fromUTF8?_eq_some_iff.mpr rfl]
      rfl

section Lists

variable {α : Type} {valid : α → Prop} {write : α → Bytes} {decode : Decoder α}

theorem decodeItems_codes (codes : Codes valid write decode) (count : Nat) :
    Codes (fun found => found.length = count ∧ ∀ item ∈ found, valid item) (List.flatMap write)
      (decodeItems decode count) := by
  induction count with
  | zero =>
    intro input found rest
    simp only [decodeItems, Except.ok.injEq, Prod.mk.injEq, List.length_eq_zero_iff]
    constructor
    next =>
      rintro ⟨rfl, rfl⟩
      simp
    next =>
      rintro ⟨⟨rfl, -⟩, rfl⟩
      simp
  | succ count ih =>
    intro input found rest
    simp only [decodeItems, codes.bind_eq_ok, ih.bind_eq_ok, pure_eq_ok, Prod.mk.injEq]
    constructor
    next =>
      rintro ⟨first, after, fits, rfl, more, after, ⟨rfl, all⟩, rfl, rfl, rfl⟩
      exact ⟨⟨rfl, List.forall_mem_cons.mpr ⟨fits, all⟩⟩, by simp⟩
    next =>
      rintro ⟨⟨many, all⟩, rfl⟩
      cases found with
      | nil => simp at many
      | cons first more =>
        have ⟨fits, all⟩ := List.forall_mem_cons.mp all
        exact ⟨first, _, fits, List.append_assoc .., more, rest, ⟨Nat.succ.inj many, all⟩, rfl, rfl, rfl⟩

theorem decodeList_codes (codes : Codes valid write decode) :
    Codes (ListFits valid) (list write) (decodeList decode) := by
  intro input found rest
  simp only [decodeList, (decodeWord_codes 8).bind_eq_ok, decodeItems_codes codes _ _, list, ListFits]
  constructor
  next =>
    rintro ⟨count, after, fits, rfl, ⟨rfl, all⟩, rfl⟩
    exact ⟨⟨fits, all⟩, (List.append_assoc ..).symm⟩
  next =>
    rintro ⟨⟨fits, all⟩, rfl⟩
    exact ⟨found.length, _, fits, List.append_assoc .., ⟨rfl, all⟩, rfl⟩

end Lists

theorem decodeBits_codes {α : Type} {toBits : α → UInt64} {ofBits : UInt64 → α}
    (there : ∀ found, ofBits (toBits found) = found) (back : ∀ bits, toBits (ofBits bits) = bits) :
    Codes (fun _ => True) (fun found => word 8 (toBits found).toNat) fun input => do
      let (bits, rest) ← decodeWord 8 input
      return (ofBits (UInt64.ofNat bits), rest) := by
  intro input found rest
  simp only [(decodeWord_codes 8).bind_eq_ok, pure_eq_ok, Prod.mk.injEq, true_and]
  constructor
  next =>
    rintro ⟨bits, after, fits, rfl, rfl, rfl⟩
    rw [back, UInt64.toNat_ofNat_of_lt' fits]
  next =>
    rintro rfl
    exact ⟨_, rest, (toBits found).toNat_lt, rfl, by rw [UInt64.ofNat_toNat, there], rfl⟩

theorem decodeInteger_codes : Codes (fun _ => True) integer decodeInteger :=
  decodeBits_codes Int64.toInt64_toUInt64 UInt64.toUInt64_toInt64

theorem decodeNumber_codes : Codes (fun _ => True) number decodeNumber :=
  decodeBits_codes (fun _ => rfl) fun _ => rfl

end Binary

open Binary

mutual

/-- The length of each text and of each list fits a word, in step nets as well. -/
def Net.Fits : Net → Prop
  | ⟨version, name, ops, inputs, outputs⟩ =>
    TextFits version ∧ TextFits name ∧ (ops.length < longest ∧ OpsFit ops) ∧
      ListFits TextFits inputs ∧ ListFits TextFits outputs

def OpsFit : List Op → Prop
  | [] => True
  | op :: rest => op.Fits ∧ OpsFit rest

def Op.Fits : Op → Prop
  | ⟨opType, inputs, outputs, args⟩ =>
    TextFits opType ∧ ListFits TextFits inputs ∧ ListFits TextFits outputs ∧
      args.length < longest ∧ ArgsFit args

def ArgsFit : List Arg → Prop
  | [] => True
  | arg :: rest => arg.Fits ∧ ArgsFit rest

def Arg.Fits : Arg → Prop
  | ⟨name, value⟩ => TextFits name ∧ value.Fits

def Value.Fits : Value → Prop
  | .int _ | .float _ => True
  | .text s => TextFits s
  | .ints ns => ns.length < longest
  | .floats xs => xs.length < longest
  | .texts ss => ListFits TextFits ss
  | .net step => step.Fits

end

mutual

def Net.levels : Net → Nat
  | ⟨_, _, ops, _, _⟩ => opsLevels ops + 1

def opsLevels : List Op → Nat
  | [] => 0
  | ⟨_, _, _, args⟩ :: rest => max (argsLevels args) (opsLevels rest)

def argsLevels : List Arg → Nat
  | [] => 0
  | ⟨_, value⟩ :: rest => max value.levels (argsLevels rest)

def Value.levels : Value → Nat
  | .net step => step.levels
  | _ => 0

end

theorem opsFit_iff {ops : List Op} : OpsFit ops ↔ ∀ op ∈ ops, op.Fits := by
  induction ops with
  | nil => simp [OpsFit]
  | cons op rest ih => simp [OpsFit, ih]

theorem argsFit_iff {args : List Arg} : ArgsFit args ↔ ∀ arg ∈ args, arg.Fits := by
  induction args with
  | nil => simp [ArgsFit]
  | cons arg rest ih => simp [ArgsFit, ih]

theorem opsLevels_le_iff {ops : List Op} {depth : Nat} :
    opsLevels ops ≤ depth ↔ ∀ op ∈ ops, argsLevels op.args ≤ depth := by
  induction ops with
  | nil => simp [opsLevels]
  | cons op rest ih =>
    cases op
    rw [opsLevels, Nat.max_le, ih, List.forall_mem_cons]

theorem argsLevels_le_iff {args : List Arg} {depth : Nat} :
    argsLevels args ≤ depth ↔ ∀ arg ∈ args, arg.value.levels ≤ depth := by
  induction args with
  | nil => simp [argsLevels]
  | cons arg rest ih =>
    cases arg
    rw [argsLevels, Nat.max_le, ih, List.forall_mem_cons]

namespace Binary

def arg (arg : Arg) : Bytes := text arg.name ++ value arg.value

def op (op : Op) : Bytes :=
  text op.opType ++ list text op.inputs ++ list text op.outputs ++ list arg op.args

theorem args_eq (all : List Arg) : args all = all.flatMap arg := by
  induction all with
  | nil => rfl
  | cons head rest ih =>
    cases head
    rw [args, ih, List.flatMap_cons, arg]

theorem ops_eq (all : List Op) : ops all = all.flatMap op := by
  induction all with
  | nil => rfl
  | cons head rest ih =>
    cases head
    rw [ops, ih, args_eq, List.flatMap_cons]
    rfl

theorem net_eq (whole : Net) : net whole = text whole.version ++ text whole.name ++ list op whole.ops ++
    list text whole.externalInputs ++ list text whole.externalOutputs := by
  cases whole
  rw [net, ops_eq]
  rfl

section Parts

variable {depth : Nat} {stepNet : Decoder Net}

theorem decodeAs_eq_ok {α : Type} {valid : α → Prop} {write : α → Bytes} {payload : Decoder α}
    (codes : Codes valid write payload) {tag : α → Value} {input rest : Bytes} {found : Value} :
    decodeAs tag payload input = .ok (found, rest) ↔
      ∃ held, valid held ∧ tag held = found ∧ input = write held ++ rest := by
  simp only [decodeAs, codes.bind_eq_ok, pure_eq_ok, Prod.mk.injEq]
  constructor
  next =>
    rintro ⟨held, after, fits, rfl, rfl, rfl⟩
    exact ⟨held, fits, rfl, rfl⟩
  next =>
    rintro ⟨held, fits, rfl, rfl⟩
    exact ⟨held, rest, fits, rfl, rfl, rfl⟩

theorem decodeValue_codes (codes : Codes (fun step => step.Fits ∧ step.levels ≤ depth) net stepNet) :
    Codes (fun held => held.Fits ∧ held.levels ≤ depth) value (decodeValue stepNet) := by
  have integers := decodeList_codes decodeInteger_codes
  have numbers := decodeList_codes decodeNumber_codes
  have texts := decodeList_codes decodeText_codes
  intro input found rest
  simp only [decodeValue, (decodeWord_codes 4).bind_eq_ok]
  constructor
  next =>
    rintro ⟨tag, after, fits, rfl, read⟩
    -- One tag after the other; any other tag is refused.
    split at read
    all_goals simp only [decodeAs_eq_ok decodeInteger_codes, decodeAs_eq_ok decodeNumber_codes,
      decodeAs_eq_ok decodeText_codes, decodeAs_eq_ok integers, decodeAs_eq_ok numbers,
      decodeAs_eq_ok texts, decodeAs_eq_ok codes, reduceCtorEq] at read
    all_goals
      obtain ⟨held, fits, rfl, rfl⟩ := read
      simp_all [value, Value.Fits, Value.levels, ListFits]
  next =>
    rintro ⟨⟨fits, low⟩, rfl⟩
    cases found with
    | int n =>
      exact ⟨0, _, by decide, List.append_assoc .., (decodeAs_eq_ok decodeInteger_codes).mpr
        ⟨n, trivial, rfl, rfl⟩⟩
    | float x =>
      exact ⟨1, _, by decide, List.append_assoc .., (decodeAs_eq_ok decodeNumber_codes).mpr
        ⟨x, trivial, rfl, rfl⟩⟩
    | text s =>
      exact ⟨2, _, by decide, List.append_assoc .., (decodeAs_eq_ok decodeText_codes).mpr
        ⟨s, fits, rfl, rfl⟩⟩
    | ints ns =>
      exact ⟨3, _, by decide, List.append_assoc .., (decodeAs_eq_ok integers).mpr
        ⟨ns, ⟨fits, fun _ _ => trivial⟩, rfl, rfl⟩⟩
    | floats xs =>
      exact ⟨4, _, by decide, List.append_assoc .., (decodeAs_eq_ok numbers).mpr
        ⟨xs, ⟨fits, fun _ _ => trivial⟩, rfl, rfl⟩⟩
    | texts ss =>
      exact ⟨5, _, by decide, List.append_assoc .., (decodeAs_eq_ok texts).mpr ⟨ss, fits, rfl, rfl⟩⟩
    | net step =>
      exact ⟨6, _, by decide, List.append_assoc .., (decodeAs_eq_ok codes).mpr
        ⟨step, ⟨fits, low⟩, rfl, rfl⟩⟩

theorem decodeArg_codes (codes : Codes (fun step => step.Fits ∧ step.levels ≤ depth) net stepNet) :
    Codes (fun found => found.Fits ∧ found.value.levels ≤ depth) arg (decodeArg stepNet) := by
  intro input found rest
  simp only [decodeArg, decodeText_codes.bind_eq_ok, (decodeValue_codes codes).bind_eq_ok, pure_eq_ok,
    Prod.mk.injEq]
  constructor
  next =>
    rintro ⟨name, _, named, rfl, held, _, ⟨fits, low⟩, rfl, rfl, rfl⟩
    exact ⟨⟨⟨named, fits⟩, low⟩, by simp [arg]⟩
  next =>
    rintro ⟨⟨fits, low⟩, rfl⟩
    cases found with
    | mk name held =>
      exact ⟨name, _, fits.1, List.append_assoc .., held, rest, ⟨fits.2, low⟩, rfl, rfl, rfl⟩

theorem decodeOp_codes (codes : Codes (fun step => step.Fits ∧ step.levels ≤ depth) net stepNet) :
    Codes (fun found => found.Fits ∧ argsLevels found.args ≤ depth) op (decodeOp stepNet) := by
  have texts := decodeList_codes decodeText_codes
  have arguments := decodeList_codes (decodeArg_codes codes)
  intro input found rest
  simp only [decodeOp, decodeText_codes.bind_eq_ok, texts.bind_eq_ok, arguments.bind_eq_ok, pure_eq_ok,
    Prod.mk.injEq]
  constructor
  next =>
    rintro ⟨opType, _, typed, rfl, inputs, _, ins, rfl, outputs, _, outs, rfl, args, _, ⟨many, fits⟩, rfl,
      rfl, rfl⟩
    refine ⟨⟨⟨typed, ins, outs, many, ?_⟩, ?_⟩, by simp [op]⟩
    next => exact argsFit_iff.mpr fun arg inside => (fits arg inside).1
    next => exact argsLevels_le_iff.mpr fun arg inside => (fits arg inside).2
  next =>
    rintro ⟨⟨fits, low⟩, rfl⟩
    cases found with
    | mk opType inputs outputs args =>
      have ⟨typed, ins, outs, many, all⟩ := fits
      have each : ∀ arg ∈ args, arg.Fits ∧ arg.value.levels ≤ depth := fun arg inside =>
        ⟨argsFit_iff.mp all arg inside, argsLevels_le_iff.mp low arg inside⟩
      exact ⟨opType, _, typed, by simp only [op, List.append_assoc], inputs, _, ins, rfl, outputs, _,
        outs, rfl, args, rest, ⟨many, each⟩, rfl, rfl, rfl⟩

end Parts

theorem decodeNet_codes (depth : Nat) :
    Codes (fun found => found.Fits ∧ found.levels ≤ depth) net (decodeNet depth) := by
  have texts := decodeList_codes decodeText_codes
  induction depth with
  | zero =>
    intro input found rest
    cases found
    simp [decodeNet, Net.levels]
  | succ depth ih =>
    have operations := decodeList_codes (decodeOp_codes ih)
    intro input found rest
    simp only [decodeNet, decodeText_codes.bind_eq_ok, texts.bind_eq_ok, operations.bind_eq_ok,
      pure_eq_ok, Prod.mk.injEq]
    constructor
    next =>
      rintro ⟨version, _, versioned, rfl, name, _, named, rfl, ops, _, ⟨many, fits⟩, rfl, inputs, _, ins,
        rfl, outputs, _, outs, rfl, rfl, rfl⟩
      refine ⟨⟨⟨versioned, named, ⟨many, ?_⟩, ins, outs⟩, Nat.succ_le_succ ?_⟩, by simp [net_eq]⟩
      next => exact opsFit_iff.mpr fun op inside => (fits op inside).1
      next => exact opsLevels_le_iff.mpr fun op inside => (fits op inside).2
    next =>
      rintro ⟨⟨fits, low⟩, rfl⟩
      cases found with
      | mk version name ops inputs outputs =>
        have ⟨versioned, named, ⟨many, all⟩, ins, outs⟩ := fits
        have low := opsLevels_le_iff.mp (Nat.le_of_succ_le_succ low)
        have each : ∀ op ∈ ops, op.Fits ∧ argsLevels op.args ≤ depth := fun op inside =>
          ⟨opsFit_iff.mp all op inside, low op inside⟩
        exact ⟨version, _, versioned, by simp only [net_eq, List.append_assoc], name, _, named, rfl, ops,
          _, ⟨many, each⟩, rfl, inputs, _, ins, rfl, outputs, rest, outs, rfl, rfl, rfl⟩

end Binary

mutual

theorem Net.levels_le_length (net : Net) : net.levels ≤ (Binary.net net).length := by
  cases net with
  | mk version name ops inputs outputs =>
    have below := opsLevels_le_length ops
    simp only [Net.levels, Binary.net, List.length_append, length_word]
    omega

theorem opsLevels_le_length (ops : List Op) : opsLevels ops ≤ (Binary.ops ops).length := by
  cases ops with
  | nil => exact Nat.zero_le _
  | cons op rest =>
    cases op with
    | mk opType inputs outputs args =>
      have here := argsLevels_le_length args
      have later := opsLevels_le_length rest
      simp only [opsLevels, Binary.ops, List.length_append]
      omega

theorem argsLevels_le_length (args : List Arg) : argsLevels args ≤ (Binary.args args).length := by
  cases args with
  | nil => exact Nat.zero_le _
  | cons arg rest =>
    cases arg with
    | mk name held =>
      have here := held.levels_le_length
      have later := argsLevels_le_length rest
      simp only [argsLevels, Binary.args, List.length_append]
      omega

theorem Value.levels_le_length (held : Value) : held.levels ≤ (Binary.value held).length := by
  cases held with
  | net step =>
    have below := step.levels_le_length
    simp only [Value.levels, Binary.value, List.length_append]
    omega
  | _ => exact Nat.zero_le _

end

theorem Net.decodeBinary_eq_ok_iff {bytes rest : Bytes} {net : Net} :
    Net.decodeBinary bytes = .ok (net, rest) ↔ net.Fits ∧ bytes = net.toBinary ++ rest := by
  refine (decodeNet_codes (bytes.length + 1) bytes net rest).trans ?_
  constructor
  next =>
    rintro ⟨⟨fits, -⟩, split⟩
    exact ⟨fits, split⟩
  next =>
    rintro ⟨fits, rfl⟩
    have low := net.levels_le_length
    refine ⟨⟨fits, ?_⟩, rfl⟩
    simp only [Net.toBinary, List.length_append]
    omega

theorem Net.Fits.withVersion {net : Net} (fits : net.Fits) {version : String} (short : TextFits version) :
    { net with version }.Fits := by
  cases net
  exact ⟨short, fits.2⟩

theorem Net.ofBinary_eq_ok_iff {bytes : Bytes} {net : Net} :
    Net.ofBinary bytes = .ok net ↔ net.version = Net.currentVersion ∧ net.Fits ∧
      (net.toBinary <+: bytes ∨ { net with version := "" }.toBinary <+: bytes) := by
  simp only [Net.ofBinary, bind_eq_ok, Prod.exists, mapError_eq_ok, Net.decodeBinary_eq_ok_iff,
    Net.checked, Net.withCheckedVersion_eq_ok_iff]
  constructor
  next =>
    rintro ⟨raw, rest, ⟨fits, rfl⟩, current, rfl | rfl⟩
    next => exact ⟨current, fits, .inl (List.prefix_append _ _)⟩
    next =>
      have short : TextFits net.version := current ▸ by decide
      have versioned : net.Fits := by
        cases net
        exact fits.withVersion short
      exact ⟨current, versioned, .inr (List.prefix_append _ _)⟩
  next =>
    rintro ⟨current, fits, ⟨rest, rfl⟩ | ⟨rest, rfl⟩⟩
    next => exact ⟨net, rest, ⟨fits, rfl⟩, current, .inl rfl⟩
    next => exact ⟨_, rest, ⟨fits.withVersion (by decide), rfl⟩, current, .inr rfl⟩

theorem Net.binary_reads_back :
    (∀ (net : Net) (rest : Bytes), net.version = Net.currentVersion → net.Fits →
      Net.ofBinary (net.toBinary ++ rest) = .ok net) ∧
    ∀ (bytes : Bytes) (net raw : Net) (rest : Bytes), Net.ofBinary bytes = .ok net →
      Net.decodeBinary bytes = .ok (raw, rest) → raw.version ≠ "" → net.toBinary <+: bytes := by
  constructor
  next =>
    intro net rest current fits
    exact Net.ofBinary_eq_ok_iff.mpr ⟨current, fits, .inl (List.prefix_append _ _)⟩
  next =>
    intro bytes net raw rest loaded decoded versioned
    have checked : raw.checked = .ok net := by
      rw [Net.ofBinary, decoded] at loaded
      exact loaded
    have ⟨_, split⟩ := Net.decodeBinary_eq_ok_iff.mp decoded
    have ⟨_, same⟩ := Net.withCheckedVersion_eq_ok_iff.mp (mapError_eq_ok.mp checked)
    cases same with
    | inl same => exact ⟨rest, same ▸ split.symm⟩
    | inr unversioned => exact absurd (unversioned ▸ rfl) versioned

/-- A step net without version, with the least integer, a NaN and an empty text. -/
def nestedNet : Net :=
  let step : Net := ⟨"", "é", [⟨"Scale", ["a", "b"], [], [⟨"least", .int Int64.minValue⟩,
    ⟨"nan", .floats [⟨0x7ff8000000000001⟩]⟩, ⟨"texts", .texts ["", "\""]⟩]⟩], [], []⟩
  ⟨Net.currentVersion, "outer", [⟨"RecurrentNetwork", ["x"], ["y"], [⟨"step_net", .net step⟩]⟩], ["x"], ["y"]⟩

theorem Net.binary_reads_back_nested :
    (nestedNet.version = Net.currentVersion ∧ nestedNet.Fits ∧
      Net.ofBinary (nestedNet.toBinary ++ [7]) = .ok nestedNet) ∧
    Net.decodeBinary (nestedNet.toBinary ++ [7]) = .ok (nestedNet, [7]) ∧ nestedNet.version ≠ "" ∧
      nestedNet.toBinary <+: nestedNet.toBinary ++ [7] := by
  have fits : nestedNet.Fits := by
    simp only [nestedNet, Net.Fits, OpsFit, Op.Fits, ArgsFit, Arg.Fits, Value.Fits, ListFits,
      List.forall_mem_cons]
    decide +kernel
  have loaded := Net.binary_reads_back.1 nestedNet [7] rfl fits
  have decoded := Net.decodeBinary_eq_ok_iff.mpr ⟨fits, (rfl : nestedNet.toBinary ++ [7] = _)⟩
  exact ⟨⟨rfl, fits, loaded⟩, decoded, by decide,
    Net.binary_reads_back.2 _ nestedNet nestedNet [7] loaded decoded (by decide)⟩

end StoragePlan
