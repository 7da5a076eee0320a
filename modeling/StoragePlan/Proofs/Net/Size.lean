import StoragePlan.Net.File
import StoragePlan.Proofs.Json.Size

set_option autoImplicit false

namespace StoragePlan

mutual

def Net.textBytes : Net → Nat
  | ⟨_, _, ops, _, _⟩ => opsTextBytes ops

def opsTextBytes : List Op → Nat
  | [] => 0
  | ⟨_, _, _, args⟩ :: rest => argsTextBytes args + opsTextBytes rest

def argsTextBytes : List Arg → Nat
  | [] => 0
  | ⟨_, value⟩ :: rest => value.textBytes + argsTextBytes rest

def Value.textBytes : Value → Nat
  | .text s => s.utf8ByteSize
  | .texts ss => total (ss.map String.utf8ByteSize)
  | .net step => step.textBytes
  | _ => 0

end

theorem Net.textBytes_eq (net : Net) : net.textBytes = opsTextBytes net.ops := by
  cases net
  rfl

theorem opsTextBytes_eq (ops : List Op) :
    opsTextBytes ops = total (ops.map fun op => argsTextBytes op.args) := by
  induction ops with
  | nil => rfl
  | cons op rest ih =>
    cases op
    rw [List.map_cons, total_cons, ← ih, opsTextBytes]

theorem argsTextBytes_eq (args : List Arg) :
    argsTextBytes args = total (args.map fun arg => arg.value.textBytes) := by
  induction args with
  | nil => rfl
  | cons arg rest ih =>
    cases arg
    rw [List.map_cons, total_cons, ← ih, argsTextBytes]

namespace Json

section Fields

variable {δ α : Type} {key : String} {get : δ → Option α} {set : δ → α → δ} {reader : Reader α}
  {held : δ → Nat} {size : α → Nat}

theorem field_pays (pays : Pays size reader)
    (holds : ∀ draft found, held (set draft found) ≤ held draft + size found) :
    (field key get set reader).Pays held := by
  intro draft budget cs draft' rest read
  obtain ⟨⟨found, _⟩, value, same⟩ := map_eq_ok.mp read
  obtain ⟨rfl, rfl⟩ := Prod.mk.inj same
  have paid := pays budget cs found _ value
  have more := holds draft found
  omega

theorem ignored_pays (pays : Pays size reader)
    (same : ∀ draft found, held (set draft found) = held draft) :
    (field key get set reader).Pays held :=
  field_pays pays fun draft found => (same draft found).symm ▸ Nat.le_add_right _ _

theorem holding_pays {tag : α → Value} (pays : Pays size reader)
    (holds : ∀ found, (tag found).textBytes ≤ size found) :
    Pays Value.textBytes (holding tag reader) := by
  intro budget cs found rest read
  obtain ⟨⟨inner, _⟩, value, same⟩ := map_eq_ok.mp read
  obtain ⟨rfl, rfl⟩ := Prod.mk.inj same
  have paid := pays budget cs inner _ value
  have less := holds inner
  omega

end Fields

variable {stepNet : Reader Net}

theorem value_pays (pays : Pays Net.textBytes stepNet) : Pays Value.textBytes (value stepNet) := by
  apply tagged_pays
  simp only [List.forall_mem_cons]
  refine ⟨holding_pays integer_pays ?_, holding_pays real_pays ?_, holding_pays text_pays ?_,
    holding_pays (list_pays integer_pays) ?_, holding_pays (list_pays real_pays) ?_,
    holding_pays (list_pays text_pays) ?_, holding_pays pays ?_, by simp⟩
  all_goals simp [Value.textBytes]

theorem arg_pays (pays : Pays Net.textBytes stepNet) :
    (arg stepNet).Pays (fun draft => draft.value.elim 0 Value.textBytes) (·.value.textBytes) where
  blank := rfl
  fill := by
    simp only [arg, List.forall_mem_cons]
    refine ⟨ignored_pays text_pays ?_, field_pays (value_pays pays) ?_, by simp⟩
    all_goals simp
  complete draft found complete := by
    simp only [arg, bind, Option.bind_eq_some_iff, pure, Option.some.injEq] at complete
    obtain ⟨name, -, value, known, rfl⟩ := complete
    simp [known]

theorem op_pays (pays : Pays Net.textBytes stepNet) :
    (op stepNet).Pays (fun draft => argsTextBytes (draft.args.getD [])) (argsTextBytes ·.args) where
  blank := rfl
  fill := by
    simp only [op, List.forall_mem_cons]
    refine ⟨ignored_pays text_pays ?_, ignored_pays (list_pays text_pays) ?_,
      ignored_pays (list_pays text_pays) ?_, field_pays (list_pays (arg_pays pays).read) ?_, by simp⟩
    all_goals simp [argsTextBytes_eq]
  complete draft found complete := by
    simp only [op, bind, Option.bind_eq_some_iff, pure, Option.some.injEq] at complete
    obtain ⟨opType, -, inputs, -, outputs, -, rfl⟩ := complete
    exact Nat.le_refl _

theorem netRecord_pays (pays : Pays Net.textBytes stepNet) :
    (netRecord stepNet).Pays (fun draft => opsTextBytes (draft.ops.getD [])) Net.textBytes where
  blank := rfl
  fill := by
    simp only [netRecord, List.forall_mem_cons]
    refine ⟨ignored_pays text_pays ?_, ignored_pays text_pays ?_,
      field_pays (list_pays (op_pays pays).read) ?_, ignored_pays (list_pays text_pays) ?_,
      ignored_pays (list_pays text_pays) ?_, by simp⟩
    all_goals simp [opsTextBytes_eq]
  complete draft found complete := by
    simp only [netRecord, bind, Option.bind_eq_some_iff, pure, Option.some.injEq] at complete
    obtain ⟨name, -, ops, known, rfl⟩ := complete
    simp [known, Net.textBytes]

theorem net_pays (depth : Nat) : Pays Net.textBytes (net depth) := by
  induction depth with
  | zero => exact fun _ _ _ _ read => by simp [net] at read
  | succ depth ih => exact (netRecord_pays ih).read

end Json

theorem Net.textBytes_decodeJson {s : String} {net : Net} (read : Net.decodeJson s = .ok net) :
    net.textBytes < s.utf8ByteSize := by
  obtain ⟨⟨found, rest⟩, found_, outer⟩ := bind_eq_ok.mp read
  have paid := (Json.netRecord_pays (Json.net_pays 127)).read_lt found_
  rw [String.utf8Len_toList] at paid
  dsimp only at outer
  split at outer
  next =>
    obtain rfl : found = net := Except.ok.inj outer
    omega
  next => simp at outer

theorem Net.textBytes_checked {net net' : Net} (checked : net.checked = .ok net') :
    net'.textBytes = net.textBytes := by
  have accepted := mapError_eq_ok.mp checked
  unfold Net.withCheckedVersion at accepted
  split at accepted
  next => rw [← Except.ok.inj accepted, Net.textBytes_eq, Net.textBytes_eq]
  next =>
    split at accepted
    next => rw [Except.ok.inj accepted]
    next => simp at accepted

theorem Net.textBytes_ofJson {s : String} {net : Net} (read : Net.ofJson s = .ok net) :
    net.textBytes < s.utf8ByteSize := by
  obtain ⟨decoded, outer, checked⟩ := bind_eq_ok.mp read
  rw [Net.textBytes_checked checked]
  exact Net.textBytes_decodeJson (mapError_eq_ok.mp outer)

end StoragePlan
