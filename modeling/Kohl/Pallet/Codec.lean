import Kohl.Lib.Codec
import Kohl.Pallet.Calls

/-!
# The wire format of calls and outputs

The calls of pallet-ringct travel as SCALE, and so does the feed of stored outputs that a wallet scans.
Anyone can send bytes to the runtime, so what matters is what the decoders accept: the encodings, each
with whatever follows it, and nothing else.

* `exact_transfer`, `exact_stored`: the decoders of the records are exact.
* `call_wire_exact`: a call has one encoding, and the size the fee floor is charged on is what was read.
* `exact_feed`: the feed of outputs, for lengths and heights of 32 bits.
-/

namespace Kohl.Pallet

open ByteLib Scale MembershipTree

/-! ## Encoding and decoding -/

/-- `Vec::<u8>::decode` into a bounded vector. -/
def decodeBytes (max : ℕ) : Decoder (BoundedVec UInt8 max) := decodeBoundedVec max decodeU8

def Output.decode : Decoder Output := do
  let oneTimeKey ← decodeArray32
  let commitment ← decodeArray32
  let viewTag ← decodeU8
  let payload ← decodeBytes MAX_PAYLOAD_BYTES
  return { oneTimeKey, commitment, viewTag, payload }

def FcmpInput.decode : Decoder FcmpInput := do
  let keyImage ← decodeArray32
  let pseudoCommitment ← decodeArray32
  let fcmpProof ← decodeBytes MAX_FCMP_PROOF_BYTES
  return { keyImage, pseudoCommitment, fcmpProof }

def TransferTx.decode : Decoder TransferTx := do
  let membershipRoot ← decodeArray32
  let inputs ← decodeBoundedVec MAX_FCMP_INPUTS FcmpInput.decode
  let outputs ← decodeBoundedVec MAX_OUTPUTS Output.decode
  let txPubkey ← decodeArray32
  let rangeProof ← decodeBytes MAX_RANGE_PROOF_BYTES
  let fee ← decodeU64
  return { membershipRoot, inputs, outputs, txPubkey, rangeProof, fee }

def CoinbaseOutput.encode (o : CoinbaseOutput) : Bytes :=
  o.oneTimeKey.val ++ u64LeBytes o.amount ++ [o.viewTag]

def CoinbaseOutput.decode : Decoder CoinbaseOutput := do
  let oneTimeKey ← decodeArray32
  let amount ← decodeU64
  let viewTag ← decodeU8
  return { oneTimeKey, amount, viewTag }

/-- The block number is a `u32`. -/
def StoredOutput.encode (o : StoredOutput) : Bytes :=
  o.oneTimeKey.val ++ o.commitment.val ++ o.txPubkey.val ++ [o.viewTag] ++
    Scale.byteVec o.payload.val ++ encodeOption u64LeBytes o.amount ++ leBytes 4 o.height ++
    encodeBool o.coinbase

def StoredOutput.decode : Decoder StoredOutput := do
  let oneTimeKey ← decodeArray32
  let commitment ← decodeArray32
  let txPubkey ← decodeArray32
  let viewTag ← decodeU8
  let payload ← decodeBytes MAX_PAYLOAD_BYTES
  let amount ← decodeOption decodeU64
  let height ← decodeU32
  let coinbase ← decodeBool
  return { oneTimeKey, commitment, txPubkey, viewTag, payload, amount, height, coinbase }

/-- A call of the pallet: its index, then its arguments. -/
def Call.encode : Call → Bytes
  | .transfer tx => 0 :: tx.encode
  | .coinbase outputs txPubkey => 1 :: (Scale.vec CoinbaseOutput.encode outputs.val ++ txPubkey.val)

def Call.decode : Decoder Call := do
  let index ← decodeU8
  if index = 0 then return .transfer (← TransferTx.decode)
  else if index = 1 then
    let outputs ← decodeBoundedVec MAX_OUTPUTS CoinbaseOutput.decode
    let txPubkey ← decodeArray32
    return .coinbase outputs txPubkey
  else fail

/-- One entry of the feed: the index of an output, and the output. -/
def encodeEntry (x : UInt64 × StoredOutput) : Bytes := u64LeBytes x.1 ++ x.2.encode

def decodeEntry : Decoder (UInt64 × StoredOutput) := do
  let index ← decodeU64
  let out ← StoredOutput.decode
  return (index, out)

/-- `Vec<(u64, StoredOutput)>`, as the runtime and the node hand the outputs out. -/
def encodeFeed (feed : List (UInt64 × StoredOutput)) : Bytes := Scale.vec encodeEntry feed

def decodeFeed : Decoder (List (UInt64 × StoredOutput)) := decodeVec decodeEntry

/-! ## The decoders are exact -/

namespace CodecLemmas

theorem vec_bytes (b : Bytes) : Scale.vec (fun x => [x]) b = byteVec b := by
  rw [Scale.vec, byteVec]
  congr 1
  induction b with
  | nil => rfl
  | cons x b ih => rw [List.flatMap_cons, ih, List.singleton_append]

theorem exact_bytes {max : ℕ} (hmax : max < 2 ^ 32) :
    Exact always (fun v : BoundedVec UInt8 max => byteVec v.val) (decodeBytes max) :=
  (exact_u8.boundedVec hmax).of_iff
    (fun _ => ⟨fun _ _ _ => trivial, fun _ => trivial⟩) fun v => (vec_bytes v.val).symm

end CodecLemmas

open CodecLemmas

theorem exact_output : Exact always Output.encode Output.decode := by
  intro b o rest
  simp only [Output.decode, exact_array32.bind_iff, exact_u8.bind_iff,
    (@exact_bytes MAX_PAYLOAD_BYTES (by decide)).bind_iff, pure_run, Prod.mk.injEq]
  constructor
  · rintro ⟨key, r₁, ⟨-, rfl⟩, commitment, r₂, ⟨-, rfl⟩, tag, r₃, ⟨-, rfl⟩, payload, r₄, ⟨-, rfl⟩, rfl,
      rfl⟩
    simp only [always, Output.encode, List.append_assoc, true_and]
  · rintro ⟨-, rfl⟩
    simp only [Output.encode, List.append_assoc]
    exact ⟨_, _, ⟨trivial, rfl⟩, _, _, ⟨trivial, rfl⟩, _, _, ⟨trivial, rfl⟩, _, _, ⟨trivial, rfl⟩,
      rfl, rfl⟩

theorem exact_input : Exact always FcmpInput.encode FcmpInput.decode := by
  intro b i rest
  simp only [FcmpInput.decode, exact_array32.bind_iff,
    (@exact_bytes MAX_FCMP_PROOF_BYTES (by decide)).bind_iff, pure_run, Prod.mk.injEq]
  constructor
  · rintro ⟨keyImage, r₁, ⟨-, rfl⟩, pseudo, r₂, ⟨-, rfl⟩, proof, r₃, ⟨-, rfl⟩, rfl, rfl⟩
    simp only [always, FcmpInput.encode, List.append_assoc, true_and]
  · rintro ⟨-, rfl⟩
    simp only [FcmpInput.encode, List.append_assoc]
    exact ⟨_, _, ⟨trivial, rfl⟩, _, _, ⟨trivial, rfl⟩, _, _, ⟨trivial, rfl⟩, rfl, rfl⟩

/-- A transfer decodes from its encoding and from nothing else. -/
theorem exact_transfer : Exact always TransferTx.encode TransferTx.decode := by
  intro b tx rest
  have hinputs := exact_input.boundedVec (m := MAX_FCMP_INPUTS) (by decide)
  have houtputs := exact_output.boundedVec (m := MAX_OUTPUTS) (by decide)
  simp only [TransferTx.decode, exact_array32.bind_iff, hinputs.bind_iff, houtputs.bind_iff,
    (@exact_bytes MAX_RANGE_PROOF_BYTES (by decide)).bind_iff, exact_u64.bind_iff, pure_run,
    Prod.mk.injEq]
  constructor
  · rintro ⟨root, r₁, ⟨-, rfl⟩, inputs, r₂, ⟨-, rfl⟩, outputs, r₃, ⟨-, rfl⟩, pubkey, r₄, ⟨-, rfl⟩,
      proof, r₅, ⟨-, rfl⟩, fee, r₆, ⟨-, rfl⟩, rfl, rfl⟩
    simp only [always, TransferTx.encode, List.append_assoc, true_and]
  · rintro ⟨-, rfl⟩
    simp only [TransferTx.encode, List.append_assoc]
    exact ⟨_, _, ⟨trivial, rfl⟩, _, _, ⟨fun _ _ => trivial, rfl⟩, _, _, ⟨fun _ _ => trivial, rfl⟩, _, _,
      ⟨trivial, rfl⟩, _, _, ⟨trivial, rfl⟩, _, _, ⟨trivial, rfl⟩, rfl, rfl⟩

theorem exact_coinbaseOutput : Exact always CoinbaseOutput.encode CoinbaseOutput.decode := by
  intro b o rest
  simp only [CoinbaseOutput.decode, exact_array32.bind_iff, exact_u64.bind_iff, exact_u8.bind_iff,
    pure_run, Prod.mk.injEq]
  constructor
  · rintro ⟨key, r₁, ⟨-, rfl⟩, amount, r₂, ⟨-, rfl⟩, tag, r₃, ⟨-, rfl⟩, rfl, rfl⟩
    simp only [always, CoinbaseOutput.encode, List.append_assoc, true_and]
  · rintro ⟨-, rfl⟩
    simp only [CoinbaseOutput.encode, List.append_assoc]
    exact ⟨_, _, ⟨trivial, rfl⟩, _, _, ⟨trivial, rfl⟩, _, _, ⟨trivial, rfl⟩, rfl, rfl⟩

/-- A stored output decodes from its encoding and from nothing else; the block number is a `u32`. -/
theorem exact_stored :
    Exact (fun o : StoredOutput => o.height < 2 ^ 32) StoredOutput.encode StoredOutput.decode := by
  intro b o rest
  simp only [StoredOutput.decode, exact_array32.bind_iff, exact_u8.bind_iff,
    (@exact_bytes MAX_PAYLOAD_BYTES (by decide)).bind_iff, exact_u64.option.bind_iff,
    exact_u32.bind_iff, exact_bool.bind_iff, pure_run, Prod.mk.injEq]
  constructor
  · rintro ⟨key, r₁, ⟨-, rfl⟩, commitment, r₂, ⟨-, rfl⟩, pubkey, r₃, ⟨-, rfl⟩, tag, r₄, ⟨-, rfl⟩,
      payload, r₅, ⟨-, rfl⟩, amount, r₆, ⟨-, rfl⟩, height, r₇, ⟨hheight, rfl⟩, coinbase, r₈, ⟨-, rfl⟩,
      rfl, rfl⟩
    refine ⟨hheight, ?_⟩
    simp only [StoredOutput.encode, List.append_assoc]
  · rintro ⟨hheight, rfl⟩
    simp only [StoredOutput.encode, List.append_assoc]
    exact ⟨_, _, ⟨trivial, rfl⟩, _, _, ⟨trivial, rfl⟩, _, _, ⟨trivial, rfl⟩, _, _, ⟨trivial, rfl⟩, _, _,
      ⟨trivial, rfl⟩, _, _, ⟨fun _ _ => trivial, rfl⟩, _, _, ⟨hheight, rfl⟩, _, _, ⟨trivial, rfl⟩, rfl,
      rfl⟩

theorem exact_entry :
    Exact (fun x : UInt64 × StoredOutput => x.2.height < 2 ^ 32) encodeEntry decodeEntry := by
  intro b x rest
  simp only [decodeEntry, exact_u64.bind_iff, exact_stored.bind_iff, pure_run, Prod.mk.injEq]
  constructor
  · rintro ⟨index, r₁, ⟨-, rfl⟩, out, r₂, ⟨hheight, rfl⟩, rfl, rfl⟩
    refine ⟨hheight, ?_⟩
    simp only [encodeEntry, List.append_assoc]
  · rintro ⟨hheight, rfl⟩
    simp only [encodeEntry, List.append_assoc]
    exact ⟨_, _, ⟨trivial, rfl⟩, _, _, ⟨hheight, rfl⟩, rfl, rfl⟩

theorem exact_feed :
    Exact (fun feed : List (UInt64 × StoredOutput) =>
      feed.length < 2 ^ 32 ∧ ∀ x ∈ feed, x.2.height < 2 ^ 32) encodeFeed decodeFeed :=
  exact_entry.vec

theorem exact_call : Exact always Call.encode Call.decode := by
  intro b call rest
  unfold Call.decode
  rw [exact_u8.bind_iff]
  constructor
  · rintro ⟨index, rest', ⟨-, rfl⟩, h⟩
    split at h
    · next hindex =>
      rw [exact_transfer.bind_iff] at h
      obtain ⟨tx, r, ⟨-, rfl⟩, h⟩ := h
      rw [pure_run, Prod.mk.injEq] at h
      obtain ⟨rfl, rfl⟩ := h
      rw [hindex]
      exact ⟨trivial, rfl⟩
    split at h
    · next hindex =>
      rw [(exact_coinbaseOutput.boundedVec (by decide)).bind_iff] at h
      obtain ⟨outputs, r, ⟨-, rfl⟩, h⟩ := h
      rw [exact_array32.bind_iff] at h
      obtain ⟨pubkey, r, ⟨-, rfl⟩, h⟩ := h
      rw [pure_run, Prod.mk.injEq] at h
      obtain ⟨rfl, rfl⟩ := h
      rw [hindex, Call.encode]
      refine ⟨trivial, ?_⟩
      rw [List.singleton_append, List.cons_append, List.append_assoc]
    · cases h
  · rintro ⟨-, rfl⟩
    cases call with
    | transfer tx =>
      refine ⟨0, tx.encode ++ rest, ⟨trivial, rfl⟩, ?_⟩
      rw [if_pos rfl, exact_transfer.bind_iff]
      exact ⟨tx, rest, ⟨trivial, rfl⟩, rfl⟩
    | coinbase outputs txPubkey =>
      refine ⟨1, Scale.vec CoinbaseOutput.encode outputs.val ++ (txPubkey.val ++ rest),
        ⟨trivial, ?_⟩, ?_⟩
      · rw [Call.encode, List.singleton_append, List.cons_append, List.append_assoc]
      rw [if_neg (by decide), if_pos rfl, (exact_coinbaseOutput.boundedVec (by decide)).bind_iff]
      refine ⟨outputs, txPubkey.val ++ rest, ⟨fun _ _ => trivial, rfl⟩, ?_⟩
      rw [exact_array32.bind_iff]
      exact ⟨txPubkey, rest, ⟨trivial, rfl⟩, rfl⟩

/-! ## Sizes -/

/-- `MaxEncodedLen` of a vector of at most `n` elements. -/
def maxVec (n perElement : ℕ) : ℕ := (compactU32 n).length + n * perElement

def Output.maxEncodedLen : ℕ := 32 + 32 + 1 + maxVec MAX_PAYLOAD_BYTES 1

def FcmpInput.maxEncodedLen : ℕ := 32 + 32 + maxVec MAX_FCMP_PROOF_BYTES 1

def TransferTx.maxEncodedLen : ℕ :=
  32 + maxVec MAX_FCMP_INPUTS FcmpInput.maxEncodedLen + maxVec MAX_OUTPUTS Output.maxEncodedLen + 32 +
    maxVec MAX_RANGE_PROOF_BYTES 1 + 8

namespace CodecLemmas

theorem length_compactU32_mono {m n : ℕ} (h : m ≤ n) :
    (compactU32 m).length ≤ (compactU32 n).length := by
  unfold compactU32
  split_ifs <;> simp only [length_leBytes, List.length_cons] <;> omega

theorem length_flatMap_le {α : Type} {enc : α → Bytes} {bound : ℕ} (xs : List α)
    (h : ∀ x ∈ xs, (enc x).length ≤ bound) : (xs.flatMap enc).length ≤ xs.length * bound := by
  induction xs with
  | nil => exact Nat.zero_le _
  | cons x xs ih =>
    rw [List.forall_mem_cons] at h
    rw [List.flatMap_cons, List.length_append, List.length_cons, Nat.succ_mul, Nat.add_comm]
    exact Nat.add_le_add (ih h.2) h.1

theorem length_vec_le_maxVec {α : Type} {enc : α → Bytes} {bound n : ℕ} {xs : List α}
    (hlen : xs.length ≤ n) (h : ∀ x ∈ xs, (enc x).length ≤ bound) :
    (Scale.vec enc xs).length ≤ maxVec n bound := by
  rw [Scale.vec, List.length_append, maxVec]
  exact Nat.add_le_add (length_compactU32_mono hlen)
    ((length_flatMap_le xs h).trans (Nat.mul_le_mul_right _ hlen))

theorem length_bytes_le {n : ℕ} (v : BoundedVec UInt8 n) : (byteVec v.val).length ≤ maxVec n 1 := by
  rw [← vec_bytes]
  exact length_vec_le_maxVec v.property fun _ _ => le_rfl

theorem length_output_le (o : Output) : o.encode.length ≤ Output.maxEncodedLen := by
  have hpayload := length_bytes_le o.payload
  simp only [Output.encode, List.length_append, Bytes32.length_val, List.length_singleton,
    Output.maxEncodedLen]
  omega

theorem length_input_le (i : FcmpInput) : i.encode.length ≤ FcmpInput.maxEncodedLen := by
  have hproof := length_bytes_le i.fcmpProof
  simp only [FcmpInput.encode, List.length_append, Bytes32.length_val, FcmpInput.maxEncodedLen]
  omega

theorem length_transfer_le (tx : TransferTx) : tx.encode.length ≤ TransferTx.maxEncodedLen := by
  have hinputs : (Scale.vec FcmpInput.encode tx.inputs.val).length ≤ _ :=
    length_vec_le_maxVec tx.inputs.property fun i _ => length_input_le i
  have houtputs : (Scale.vec Output.encode tx.outputs.val).length ≤ _ :=
    length_vec_le_maxVec tx.outputs.property fun o _ => length_output_le o
  have hrange := length_bytes_le tx.rangeProof
  simp only [TransferTx.encode, List.length_append, Bytes32.length_val, length_u64LeBytes,
    TransferTx.maxEncodedLen]
  omega

theorem length_replicate_flatMap {α : Type} (enc : α → Bytes) (n : ℕ) (a : α) :
    ((List.replicate n a).flatMap enc).length = n * (enc a).length := by
  induction n with
  | zero => rw [List.replicate_zero, List.flatMap_nil, List.length_nil, Nat.zero_mul]
  | succ n ih =>
    rw [List.replicate_succ, List.flatMap_cons, List.length_append, ih, Nat.succ_mul, Nat.add_comm]

/-- A vector as long as its bound allows. -/
def full {α : Type} (n : ℕ) (a : α) : BoundedVec α n :=
  ⟨List.replicate n a, (List.length_replicate).le⟩

theorem length_vec_full {α : Type} (enc : α → Bytes) (n : ℕ) (a : α) :
    (Scale.vec enc (full n a).val).length = maxVec n (enc a).length := by
  rw [Scale.vec, List.length_append, full, List.length_replicate, length_replicate_flatMap, maxVec]

/-- The transfer of the largest size. -/
def largest (x : Bytes32) : TransferTx where
  membershipRoot := x
  inputs := full _ ⟨x, x, full _ 0⟩
  outputs := full _ ⟨x, x, 0, full _ 0⟩
  txPubkey := x
  rangeProof := full _ 0
  fee := 0

theorem length_largest (x : Bytes32) : (largest x).encode.length = TransferTx.maxEncodedLen := by
  have hbytes : ∀ n, (byteVec (full n (0 : UInt8)).val).length = maxVec n 1 := by
    intro n
    rw [← vec_bytes, length_vec_full]
    rfl
  have hinput : (FcmpInput.encode ⟨x, x, full _ 0⟩).length = FcmpInput.maxEncodedLen := by
    simp only [FcmpInput.encode, List.length_append, Bytes32.length_val, hbytes]
    rfl
  have houtput : (Output.encode ⟨x, x, 0, full _ 0⟩).length = Output.maxEncodedLen := by
    simp only [Output.encode, List.length_append, Bytes32.length_val, List.length_singleton, hbytes]
    rfl
  simp only [TransferTx.encode, largest, List.length_append, Bytes32.length_val, length_u64LeBytes,
    length_vec_full, hinput, houtput, hbytes]
  rfl

end CodecLemmas

/-- The wire format of calls. The decoder accepts an encoding with whatever follows it, and nothing
else, so a call has one encoding and no encoding is the beginning of another. What the fee floor is
charged on is the number of bytes the transfer was read from, and that is at most 51692, the size of
the largest transfer. -/
theorem call_wire_exact :
    (∀ b call rest, Call.decode b = some (call, rest) ↔ b = call.encode ++ rest) ∧
    (∀ b tx rest, TransferTx.decode b = some (tx, rest) →
      tx.encodedSize.toNat + rest.length = b.length ∧ tx.encodedSize.toNat ≤ 51692) ∧
    ∃ b tx, TransferTx.decode b = some (tx, []) ∧ b.length = 51692 := by
  have hmax : TransferTx.maxEncodedLen = 51692 := by decide
  refine ⟨fun b call rest => ?_, fun b tx rest h => ?_, ?_⟩
  · rw [exact_call]
    exact ⟨And.right, And.intro trivial⟩
  · obtain ⟨-, rfl⟩ := (exact_transfer b tx rest).mp h
    have hle := length_transfer_le tx
    have hsize : tx.encodedSize.toNat = tx.encode.length := by
      rw [TransferTx.encodedSize, UInt64.toNat_ofNat']
      exact Nat.mod_eq_of_lt (by omega)
    rw [hsize, List.length_append]
    exact ⟨rfl, hmax ▸ hle⟩
  · have hlargest := length_largest ⟨List.replicate 32 0, rfl⟩
    generalize largest ⟨List.replicate 32 0, rfl⟩ = tx at hlargest
    exact ⟨tx.encode, tx, (exact_transfer _ _ _).mpr ⟨trivial, (List.append_nil _).symm⟩,
      hlargest.trans hmax⟩

end Kohl.Pallet
