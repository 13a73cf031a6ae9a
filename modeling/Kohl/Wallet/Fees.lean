import Kohl.Wallet.Built
import Kohl.Wallet.Accepted

/-!
# The wallet's fee estimate

The wallet settles the fee before it knows the transfer: `estimate_tx_bytes` guesses the encoded size
from the slots of the tree and the number of inputs. The chain asks for a fee by the size it sees.

* `length_fcmpProof_le`: the bytes of a membership proof, from the slots of its snapshot.
* `length_encode_le`: the bytes of a transfer, from its inputs and outputs.
* `fee_estimate_meets_floor`: the estimate is never below the size, and a fee by the estimate is never
  below the chain's floor.
-/

namespace Kohl.Wallet

open ByteLib Fcmp Pallet Stealth Cyclic CallLemmas BuildLemmas

variable {l : ℕ} {Point : Type} [AddCommGroup Point] [Module (ZMod l) Point]

/-! ## The estimate -/

/-- `per_input`; the sum wraps in a release build. -/
def bytesPerInput (treeSlots : UInt64) : UInt64 :=
  let n := max treeSlots 1
  8 + n * 32 + n * 72 + 32 * (n + 2) + 256

def estimateTxBytes (treeSlots : UInt64) (inputs : ℕ) : UInt64 :=
  min (saturatingAdd 2000 (saturatingMul (bytesPerInput treeSlots) (UInt64.ofNat (max inputs 1)))) 60000

theorem toNat_min (a b : UInt64) : (min a b).toNat = min a.toNat b.toNat := by
  rw [UInt64.min_def]
  split
  · next hle => exact (Nat.min_eq_left (UInt64.le_iff_toNat_le.mp hle)).symm
  · next hle => exact (Nat.min_eq_right (Nat.le_of_not_le (mt UInt64.le_iff_toNat_le.mpr hle))).symm

/-- The saturating operations do not show behind the cap. -/
theorem toNat_estimateTxBytes (treeSlots : UInt64) {inputs : ℕ} (h : inputs < 2 ^ 64) :
    (estimateTxBytes treeSlots inputs).toNat =
      min (2000 + (bytesPerInput treeSlots).toNat * max inputs 1) 60000 := by
  have hcount : (UInt64.ofNat (max inputs 1)).toNat = max inputs 1 := by
    rw [UInt64.toNat_ofNat', Nat.mod_eq_of_lt]
    omega
  have hbase : (2000 : UInt64).toNat = 2000 := rfl
  have hcap : (60000 : UInt64).toNat = 60000 := rfl
  rw [estimateTxBytes, toNat_min, toNat_saturatingAdd, toNat_saturatingMul, hcount, hbase, hcap]
  generalize (bytesPerInput treeSlots).toNat * max inputs 1 = bytes
  omega

theorem toNat_bytesPerInput {slots : ℕ} (hpos : 0 < slots) (hle : slots ≤ MAX_FCMP_ANON_SET) :
    (bytesPerInput (UInt64.ofNat slots)).toNat = 328 + 136 * slots := by
  have hanon : MAX_FCMP_ANON_SET = 64 := rfl
  have hslots : (UInt64.ofNat slots).toNat = slots := by
    rw [UInt64.toNat_ofNat', Nat.mod_eq_of_lt]
    omega
  have hone : (1 : UInt64) ≤ UInt64.ofNat slots := by
    rw [UInt64.le_iff_toNat_le, hslots]
    exact hpos
  have hmax : max (UInt64.ofNat slots) 1 = UInt64.ofNat slots := by
    rw [UInt64.max_def]
    split
    · next hle => exact (UInt64.le_antisymm hle hone).symm
    · rfl
  unfold bytesPerInput
  rw [hmax]
  simp only [UInt64.toNat_add, UInt64.toNat_mul, hslots, UInt64.reduceToNat]
  omega

/-! ## The size of a transfer -/

theorem length_encode_input_le {input : FcmpInput} {bound : ℕ}
    (h : input.fcmpProof.val.length ≤ bound) : input.encode.length ≤ 69 + bound := by
  have hproof := Scale.length_byteVec_le input.fcmpProof.val
  rw [FcmpInput.encode, List.length_append, List.length_append, Bytes32.length_val, Bytes32.length_val]
  omega

theorem length_encode_output_le {out : Output} (h : out.payload.val.length = 8) :
    out.encode.length ≤ 78 := by
  have hpayload := Scale.length_byteVec_le out.payload.val
  rw [Output.encode, List.length_append, List.length_append, List.length_append, Bytes32.length_val,
    Bytes32.length_val, List.length_singleton]
  omega

/-- The size of a transfer whose outputs carry a masked amount each, from a bound on its proofs. -/
theorem length_encode_le {tx : TransferTx} {bound : ℕ}
    (hproofs : ∀ input ∈ tx.inputs.val, input.fcmpProof.val.length ≤ bound)
    (hpayloads : tx.outputs.val.map (fun out => out.payload.val.length) = [8, 8]) :
    tx.encode.length ≤ 1267 + tx.inputs.val.length * (69 + bound) := by
  have hinputs : (Scale.vec FcmpInput.encode tx.inputs.val).length ≤
      5 + tx.inputs.val.length * (69 + bound) :=
    Scale.length_vec_le fun input hinput => length_encode_input_le (hproofs input hinput)
  have hcount : tx.outputs.val.length = 2 := by
    have hlen := congrArg List.length hpayloads
    rw [List.length_map] at hlen
    exact hlen
  have hpayload : ∀ out ∈ tx.outputs.val, out.payload.val.length = 8 := by
    intro out hout
    have hmem := List.mem_map_of_mem (f := fun out : Output => out.payload.val.length) hout
    rw [hpayloads] at hmem
    simpa using hmem
  have houtputs : (Scale.vec Output.encode tx.outputs.val).length ≤ 5 + 2 * 78 := by
    rw [← hcount]
    exact Scale.length_vec_le fun out hout => length_encode_output_le (hpayload out hout)
  have hrange := Scale.length_byteVec_le tx.rangeProof.val
  have hcap : tx.rangeProof.val.length ≤ 1024 := tx.rangeProof.property
  simp only [TransferTx.encode, List.length_append, Bytes32.length_val, length_u64LeBytes]
  omega

/-! ## The size of a built transfer -/

variable {E : CryptoLib l Point} {w : Wallet E} {rand : TransferRandomness l}
  {inputs : List OwnedOutput} {membership : MembershipSnapshot} {dest : StealthAddress}
  {sendAmount fee : UInt64}

omit [AddCommGroup Point] [Module (ZMod l) Point] in
theorem checkInputs_digests (h : checkInputs E inputs membership = .ok ()) :
    membership.digests.length ≤ MAX_FCMP_ANON_SET := by
  unfold checkInputs at h
  split at h
  · cases h
  split at h
  · cases h
  next hslots => exact Nat.not_lt.mp hslots

variable [DecidableEq Point]

/-- A proof lists every slot once and every admitted member once, and there are no more members than
slots. -/
theorem length_fcmpProof_le {nonces : ℕ → Clsag.Nonces l} {msg : Bytes32} {x : Staged × ℕ}
    {input : FcmpInput} (h : proveInput E nonces msg membership x = .ok input) :
    0 < membership.digests.length ∧
      input.fcmpProof.val.length ≤ 84 + 136 * membership.digests.length := by
  obtain ⟨-, -, res, hprove, hproof⟩ := proveInput_made h
  obtain ⟨-, clsag, -, hencode, -, -⟩ := SpecLemmas.prove_eq_some hprove
  obtain ⟨hfits, hlayout, -⟩ := FcmpLemmas.fitsWire_of_encode hencode
  have hlen := FcmpLemmas.length_layout ⟨membership.digests, membership.admitted, clsag.signature⟩
  have hring := hfits.ring_le
  have hclsag := hfits.clsag_len
  dsimp only at hlen hring hclsag
  refine ⟨hfits.slots_pos, ?_⟩
  rw [hproof, hlayout, hlen, hclsag]
  omega

/-- What a built transfer has that its size depends on. -/
theorem built_size {tx : TransferTx}
    (h : buildTransferMulti E w rand inputs membership dest sendAmount fee = .ok tx) :
    0 < inputs.length ∧ inputs.length ≤ 4 ∧ 0 < membership.digests.length ∧
      membership.digests.length ≤ 64 ∧ tx.fee = fee ∧
      tx.encode.length ≤ 1267 + inputs.length * (153 + 136 * membership.digests.length) := by
  obtain ⟨skeleton, staged, hskeleton, htx, hproved⟩ := buildTransferMulti_made h
  have hs := skeletonTransfer_made hskeleton
  obtain ⟨hne, hcap⟩ := checkInputs_ne_nil hs.checked
  have hforall := forall₂_of_tryMap hproved
  have hcount : tx.inputs.val.length = inputs.length := by
    rw [← hforall.length_eq, List.length_zipIdx, hs.length]
  have hpos : 0 < inputs.length := List.length_pos_iff.mpr hne
  have hproofs : ∀ input ∈ tx.inputs.val, 0 < membership.digests.length ∧
      input.fcmpProof.val.length ≤ 84 + 136 * membership.digests.length := by
    intro input hinput
    obtain ⟨x, -, hx⟩ := exists_of_forall₂ hforall hinput
    exact length_fcmpProof_le hx
  have hslots : 0 < membership.digests.length := by
    obtain ⟨input, hinput⟩ := List.exists_mem_of_length_pos (hcount ▸ hpos)
    exact (hproofs input hinput).1
  have hpayloads : tx.outputs.val.map (fun out => out.payload.val.length) = [8, 8] := by
    rw [htx]
    exact hs.payloads
  have hsize := length_encode_le (fun input hinput => (hproofs input hinput).2) hpayloads
  rw [hcount] at hsize
  refine ⟨hpos, hcap, hslots, checkInputs_digests hs.checked, ?_, ?_⟩
  · rw [htx]
    exact hs.fee_eq
  · exact hsize.trans (Nat.le_of_eq (by ring))

/-- The estimate covers the size of every transfer that is built. -/
theorem length_encode_le_estimate {tx : TransferTx}
    (h : buildTransferMulti E w rand inputs membership dest sendAmount fee = .ok tx) :
    tx.encode.length ≤
      (estimateTxBytes (UInt64.ofNat membership.digests.length) inputs.length).toNat := by
  obtain ⟨hpos, hcap, hslots, hanon, -, hsize⟩ := built_size h
  rw [toNat_estimateTxBytes _ (by omega), toNat_bytesPerInput hslots hanon,
    Nat.max_eq_left (Nat.succ_le_of_lt hpos), Nat.mul_comm]
  -- four inputs over 64 slots stay below the cap
  have hbase : inputs.length * (153 + 136 * membership.digests.length) ≤
      inputs.length * (328 + 136 * membership.digests.length) :=
    Nat.mul_le_mul_left _ (by omega)
  have hlargest : inputs.length * (153 + 136 * membership.digests.length) ≤ 4 * (153 + 136 * 64) :=
    Nat.mul_le_mul hcap (by omega)
  refine Nat.le_min.mpr ⟨?_, ?_⟩
  · omega
  · omega

/-! ## The chain's floor -/

namespace FeeLemmas

variable {cfg : Config} {now : ℕ} {s : Storage} {tx : TransferTx}

/-- The pool refuses for the payment only below the floor. -/
theorem authorizeTransfer_ne_payment (h : saturatingMul cfg.minFeePerByte tx.encodedSize ≤ tx.fee) :
    authorizeTransfer cfg now s tx ≠ .error .payment := by
  have hinputs : ∀ inputs, authorizeInputs s inputs ≠ .error .payment := by
    intro inputs
    induction inputs with
    | nil =>
      intro heq
      cases heq
    | cons input inputs ih =>
      rw [authorizeInputs]
      split
      · intro heq
        cases heq
      split
      · intro heq
        cases heq
      · exact ih
  unfold authorizeTransfer
  dsimp only
  rw [if_neg (UInt64.not_lt.mpr h)]
  split
  · intro heq
    cases heq
  split
  · intro heq
    cases heq
  split
  · next e he =>
    intro heq
    cases heq
    exact hinputs _ he
  · split
    · intro heq
      cases heq
    · intro heq
      cases heq

theorem verifyInputs_ne_feeTooLow {H : Host} {msg root : Bytes32} (inputs : List FcmpInput) :
    verifyInputs H s msg root inputs ≠ .error .feeTooLow := by
  induction inputs with
  | nil =>
    intro heq
    cases heq
  | cons input inputs ih =>
    rw [verifyInputs]
    refine bind_ne_error ?_ fun _ => ih
    unfold verifyInput
    refine bind_ne_error (ensure_ne_error (by decide)) fun _ => ?_
    refine bind_ne_error (ensure_ne_error (by decide)) fun _ => ?_
    refine bind_ne_error (ensure_ne_error (by decide)) fun _ => ?_
    refine bind_ne_error (ensure_ne_error (by decide)) fun _ => ?_
    exact ensure_ne_error (by decide)

/-- Consensus refuses for the fee only below the floor. -/
theorem verifyTransfer_ne_feeTooLow {H : Host}
    (h : saturatingMul cfg.minFeePerByte tx.encodedSize ≤ tx.fee) :
    verifyTransfer H cfg now s tx ≠ .error .feeTooLow := by
  unfold verifyTransfer
  refine bind_ne_error (ensure_ne_error (by decide)) fun _ => ?_
  refine bind_ne_error (ensure_ne_error (by decide)) fun _ => ?_
  refine bind_ne_error (ensure_ne_error (by decide)) fun _ => ?_
  refine bind_ne_error (ensure_true_ne_error (decide_eq_true h)) fun _ => ?_
  refine bind_ne_error (ensure_ne_error (by decide)) fun _ => ?_
  refine bind_ne_error (ensure_ne_error (by decide)) fun _ => ?_
  refine bind_ne_error (ensure_ne_error (by decide)) fun _ => ?_
  refine bind_ne_error (ensure_ne_error (by decide)) fun _ => ?_
  refine bind_ne_error (verifyInputs_ne_feeTooLow _) fun _ => ?_
  refine bind_ne_error (ensure_ne_error (by decide)) fun _ => ?_
  exact ensure_ne_error (by decide)

end FeeLemmas

open FeeLemmas

/-- The wallet's estimate meets the chain's floor. Whatever is spent, paid, drawn and proved, a transfer
that is built over a snapshot is no larger than the estimate for the slots of the snapshot and the
number of inputs. If its fee is the estimate at a rate not below the chain's, it is at least the floor
for its size, so neither the pool nor consensus refuses it for its fee, in any state. -/
theorem fee_estimate_meets_floor (E : CryptoLib l Point) (w : Wallet E) (rand : TransferRandomness l)
    (inputs : List OwnedOutput) (membership : MembershipSnapshot) (dest : StealthAddress)
    (sendAmount fee : UInt64) (tx : TransferTx)
    (h : buildTransferMulti E w rand inputs membership dest sendAmount fee = .ok tx) :
    let estimate := estimateTxBytes (UInt64.ofNat membership.digests.length) inputs.length
    tx.encode.length ≤ estimate.toNat ∧ tx.encodedSize ≤ estimate ∧
    ∀ (cfg : Config) (feePerByte : UInt64), cfg.minFeePerByte ≤ feePerByte →
      fee = saturatingMul feePerByte estimate →
        saturatingMul cfg.minFeePerByte tx.encodedSize ≤ tx.fee ∧
        ∀ (H : Host) (now : ℕ) (s : Storage), authorizeTransfer cfg now s tx ≠ .error .payment ∧
          verifyTransfer H cfg now s tx ≠ .error .feeTooLow := by
  intro estimate
  have hsize : tx.encode.length ≤ estimate.toNat := length_encode_le_estimate h
  have hencoded : tx.encodedSize ≤ estimate := by
    rw [UInt64.le_iff_toNat_le, TransferTx.encodedSize, UInt64.toNat_ofNat']
    exact (Nat.mod_le _ _).trans hsize
  refine ⟨hsize, hencoded, ?_⟩
  intro cfg feePerByte hrate hfee
  have hfloor : saturatingMul cfg.minFeePerByte tx.encodedSize ≤ tx.fee := by
    obtain ⟨-, -, -, -, heq, -⟩ := built_size h
    rw [heq, hfee, UInt64.le_iff_toNat_le, toNat_saturatingMul, toNat_saturatingMul]
    exact min_le_min_right _
      (Nat.mul_le_mul (UInt64.le_iff_toNat_le.mp hrate) (UInt64.le_iff_toNat_le.mp hencoded))
  refine ⟨hfloor, ?_⟩
  intro H now s
  exact ⟨authorizeTransfer_ne_payment hfloor, verifyTransfer_ne_feeTooLow hfloor⟩

open SampleLemmas in
theorem fee_estimate_meets_floor_payout :
    let fee := saturatingMul 1
      (estimateTxBytes (UInt64.ofNat payoutSnapshot.digests.length) payoutInputs.length)
    ∃ tx, buildTransferMulti (cyclic ristrettoOrder) sampleWallet sampleRandomness payoutInputs
        payoutSnapshot sampleWallet.address 1000 fee = .ok tx ∧
      saturatingMul 1 tx.encodedSize ≤ tx.fee := by
  intro fee
  have hfee : fee.toNat ≤ 60000 := by
    have hone : (1 : UInt64).toNat = 1 := rfl
    have hlen : payoutInputs.length < 2 ^ 64 := by
      rw [payoutInputs_spendable.1]
      decide
    rw [toNat_saturatingMul, hone, Nat.one_mul, toNat_estimateTxBytes _ hlen]
    exact (min_le_left _ _).trans (min_le_right _ _)
  have hreward : 1000 + 60000 ≤ (blockReward 0).toNat := by decide
  obtain ⟨tx, hbuild, -⟩ := @payout_accepted 1000 fee ((Nat.add_le_add_left hfee _).trans hreward)
  obtain ⟨-, -, hfloor⟩ := fee_estimate_meets_floor (cyclic ristrettoOrder) sampleWallet
    sampleRandomness payoutInputs payoutSnapshot sampleWallet.address 1000 fee tx hbuild
  exact ⟨tx, hbuild, (hfloor ⟨0, 0, 1⟩ 1 (UInt64.le_refl 1) rfl).1⟩

end Kohl.Wallet
