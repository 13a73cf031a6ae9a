import Kohl.Pallet.Codec
import Kohl.Wallet.Built
import Kohl.Wallet.Accepted

/-!
# What the signing hash binds

Every input of a transfer is proved for the signing hash, so that whatever the hash does not determine
can be altered by whoever relays the transfer. The preimage is a concatenation of parts of varying
length; each says where it ends.

* `signingPreimage_eq_iff`: the preimage determines everything but the proofs, and nothing else.
* `signing_hash_binds`: so does the hash, as far as it has no collisions, and the skeleton that the
  wallet signs has the hash of the finished transfer.
-/

namespace Kohl.Wallet

open ByteLib MembershipTree Pallet Scale Cyclic

/-- The transfers agree in everything but their proofs. -/
structure AlikeButProofs (t₁ t₂ : TransferTx) : Prop where
  membershipRoot : t₁.membershipRoot = t₂.membershipRoot
  keyImages : t₁.inputs.val.map FcmpInput.keyImage = t₂.inputs.val.map FcmpInput.keyImage
  pseudoCommitments :
    t₁.inputs.val.map FcmpInput.pseudoCommitment = t₂.inputs.val.map FcmpInput.pseudoCommitment
  outputs : t₁.outputs = t₂.outputs
  txPubkey : t₁.txPubkey = t₂.txPubkey
  fee : t₁.fee = t₂.fee

namespace SigningLemmas

theorem selfDelimiting_output : SelfDelimiting Output.encode := exact_output.selfDelimiting

theorem length_map_inputs {α : Type} (tx : TransferTx) (f : FcmpInput → α) :
    (tx.inputs.val.map f).length < 2 ^ 32 := by
  rw [List.length_map]
  exact Nat.lt_of_le_of_lt tx.inputs.property (by decide)

theorem length_outputs (tx : TransferTx) : tx.outputs.val.length < 2 ^ 32 :=
  Nat.lt_of_le_of_lt tx.outputs.property (by decide)

theorem signingPreimage_congr {t₁ t₂ : TransferTx} (h : AlikeButProofs t₁ t₂) :
    signingPreimage t₁ = signingPreimage t₂ := by
  unfold signingPreimage
  rw [h.membershipRoot, h.keyImages, h.pseudoCommitments, h.outputs, h.txPubkey, h.fee]

/-- The parts of the preimage are read one after the other. -/
theorem signingPreimage_eq_iff {t₁ t₂ : TransferTx} :
    signingPreimage t₁ = signingPreimage t₂ ↔ AlikeButProofs t₁ t₂ := by
  refine ⟨fun h => ?_, signingPreimage_congr⟩
  simp only [signingPreimage, List.append_assoc] at h
  have h := List.append_cancel_left h
  obtain ⟨hroot, h⟩ := selfDelimiting_array32 h
  obtain ⟨hkeyImages, h⟩ := selfDelimiting_array32.vec_append (length_map_inputs t₁ _)
    (length_map_inputs t₂ _) h
  obtain ⟨hpseudos, h⟩ := selfDelimiting_array32.vec_append (length_map_inputs t₁ _)
    (length_map_inputs t₂ _) h
  obtain ⟨houtputs, h⟩ := selfDelimiting_output.vec_append (length_outputs t₁) (length_outputs t₂) h
  obtain ⟨hpubkey, h⟩ := selfDelimiting_array32 h
  have hfee : u64LeBytes t₁.fee ++ [] = u64LeBytes t₂.fee ++ [] := congrArg (· ++ []) h
  exact ⟨hroot, hkeyImages, hpseudos, Subtype.ext houtputs, hpubkey, (selfDelimiting_u64 hfee).1⟩

end SigningLemmas

open SigningLemmas

variable {l : ℕ} {Point : Type} [AddCommGroup Point] [Module (ZMod l) Point] [DecidableEq Point]

/-- The signing hash binds the membership root, the key images and the pseudo-commitments of the
inputs, the outputs, the transaction key and the fee, and does not depend on the proofs. The message
for which the wallet proves the inputs, the hash of a skeleton, is the hash of the transfer it
returns. -/
theorem signing_hash_binds (E : CryptoLib l Point) :
    (∀ t₁ t₂ : TransferTx, CollisionFree E.blake2_256 [signingPreimage t₁, signingPreimage t₂] →
      (signingHash E.blake2_256 t₁ = signingHash E.blake2_256 t₂ ↔ AlikeButProofs t₁ t₂)) ∧
    (∀ (tx : TransferTx) (inputs : BoundedVec FcmpInput MAX_FCMP_INPUTS)
      (rangeProof : BoundedVec UInt8 MAX_RANGE_PROOF_BYTES),
      inputs.val.map (fun i => (i.keyImage, i.pseudoCommitment)) =
        tx.inputs.val.map (fun i => (i.keyImage, i.pseudoCommitment)) →
      signingHash E.blake2_256 { tx with inputs := inputs, rangeProof := rangeProof } =
        signingHash E.blake2_256 tx) ∧
    ∀ (w : Wallet E) (rand : TransferRandomness l) (inputs : List OwnedOutput)
      (membership : MembershipSnapshot) (dest : Stealth.StealthAddress) (sendAmount fee : UInt64)
      (tx : TransferTx),
      buildTransferMulti E w rand inputs membership dest sendAmount fee = .ok tx →
      ∃ skeleton staged,
        skeletonTransfer E w rand inputs membership dest sendAmount fee = .ok (skeleton, staged) ∧
        signingHash E.blake2_256 tx = signingHash E.blake2_256 skeleton ∧
        tryMap (proveInput E rand.nonces (signingHash E.blake2_256 tx) membership) staged.zipIdx =
          .ok tx.inputs.val := by
  refine ⟨?_, ?_, ?_⟩
  · intro t₁ t₂ hfree
    constructor
    · intro h
      refine signingPreimage_eq_iff.mp (hfree _ List.mem_cons_self _ ?_ h)
      exact List.mem_cons_of_mem _ List.mem_cons_self
    · intro h
      exact congrArg E.blake2_256 (signingPreimage_congr h)
  · intro tx inputs rangeProof h
    have hki := congrArg (List.map Prod.fst) h
    have hpc := congrArg (List.map Prod.snd) h
    rw [List.map_map, List.map_map] at hki hpc
    exact congrArg E.blake2_256 (signingPreimage_congr ⟨rfl, hki, hpc, rfl, rfl, rfl⟩)
  · intro w rand inputs membership dest sendAmount fee tx h
    obtain ⟨skeleton, staged, hskeleton, htx, hproved⟩ := buildTransferMulti_made h
    obtain ⟨hki, hpc⟩ := proved_alike (skeletonTransfer_made hskeleton) hproved
    have hhash : signingHash E.blake2_256 tx = signingHash E.blake2_256 skeleton := by
      rw [htx]
      exact congrArg E.blake2_256 (signingPreimage_congr ⟨rfl, hki, hpc, rfl, rfl, rfl⟩)
    refine ⟨skeleton, staged, hskeleton, hhash, ?_⟩
    rw [hhash]
    exact hproved

/-- A transfer of one input and one output without proofs, for a fee. -/
def bareTransfer (fee : UInt64) : TransferTx where
  membershipRoot := toBytes (scalarOf 1)
  inputs := ⟨[⟨toBytes (scalarOf 2), toBytes (scalarOf 3), ⟨[], Nat.zero_le _⟩⟩],
    Nat.le_of_ble_eq_true rfl⟩
  outputs := ⟨[⟨toBytes (scalarOf 4), toBytes (scalarOf 5), 6, ⟨[7], Nat.le_of_ble_eq_true rfl⟩⟩],
    Nat.le_of_ble_eq_true rfl⟩
  txPubkey := toBytes (scalarOf 8)
  rangeProof := ⟨[], Nat.zero_le _⟩
  fee := fee

/-- Two fees have two hashes, and the spend of the payout is proved under its own hash. -/
theorem signing_hash_binds_payout :
    signingHash (cyclic ristrettoOrder).blake2_256 (bareTransfer 100) ≠
      signingHash (cyclic ristrettoOrder).blake2_256 (bareTransfer 101) ∧
    ∃ tx skeleton, payoutSpend = .ok tx ∧
      signingHash (cyclic ristrettoOrder).blake2_256 tx =
        signingHash (cyclic ristrettoOrder).blake2_256 skeleton := by
  obtain ⟨hbinds, -, hbuilt⟩ := signing_hash_binds (cyclic ristrettoOrder)
  constructor
  · have hfree : CollisionFree (cyclic ristrettoOrder).blake2_256
        [signingPreimage (bareTransfer 100), signingPreimage (bareTransfer 101)] := by
      decide +kernel
    intro h
    have hfee := ((hbinds _ _ hfree).mp h).fee
    exact absurd hfee (by decide)
  · obtain ⟨tx, htx, -⟩ := SampleLemmas.payoutSpend_valid
    obtain ⟨skeleton, staged, -, hhash, -⟩ := hbuilt _ _ _ _ _ _ _ tx htx
    exact ⟨tx, skeleton, htx, hhash⟩

end Kohl.Wallet
