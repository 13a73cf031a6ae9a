import Kohl.Pallet.RootWindow
import Kohl.Wallet.Accepted
import Kohl.Wallet.Built

/-!
# Membership implies maturity

Consensus never looks at the height of a spent output. A transfer names a root; the root was the live
root of some state, its slots are the outputs admitted there, and only mature outputs are admitted.

* `no_early_spend`: every member of the ring of an accepted transfer is mature.
-/

namespace Kohl.Pallet

open ByteLib Run MembershipTree Fcmp SpecLemmas

variable {l : ℕ} {Point : Type} [AddCommGroup Point] [Module (ZMod l) Point] [DecidableEq Point]

theorem blockOps_prefix (blocks : List (List (Origin × Call))) (h : ℕ) (ops : List Op) :
    (blocks.take h).flatMap blockOps <+: blocks.flatMap blockOps ++ ops := by
  conv_rhs => rw [← List.take_append_drop h blocks, List.flatMap_append, List.append_assoc]
  exact List.prefix_append _ _

/-- No early spend: for every input of a transfer accepted while a block executes, the ring its CLSAG
is checked over is the set of outputs admitted at the end of one of the last 64 blocks, or of those
admitted now, and every member is a stored output that was mature in the block before. -/
theorem no_early_spend (E : CryptoLib l Point) (cfg : Config)
    (blocks : List (List (Origin × Call))) (calls : List (Origin × Call)) (tx : TransferTx)
    (hverify : verifyTransfer (nativeHost E) cfg (insideBlock (nativeHost E) cfg blocks calls).number
      (insideBlock (nativeHost E) cfg blocks calls).store tx = .ok ())
    (hfree : CollisionFree E.blake2_256 (runPreimages (nativeHost E) cfg
        (blocks.flatMap blockOps ++ .onInitialize :: calls.map fun x => .dispatch x.1 x.2) ++
      tx.inputs.val.flatMap fun input => proofPreimages E.blake2_256 input.fcmpProof.val)) :
    let c := insideBlock (nativeHost E) cfg blocks calls
    c.number = blocks.length + 1 ∧
    ∀ input ∈ tx.inputs.val, ∃ src parsed,
      (src = c.store ∨ ∃ h, 1 ≤ h ∧ c.number - 64 ≤ h ∧ h ≤ c.number - 1 ∧
        src = (afterBlocks (nativeHost E) cfg (blocks.take h)).store) ∧
      FcmpProof.decode input.fcmpProof.val = some parsed ∧
      Clsag.verifyWithMax E (signingHash E.blake2_256 tx).val (ringBlob parsed.ring)
        input.pseudoCommitment.val input.keyImage.val parsed.clsag Clsag.MAX_FCMP_RING = true ∧
      (∀ m, m ∈ parsed.ring ↔ src.admitted.containsKey m.treeIndex.toNat = true ∧
        ∃ out, src.outputs.get m.treeIndex.toNat = some out ∧ out.oneTimeKey = m.oneTimeKey ∧
          out.commitment = m.commitment) ∧
      ∀ m ∈ parsed.ring, ∃ out, c.store.outputs.get m.treeIndex.toNat = some out ∧
        out.oneTimeKey = m.oneTimeKey ∧ out.commitment = m.commitment ∧
        out.height + maturityAge cfg out ≤ c.number - 1 := by
  intro c
  obtain ⟨hnumber, hfinalized, hroots⟩ : c.number = blocks.length + 1 ∧
      c.finalized = blocks.length ∧ c.store.membershipRootAt =
        (afterBlocks (nativeHost E) cfg blocks).store.membershipRootAt :=
    insideBlock_spec blocks calls
  refine ⟨hnumber, fun input hinput => ?_⟩
  have hvalid := verifyTransfer_iff.mp hverify
  have hfcmp := hvalid.fcmp input hinput
  have hfree' : CollisionFree E.blake2_256 (runPreimages (nativeHost E) cfg
      (blocks.flatMap blockOps ++ .onInitialize :: calls.map fun x => .dispatch x.1 x.2) ++
      proofPreimages E.blake2_256 input.fcmpProof.val) := by
    refine hfree.mono (List.append_subset.mpr ⟨List.subset_append_left _ _, fun x hx => ?_⟩)
    exact List.mem_append_right _ (List.mem_flatMap.mpr ⟨input, hinput, hx⟩)
  -- the state whose live root the transfer names
  obtain ⟨pre, src, hpre, hsrc, hwhen, hroot, hfin⟩ : ∃ (pre : List Op) (src : Chain),
      pre <+: blocks.flatMap blockOps ++ .onInitialize :: calls.map (fun x => .dispatch x.1 x.2) ∧
      src = run (step (nativeHost E) cfg) (.genesis (nativeHost E)) pre ∧
      (src.store = c.store ∨ ∃ h, 1 ≤ h ∧ c.number - 64 ≤ h ∧ h ≤ c.number - 1 ∧
        src.store = (afterBlocks (nativeHost E) cfg (blocks.take h)).store) ∧
      src.store.membershipRoot = tx.membershipRoot ∧ src.finalized ≤ c.number - 1 := by
    have haccepted : membershipRootAccepted c.number c.store tx.membershipRoot = true := hvalid.root
    rcases membershipRootAccepted_iff.mp haccepted with hlive | ⟨h, hge, hle, hget⟩
    · exact ⟨_, c, List.prefix_refl _, rfl, .inl rfl, hlive, by omega⟩
    · rw [hroots, rootAt_afterBlocks] at hget
      split at hget
      · next hwindow =>
        have hlen : (blocks.take h).length = h := by
          rw [List.length_take]
          omega
        refine ⟨_, afterBlocks (nativeHost E) cfg (blocks.take h), blockOps_prefix blocks h _, rfl,
          .inr ⟨h, hwindow.1, hge, by omega, rfl⟩, Option.some.inj hget, ?_⟩
        rw [(number_afterBlocks _).2, hlen]
        omega
      · cases hget
  rw [← hroot] at hfcmp
  obtain ⟨clsag, hdecode, hlen, hclsag⟩ :=
    ring_of_rootAccepted hpre (congrArg Chain.store hsrc) hfree' hfcmp
  have hinv : TreeInv (nativeHost E) cfg src := hsrc ▸ (treeInv_run_genesis pre).1
  refine ⟨src.store, _, hwhen, hdecode, hclsag, fun m => mem_ringOfSlots_slotsOf hinv.slots hlen,
    fun m hm => ?_⟩
  obtain ⟨out, hout, hp, hcm, hmature⟩ := mature_of_mem_ring hpre hsrc hlen hm
  exact ⟨out, hout, hp, hcm, hmature.trans hfin⟩

/-! ## The spend of a payout -/

open Wallet SampleLemmas

/-- The second block, before its first call. -/
def payoutNext : Chain :=
  insideBlock (nativeHost (cyclic ristrettoOrder)) eagerConfig [payoutBlock] []

theorem payoutNext_store : payoutNext.store = onInitialize payoutChain.store := by
  rw [payoutNext, WindowLemmas.insideBlock_eq]
  rfl

/-- The preimages of the trees up to the second block and of the proofs of a transfer. -/
def payoutPreimages (tx : TransferTx) : List Bytes :=
  runPreimages (nativeHost (cyclic ristrettoOrder)) eagerConfig
      ([payoutBlock].flatMap blockOps ++ [.onInitialize]) ++
    tx.inputs.val.flatMap fun input =>
      proofPreimages (cyclic ristrettoOrder).blake2_256 input.fcmpProof.val

/-- What is hashed for the proofs of a built transfer is hashed for the tree of its snapshot. -/
theorem proofPreimages_of_build {l : ℕ} {Point : Type} [AddCommGroup Point] [Module (ZMod l) Point]
    [DecidableEq Point] {E : CryptoLib l Point} {w : Wallet E} {rand : TransferRandomness l}
    {inputs : List OwnedOutput} {membership : MembershipSnapshot} {dest : Stealth.StealthAddress}
    {amount fee : UInt64} {tx : TransferTx} {slots : List Slot}
    (h : buildTransferMulti E w rand inputs membership dest amount fee = .ok tx)
    (hd : membership.digests = slots.map (slotDigest E.blake2_256))
    (hr : membership.admitted = ringOfSlots slots) (hlen : slots.length ≤ 2 ^ 64) :
    ∀ input ∈ tx.inputs.val,
      proofPreimages E.blake2_256 input.fcmpProof.val ⊆ treePreimages E.blake2_256 slots := by
  obtain ⟨skeleton, staged, -, -, hproved⟩ := buildTransferMulti_made h
  intro input hinput
  obtain ⟨x, -, hx⟩ := exists_of_forall₂ (forall₂_of_tryMap hproved) hinput
  obtain ⟨-, -, res, hres, hproof⟩ := proveInput_made hx
  rw [hproof]
  exact proofPreimages_subset hres hd hr hlen

theorem payoutSpend_collisionFree {tx : TransferTx} (h : payoutSpend = .ok tx) :
    CollisionFree (cyclic ristrettoOrder).blake2_256 (payoutPreimages tx) := by
  have hrun : CollisionFree (cyclic ristrettoOrder).blake2_256
      (runPreimages (nativeHost (cyclic ristrettoOrder)) eagerConfig
        ([payoutBlock].flatMap blockOps ++ [.onInitialize])) := by
    decide +kernel
  refine hrun.mono (List.append_subset.mpr ⟨List.Subset.refl _, fun x hx => ?_⟩)
  obtain ⟨input, hinput, hx⟩ := List.mem_flatMap.mp hx
  have htree := @treePreimages_subset_run (nativeHost (cyclic ristrettoOrder)) eagerConfig _ _
    (List.prefix_append ([payoutBlock].flatMap blockOps) [.onInitialize])
  rw [← payoutChain_eq] at htree
  obtain ⟨hslots, -⟩ := payoutChain_collisionFree
  have hlen : (slotsOf payoutChain.store).length ≤ 2 ^ 64 := by
    have hanon : MAX_FCMP_ANON_SET = 64 := rfl
    rw [length_slotsOf]
    omega
  refine htree (proofPreimages_of_build h ?_ ?_ hlen input hinput hx)
  · dsimp only
  · dsimp only

theorem no_early_spend_payout : ∃ tx, payoutSpend = .ok tx ∧
    ∀ input ∈ tx.inputs.val, ∃ parsed, FcmpProof.decode input.fcmpProof.val = some parsed ∧
      ∀ m ∈ parsed.ring, ∃ out, payoutNext.store.outputs.get m.treeIndex.toNat = some out ∧
        out.height + maturityAge eagerConfig out ≤ payoutNext.number - 1 := by
  obtain ⟨tx, htx, hvalid⟩ := payoutSpend_valid
  have hverify : verifyTransfer (nativeHost (cyclic ristrettoOrder)) eagerConfig payoutNext.number
      payoutNext.store tx = .ok () := by
    rw [verifyTransfer_iff, payoutNext_store]
    exact (hvalid _).onInitialize
  unfold payoutNext at hverify ⊢
  obtain ⟨-, hall⟩ := no_early_spend (cyclic ristrettoOrder) eagerConfig [payoutBlock] [] tx hverify
    (payoutSpend_collisionFree htx)
  refine ⟨tx, htx, fun input hinput => ?_⟩
  obtain ⟨src, parsed, -, hdecode, -, -, hmature⟩ := hall input hinput
  refine ⟨parsed, hdecode, fun m hm => ?_⟩
  obtain ⟨out, hout, -, -, hage⟩ := hmature m hm
  exact ⟨out, hout, hage⟩

end Kohl.Pallet
