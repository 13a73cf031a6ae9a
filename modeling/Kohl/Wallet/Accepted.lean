import Kohl.Pallet.MatureSet
import Kohl.Pallet.RootWindow
import Kohl.Wallet.Completeness

/-!
# Everything the wallet builds, the chain accepts

The wallet reads the root, the frontier and the outputs of a chain, rebuilds the tree from them, and
proves its spends in it. In every reachable state the snapshot is the tree of the state, so a
transfer of owned, admitted and unspent outputs is built and accepted.

* `snapshot_of_run`: the snapshot of a reachable state holds its digests and the ring of all admitted
  outputs.
* `owned_of_scan`: what the scan of a reachable state returns is a member of that ring once it is
  admitted.
* `wallet_transfer_accepted`: the transfer is built and passes the consensus check.
-/

namespace Kohl.Wallet

open ByteLib Run MembershipTree Fcmp SpecLemmas Pallet Stealth BuildLemmas MembershipLemmas Cyclic

/-- All stored outputs with their indices, as a node returns them. -/
def storedOutputs (s : Storage) : List (UInt64 × StoredOutput) :=
  (List.range s.nextOutputIndex).filterMap fun i =>
    (s.outputs.get i).map fun out => (UInt64.ofNat i, out)

theorem mem_storedOutputs {s : Storage} (hlen : s.nextOutputIndex ≤ 2 ^ 64) {i : UInt64}
    {out : StoredOutput} :
    (i, out) ∈ storedOutputs s ↔ i.toNat < s.nextOutputIndex ∧ s.outputs.get i.toNat = some out := by
  simp only [storedOutputs, List.mem_filterMap, List.mem_range, Option.map_eq_some_iff]
  constructor
  · rintro ⟨j, hj, o, ho, heq⟩
    rw [Prod.mk.injEq] at heq
    obtain ⟨rfl, rfl⟩ := heq
    rw [toNat_ofNat hj hlen]
    exact ⟨hj, ho⟩
  · rintro ⟨hi, hout⟩
    exact ⟨i.toNat, hi, out, hout, by rw [UInt64.ofNat_toNat]⟩

/-- Without a collision no filled slot has the digest of the placeholder. -/
theorem legible_of_collisionFree {hash : Bytes → Bytes32} {slots : List Slot}
    (hfree : CollisionFree hash (treePreimages hash slots)) : Legible hash slots := by
  intro p c hpc heq
  have hpre : leafPreimage p c = FCMP_EMPTY_LEAF_DOM :=
    hfree _ (TreeLemmas.slotPreimage_mem hpc) _ List.mem_cons_self heq
  have hlen := congrArg List.length hpre
  rw [TreeLemmas.length_leafPreimage, TreeLemmas.length_emptyLeafDom] at hlen
  cases hlen

section Run

variable {l : ℕ} {Point : Type} [AddCommGroup Point] [Module (ZMod l) Point] [DecidableEq Point]
variable {E : CryptoLib l Point} {cfg : Config} {ops : List Op} {s : Storage}

variable (hs : s = (run (step (nativeHost E) cfg) (.genesis (nativeHost E)) ops).store)
include hs

theorem slots_eq_next : s.treeSlots = s.nextOutputIndex :=
  hs ▸ (@treeInv_run_genesis (nativeHost E) cfg ops).2

theorem root_of_run : s.membershipRoot =
    rootFromLeaves E.blake2_256 ((slotsOf s).map (slotDigest E.blake2_256)) :=
  hs ▸ membershipRoot_eq_slotsOf ops

/-- The wallet rebuilds the tree of a reachable state from its root, its frontier and its
outputs. -/
theorem snapshot_of_run (hslots : s.treeSlots ≤ MAX_FCMP_ANON_SET)
    (hlegible : Legible E.blake2_256 (slotsOf s)) :
    Scale.decodeVec32 (membershipFrontier (nativeHost E) s) =
        some ((slotsOf s).map (slotDigest E.blake2_256)) ∧
      snapshotFromFrontier E.blake2_256 s.membershipRoot ((slotsOf s).map (slotDigest E.blake2_256))
        (storedOutputs s) = .ok ⟨s.membershipRoot, (slotsOf s).map (slotDigest E.blake2_256),
          ringOfSlots (slotsOf s)⟩ := by
  have hinv : SlotInv (nativeHost E) cfg _ s := hs ▸ (treeInv_run_genesis ops).1.slots
  have hanon : MAX_FCMP_ANON_SET = 64 := rfl
  have hnext := slots_eq_next hs
  have hlen : (slotsOf s).length ≤ 64 := (length_slotsOf s).trans_le hslots
  constructor
  · have hcount : ((slotsOf s).map (slotDigest E.blake2_256)).length < 2 ^ 32 := by
      rw [List.length_map]
      omega
    have hdecode := Scale.decodeVec32_vec hcount []
    rw [List.append_nil] at hdecode
    rw [membershipFrontier, hinv.digestsOf_eq]
    exact hdecode
  · rw [root_of_run hs]
    refine snapshotFromFrontier_slots hlegible hlen fun i p c hi => ?_
    obtain ⟨hlt, -, out, hout, hpc⟩ := getElem?_slotsOf_eq_some.mp hi
    have hback : (UInt64.ofNat i).toNat = i := toNat_ofNat hlt (by omega)
    refine ⟨out, get_byIndex ((mem_storedOutputs (by omega)).mpr ?_) fun out' hout' => ?_, hpc⟩
    · rw [hback]
      exact ⟨by omega, hout⟩
    · have := ((mem_storedOutputs (by omega)).mp hout').2
      rw [hback, hout, Option.some.injEq] at this
      exact this.symm

/-- What the scan of a reachable state returns is owned, and a member of the ring once it is
admitted. -/
theorem owned_of_scan (hE : E.Canonical) (hS : E.CanonicalScalars) (hZ : E.ZeroScalar)
    (hslots : s.treeSlots ≤ MAX_FCMP_ANON_SET) {w : Wallet E} {o : OwnedOutput}
    (h : o ∈ scan E w (storedOutputs s)) :
    Owned E o ∧ (s.admitted.containsKey o.globalIndex.toNat = true →
      memberOf o ∈ ringOfSlots (slotsOf s)) := by
  have hanon : MAX_FCMP_ANON_SET = 64 := rfl
  have hnext := slots_eq_next hs
  have hinv : SlotInv (nativeHost E) cfg _ s := hs ▸ (treeInv_run_genesis ops).1.slots
  obtain ⟨⟨gi, out⟩, hmem, hown⟩ := List.mem_filterMap.mp h
  have hget := ((mem_storedOutputs (by omega)).mp hmem).2
  have hget' := hget
  rw [hs] at hget'
  have hok := outputOk_of_get hget'
  obtain ⟨howned, hgi, hkey, hcommitment⟩ := tryOwn_owned hE.readsKeys hS
    (fun a ha => by rw [(hok.amount a ha).1]; exact commit_zeroBlinding hS hZ a) hown
  refine ⟨howned, fun hadmitted => ?_⟩
  rw [mem_ringOfSlots_slotsOf hinv (by omega)]
  refine ⟨hadmitted, out, ?_, hkey.symm, hcommitment.symm⟩
  rw [memberOf, hgi]
  exact hget

/-- In a reachable state a transfer of owned members of the ring is built, and it is accepted if its
fee suffices and no point of it is the identity. -/
theorem build_accepted (hE : E.Canonical) (hS : E.CanonicalScalars) (hR : E.RangeComplete)
    (hslots : s.treeSlots ≤ MAX_FCMP_ANON_SET) (hlegible : Legible E.blake2_256 (slotsOf s))
    (w : Wallet E) {inputs : List OwnedOutput} (hne : inputs ≠ [])
    (hmax : inputs.length ≤ MAX_FCMP_INPUTS) (howned : ∀ input ∈ inputs, Owned E input)
    (hmember : ∀ input ∈ inputs, memberOf input ∈ ringOfSlots (slotsOf s))
    (hunspent : ∀ input ∈ inputs, s.keyImages.containsKey input.keyImage = false)
    (hnodup : (inputs.map OwnedOutput.keyImage).Nodup) {dest : StealthAddress}
    (hview : ∃ p, E.decompress dest.viewPublic = some p)
    (hspend : ∃ p, E.decompress dest.spendPublic = some p) {sendAmount fee : UInt64}
    (hfunds : sendAmount.toNat + fee.toNat ≤ (inputs.map fun i => i.amount.toNat).sum)
    (hfits : (inputs.map fun i => i.amount.toNat).sum < 2 ^ 64) (rand : TransferRandomness l) :
    ∃ tx, buildTransferMulti E w rand inputs ⟨s.membershipRoot,
        (slotsOf s).map (slotDigest E.blake2_256), ringOfSlots (slotsOf s)⟩ dest sendAmount fee =
        .ok tx ∧
      (cfg.minFeePerByte.toNat * tx.encode.length ≤ fee.toNat → NoIdentity E tx →
        ∀ now, TransferValid (nativeHost E) cfg now s tx) := by
  have hlen : (slotsOf s).length ≤ 64 := (length_slotsOf s).trans_le hslots
  have hinv : SlotInv (nativeHost E) cfg _ s := hs ▸ (treeInv_run_genesis ops).1.slots
  obtain ⟨input, hinput⟩ := List.exists_mem_of_ne_nil _ hne
  have hsome : ∃ i, s.admitted.containsKey i = true :=
    ⟨_, ((mem_ringOfSlots_slotsOf hinv hslots).mp (hmember input hinput)).1⟩
  have hcan : CanSpend E ⟨s.membershipRoot, (slotsOf s).map (slotDigest E.blake2_256),
      ringOfSlots (slotsOf s)⟩ inputs :=
    ⟨hne, hmax, by rw [List.length_map]; exact hlen, (root_of_run hs).symm,
      ringOf_ringOfSlots (by omega) hlegible, parseRing_slotsOf hE hs hslots hsome, howned, hmember⟩
  obtain ⟨tx, hbuild, hbuilt⟩ :=
    buildTransferMulti_built hE hS hR w rand hcan hview hspend hfunds hfits
  exact ⟨tx, hbuild, fun hfee hid now =>
    hbuilt.transferValid hE now howned hne hnodup hunspent rfl hslots hfee hid⟩

end Run

/-- Everything the wallet builds, the chain accepts: in every reachable state with at most 64 slots,
for every wallet, at most four scanned outputs that are admitted, unspent and have distinct key
images, a valid destination, amounts that are covered and whatever is drawn, the snapshot is built
from the chain's own root, frontier and outputs, the transfer is built on it, and it passes the
consensus check if its fee covers its size and none of its points is the identity. -/
theorem wallet_transfer_accepted {l : ℕ} {Point : Type} [AddCommGroup Point] [Module (ZMod l) Point]
    [DecidableEq Point] (E : CryptoLib l Point) (hE : E.Canonical) (hS : E.CanonicalScalars)
    (hZ : E.ZeroScalar) (hR : E.RangeComplete) (cfg : Config) (ops : List Op) (c : Chain)
    (hc : c = run (step (nativeHost E) cfg) (.genesis (nativeHost E)) ops)
    (hfree : CollisionFree E.blake2_256 (treePreimages E.blake2_256 (slotsOf c.store)))
    (hslots : c.store.treeSlots ≤ MAX_FCMP_ANON_SET)
    (w : Wallet E) (inputs : List OwnedOutput) (hne : inputs ≠ [])
    (hmax : inputs.length ≤ MAX_FCMP_INPUTS)
    (hscan : ∀ input ∈ inputs, input ∈ scan E w (storedOutputs c.store))
    (hadmitted : ∀ input ∈ inputs, c.store.admitted.containsKey input.globalIndex.toNat = true)
    (hunspent : ∀ input ∈ inputs, c.store.keyImages.containsKey input.keyImage = false)
    (hnodup : (inputs.map OwnedOutput.keyImage).Nodup)
    (dest : StealthAddress) (hview : Native.isValidPoint E dest.viewPublic = true)
    (hspend : Native.isValidPoint E dest.spendPublic = true) (sendAmount fee : UInt64)
    (hfunds : sendAmount.toNat + fee.toNat ≤ (inputs.map fun i => i.amount.toNat).sum)
    (hfits : (inputs.map fun i => i.amount.toNat).sum < 2 ^ 64) (rand : TransferRandomness l) :
    ∃ frontier snapshot tx,
      Scale.decodeVec32 (membershipFrontier (nativeHost E) c.store) = some frontier ∧
      snapshotFromFrontier E.blake2_256 c.store.membershipRoot frontier (storedOutputs c.store) =
        .ok snapshot ∧
      buildTransferMulti E w rand inputs snapshot dest sendAmount fee = .ok tx ∧
      (cfg.minFeePerByte.toNat * tx.encode.length ≤ fee.toNat → NoIdentity E tx →
        verifyTransfer (nativeHost E) cfg c.number c.store tx = .ok ()) := by
  have hs : c.store = (run (step (nativeHost E) cfg) (.genesis (nativeHost E)) ops).store := by
    rw [hc]
  have hlegible := legible_of_collisionFree hfree
  obtain ⟨hfrontier, hsnapshot⟩ := snapshot_of_run hs hslots hlegible
  have howned := fun input hinput => owned_of_scan hs hE hS hZ hslots (hscan input hinput)
  obtain ⟨p, hp, -⟩ := Native.isValidPoint_iff.mp hview
  obtain ⟨q, hq, -⟩ := Native.isValidPoint_iff.mp hspend
  obtain ⟨tx, hbuild, hvalid⟩ := build_accepted hs hE hS hR hslots hlegible w hne hmax
    (fun input hinput => (howned input hinput).1)
    (fun input hinput => (howned input hinput).2 (hadmitted input hinput)) hunspent hnodup ⟨p, hp⟩
    ⟨q, hq⟩ hfunds hfits rand
  exact ⟨_, _, tx, hfrontier, hsnapshot, hbuild,
    fun hfee hid => verifyTransfer_iff.mpr (hvalid hfee hid c.number)⟩

/-! ## A payout and its spend -/

/-- The keys with view secret two and spend secret three. -/
def sampleWallet : Wallet (cyclic ristrettoOrder) where
  keys := (addressOf (cyclic ristrettoOrder) (scalarOf 2) (scalarOf 3)).1
  address := (addressOf (cyclic ristrettoOrder) (scalarOf 2) (scalarOf 3)).2
  derived := ⟨scalarOf 2, scalarOf 3, rfl⟩

/-- A block that pays the whole reward to the wallet, under the transaction secret five: the shared
secret is ten. -/
def payoutBlock : List (Origin × Call) :=
  let E := cyclic ristrettoOrder
  let shared := toBytes (scalarOf 10)
  [(.none, .coinbase ⟨[⟨toBytes (derivationScalar E shared 0 + scalarOf 3), blockReward 0,
    viewTag E shared 0⟩], by decide⟩ (toBytes (scalarOf 5)))]

def payoutChain : Chain :=
  afterBlocks (nativeHost (cyclic ristrettoOrder)) eagerConfig [payoutBlock]

def payoutInputs : List OwnedOutput :=
  scan (cyclic ristrettoOrder) sampleWallet (storedOutputs payoutChain.store)

def sampleRandomness : TransferRandomness ristrettoOrder :=
  ⟨scalarOf 7, fun _ => scalarOf 11, [], fun _ => ⟨scalarOf 13, fun _ => scalarOf 17⟩⟩

/-- The spend of the payout: a thousand units to the wallet itself, for a fee of a hundred. -/
def payoutSpend : Except BuildFailure TransferTx :=
  buildTransferMulti (cyclic ristrettoOrder) sampleWallet sampleRandomness payoutInputs
    ⟨payoutChain.store.membershipRoot,
      (slotsOf payoutChain.store).map (slotDigest (cyclic ristrettoOrder).blake2_256),
      ringOfSlots (slotsOf payoutChain.store)⟩ sampleWallet.address 1000 100

/-- The snapshot behind the payout. -/
def payoutSnapshot : MembershipSnapshot where
  root := payoutChain.store.membershipRoot
  digests := (slotsOf payoutChain.store).map (slotDigest (cyclic ristrettoOrder).blake2_256)
  admitted := ringOfSlots (slotsOf payoutChain.store)

namespace SampleLemmas

theorem payoutChain_eq : payoutChain = run (step (nativeHost (cyclic ristrettoOrder)) eagerConfig)
    (.genesis (nativeHost (cyclic ristrettoOrder))) ([payoutBlock].flatMap blockOps) := by
  rw [payoutChain, afterBlocks]

theorem exists_ok_of_any {ε α : Type} {o : Except ε α} {f : α → Bool}
    (h : o.toOption.any f = true) : ∃ r, o = .ok r ∧ f r = true := by
  obtain ⟨r, hr, hf⟩ := (Option.any_eq_true _ _).mp h
  cases o with
  | error e => cases hr
  | ok a =>
    cases hr
    exact ⟨_, rfl, hf⟩

theorem payoutInputs_spendable : payoutInputs.length = 1 ∧
    (payoutInputs.map OwnedOutput.keyImage).Nodup ∧
    (payoutInputs.map fun i => i.amount.toNat).sum = (blockReward 0).toNat ∧
    ∀ input ∈ payoutInputs,
      payoutChain.store.admitted.containsKey input.globalIndex.toNat = true ∧
      payoutChain.store.keyImages.containsKey input.keyImage = false := by
  decide +kernel

theorem payoutChain_collisionFree : payoutChain.store.treeSlots ≤ MAX_FCMP_ANON_SET ∧
    payoutChain.store.blockFees.toNat = 0 ∧
    CollisionFree (cyclic ristrettoOrder).blake2_256
      (treePreimages (cyclic ristrettoOrder).blake2_256 (slotsOf payoutChain.store)) := by
  decide +kernel

theorem sampleAddress_valid :
    Native.isValidPoint (cyclic ristrettoOrder) sampleWallet.address.viewPublic = true ∧
    Native.isValidPoint (cyclic ristrettoOrder) sampleWallet.address.spendPublic = true := by
  decide +kernel

theorem payoutSpend_noIdentity : ∃ tx, payoutSpend = .ok tx ∧
    NoIdentity (cyclic ristrettoOrder) tx := by
  obtain ⟨tx, htx, hid⟩ := exists_ok_of_any (o := payoutSpend)
    (f := fun tx => decide (NoIdentity (cyclic ristrettoOrder) tx)) (by decide +kernel)
  exact ⟨tx, htx, of_decide_eq_true hid⟩

/-- Every spend of the payout that it covers is built, and accepted if it has no identity in it. -/
theorem payout_accepted {sendAmount fee : UInt64}
    (hcovered : sendAmount.toNat + fee.toNat ≤ (blockReward 0).toNat) :
    ∃ tx, buildTransferMulti (cyclic ristrettoOrder) sampleWallet sampleRandomness payoutInputs
        payoutSnapshot sampleWallet.address sendAmount fee = .ok tx ∧
      (NoIdentity (cyclic ristrettoOrder) tx → ∀ now,
        TransferValid (nativeHost (cyclic ristrettoOrder)) eagerConfig now payoutChain.store tx) := by
  have hl : ristrettoOrder ≤ 2 ^ 256 := by decide
  have hs := congrArg Chain.store payoutChain_eq
  obtain ⟨hlen, hnodup, htotal, hall⟩ := payoutInputs_spendable
  obtain ⟨hslots, -, hfree⟩ := payoutChain_collisionFree
  obtain ⟨hview, hspend⟩ := sampleAddress_valid
  obtain ⟨p, hp, -⟩ := Native.isValidPoint_iff.mp hview
  obtain ⟨q, hq, -⟩ := Native.isValidPoint_iff.mp hspend
  have howned := fun input hinput => owned_of_scan hs (cyclic_canonical hl)
    (cyclic_canonicalScalars hl) cyclic_zeroScalar hslots (w := sampleWallet) (o := input) hinput
  have hfunds : sendAmount.toNat + fee.toNat ≤ (payoutInputs.map fun i => i.amount.toNat).sum := by
    rw [htotal]
    exact hcovered
  obtain ⟨tx, hbuild, hvalid⟩ := build_accepted hs (cyclic_canonical hl)
    (cyclic_canonicalScalars hl) (cyclic_rangeComplete hl) hslots (legible_of_collisionFree hfree)
    sampleWallet (List.ne_nil_of_length_eq_add_one hlen) (hlen.trans_le (by decide))
    (fun input h => (howned input h).1) (fun input h => (howned input h).2 (hall input h).1)
    (fun input h => (hall input h).2) hnodup ⟨p, hp⟩ ⟨q, hq⟩ hfunds
    (htotal.symm ▸ (blockReward 0).toNat_lt) sampleRandomness
  exact ⟨tx, hbuild, hvalid ((Nat.zero_mul _).trans_le (Nat.zero_le _))⟩

/-- The spend is accepted behind the payout, also in the next block. -/
theorem payoutSpend_valid : ∃ tx, payoutSpend = .ok tx ∧ ∀ now,
    TransferValid (nativeHost (cyclic ristrettoOrder)) eagerConfig now payoutChain.store tx := by
  obtain ⟨tx, hbuild, hvalid⟩ := @payout_accepted 1000 100 (by decide)
  obtain ⟨tx', htx', hid⟩ := payoutSpend_noIdentity
  have heq : tx' = tx := Except.ok.inj (htx'.symm.trans hbuild)
  exact ⟨tx, hbuild, hvalid (heq ▸ hid)⟩

end SampleLemmas

open SampleLemmas

theorem wallet_transfer_accepted_payout : ∃ frontier snapshot tx,
    Scale.decodeVec32 (membershipFrontier (nativeHost (cyclic ristrettoOrder)) payoutChain.store) =
      some frontier ∧
    snapshotFromFrontier (cyclic ristrettoOrder).blake2_256 payoutChain.store.membershipRoot frontier
      (storedOutputs payoutChain.store) = .ok snapshot ∧
    buildTransferMulti (cyclic ristrettoOrder) sampleWallet sampleRandomness payoutInputs snapshot
      sampleWallet.address 1000 100 = .ok tx ∧
    verifyTransfer (nativeHost (cyclic ristrettoOrder)) eagerConfig payoutChain.number
      payoutChain.store tx = .ok () := by
  have hl : ristrettoOrder ≤ 2 ^ 256 := by decide
  obtain ⟨hlen, hnodup, htotal, hall⟩ := payoutInputs_spendable
  obtain ⟨hslots, -, hfree⟩ := payoutChain_collisionFree
  have hfunds : (1000 : UInt64).toNat + (100 : UInt64).toNat ≤
      (payoutInputs.map fun i => i.amount.toNat).sum := by
    rw [htotal]
    decide
  obtain ⟨frontier, snapshot, tx, hfrontier, hsnapshot, hbuild, haccepted⟩ :=
    wallet_transfer_accepted (cyclic ristrettoOrder) (cyclic_canonical hl)
      (cyclic_canonicalScalars hl) cyclic_zeroScalar (cyclic_rangeComplete hl) eagerConfig
      ([payoutBlock].flatMap blockOps) payoutChain payoutChain_eq hfree hslots sampleWallet payoutInputs
      (List.ne_nil_of_length_eq_add_one hlen) (hlen.trans_le (by decide)) (fun _ h => h)
      (fun input h => (hall input h).1) (fun input h => (hall input h).2) hnodup
      sampleWallet.address sampleAddress_valid.1 sampleAddress_valid.2 1000 100 hfunds
      (htotal.symm ▸ (blockReward 0).toNat_lt) sampleRandomness
  have hspend : payoutSpend = .ok tx := by
    have hs := snapshot_of_run (congrArg Chain.store payoutChain_eq) hslots (legible_of_collisionFree hfree)
    rw [hfrontier, Option.some.injEq] at hs
    rw [hs.1, hs.2, Except.ok.injEq] at hsnapshot
    rw [← hsnapshot] at hbuild
    exact hbuild
  obtain ⟨tx', htx', hid⟩ := payoutSpend_noIdentity
  rw [hspend, Except.ok.injEq] at htx'
  refine ⟨frontier, snapshot, tx, hfrontier, hsnapshot, hbuild, haccepted ?_ (htx' ▸ hid)⟩
  exact (Nat.zero_mul _).trans_le (Nat.zero_le _)

end Kohl.Wallet
