import Kohl.Pallet.Admission
import Kohl.Pallet.KeyImages
import Kohl.Pallet.MatureSet
import Kohl.Pallet.RootWindow

/-!
# When the chain can still be spent on

No transfer is accepted while the tree has more than 64 slots, and slots are never given back. Up to
64 slots the spend path is open: whoever can open an unspent output that pays the fee waits until it
is admitted and spends it, and below 64 slots the reward of the next block is such an output.

* `exists_spend`: an admitted output can be spent by whoever opens it.
* `verifyTransfer_of_crowded`: beyond 64 slots every transfer is refused, now and later.
* `spend_path`: both directions, for every reachable state.
-/

namespace Kohl.Pallet

open ByteLib Run MembershipTree Fcmp SpecLemmas

variable {l : ℕ} {Point : Type} [AddCommGroup Point] [Module (ZMod l) Point]

/-! ## Spending one output -/

/-- The key image of the output key with secret `x`. -/
def imageOf (E : CryptoLib l Point) (x : ZMod l) : Bytes32 :=
  E.compress (x • Clsag.hp E (E.compress (x • E.G)).val)

/-- A secret whose output key and key image are valid points, with a key image that is not spent. -/
structure SpendKey (E : CryptoLib l Point) (s : Storage) (x : ZMod l) : Prop where
  key : x • E.G ≠ 0
  image : x • Clsag.hp E (E.compress (x • E.G)).val ≠ 0
  unspent : s.keyImages.containsKey (imageOf E x) = false

/-- The key of the output is `x·G` and its commitment `v·H + b·G`. -/
structure Opens (E : CryptoLib l Point) (out : StoredOutput) (x : ZMod l) (v : UInt64) (b : ZMod l) :
    Prop where
  key : out.oneTimeKey = E.compress (x • E.G)
  commitment : out.commitment = E.compress (E.pcCommit (v.toNat : ZMod l) b)

/-- The leaf of the output is not mistaken for the placeholder. -/
def LegibleLeaf (E : CryptoLib l Point) (key commitment : Bytes32) : Prop :=
  leafHash E.blake2_256 key commitment ≠ emptyLeafHash E.blake2_256

instance (E : CryptoLib l Point) (key commitment : Bytes32) : Decidable (LegibleLeaf E key commitment) :=
  inferInstanceAs (Decidable (_ ≠ _))

/-- A transfer with one input and one output without payload is not larger than this. -/
def spendBytes : ℕ := 16384

/-- The transfer that spends the output with secret `x` and value `v` to the key `G`; `b` blinds the
pseudo-commitment and the new output. -/
def soleSpend (E : CryptoLib l Point) (root : Bytes32) (x : ZMod l) (v fee : UInt64) (b : ZMod l)
    (rangeProof : BoundedVec UInt8 MAX_RANGE_PROOF_BYTES)
    (fcmpProof : BoundedVec UInt8 MAX_FCMP_PROOF_BYTES) : TransferTx where
  membershipRoot := root
  inputs := ⟨[⟨imageOf E x, E.compress (E.pcCommit (v.toNat : ZMod l) b), fcmpProof⟩],
    Nat.le_add_left 1 3⟩
  outputs := ⟨[⟨E.compress E.G, E.compress (E.pcCommit ((v - fee).toNat : ZMod l) b), 0,
    ⟨[], Nat.zero_le _⟩⟩], Nat.le_add_left 1 7⟩
  txPubkey := E.compress E.G
  rangeProof := rangeProof
  fee := fee

namespace SpendLemmas

variable {E : CryptoLib l Point} {cfg : Config}

theorem length_encode_soleSpend (root : Bytes32) (x : ZMod l) (v fee : UInt64) (b : ZMod l)
    (rangeProof : BoundedVec UInt8 MAX_RANGE_PROOF_BYTES)
    (fcmpProof : BoundedVec UInt8 MAX_FCMP_PROOF_BYTES) :
    (soleSpend E root x v fee b rangeProof fcmpProof).encode.length ≤ spendBytes := by
  have hfcmp := Scale.length_byteVec_le fcmpProof.val
  have hrange := Scale.length_byteVec_le rangeProof.val
  have hone := Scale.length_compactU32_le 1
  have hnil := Scale.length_byteVec_le []
  have hmax : fcmpProof.val.length ≤ 12288 := fcmpProof.property
  have hmax' : rangeProof.val.length ≤ 1024 := rangeProof.property
  simp only [TransferTx.encode, soleSpend, Scale.vec, FcmpInput.encode, Output.encode,
    List.flatMap_cons, List.flatMap_nil, List.append_nil, List.length_append, List.length_cons,
    List.length_nil, Bytes32.length_val, length_u64LeBytes, spendBytes, Nat.zero_add] at *
  omega

/-- Two blindings of one value do not both give the identity. -/
theorem exists_blinding (hG : E.G ≠ 0) (v : ZMod l) : ∃ b, E.pcCommit v b ≠ 0 := by
  by_cases h : E.pcCommit v 0 = 0
  · refine ⟨1, fun h' => hG ?_⟩
    rw [CryptoLib.pcCommit, zero_smul, add_zero] at h
    rw [CryptoLib.pcCommit, h, zero_add, one_smul] at h'
    exact h'
  · exact ⟨0, h⟩

/-- The range proof of a single output. -/
theorem exists_rangeProof (hR : E.RangeComplete) (v : UInt64) (b : ZMod l) :
    ∃ proof : BoundedVec UInt8 MAX_RANGE_PROOF_BYTES, Native.verifyRangeProof E proof.val
      ([E.compress (E.pcCommit (v.toNat : ZMod l) b)].flatMap Subtype.val) = true := by
  have hpow : Merkle.nextPowerOfTwo 1 = 1 := by decide
  obtain ⟨proof, -, hlen, hverify⟩ := hR [] [v] [b] rfl (List.cons_ne_nil _ _)
    (Nat.le_add_left 1 7) hpow
  have hlength : (9 + 2 * Nat.log2 (64 * 1)) * 32 ≤ MAX_RANGE_PROOF_BYTES := by decide
  refine ⟨⟨proof, hlen.trans_le hlength⟩, ?_⟩
  rw [Native.verifyRangeProof, Native.parsePoints_flatMap]
  simp only [List.isEmpty_cons, Bool.false_or]
  rw [if_neg (by simp [MAX_OUTPUTS])]
  exact hverify

omit [AddCommGroup Point] [Module (ZMod l) Point] in
/-- If no stored output has the leaf of the placeholder, then no slot does. -/
theorem legible_of_outputs {s : Storage}
    (h : ∀ i out, s.outputs.get i = some out → LegibleLeaf E out.oneTimeKey out.commitment) :
    Legible E.blake2_256 (slotsOf s) := by
  intro p c hpc
  obtain ⟨i, hi⟩ := List.mem_iff_getElem?.mp hpc
  obtain ⟨-, -, out, hout, rfl, rfl⟩ := getElem?_slotsOf_eq_some.mp hi
  exact h i out hout

/-- The single spend passes every check of a state whose live root it names, once its proofs do. -/
theorem soleSpend_valid [DecidableEq Point] (hE : E.Canonical) (hG : E.G ≠ 0) {s : Storage}
    (hslots : s.treeSlots ≤ 64) {x b : ZMod l} (hkey : SpendKey E s x) {v fee : UInt64} (hb : E.pcCommit (v.toNat : ZMod l) b ≠ 0)
    (hle : fee ≤ v) (hfee : cfg.minFeePerByte.toNat * spendBytes ≤ fee.toNat)
    {rangeProof : BoundedVec UInt8 MAX_RANGE_PROOF_BYTES}
    {fcmpProof : BoundedVec UInt8 MAX_FCMP_PROOF_BYTES}
    (hrange : Native.verifyRangeProof E rangeProof.val
      ([E.compress (E.pcCommit ((v - fee).toNat : ZMod l) b)].flatMap Subtype.val) = true)
    (hverify : verify E (signingHash E.blake2_256 (soleSpend E s.membershipRoot x v fee b rangeProof
      fcmpProof)).val s.membershipRoot.val (E.compress (E.pcCommit (v.toNat : ZMod l) b)).val
      (imageOf E x).val fcmpProof.val = true) (now : ℕ) :
    TransferValid (nativeHost E) cfg now s
      (soleSpend E s.membershipRoot x v fee b rangeProof fcmpProof) := by
  have hsize := @length_encode_soleSpend l Point _ _ E s.membershipRoot x v fee b rangeProof
    fcmpProof
  refine ⟨List.cons_ne_nil _ _, List.cons_ne_nil _ _, List.pairwise_singleton _ _, ?_,
    (isValidPoint_compress hE).mpr hG, List.forall_mem_singleton.mpr
      ((isValidPoint_compress hE).mpr hG), hslots, membershipRootAccepted_iff.mpr (.inl rfl),
    List.forall_mem_singleton.mpr hkey.unspent,
    List.forall_mem_singleton.mpr ((isValidPoint_compress hE).mpr hkey.image),
    List.forall_mem_singleton.mpr ((isValidPoint_compress hE).mpr hb),
    List.forall_mem_singleton.mpr hverify, ?_, hrange⟩
  · have hencoded : (soleSpend E s.membershipRoot x v fee b rangeProof fcmpProof).encodedSize.toNat ≤
        spendBytes := by
      rw [TransferTx.encodedSize, UInt64.toNat_ofNat']
      exact (Nat.mod_le _ _).trans hsize
    rw [UInt64.le_iff_toNat_le, toNat_saturatingMul]
    exact (min_le_left _ _).trans ((Nat.mul_le_mul_left _ hencoded).trans hfee)
  · show Native.verifyBalance E
      ([E.compress (E.pcCommit (v.toNat : ZMod l) b)].flatMap Subtype.val)
      ([E.compress (E.pcCommit ((v - fee).toNat : ZMod l) b)].flatMap Subtype.val) fee = true
    refine Native.verifyBalance_iff.mpr ⟨[E.pcCommit (v.toNat : ZMod l) b],
      [E.pcCommit ((v - fee).toNat : ZMod l) b], ?_, ?_, List.cons_ne_nil _ _, List.cons_ne_nil _ _, ?_⟩
    · simp only [collect, hE.decompress_compress, Option.bind_some, Option.map_some]
    · simp only [collect, hE.decompress_compress, Option.bind_some, Option.map_some]
    · have hsub : v.toNat = (v - fee).toNat + fee.toNat := by
        rw [UInt64.toNat_sub_of_le _ _ hle]
        exact (Nat.sub_add_cancel (UInt64.le_iff_toNat_le.mp hle)).symm
      rw [List.sum_singleton, List.sum_singleton, hsub, CryptoLib.pcCommit, CryptoLib.pcCommit,
        Nat.cast_add, add_smul]
      abel

end SpendLemmas

open SpendLemmas

section Reachable

variable [DecidableEq Point] {E : CryptoLib l Point} {cfg : Config} {ops : List Op} {s : Storage}

/-- In a reachable state with at most 64 slots an admitted output is spent by whoever opens it, as
long as its value covers the fee. -/
theorem exists_spend
    (hs : s = (run (step (nativeHost E) cfg) (.genesis (nativeHost E)) ops).store)
    (hE : E.Canonical) (hS : E.CanonicalScalars) (hR : E.RangeComplete) (hG : E.G ≠ 0)
    (hslots : s.treeSlots ≤ 64)
    (hlegible : ∀ i out, s.outputs.get i = some out → LegibleLeaf E out.oneTimeKey out.commitment)
    {i : ℕ} (hadmitted : s.admitted.containsKey i = true) {out : StoredOutput}
    (hout : s.outputs.get i = some out) {x b : ZMod l} {v : UInt64} (hopens : Opens E out x v b)
    (hkey : SpendKey E s x) (hfee : cfg.minFeePerByte.toNat * spendBytes ≤ v.toNat) :
    ∃ tx, ∀ now, TransferValid (nativeHost E) cfg now s tx := by
  have hinv : SlotInv (nativeHost E) cfg _ s := hs ▸ (treeInv_run_genesis ops).1.slots
  have hroot : s.membershipRoot = rootFromLeaves E.blake2_256
      ((slotsOf s).map (slotDigest E.blake2_256)) := hs ▸ membershipRoot_eq_slotsOf ops
  have hv := v.toNat_lt
  -- the fee and the blinding of the pseudo-commitment
  obtain ⟨fee, hfee'⟩ : ∃ fee : UInt64, fee.toNat = cfg.minFeePerByte.toNat * spendBytes :=
    ⟨UInt64.ofNat (cfg.minFeePerByte.toNat * spendBytes), by
      rw [UInt64.toNat_ofNat', Nat.mod_eq_of_lt (by omega)]⟩
  have hle : fee ≤ v := by
    rw [UInt64.le_iff_toNat_le, hfee']
    exact hfee
  obtain ⟨b', hb'⟩ := @exists_blinding l Point _ _ E hG (v.toNat : ZMod l)
  obtain ⟨rangeProof, hrange⟩ := exists_rangeProof hR (v - fee) b'
  -- the member of the ring
  have hlt := TreeInvLemmas.SlotInv.lt_of_admitted hinv hadmitted
  have hmem : (⟨out.oneTimeKey, out.commitment, UInt64.ofNat i⟩ : RingMember) ∈
      ringOfSlots (slotsOf s) := by
    rw [mem_ringOfSlots_slotsOf hinv hslots, toNat_ofNat hlt (by omega)]
    exact ⟨hadmitted, out, hout, rfl, rfl⟩
  obtain ⟨k, hk⟩ := List.mem_iff_getElem?.mp hmem
  obtain ⟨keys, commitments, hparse⟩ := parseRing_slotsOf hE hs hslots ⟨i, hadmitted⟩
  have hreal : keys.getD k 0 = x • E.G := by
    have hdec := (getD_of_parseRing hparse hk).1
    rw [hopens.key, hE.decompress_compress, Option.some.injEq] at hdec
    exact hdec.symm
  have hring := ringOf_ringOfSlots (by rw [length_slotsOf]; omega) (legible_of_outputs hlegible)
  -- its proof
  obtain ⟨r, hr⟩ := prove_complete ⟨0, fun _ => 0⟩ (signingHash E.blake2_256 (soleSpend E
    s.membershipRoot x v fee b' rangeProof ⟨[], Nat.zero_le _⟩))
    (w := ⟨(slotsOf s).map (slotDigest E.blake2_256), ringOfSlots (slotsOf s), k, E.scalarToBytes x,
      E.scalarToBytes b, E.scalarToBytes b'⟩) hring
    (by rw [List.length_map, length_slotsOf]; exact hslots) hparse
    (List.getElem?_eq_some_iff.mp hk).1 (hS x) hreal (hS b) (hS b')
  have hki : r.keyImage = imageOf E x := by
    have h := keyImage_of_prove hE hr
    rw [Clsag.keyImage, hS, Option.map_some, Option.some.injEq] at h
    exact h.symm
  have hpc : r.pseudoCommitment = E.compress (E.pcCommit (v.toNat : ZMod l) b') := by
    have hcommit : Native.commit E v (E.scalarToBytes b) = some out.commitment := by
      rw [Native.commit, hS, Option.map_some, hopens.commitment]
    have h := pseudoCommitment_of_prove hE hr hk hcommit
    rw [Native.commit, hS, Option.map_some, Option.some.injEq] at h
    exact h.symm
  have hne : ∀ {p : Point}, p ≠ 0 → E.compress p ≠ E.compress 0 := by
    intro p hp heq
    have h := hE.decompress_compress p
    rw [heq, hE.decompress_compress, Option.some.injEq] at h
    exact hp h.symm
  have hverify := verify_of_prove hE hS hr (hki ▸ hne hkey.image) (hpc ▸ hne hb')
  obtain ⟨-, clsag, -, hencode, -, -⟩ := prove_eq_some hr
  have hlen := (FcmpLemmas.fitsWire_of_encode hencode).2.2
  refine ⟨soleSpend E s.membershipRoot x v fee b' rangeProof ⟨r.proof, hlen⟩,
    soleSpend_valid hE hG hslots hkey hb' hle (Nat.le_of_eq hfee'.symm) hrange ?_⟩
  -- the signing hash does not cover the proof
  rw [hki, hpc, ← hroot] at hverify
  exact hverify

/-! ## Waiting and mining -/

/-- Behind the blocks `first` and some number of empty ones, a transfer is accepted in the block that
follows. -/
def SpendableAfter (H : Host) (cfg : Config) (c : Chain) (first : List (List (Origin × Call))) : Prop :=
  ∃ (n : ℕ) (tx : TransferTx),
    let c' := run (step H cfg) c ((first ++ List.replicate n []).flatMap blockOps ++ [.onInitialize])
    verifyTransfer H cfg c'.number c'.store tx = .ok ()

theorem SpendableAfter.of_run {H : Host} {c : Chain} {first : List (List (Origin × Call))}
    (h : SpendableAfter H cfg (run (step H cfg) c (first.flatMap blockOps)) []) :
    SpendableAfter H cfg c first := by
  obtain ⟨n, tx, hverify⟩ := h
  refine ⟨n, tx, ?_⟩
  rw [List.nil_append, ← run_append, ← List.append_assoc, ← List.flatMap_append] at hverify
  exact hverify

variable {c : Chain}

/-- Whoever opens an unspent output of a state with at most 64 slots can spend it behind enough empty
blocks. -/
theorem spendableAfter_of_output
    (hc : c = run (step (nativeHost E) cfg) (.genesis (nativeHost E)) ops)
    (hE : E.Canonical) (hS : E.CanonicalScalars) (hR : E.RangeComplete) (hG : E.G ≠ 0)
    (hslots : c.store.treeSlots ≤ 64)
    (hlegible : ∀ i out, c.store.outputs.get i = some out →
      LegibleLeaf E out.oneTimeKey out.commitment)
    {i : ℕ} {out : StoredOutput} (hout : c.store.outputs.get i = some out) {x b : ZMod l} {v : UInt64}
    (hopens : Opens E out x v b) (hkey : SpendKey E c.store x)
    (hfee : cfg.minFeePerByte.toNat * spendBytes ≤ v.toNat) :
    SpendableAfter (nativeHost E) cfg c [] := by
  obtain ⟨hkept, -⟩ := @emptyBlocks_keep (nativeHost E) cfg c (out.height + maturityAge cfg out + 1)
  have hadmitted := emptyBlocks_admit hc hslots hout
  have hlater : run (step (nativeHost E) cfg) c (emptyBlocks (out.height + maturityAge cfg out + 1)) =
      run (step (nativeHost E) cfg) (.genesis (nativeHost E))
        (ops ++ emptyBlocks (out.height + maturityAge cfg out + 1)) := by
    rw [run_append, ← hc]
  have hslots' : (run (step (nativeHost E) cfg) c
      (emptyBlocks (out.height + maturityAge cfg out + 1))).store.treeSlots ≤ 64 := by
    rw [hlater, (treeInv_run_genesis _).2, ← hlater, hkept.next, hc, ← (treeInv_run_genesis _).2, ← hc]
    exact hslots
  obtain ⟨tx, hvalid⟩ := exists_spend (congrArg Chain.store hlater) hE hS hR hG hslots'
    (by rw [hkept.outputs]; exact hlegible) hadmitted (by rw [hkept.outputs]; exact hout) hopens
    ⟨hkey.key, hkey.image, by rw [hkept.keyImages]; exact hkey.unspent⟩ hfee
  refine ⟨out.height + maturityAge cfg out + 1, tx, ?_⟩
  rw [List.nil_append, run_concat]
  exact verifyTransfer_iff.mpr (hvalid _).onInitialize

end Reachable

section Mining

variable {H : Host} {cfg : Config} {c : Chain}

/-- A coinbase with one output. -/
def soleCoinbase (out : CoinbaseOutput) (txPubkey : Bytes32) : Origin × Call :=
  (.none, .coinbase ⟨[out], Nat.le_add_left 1 7⟩ txPubkey)

/-- The coinbase that pays what the next block is entitled to, to the key of the secret `x`. -/
def rewardTo (E : CryptoLib l Point) (s : Storage) (x : ZMod l) : Origin × Call :=
  soleCoinbase ⟨E.compress (x • E.G), blockReward s.emitted + s.blockFees, 0⟩ (E.compress E.G)

/-- What a block with a coinbase of one output leaves behind. -/
theorem run_soleCoinbase {out : CoinbaseOutput} {txPubkey : Bytes32}
    (hpubkey : H.isValidPointV1 txPubkey = true) (hkey : H.isValidPointV1 out.oneTimeKey = true)
    (hamount : out.amount.toNat = (blockReward c.store.emitted).toNat + c.store.blockFees.toNat)
    (hemitted : c.store.emitted.toNat + (blockReward c.store.emitted).toNat < 2 ^ 64) {c' : Chain}
    (hc' : c' = run (step H cfg) c (blockOps [soleCoinbase out txPubkey])) :
    c'.store.nextOutputIndex = c.store.nextOutputIndex + 1 ∧
      c'.store.keyImages = c.store.keyImages ∧ c'.store.blockFees = 0 ∧
      c'.store.outputs.get c.store.nextOutputIndex =
        some (storedOfCoinbase H (c.number + 1) txPubkey out) ∧
      ∀ j, j ≠ c.store.nextOutputIndex → c'.store.outputs.get j = c.store.outputs.get j := by
  have hreward : 0 < (blockReward c.store.emitted).toNat :=
    Nat.lt_of_lt_of_le (by decide) (tail_le_blockReward _)
  have hvalid : CoinbaseValid H (onInitialize c.store) [out] txPubkey := by
    refine ⟨rfl, List.cons_ne_nil _ _, hpubkey, List.forall_mem_singleton.mpr ?_,
      List.forall_mem_singleton.mpr hkey, ?_, ?_⟩
    · rw [UInt64.lt_iff_toNat_lt, hamount]
      exact Nat.lt_of_lt_of_le hreward (Nat.le_add_right _ _)
    · exact hamount ▸ out.amount.toNat_lt
    · rw [List.map_singleton, List.sum_singleton]
      exact hamount
  have hadd : checkedAdd (onInitialize c.store).emitted (blockReward (onInitialize c.store).emitted) =
      some (c.store.emitted + blockReward c.store.emitted) := if_pos hemitted
  have hdispatch := @ChainLemmas.dispatch_coinbase H cfg (c.number + 1) (onInitialize c.store)
    ⟨[out], Nat.le_add_left 1 7⟩ txPubkey _ hvalid hadd
  -- the chain before the end of the block
  generalize hmid : step H cfg (step H cfg c .onInitialize)
    (.dispatch (soleCoinbase out txPubkey).1 (soleCoinbase out txPubkey).2) = mid
  have hmidStore : mid.store = minted H (c.number + 1) (onInitialize c.store) [out] txPubkey
      (c.store.emitted + blockReward c.store.emitted) := by
    rw [← hmid]
    exact hdispatch
  have hrun : c' = step H cfg mid .onFinalize := by
    rw [hc', ← hmid]
    rfl
  have hkept := @kept_onFinalize H cfg mid
  rw [← hrun] at hkept
  obtain ⟨_, _, _, _, hstore⟩ := @exists_minted H (c.number + 1) (onInitialize c.store) [out] txPubkey
    (c.store.emitted + blockReward c.store.emitted)
  have hget := fun j => get_outputs_storeOutputs (H := H)
    { onInitialize c.store with
      blockFees := 0, emitted := c.store.emitted + blockReward c.store.emitted, coinbaseDone := true }
    ([out].map (storedOfCoinbase H (c.number + 1) txPubkey)) j
  refine ⟨?_, ?_, ?_, ?_, fun j hj => ?_⟩
  · rw [hkept.next, hmidStore, hstore]
    rfl
  · rw [hkept.keyImages, hmidStore, hstore]
    rfl
  · rw [hkept.blockFees, hmidStore, hstore]
  · rw [hkept.outputs, hmidStore, minted, hget, if_pos ⟨le_rfl, Nat.lt_succ_self _⟩]
    simp [onInitialize]
  · rw [hkept.outputs, hmidStore, minted, hget, if_neg]
    · rfl
    · rintro ⟨hle, hlt⟩
      exact hj (Nat.le_antisymm (Nat.lt_succ_iff.mp hlt) hle)

/-- In a state with at most 64 slots the emission is far from its bound. -/
theorem emitted_add_reward_lt {ops : List Op} (hc : c = run (step H cfg) (.genesis H) ops)
    (hslots : c.store.treeSlots ≤ 64) :
    c.store.emitted.toNat + (blockReward c.store.emitted).toNat < 2 ^ 64 := by
  have hemitted := @emitted_le H cfg ops
  rw [← hc] at hemitted
  have hnext : c.store.treeSlots = c.store.nextOutputIndex := hc ▸ (treeInv_run_genesis ops).2
  have hreward := blockReward_le c.store.emitted
  have hmax : (64 + 1) * (blockReward 0).toNat < 2 ^ 64 := by decide
  have hle := Nat.mul_le_mul_right (blockReward 0).toNat (hnext ▸ hslots)
  omega

/-- Beyond 64 slots every transfer is refused, in every later state. -/
theorem verifyTransfer_of_crowded {ops : List Op} (hc : c = run (step H cfg) (.genesis H) ops)
    (hslots : 64 < c.store.treeSlots) (later : List Op) (tx : TransferTx) :
    verifyTransfer H cfg (run (step H cfg) c later).number (run (step H cfg) c later).store tx ≠
      .ok () := by
  intro hverify
  have hmax := (verifyTransfer_iff.mp hverify).slots
  rw [hc, ← run_append, (treeInv_run_genesis _).2, (ledger_spec _).2, ledger_append,
    List.length_append, ← (ledger_spec _).2, ← (treeInv_run_genesis _).2, ← hc] at hmax
  have hanon : MAX_FCMP_ANON_SET = 64 := rfl
  omega

end Mining

section Room

variable [DecidableEq Point] {E : CryptoLib l Point} {cfg : Config} {ops : List Op} {c : Chain}

/-- Below 64 slots the reward of the next block can be spent behind enough empty blocks. -/
theorem spendableAfter_of_room
    (hc : c = run (step (nativeHost E) cfg) (.genesis (nativeHost E)) ops)
    (hE : E.Canonical) (hS : E.CanonicalScalars) (hR : E.RangeComplete) (hG : E.G ≠ 0)
    (hslots : c.store.treeSlots < 64)
    (hlegible : ∀ i out, c.store.outputs.get i = some out →
      LegibleLeaf E out.oneTimeKey out.commitment)
    (hfits : (blockReward c.store.emitted).toNat + c.store.blockFees.toNat < 2 ^ 64)
    (hfee : cfg.minFeePerByte.toNat * spendBytes ≤ TAIL_REWARD) {x : ZMod l}
    (hkey : SpendKey E c.store x)
    (hleaf : LegibleLeaf E (E.compress (x • E.G))
      (Native.valueCommitment E (blockReward c.store.emitted + c.store.blockFees))) :
    SpendableAfter (nativeHost E) cfg c [[rewardTo E c.store x]] := by
  have hamount : (blockReward c.store.emitted + c.store.blockFees).toNat =
      (blockReward c.store.emitted).toNat + c.store.blockFees.toNat := by
    rw [UInt64.toNat_add]
    exact Nat.mod_eq_of_lt hfits
  refine SpendableAfter.of_run ?_
  rw [List.flatMap_singleton]
  generalize hc' : run (step (nativeHost E) cfg) c (blockOps [rewardTo E c.store x]) = c'
  obtain ⟨hnext, hki, -, hout, hold⟩ := run_soleCoinbase
    ((isValidPoint_compress hE).mpr hG) ((isValidPoint_compress hE).mpr hkey.key) hamount
    (emitted_add_reward_lt hc hslots.le) hc'.symm
  rw [hc, ← run_append] at hc'
  refine spendableAfter_of_output hc'.symm hE hS hR hG ?_ (fun i out hi => ?_) hout ⟨rfl, rfl⟩
    ⟨hkey.key, hkey.image, hki ▸ hkey.unspent⟩ ?_
  · rw [← hc', (treeInv_run_genesis _).2, hc', hnext, hc, ← (treeInv_run_genesis ops).2, ← hc]
    exact hslots
  · by_cases hnew : i = c.store.nextOutputIndex
    · rw [hnew, hout, Option.some.injEq] at hi
      rw [← hi]
      exact hleaf
    · rw [hold i hnew] at hi
      exact hlegible i out hi
  · rw [hamount]
    exact hfee.trans ((tail_le_blockReward _).trans (Nat.le_add_right _ _))

end Room

/-- When the spend path is open. Beyond 64 slots no transfer is accepted in any later state. Up to 64
slots whoever opens an unspent output that pays the fee of a small transfer can spend it behind empty
blocks alone, and below 64 slots there is such an output for every secret whose key image is new: the
reward of the next block, which is followed by empty ones. The blocks come behind the state itself, or
behind the end of its block. -/
theorem spend_path [DecidableEq Point] (E : CryptoLib l Point) (hE : E.Canonical) (hS : E.CanonicalScalars)
    (hR : E.RangeComplete) (hG : E.G ≠ 0) (cfg : Config) (ops : List Op) :
    let c := run (step (nativeHost E) cfg) (.genesis (nativeHost E)) ops
    (64 < c.store.treeSlots → ∀ later tx,
      verifyTransfer (nativeHost E) cfg (run (step (nativeHost E) cfg) c later).number
        (run (step (nativeHost E) cfg) c later).store tx ≠ .ok ()) ∧
    ((∀ i out, c.store.outputs.get i = some out → LegibleLeaf E out.oneTimeKey out.commitment) →
      (c.store.treeSlots ≤ 64 → ∀ i out x v b, c.store.outputs.get i = some out →
        Opens E out x v b → SpendKey E c.store x →
        cfg.minFeePerByte.toNat * spendBytes ≤ v.toNat →
        SpendableAfter (nativeHost E) cfg c [] ∧
          SpendableAfter (nativeHost E) cfg (step (nativeHost E) cfg c .onFinalize) []) ∧
      (c.store.treeSlots < 64 → cfg.minFeePerByte.toNat * spendBytes ≤ TAIL_REWARD →
        (blockReward c.store.emitted).toNat + c.store.blockFees.toNat < 2 ^ 64 →
        ∀ x, SpendKey E c.store x → LegibleLeaf E (E.compress (x • E.G))
          (Native.valueCommitment E (blockReward c.store.emitted + c.store.blockFees)) →
        SpendableAfter (nativeHost E) cfg c [[rewardTo E c.store x]] ∧
          SpendableAfter (nativeHost E) cfg (step (nativeHost E) cfg c .onFinalize)
            [[rewardTo E c.store x]])) := by
  intro c
  have hc : c = run (step (nativeHost E) cfg) (.genesis (nativeHost E)) ops := rfl
  have hclosed : step (nativeHost E) cfg c .onFinalize =
      run (step (nativeHost E) cfg) (.genesis (nativeHost E)) (ops ++ [.onFinalize]) := by
    rw [run_concat]
  have hkept := @kept_onFinalize (nativeHost E) cfg c
  have hslots' : (step (nativeHost E) cfg c .onFinalize).store.treeSlots = c.store.treeSlots := by
    rw [hclosed, (treeInv_run_genesis _).2, ← hclosed, hkept.next, hc, (treeInv_run_genesis _).2]
  have hkey' : ∀ {x}, SpendKey E c.store x →
      SpendKey E (step (nativeHost E) cfg c .onFinalize).store x :=
    fun hkey => ⟨hkey.key, hkey.image, hkept.keyImages ▸ hkey.unspent⟩
  refine ⟨fun hslots later tx => verifyTransfer_of_crowded hc hslots later tx, fun hlegible => ?_⟩
  have hlegible' : ∀ i out, (step (nativeHost E) cfg c .onFinalize).store.outputs.get i = some out →
      LegibleLeaf E out.oneTimeKey out.commitment := hkept.outputs ▸ hlegible
  refine ⟨fun hslots i out x v b hout hopens hkey hfee => ⟨?_, ?_⟩,
    fun hslots hfee hfits x hkey hleaf => ⟨?_, ?_⟩⟩
  · exact spendableAfter_of_output hc hE hS hR hG hslots hlegible hout hopens hkey hfee
  · exact spendableAfter_of_output hclosed hE hS hR hG (hslots'.trans_le hslots) hlegible'
      (hkept.outputs ▸ hout) hopens (hkey' hkey) hfee
  · exact spendableAfter_of_room hc hE hS hR hG hslots hlegible hfits hfee hkey hleaf
  · have hreward : rewardTo E (step (nativeHost E) cfg c .onFinalize).store x = rewardTo E c.store x := by
      rw [rewardTo, rewardTo, hkept.emitted, hkept.blockFees]
    rw [← hreward]
    exact spendableAfter_of_room hclosed hE hS hR hG (hslots'.trans_lt hslots) hlegible'
      (by rw [hkept.emitted, hkept.blockFees]; exact hfits) hfee (hkey' hkey)
      (by rw [hkept.emitted, hkept.blockFees]; exact hleaf)

/-! ## Mining alone closes it -/

/-- The configuration of the runtime. -/
def runtimeConfig : Config := ⟨10, 60, 1000⟩

/-- The blocks of a miner that includes nothing but the coinbase of its inherent. -/
def minedBlocks (H : Host) (cfg : Config) (data : CoinbaseInherent) :
    ℕ → List (List (Origin × Call))
  | 0 => []
  | n + 1 => minedBlocks H cfg data n ++ [(createInherent
      (onInitialize (afterBlocks H cfg (minedBlocks H cfg data n)).store) (some data)).toList.map
        fun call => (.none, call)]

theorem createInherent_eq {s : Storage} (hfees : s.blockFees = 0) (key txPubkey : Bytes32)
    (viewTag : UInt8) :
    (createInherent (onInitialize s) (some (key, txPubkey, viewTag))).toList.map
        (fun call => (Origin.none, call)) =
      [soleCoinbase ⟨key, blockReward s.emitted, viewTag⟩ txPubkey] := by
  have hadd : checkedAdd (blockReward (onInitialize s).emitted) (onInitialize s).blockFees =
      some (blockReward s.emitted) := by
    rw [checkedAdd_eq_some]
    show (blockReward s.emitted).toNat = (blockReward s.emitted).toNat + s.blockFees.toNat
    rw [hfees]
    rfl
  have hpos : blockReward s.emitted ≠ 0 := by
    intro h
    have htail := tail_le_blockReward s.emitted
    rw [h] at htail
    exact absurd htail (by decide)
  simp only [createInherent, Option.bind_some, hadd, if_neg hpos]
  rfl

/-- Each of the first 65 such blocks adds a slot. -/
theorem nextOutputIndex_mined {H : Host} {cfg : Config} {key txPubkey : Bytes32}
    (hkey : H.isValidPointV1 key = true) (hpubkey : H.isValidPointV1 txPubkey = true)
    (viewTag : UInt8) {n : ℕ} (hn : n ≤ 65) :
    (afterBlocks H cfg (minedBlocks H cfg (key, txPubkey, viewTag) n)).store.nextOutputIndex = n ∧
      (afterBlocks H cfg (minedBlocks H cfg (key, txPubkey, viewTag) n)).store.blockFees = 0 := by
  induction n with
  | zero => exact ⟨rfl, rfl⟩
  | succ n ih =>
    obtain ⟨hnext, hfees⟩ := ih (Nat.le_of_succ_le hn)
    rw [minedBlocks, createInherent_eq hfees]
    generalize hc : afterBlocks H cfg (minedBlocks H cfg (key, txPubkey, viewTag) n) = c at *
    have hslots : c.store.treeSlots ≤ 64 := by
      rw [← hc, afterBlocks, (treeInv_run_genesis _).2, ← afterBlocks, hc, hnext]
      exact Nat.le_of_succ_le_succ hn
    have hamount : (blockReward c.store.emitted).toNat =
        (blockReward c.store.emitted).toNat + c.store.blockFees.toNat := by
      rw [hfees]
      rfl
    have hrun : afterBlocks H cfg (minedBlocks H cfg (key, txPubkey, viewTag) n ++
        [[soleCoinbase ⟨key, blockReward c.store.emitted, viewTag⟩ txPubkey]]) =
        run (step H cfg) c
          (blockOps [soleCoinbase ⟨key, blockReward c.store.emitted, viewTag⟩ txPubkey]) := by
      rw [← hc, afterBlocks, List.flatMap_append, run_append, List.flatMap_singleton]
      rfl
    obtain ⟨hnext', -, hfees', -⟩ := run_soleCoinbase hpubkey hkey hamount
      (emitted_add_reward_lt hc.symm hslots) hrun
    exact ⟨hnext'.trans (congrArg (· + 1) hnext), hfees'⟩

namespace MinedLemmas

/-- A miner with the secret five over the cyclic group. -/
def sampleMined (n : ℕ) : List (List (Origin × Call)) :=
  minedBlocks (nativeHost (cyclic ristrettoOrder)) runtimeConfig
    (Cyclic.toBytes (Cyclic.scalarOf 5), Cyclic.toBytes (Cyclic.scalarOf 3), 0) n

theorem sampleMined_crowded :
    64 < (afterBlocks (nativeHost (cyclic ristrettoOrder)) runtimeConfig
      (sampleMined 65)).store.treeSlots := by
  have hnext := (@nextOutputIndex_mined (nativeHost (cyclic ristrettoOrder)) runtimeConfig
    (Cyclic.toBytes (Cyclic.scalarOf 5)) (Cyclic.toBytes (Cyclic.scalarOf 3)) (by decide +kernel)
    (by decide +kernel) 0 65 le_rfl).1
  rw [afterBlocks, (treeInv_run_genesis _).2, ← afterBlocks, sampleMined, hnext]
  decide

theorem sampleMined_run :
    afterBlocks (nativeHost (cyclic ristrettoOrder)) runtimeConfig (sampleMined 65) =
      run (step (nativeHost (cyclic ristrettoOrder)) runtimeConfig)
        (.genesis (nativeHost (cyclic ristrettoOrder))) ((sampleMined 65).flatMap blockOps) := by
  rw [afterBlocks]

theorem sampleKey {s : Storage} (hspent : s.keyImages.containsKey
      (imageOf (cyclic ristrettoOrder) (Cyclic.scalarOf 5)) = false) :
    SpendKey (cyclic ristrettoOrder) s (Cyclic.scalarOf 5) :=
  ⟨by decide +kernel, by decide +kernel, hspent⟩

/-- The output of a block that pays its reward to the secret five. -/
theorem rewardLedger_legible : ∀ out ∈ ledger (nativeHost (cyclic ristrettoOrder)) runtimeConfig
    (.genesis (nativeHost (cyclic ristrettoOrder))) (blockOps rewardBlock),
    LegibleLeaf (cyclic ristrettoOrder) out.oneTimeKey out.commitment := by
  decide +kernel

theorem rewardLedger_opens : ((ledger (nativeHost (cyclic ristrettoOrder)) runtimeConfig
    (.genesis (nativeHost (cyclic ristrettoOrder))) (blockOps rewardBlock))[0]?.any fun out =>
      decide (out.oneTimeKey =
        (cyclic ristrettoOrder).compress (Cyclic.scalarOf 5 • (cyclic ristrettoOrder).G)) &&
      decide (out.commitment = (cyclic ristrettoOrder).compress
        ((cyclic ristrettoOrder).pcCommit ((blockReward 0).toNat : ZMod ristrettoOrder)
          (Cyclic.scalarOf 0)))) = true := by
  decide +kernel

theorem rewardChain_unspent :
    (run (step (nativeHost (cyclic ristrettoOrder)) runtimeConfig)
      (.genesis (nativeHost (cyclic ristrettoOrder))) (blockOps rewardBlock)).store.treeSlots ≤ 64 ∧
    (run (step (nativeHost (cyclic ristrettoOrder)) runtimeConfig)
      (.genesis (nativeHost (cyclic ristrettoOrder))) (blockOps rewardBlock)).store.keyImages.containsKey
        (imageOf (cyclic ristrettoOrder) (Cyclic.scalarOf 5)) = false := by
  decide +kernel

end MinedLemmas

open MinedLemmas

/-- After 65 blocks with nothing but the miner's coinbase, every transfer is refused for ever. -/
theorem mined_refuses_every_transfer :
    ¬∃ later tx, verifyTransfer (nativeHost (cyclic ristrettoOrder)) runtimeConfig
      (run (step (nativeHost (cyclic ristrettoOrder)) runtimeConfig)
        (afterBlocks (nativeHost (cyclic ristrettoOrder)) runtimeConfig (sampleMined 65)) later).number
      (run (step (nativeHost (cyclic ristrettoOrder)) runtimeConfig)
        (afterBlocks (nativeHost (cyclic ristrettoOrder)) runtimeConfig (sampleMined 65)) later).store
      tx = .ok () := by
  rintro ⟨later, tx, hok⟩
  exact verifyTransfer_of_crowded sampleMined_run sampleMined_crowded later tx hok

theorem spend_path_samples :
    (∀ later tx, verifyTransfer (nativeHost (cyclic ristrettoOrder)) runtimeConfig
      (run (step (nativeHost (cyclic ristrettoOrder)) runtimeConfig)
        (afterBlocks (nativeHost (cyclic ristrettoOrder)) runtimeConfig (sampleMined 65)) later).number
      (run (step (nativeHost (cyclic ristrettoOrder)) runtimeConfig)
        (afterBlocks (nativeHost (cyclic ristrettoOrder)) runtimeConfig (sampleMined 65)) later).store
      tx ≠ .ok ()) ∧
    SpendableAfter (nativeHost (cyclic ristrettoOrder)) runtimeConfig
      (run (step (nativeHost (cyclic ristrettoOrder)) runtimeConfig)
        (.genesis (nativeHost (cyclic ristrettoOrder))) (blockOps rewardBlock)) [] ∧
    SpendableAfter (nativeHost (cyclic ristrettoOrder)) runtimeConfig
      (run (step (nativeHost (cyclic ristrettoOrder)) runtimeConfig)
        (.genesis (nativeHost (cyclic ristrettoOrder))) [])
      [[rewardTo (cyclic ristrettoOrder) (Chain.genesis (nativeHost (cyclic ristrettoOrder))).store
        (Cyclic.scalarOf 5)]] := by
  have hl : ristrettoOrder ≤ 2 ^ 256 := by decide
  have hall := spend_path (cyclic ristrettoOrder) (cyclic_canonical hl)
    (cyclic_canonicalScalars hl) (cyclic_rangeComplete hl) (by decide +kernel) runtimeConfig
  refine ⟨?_, ?_, ?_⟩
  · have hcrowded := sampleMined_crowded
    rw [sampleMined_run] at hcrowded ⊢
    exact (hall ((sampleMined 65).flatMap blockOps)).1 hcrowded
  · obtain ⟨out, hout, hopens⟩ := (Option.any_eq_true _ _).mp rewardLedger_opens
    rw [Bool.and_eq_true, decide_eq_true_eq, decide_eq_true_eq] at hopens
    obtain ⟨hslots, hspent⟩ := rewardChain_unspent
    refine ((hall (blockOps rewardBlock)).2 (fun i out' hout' => ?_)).1 hslots 0 out
      (Cyclic.scalarOf 5) (blockReward 0) (Cyclic.scalarOf 0) ?_ ⟨hopens.1, hopens.2⟩
      (sampleKey hspent) (by decide) |>.1
    · rw [(ledger_spec _).1] at hout'
      exact rewardLedger_legible out' (List.mem_of_getElem? hout')
    · rw [(ledger_spec _).1]
      exact hout
  · refine ((hall []).2 (fun i out hout => ?_)).2 (by decide) (by decide) (by decide)
      (Cyclic.scalarOf 5) (sampleKey rfl) (by decide +kernel) |>.1
    cases hout

end Kohl.Pallet
