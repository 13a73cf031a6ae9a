import Kohl.Wallet.KeyReuse
import Kohl.Wallet.Send

/-!
# What the Send command builds

What the builder asks of a selection and of a destination, and what is left for the node to decide once it has
built a transfer.

* `canSpend_of_feed`: what is selected among outputs of the chain and passes the checks can be spent in a
  snapshot from the same outputs.
* `transferValid_iff_of_built`: what a node can still disagree about.
* `skeleton_of_inputs`, `skeleton_of_funds`, `skeleton_of_view`, `skeleton_of_spend`: why nothing is built.
-/

namespace Kohl

open ByteLib Run Pallet MembershipTree Fcmp Stealth RuntimeApi
open LargestFirst (total)

namespace Wallet

namespace SendLemmas

open CallLemmas CacheLemmas MembershipCache BuildLemmas SelectionLemmas SpecLemmas

variable {outputs : List Entry} {snap : MembershipSnapshot}
variable {l : ℕ} {Point : Type} [AddCommGroup Point] [Module (ZMod l) Point]
variable {E : CryptoLib l Point} {w : Wallet E} {rand : TransferRandomness l}
  {inputs : List OwnedOutput} {dest : StealthAddress} {amount fee : UInt64}

/-! ## What a built transfer needed -/

theorem funds_of_changeOf {change : UInt64} (h : changeOf inputs amount fee = .ok change) :
    amount.toNat + fee.toNat ≤ (inputs.map fun i => i.amount.toNat).sum ∧
      (inputs.map fun i => i.amount.toNat).sum < 2 ^ 64 := by
  unfold changeOf at h
  split at h
  · cases h
  next total htotal =>
  split at h
  · cases h
  next needed hneeded =>
  split at h
  · cases h
  next hle =>
  have hsum := totalIn_eq_some.mp htotal
  rw [UInt64.toNat_zero, Nat.zero_add] at hsum
  rw [← hsum, ← checkedAdd_eq_some.mp hneeded]
  exact ⟨UInt64.le_iff_toNat_le.mp (UInt64.not_lt.mp hle), total.toNat_lt⟩

/-- An output is only made for an address whose two keys are points. -/
theorem decompress_of_makeOutput {txSecret : Bytes32} {li : ℕ} {out : Output × Bytes32}
    (h : makeOutput E txSecret dest li amount = .ok out) :
    (∃ p, E.decompress dest.viewPublic = some p) ∧ ∃ p, E.decompress dest.spendPublic = some p := by
  unfold makeOutput at h
  obtain ⟨shared, hshared, h⟩ := bind_eq_ok.mp h
  obtain ⟨key, hkey, -⟩ := bind_eq_ok.mp h
  obtain ⟨p, hp, -⟩ := Option.bind_eq_some_iff.mp (okOr_eq_ok.mp hshared)
  obtain ⟨q, hq, -⟩ := Option.map_eq_some_iff.mp (okOr_eq_ok.mp hkey)
  exact ⟨⟨p, hp⟩, ⟨q, hq⟩⟩

/-- A skeleton has passed the checks on its inputs, its funds and its destination. -/
theorem checked_of_skeleton {r : TransferTx × List Staged}
    (h : skeletonTransfer E w rand inputs snap dest amount fee = .ok r) :
    checkInputs E inputs snap = .ok () ∧
      (amount.toNat + fee.toNat ≤ (inputs.map fun i => i.amount.toNat).sum ∧
        (inputs.map fun i => i.amount.toNat).sum < 2 ^ 64) ∧
      (∃ p, E.decompress dest.viewPublic = some p) ∧ ∃ p, E.decompress dest.spendPublic = some p := by
  unfold skeletonTransfer at h
  obtain ⟨⟨⟩, hcheck, h⟩ := bind_eq_ok.mp h
  obtain ⟨change, hchange, h⟩ := bind_eq_ok.mp h
  obtain ⟨out0, hout0, -⟩ := bind_eq_ok.mp h
  exact ⟨hcheck, funds_of_changeOf hchange, decompress_of_makeOutput hout0⟩

omit [AddCommGroup Point] [Module (ZMod l) Point] in
theorem isAdmitted_of_checkInputs (h : checkInputs E inputs snap = .ok ()) :
    ∀ input ∈ inputs, ∃ x ∈ snap.admitted, x.treeIndex = input.globalIndex := by
  unfold checkInputs at h
  split at h
  · cases h
  split at h
  · cases h
  split at h
  · cases h
  split at h
  · cases h
  split at h
  · next hall =>
    intro input hinput
    obtain ⟨x, hx, heq⟩ := List.any_eq_true.mp (List.all_eq_true.mp hall input hinput)
    exact ⟨x, hx, beq_iff_eq.mp heq⟩
  · cases h

section Chain

variable [DecidableEq Point] {cfg : Config} {ops : List Op} {s : Storage}
variable (hs : s = (run (step (nativeHost E) cfg) (.genesis (nativeHost E)) ops).store)
include hs

/-- What a scan of outputs of the chain returns is owned, and stored under its index. -/
theorem owned_of_feed (hE : E.Canonical) (hS : E.CanonicalScalars) (hZ : E.ZeroScalar)
    (hfeed : ∀ x ∈ outputs, s.outputs.get x.1.toNat = some x.2) {o : OwnedOutput}
    (h : o ∈ scan E w outputs) :
    Owned E o ∧ ∃ out, s.outputs.get o.globalIndex.toNat = some out ∧
      o.oneTimeKey = out.oneTimeKey ∧ o.commitment = out.commitment := by
  obtain ⟨⟨i, out⟩, hmem, hown⟩ := List.mem_filterMap.mp h
  have hget : s.outputs.get i.toNat = some out := hfeed _ hmem
  have hok : OutputOk (nativeHost E) out := outputOk_of_get (hs ▸ hget)
  obtain ⟨howned, rfl, hkey, hcommitment⟩ := tryOwn_owned hE.readsKeys hS
    (fun a ha => by rw [(hok.amount a ha).1]; exact commit_zeroBlinding hS hZ a) hown
  exact ⟨howned, out, hget, hkey, hcommitment⟩

/-- Owned outputs of the chain that pass the checks can be spent in a snapshot from outputs of the chain. -/
theorem canSpend_of_feed (hE : E.Canonical) (hS : E.CanonicalScalars) (hZ : E.ZeroScalar)
    (hfeed : ∀ x ∈ outputs, s.outputs.get x.1.toNat = some x.2)
    (hbuilt : BuiltFrom E.blake2_256 outputs snap) (howned : ∀ o ∈ inputs, o ∈ scan E w outputs)
    (hcheck : checkInputs E inputs snap = .ok ()) : CanSpend E snap inputs := by
  obtain ⟨-, -, -, hvalid⟩ := rebuild_eq_ok hbuilt
  obtain ⟨hne, hle⟩ := checkInputs_ne_nil hcheck
  have hadmitted := isAdmitted_of_checkInputs hcheck
  -- a member of the ring is the output of the chain under its index
  have hmember : ∀ x ∈ snap.admitted, ∃ out, s.outputs.get x.treeIndex.toNat = some out ∧
      out.oneTimeKey = x.oneTimeKey ∧ out.commitment = x.commitment := by
    intro x hx
    obtain ⟨out, hout, hkeys⟩ := output_of_member hbuilt x hx
    exact ⟨out, hfeed _ hout, hkeys⟩
  refine ⟨hne, hle, hvalid.fits, hvalid.root, hvalid.ring, ?_,
    fun o ho => (owned_of_feed hs hE hS hZ hfeed (howned o ho)).1, ?_⟩
  · have hpoints : ∀ x ∈ snap.admitted, (∃ p, E.decompress x.oneTimeKey = some p) ∧
        ∃ p, E.decompress x.commitment = some p := by
      intro x hx
      obtain ⟨out, hout, hkey, hcommitment⟩ := hmember x hx
      obtain ⟨⟨p, hp, -⟩, hq⟩ := decompress_of_get hE (hs ▸ hout)
      rw [← hkey, ← hcommitment]
      exact ⟨⟨p, hp⟩, hq⟩
    obtain ⟨keys, hkeys⟩ := exists_collect (f := fun x : RingMember => E.decompress x.oneTimeKey)
      fun x hx => (hpoints x hx).1
    obtain ⟨commitments, hcommitments⟩ := exists_collect
      (f := fun x : RingMember => E.decompress x.commitment) fun x hx => (hpoints x hx).2
    obtain ⟨input, hinput⟩ := List.exists_mem_of_ne_nil _ hne
    obtain ⟨x, hx, -⟩ := hadmitted input hinput
    obtain ⟨-, hcount, -⟩ := proveChecks_iff.mpr hvalid.ring
    have hfits := hvalid.fits
    have hring : snap.admitted.length ≤ snap.digests.length := by
      rw [← hcount]
      exact List.countP_le_length
    exact ⟨keys, commitments, parseRing_ringBlob.mpr ⟨List.length_pos_of_mem hx, hring.trans hfits,
      hkeys, hcommitments⟩⟩
  · intro o ho
    obtain ⟨x, hx, hindex⟩ := hadmitted o ho
    obtain ⟨out, hout, hkey, hcommitment⟩ := hmember x hx
    obtain ⟨-, out', hout', hkey', hcommitment'⟩ := owned_of_feed hs hE hS hZ hfeed (howned o ho)
    rw [hindex, hout', Option.some.injEq] at hout
    subst hout
    have heq : memberOf o = x := by
      rw [memberOf, hkey', hcommitment', hkey, hcommitment, ← hindex]
    rw [heq]
    exact hx

end Chain

/-! ## What a node can still disagree about -/

/-- What a node checks of a built transfer that the wallet does not decide alone: the fee, the tree, the
root, the key images, and that no point is the identity. -/
structure Current [DecidableEq Point] (E : CryptoLib l Point) (cfg : Config) (now : ℕ) (s : Storage)
    (inputs : List OwnedOutput) (tx : TransferTx) : Prop where
  fee : saturatingMul cfg.minFeePerByte tx.encodedSize ≤ tx.fee
  slots : s.treeSlots ≤ MAX_FCMP_ANON_SET
  root : membershipRootAccepted now s tx.membershipRoot = true
  unspent : ∀ o ∈ inputs, s.keyImages.containsKey o.keyImage = false
  distinct : (inputs.map OwnedOutput.keyImage).Nodup
  points : NoIdentity E tx

omit [Module (ZMod l) Point] in
theorem ne_identity_of_valid [DecidableEq Point] (hE : E.Canonical) {b : Bytes32}
    (h : Native.isValidPoint E b = true) : b ≠ E.compress 0 := by
  rintro rfl
  exact (isValidPoint_compress hE).mp h rfl

/-- A built transfer is valid exactly where it is current. -/
theorem transferValid_iff_of_built [DecidableEq Point] (hE : E.Canonical) {tx : TransferTx}
    (h : Built E snap inputs fee tx) (howned : ∀ input ∈ inputs, Owned E input) (hne : inputs ≠ [])
    {cfg : Config} {now : ℕ} {s : Storage} :
    TransferValid (nativeHost E) cfg now s tx ↔ Current E cfg now s inputs tx := by
  constructor
  · intro hvalid
    obtain ⟨pairs, hp⟩ := h.prepared
    have himages : (tx.inputs.val.map FcmpInput.keyImage).Perm (inputs.map OwnedOutput.keyImage) := by
      have hperm := hp.perm.map OwnedOutput.keyImage
      rw [List.map_map] at hperm
      rw [hp.keyImages]
      exact hperm
    refine ⟨hvalid.fee, hvalid.slots, hvalid.root, ?_, ?_, ?_⟩
    · intro o ho
      obtain ⟨input, hinput, heq⟩ :=
        List.mem_map.mp (himages.mem_iff.mpr (List.mem_map_of_mem (f := OwnedOutput.keyImage) ho))
      rw [← heq]
      exact hvalid.unspent input hinput
    · refine himages.nodup_iff.mp ?_
      exact List.pairwise_map.mpr (hvalid.sorted.imp fun hab heq => (ne_of_lt hab) heq)
    · exact ⟨fun input hinput => ne_identity_of_valid hE (hvalid.keyImages input hinput),
        fun input hinput => ne_identity_of_valid hE (hvalid.pseudos input hinput),
        ne_identity_of_valid hE hvalid.txPubkey,
        fun out hout => ne_identity_of_valid hE (hvalid.keys out hout)⟩
  · intro hcurrent
    -- without a fee and behind the root of the snapshot every other check passes
    have hfree : TransferValid (nativeHost E) { cfg with minFeePerByte := 0 } now
        { s with membershipRoot := snap.root } tx :=
      h.transferValid hE now howned hne hcurrent.distinct hcurrent.unspent rfl hcurrent.slots
        ((Nat.zero_mul _).trans_le (Nat.zero_le _)) hcurrent.points
    exact ⟨hfree.inputs_ne, hfree.outputs_ne, hfree.sorted, hcurrent.fee, hfree.txPubkey, hfree.keys,
      hfree.slots, hcurrent.root, hfree.unspent, hfree.keyImages, hfree.pseudos, hfree.fcmp,
      hfree.balance, hfree.range⟩

/-- The estimate grows with the tree. -/
theorem estimateTxBytes_le {slots slots' k : ℕ} (hpos : 0 < slots) (hle : slots ≤ slots')
    (hmax : slots' ≤ MAX_FCMP_ANON_SET) (hk : k < 2 ^ 64) :
    (estimateTxBytes (UInt64.ofNat slots) k).toNat ≤ (estimateTxBytes (UInt64.ofNat slots') k).toNat := by
  have hbytes : 328 + 136 * slots ≤ 328 + 136 * slots' :=
    Nat.add_le_add_left (Nat.mul_le_mul_left _ hle) _
  rw [toNat_estimateTxBytes _ hk, toNat_estimateTxBytes _ hk, toNat_bytesPerInput hpos (hle.trans hmax),
    toNat_bytesPerInput (hpos.trans_le hle) hmax]
  exact min_le_min_right _ (Nat.add_le_add_left (Nat.mul_le_mul_right _ hbytes) _)

/-- Within the estimated size the floor of the fee is met at any rate from the chain's on. -/
theorem saturatingMul_encodedSize_le {rate rate' estimate : UInt64} {tx : TransferTx} (hrate : rate ≤ rate')
    (hsize : tx.encode.length ≤ estimate.toNat) :
    saturatingMul rate tx.encodedSize ≤ saturatingMul rate' estimate := by
  have hencoded : tx.encodedSize.toNat ≤ tx.encode.length := by
    rw [TransferTx.encodedSize, UInt64.toNat_ofNat']
    exact Nat.mod_le _ _
  rw [UInt64.le_iff_toNat_le, toNat_saturatingMul, toNat_saturatingMul]
  exact min_le_min_right _ (Nat.mul_le_mul (UInt64.le_iff_toNat_le.mp hrate) (hencoded.trans hsize))

/-! ## Why nothing is built -/

/-- One to four inputs, and sums that fit a `u64`. -/
def FitsTransfer (inputs : List OwnedOutput) (amount fee : UInt64) : Prop :=
  inputs ≠ [] ∧ inputs.length ≤ MAX_FCMP_INPUTS ∧ total amountOf inputs < 2 ^ 64 ∧
    amount.toNat + fee.toNat < 2 ^ 64

/-- A total or a payment beyond a `u64` is out of bounds. -/
theorem changeOf_eq_bounds
    (h : 2 ^ 64 ≤ total amountOf inputs ∨ 2 ^ 64 ≤ amount.toNat + fee.toNat) :
    changeOf inputs amount fee = .error .bounds := by
  unfold changeOf
  split
  · rfl
  next sum hsum =>
  have hlt := sum.toNat_lt
  rw [totalIn_eq_some, UInt64.toNat_zero, Nat.zero_add] at hsum
  split
  · rfl
  next needed hneeded =>
  have hlt' := needed.toNat_lt
  rw [checkedAdd_eq_some.mp hneeded] at hlt'
  rw [hsum] at hlt
  exact absurd h (not_or.mpr ⟨Nat.not_le.mpr hlt, Nat.not_le.mpr hlt'⟩)

theorem build_eq_error [DecidableEq Point] {e : WalletError}
    (h : skeletonTransfer E w rand inputs snap dest amount fee = .error e) :
    buildTransferMulti E w rand inputs snap dest amount fee = .error (.wallet e) := by
  rw [buildTransferMulti, h]

/-- No input, or more than a transfer takes. -/
theorem skeleton_of_inputs (h : inputs = [] ∨ MAX_FCMP_INPUTS < inputs.length) :
    skeletonTransfer E w rand inputs snap dest amount fee = .error .bounds := by
  have hcheck : checkInputs E inputs snap = .error .bounds := by
    rw [checkInputs, if_pos]
    rw [Bool.or_eq_true, List.isEmpty_iff, decide_eq_true_iff]
    exact h
  rw [skeletonTransfer, hcheck]
  rfl

theorem skeleton_of_funds (hcheck : checkInputs E inputs snap = .ok ())
    (h : 2 ^ 64 ≤ total amountOf inputs ∨ 2 ^ 64 ≤ amount.toNat + fee.toNat) :
    skeletonTransfer E w rand inputs snap dest amount fee = .error .bounds := by
  rw [skeletonTransfer, hcheck, ok_bind, changeOf_eq_bounds h]
  rfl

section Destination

variable (hcheck : checkInputs E inputs snap = .ok ())
  (hfunds : amount.toNat + fee.toNat ≤ total amountOf inputs) (hfits : total amountOf inputs < 2 ^ 64)
include hcheck hfunds hfits

/-- A view key that is no point shares no secret. -/
theorem skeleton_of_view (h : E.decompress dest.viewPublic = none) :
    skeletonTransfer E w rand inputs snap dest amount fee = .error (.crypto "shared secret") := by
  obtain ⟨change, hchange, -⟩ := changeOf_eq_ok hfunds hfits
  have hmake : makeOutput E (txKeypair E rand.txSecret).1 dest 0 amount =
      .error (.crypto "shared secret") := by
    rw [makeOutput, senderSharedSecret, sharedSecret, h]
    rfl
  rw [skeletonTransfer, hcheck, ok_bind, hchange, ok_bind]
  dsimp only
  rw [hmake]
  rfl

/-- A spend key that is no point has no one-time keys. -/
theorem skeleton_of_spend (hS : E.CanonicalScalars) (hview : ∃ p, E.decompress dest.viewPublic = some p)
    (h : E.decompress dest.spendPublic = none) :
    skeletonTransfer E w rand inputs snap dest amount fee = .error (.crypto "one-time key") := by
  obtain ⟨change, hchange, -⟩ := changeOf_eq_ok hfunds hfits
  obtain ⟨p, hp⟩ := hview
  have hmake : makeOutput E (txKeypair E rand.txSecret).1 dest 0 amount =
      .error (.crypto "one-time key") := by
    rw [makeOutput, senderSharedSecret, sharedSecret, hp, Option.bind_some, txKeypair, hS,
      Option.map_some, okOr_some, ok_bind, deriveOneTimeKey, h]
    rfl
  rw [skeletonTransfer, hcheck, ok_bind, hchange, ok_bind]
  dsimp only
  rw [hmake]
  rfl

end Destination

omit [AddCommGroup Point] [Module (ZMod l) Point] in
/-- Listed inputs of a valid snapshot pass the checks. -/
theorem checkInputs_eq_ok (hvalid : Valid E.blake2_256 snap) (hne : inputs ≠ [])
    (hmax : inputs.length ≤ MAX_FCMP_INPUTS)
    (hlisted : ∀ o ∈ inputs, isAdmitted snap o = true) : checkInputs E inputs snap = .ok () := by
  obtain ⟨o, ho⟩ := List.exists_mem_of_ne_nil _ hne
  obtain ⟨x, hx, -⟩ := List.any_eq_true.mp (hlisted o ho)
  have hempty : ¬snap.admitted.isEmpty = true := by
    rw [List.isEmpty_iff]
    exact List.ne_nil_of_mem hx
  have hbounds : ¬(inputs.isEmpty || decide (MAX_FCMP_INPUTS < inputs.length)) = true := by
    rw [Bool.or_eq_true, List.isEmpty_iff, decide_eq_true_iff, not_or]
    exact ⟨hne, Nat.not_lt.mpr hmax⟩
  have hall : (inputs.all fun input => snap.admitted.any fun m => m.treeIndex == input.globalIndex) =
      true := List.all_eq_true.mpr hlisted
  rw [checkInputs, if_neg hbounds, if_neg (Nat.not_lt.mpr hvalid.fits), if_neg hempty,
    if_neg (not_not.mpr hvalid.root), if_pos hall]

/-- What is selected covers the payment, as far as it fits a `u64`. -/
theorem covered_of_selectInputs {owned selected : List OwnedOutput} {best : ℕ} {rate : UInt64}
    (h : selectInputs owned best snap amount rate = .ok (selected, fee))
    (hfits : amount.toNat + fee.toNat < 2 ^ 64) :
    amount.toNat + fee.toNat ≤ total amountOf selected := by
  obtain ⟨-, rfl, -, hcovered⟩ := selectInputs_eq_ok.mp h
  rw [cost] at hcovered
  rw [toNat_saturatingMul] at hfits ⊢
  omega

end SendLemmas

end Wallet

end Kohl
