import Kohl.Wallet.Transfer

/-!
# What a built transfer looks like

The construction of a transfer read backwards: what a transfer that `build_transfer_multi` returns
consists of, whatever was drawn. The proofs are made for a skeleton with placeholders in their place.

* `skeletonTransfer_made`: the parts of the skeleton.
* `buildTransferMulti_made`: the transfer is the skeleton with the proofs filled in.
-/

namespace Kohl.Wallet

open ByteLib Fcmp Pallet Stealth CallLemmas

variable {l : ℕ} {Point : Type} [AddCommGroup Point] [Module (ZMod l) Point]

namespace BuildLemmas

theorem okOr_eq_ok {ε α : Type} {o : Option α} {e : ε} {a : α} :
    okOr o e = .ok a ↔ o = some a := by
  cases o with
  | none =>
    constructor
    · intro h
      cases h
    · intro h
      cases h
  | some b =>
    show Except.ok b = .ok a ↔ _
    rw [Except.ok.injEq, Option.some.injEq]

theorem val_of_bounded {α : Type} {n : ℕ} {v : List α} {b : BoundedVec α n}
    (h : bounded v = .ok b) : b.val = v := by
  have hsome : BoundedVec.tryFrom v = some b := okOr_eq_ok.mp h
  unfold BoundedVec.tryFrom at hsome
  split at hsome
  · cases hsome
    rfl
  · cases hsome

end BuildLemmas

open BuildLemmas

/-- A transfer and the staged inputs it is made of. -/
structure Skeleton (E : CryptoLib l Point) (inputs : List OwnedOutput)
    (membership : MembershipSnapshot) (fee : UInt64) (tx : TransferTx) (staged : List Staged) :
    Prop where
  checked : checkInputs E inputs membership = .ok ()
  root : tx.membershipRoot = membership.root
  fee_eq : tx.fee = fee
  payloads : tx.outputs.val.map (fun out => out.payload.val.length) = [8, 8]
  length : staged.length = inputs.length
  keyImages : tx.inputs.val.map FcmpInput.keyImage = staged.map fun s => s.input.keyImage
  pseudos : tx.inputs.val.map FcmpInput.pseudoCommitment = staged.map Staged.cPrime

variable {E : CryptoLib l Point} {w : Wallet E} {rand : TransferRandomness l}
  {inputs : List OwnedOutput} {membership : MembershipSnapshot} {dest : StealthAddress}
  {sendAmount fee : UInt64}

omit [AddCommGroup Point] [Module (ZMod l) Point] in
theorem checkInputs_ne_nil (h : checkInputs E inputs membership = .ok ()) :
    inputs ≠ [] ∧ inputs.length ≤ MAX_FCMP_INPUTS := by
  unfold checkInputs at h
  split at h
  · cases h
  · next hbounds =>
    rw [Bool.or_eq_true, not_or, List.isEmpty_iff, decide_eq_true_iff] at hbounds
    exact ⟨hbounds.1, Nat.not_lt.mp hbounds.2⟩

theorem skeletonInput_made {s : Staged} {input : FcmpInput} (h : skeletonInput s = .ok input) :
    input.keyImage = s.input.keyImage ∧ input.pseudoCommitment = s.cPrime := by
  unfold skeletonInput at h
  obtain ⟨placeholder, -, hinput⟩ := bind_eq_ok.mp h
  cases hinput
  exact ⟨rfl, rfl⟩

/-- The payload of a made output is a masked amount. -/
theorem makeOutput_payload {txSecret : Bytes32} {recipient : StealthAddress} {li : ℕ}
    {amount : UInt64} {out : Output × Bytes32}
    (h : makeOutput E txSecret recipient li amount = .ok out) : out.1.payload.val.length = 8 := by
  unfold makeOutput at h
  obtain ⟨shared, -, h⟩ := bind_eq_ok.mp h
  obtain ⟨key, -, h⟩ := bind_eq_ok.mp h
  obtain ⟨commitment, -, h⟩ := bind_eq_ok.mp h
  obtain ⟨payload, hpayload, h⟩ := bind_eq_ok.mp h
  cases h
  show payload.val.length = 8
  rw [val_of_bounded hpayload, length_maskAmount]

theorem skeletonTransfer_made {tx : TransferTx} {staged : List Staged}
    (h : skeletonTransfer E w rand inputs membership dest sendAmount fee = .ok (tx, staged)) :
    Skeleton E inputs membership fee tx staged := by
  unfold skeletonTransfer at h
  obtain ⟨⟨⟩, hcheck, h⟩ := bind_eq_ok.mp h
  obtain ⟨change, -, h⟩ := bind_eq_ok.mp h
  obtain ⟨out0, hout0, h⟩ := bind_eq_ok.mp h
  obtain ⟨out1, hout1, h⟩ := bind_eq_ok.mp h
  obtain ⟨last, -, h⟩ := bind_eq_ok.mp h
  obtain ⟨unsorted, hstaged, h⟩ := bind_eq_ok.mp h
  obtain ⟨skeleton, hskeleton, h⟩ := bind_eq_ok.mp h
  obtain ⟨proof, -, h⟩ := bind_eq_ok.mp h
  obtain ⟨bskeleton, hbskeleton, h⟩ := bind_eq_ok.mp h
  obtain ⟨outputs, houtputs, h⟩ := bind_eq_ok.mp h
  obtain ⟨rangeProof, -, h⟩ := bind_eq_ok.mp h
  cases h
  have hforall := forall₂_of_tryMap hskeleton
  have hlen := (forall₂_of_tryMap hstaged).length_eq
  obtain ⟨hne, -⟩ := checkInputs_ne_nil hcheck
  rw [List.length_zip, List.length_append, List.length_map, List.length_range, List.length_singleton,
    Nat.sub_add_cancel (List.length_pos_iff.mpr hne), Nat.min_self] at hlen
  refine ⟨hcheck, rfl, rfl, ?_, ?_, ?_, ?_⟩
  · rw [val_of_bounded houtputs, List.map_cons, List.map_singleton, makeOutput_payload hout0,
      makeOutput_payload hout1]
  · rw [List.length_mergeSort, ← hlen]
  · rw [val_of_bounded hbskeleton]
    exact map_eq_of_forall₂ hforall fun _ _ hs => (skeletonInput_made hs).1
  · rw [val_of_bounded hbskeleton]
    exact map_eq_of_forall₂ hforall fun _ _ hs => (skeletonInput_made hs).2

variable [DecidableEq Point]

/-- A proved input is the staged one with the proof that was found for it. -/
theorem proveInput_made {nonces : ℕ → Clsag.Nonces l} {msg : Bytes32} {x : Staged × ℕ}
    {input : FcmpInput} (h : proveInput E nonces msg membership x = .ok input) :
    input.keyImage = x.1.input.keyImage ∧ input.pseudoCommitment = x.1.cPrime ∧
      ∃ res, prove E (nonces x.2) msg ⟨membership.digests, membership.admitted, x.1.realIndex,
        x.1.input.secret, x.1.input.blinding, x.1.pseudoBlinding⟩ = .ok (some res) ∧
        input.fcmpProof.val = res.proof := by
  unfold proveInput at h
  dsimp only at h
  split at h
  · cases h
  · cases h
  next res hres =>
  split at h
  · cases h
  split at h
  · cases h
  next proof hproof =>
  cases h
  exact ⟨rfl, rfl, res, hres, val_of_bounded hproof⟩

/-- A built transfer is a skeleton with other inputs: the staged ones, proved under the signing hash
of the skeleton. -/
theorem buildTransferMulti_made {tx : TransferTx}
    (h : buildTransferMulti E w rand inputs membership dest sendAmount fee = .ok tx) :
    ∃ skeleton staged,
      skeletonTransfer E w rand inputs membership dest sendAmount fee = .ok (skeleton, staged) ∧
      tx = { skeleton with inputs := tx.inputs } ∧
      tryMap (proveInput E rand.nonces (signingHash E.blake2_256 skeleton) membership)
        staged.zipIdx = .ok tx.inputs.val := by
  unfold buildTransferMulti at h
  split at h
  · cases h
  next skeleton staged hskeleton =>
  dsimp only at h
  split at h
  · cases h
  next finalInputs hfinal =>
  split at h
  · cases h
  next bfinal hbounded =>
  cases h
  refine ⟨skeleton, staged, hskeleton, rfl, ?_⟩
  rw [hfinal]
  exact congrArg Except.ok (val_of_bounded hbounded).symm

/-- The inputs of a built transfer carry the key images and the pseudo-commitments of its skeleton. -/
theorem proved_alike {nonces : ℕ → Clsag.Nonces l} {msg : Bytes32} {skeleton : TransferTx}
    {staged : List Staged} {proved : List FcmpInput} (hs : Skeleton E inputs membership fee skeleton staged)
    (h : tryMap (proveInput E nonces msg membership) staged.zipIdx = .ok proved) :
    proved.map FcmpInput.keyImage = skeleton.inputs.val.map FcmpInput.keyImage ∧
      proved.map FcmpInput.pseudoCommitment = skeleton.inputs.val.map FcmpInput.pseudoCommitment := by
  have hforall := forall₂_of_tryMap h
  rw [hs.keyImages, hs.pseudos]
  constructor
  · rw [map_eq_of_forall₂ (f := fun x => x.1.input.keyImage) hforall
      fun _ _ hx => (proveInput_made hx).1]
    exact (List.map_map (g := fun s : Staged => s.input.keyImage) (f := Prod.fst)).symm.trans
      (congrArg _ (List.zipIdx_map_fst 0 staged))
  · rw [map_eq_of_forall₂ (f := fun x => x.1.cPrime) hforall fun _ _ hx => (proveInput_made hx).2.1]
    exact (List.map_map (g := Staged.cPrime) (f := Prod.fst)).symm.trans
      (congrArg _ (List.zipIdx_map_fst 0 staged))

end Kohl.Wallet
