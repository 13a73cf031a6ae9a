import Kohl.Pallet.Accounting
import Kohl.Security.Inflation

/-!
# The counters do not overflow

Both calls write before their last checked addition: a transfer its key images, a coinbase the fees it
takes. That an error still leaves the storage alone rests on the bounds of the money: the emission is
bounded by the curve and the number of blocks, and fees are paid out of coins that were emitted.

* `emitted_le_curve`: the emission of a reachable state.
* `blockFees_add_fee_le`: the waiting fees and the fee of a valid transfer are at most the emission.
* `counters_never_overflow`: no addition overflows, failed calls write nothing, and the inherent of a
  block is always built and accepted.
-/

namespace Kohl.Pallet

open ByteLib Run MembershipTree Fcmp CallLemmas ChainLemmas AccountingLemmas

/-! ## What a failed call leaves behind -/

namespace OverflowLemmas

variable {H : Host} {cfg : Config}

theorem verifyInputs_ne_overflow (s : Storage) (msg root : Bytes32) (inputs : List FcmpInput) :
    verifyInputs H s msg root inputs ≠ .error .arithmeticOverflow := by
  induction inputs with
  | nil =>
    intro h
    cases h
  | cons input inputs ih =>
    refine bind_ne_error ?_ fun _ => ih
    refine bind_ne_error (ensure_ne_error (by decide)) fun _ => ?_
    refine bind_ne_error (ensure_ne_error (by decide)) fun _ => ?_
    refine bind_ne_error (ensure_ne_error (by decide)) fun _ => ?_
    refine bind_ne_error (ensure_ne_error (by decide)) fun _ => ?_
    exact ensure_ne_error (by decide)

theorem verifyTransfer_ne_overflow (now : ℕ) (s : Storage) (tx : TransferTx) :
    verifyTransfer H cfg now s tx ≠ .error .arithmeticOverflow := by
  refine bind_ne_error (ensure_ne_error (by decide)) fun _ => ?_
  refine bind_ne_error (ensure_ne_error (by decide)) fun _ => ?_
  refine bind_ne_error (ensure_ne_error (by decide)) fun _ => ?_
  refine bind_ne_error (ensure_ne_error (by decide)) fun _ => ?_
  refine bind_ne_error (ensure_ne_error (by decide)) fun _ => ?_
  refine bind_ne_error (ensure_ne_error (by decide)) fun _ => ?_
  refine bind_ne_error (ensure_ne_error (by decide)) fun _ => ?_
  refine bind_ne_error (ensure_ne_error (by decide)) fun _ => ?_
  refine bind_ne_error (verifyInputs_ne_overflow _ _ _ _) fun _ => ?_
  refine bind_ne_error (ensure_ne_error (by decide)) fun _ => ?_
  exact ensure_ne_error (by decide)

theorem coinbaseTotal_ne_overflow (outs : List CoinbaseOutput) (total : UInt64) :
    coinbaseTotal H outs total ≠ .error .arithmeticOverflow := by
  induction outs generalizing total with
  | nil =>
    intro h
    cases h
  | cons out outs ih =>
    refine bind_ne_error (ensure_ne_error (by decide)) fun _ => ?_
    refine bind_ne_error (ensure_ne_error (by decide)) fun _ => ?_
    rcases checkedAdd total out.amount with _ | t
    · exact fun h => absurd (Except.error.inj h) (by decide)
    · exact ih t

theorem verifyCoinbase_ne_overflow (s : Storage) (outputs : List CoinbaseOutput)
    (txPubkey : Bytes32) : verifyCoinbase H s outputs txPubkey ≠ .error .arithmeticOverflow := by
  refine bind_ne_error (ensure_ne_error (by decide)) fun _ => ?_
  refine bind_ne_error (ensure_ne_error (by decide)) fun _ => ?_
  refine bind_ne_error (ensure_ne_error (by decide)) fun _ => ?_
  dsimp only
  rcases checkedAdd (blockReward s.emitted) s.blockFees with _ | entitled
  · exact fun h => absurd (Except.error.inj h) (by decide)
  · refine bind_ne_error (coinbaseTotal_ne_overflow _ _) fun _ => ?_
    refine bind_ne_error (ensure_ne_error (by decide)) fun _ => ?_
    intro h
    cases h

/-- A transfer that fails has written nothing, if the fees of a valid one fit. -/
theorem transfer_error {origin : Origin} {now : ℕ} {s : Storage} {tx : TransferTx} {e : DispatchError}
    (hfits : TransferValid H cfg now s tx → s.blockFees.toNat + tx.fee.toNat < 2 ^ 64)
    (h : (Pallet.transfer H cfg origin now s tx).1 = .error e) :
    e ≠ .module .arithmeticOverflow ∧ (Pallet.transfer H cfg origin now s tx).2 = s := by
  by_cases horigin : origin = .authorized
  · subst horigin
    rcases hverify : verifyTransfer H cfg now s tx with e' | ⟨⟩
    · have heq : Pallet.transfer H cfg .authorized now s tx = (.error (.module e'), s) := by
        unfold Pallet.transfer
        rw [if_neg (not_not.mpr rfl), hverify]
      rw [heq] at h ⊢
      cases h
      refine ⟨?_, rfl⟩
      rintro hmodule
      cases hmodule
      exact verifyTransfer_ne_overflow now s tx hverify
    · have hvalid := verifyTransfer_iff.mp hverify
      have hfees : checkedAdd s.blockFees tx.fee = some (s.blockFees + tx.fee) := by
        rw [checkedAdd, if_pos (hfits hvalid)]
      rw [transfer_eq_ok hvalid hfees] at h
      cases h
  · have heq : Pallet.transfer H cfg origin now s tx = (.error .badOrigin, s) := by
      unfold Pallet.transfer
      rw [if_pos horigin]
    rw [heq] at h ⊢
    cases h
    exact ⟨by decide, rfl⟩

/-- A coinbase that fails has written nothing, if the next reward fits. -/
theorem coinbase_error {origin : Origin} {now : ℕ} {s : Storage}
    {outputs : BoundedVec CoinbaseOutput MAX_OUTPUTS} {txPubkey : Bytes32} {e : DispatchError}
    (hfits : s.emitted.toNat + (blockReward s.emitted).toNat < 2 ^ 64)
    (h : (Pallet.coinbase H origin now s outputs txPubkey).1 = .error e) :
    e ≠ .module .arithmeticOverflow ∧ (Pallet.coinbase H origin now s outputs txPubkey).2 = s := by
  by_cases horigin : origin = .none
  · subst horigin
    rcases hverify : verifyCoinbase H s outputs.val txPubkey with e' | ⟨reward, fees⟩
    · have heq : Pallet.coinbase H .none now s outputs txPubkey = (.error (.module e'), s) := by
        unfold Pallet.coinbase
        rw [if_neg (not_not.mpr rfl), hverify]
      rw [heq] at h ⊢
      cases h
      refine ⟨?_, rfl⟩
      rintro hmodule
      cases hmodule
      exact verifyCoinbase_ne_overflow _ _ _ hverify
    · have hvalid := (verifyCoinbase_eq_ok.mp hverify).1
      have hemitted : checkedAdd s.emitted (blockReward s.emitted) =
          some (s.emitted + blockReward s.emitted) := by
        rw [checkedAdd, if_pos hfits]
      rw [coinbase_eq_ok hvalid hemitted] at h
      cases h
  · have heq : Pallet.coinbase H origin now s outputs txPubkey = (.error .badOrigin, s) := by
      unfold Pallet.coinbase
      rw [if_pos horigin]
    rw [heq] at h ⊢
    cases h
    exact ⟨by decide, rfl⟩

/-- The inherent of a block, and that it is a valid coinbase. -/
theorem exists_createInherent {s : Storage} (key txPubkey : Bytes32) (viewTag : UInt8)
    (hfits : (blockReward s.emitted).toNat + s.blockFees.toNat < 2 ^ 64) :
    ∃ outputs : BoundedVec CoinbaseOutput MAX_OUTPUTS,
      createInherent (onInitialize s) (some (key, txPubkey, viewTag)) =
        some (.coinbase outputs txPubkey) ∧
      (H.isValidPointV1 key = true → H.isValidPointV1 txPubkey = true →
        CoinbaseValid H (onInitialize s) outputs.val txPubkey) := by
  have hadd : checkedAdd (blockReward (onInitialize s).emitted) (onInitialize s).blockFees =
      some (blockReward s.emitted + s.blockFees) := by
    rw [checkedAdd]
    exact if_pos hfits
  have hamount : (blockReward s.emitted + s.blockFees).toNat =
      (blockReward s.emitted).toNat + s.blockFees.toNat := checkedAdd_eq_some.mp hadd
  have hpos : 0 < (blockReward s.emitted + s.blockFees).toNat := by
    have htail := tail_le_blockReward s.emitted
    have hthree : TAIL_REWARD = 30000000 := rfl
    omega
  have hne : blockReward s.emitted + s.blockFees ≠ 0 := by
    intro h
    rw [h] at hpos
    exact absurd hpos (by decide)
  have hone : 1 ≤ MAX_OUTPUTS := by decide
  refine ⟨⟨[⟨key, blockReward s.emitted + s.blockFees, viewTag⟩], hone⟩, ?_, ?_⟩
  · simp only [createInherent, Option.bind_some, hadd, if_neg hne]
    rfl
  · intro hkey hpubkey
    refine ⟨rfl, List.cons_ne_nil _ _, hpubkey, ?_, ?_, hfits, ?_⟩
    · intro out hout
      rw [List.mem_singleton.mp hout]
      exact UInt64.lt_iff_toNat_lt.mpr hpos
    · intro out hout
      rw [List.mem_singleton.mp hout]
      exact hkey
    · show (blockReward s.emitted + s.blockFees).toNat + 0 = _
      exact hamount

end OverflowLemmas

open OverflowLemmas

/-! ## The bounds -/

section Bounds

variable {H : Host} {cfg : Config}

/-- The emission is at most the supply of the curve and one tail reward for every coinbase. -/
theorem emitted_le_curve (ops : List Op) :
    (run (step H cfg) (.genesis H) ops).store.emitted.toNat ≤
      MAX_CURVE_SUPPLY + acceptedCoinbases H cfg (.genesis H) ops * TAIL_REWARD := by
  have heq := @emitted_eq_emissionAfter H cfg ops
  have hlt := (run (step H cfg) (.genesis H) ops).store.emitted.toNat_lt
  rw [heq] at hlt ⊢
  exact emissionAfter_le hlt

/-- Within `2 ^ 32` blocks the emission stays far below the largest counter. -/
theorem emitted_lt {ops : List Op} (hnumber : (run (step H cfg) (.genesis H) ops).number ≤ 2 ^ 32) :
    (run (step H cfg) (.genesis H) ops).store.emitted.toNat < 2 ^ 63 := by
  have hle := @emitted_le_curve H cfg ops
  have hcount := @acceptedCoinbases_le_number H cfg ops
  have hmul : acceptedCoinbases H cfg (.genesis H) ops * TAIL_REWARD ≤ (2 ^ 32 + 1) * TAIL_REWARD :=
    Nat.mul_le_mul_right _ ((Nat.le_add_right _ _).trans (hcount.trans (Nat.succ_le_succ hnumber)))
  refine Nat.lt_of_le_of_lt (hle.trans (Nat.add_le_add_left hmul _)) ?_
  decide

theorem blockReward_lt (e : UInt64) : (blockReward e).toNat < 2 ^ 63 :=
  Nat.lt_of_le_of_lt (blockReward_le e) (by decide)

end Bounds

section Ideal

variable {l : ℕ} {Point : Type} [AddCommGroup Point] [Module (ZMod l) Point] [DecidableEq Point]
variable {E : CryptoLib l Point} {cfg : Config}

/-- What is assumed of a transfer that is checked behind a run: sound proofs, and no collision among
the preimages of the trees of the run and of its own proofs. -/
structure IdealNext (E : CryptoLib l Point) (cfg : Config) (ops : List Op) (tx : TransferTx) :
    Prop where
  range : RangeSound E tx
  fcmp : FcmpSound E tx
  hash : CollisionFree E.blake2_256 (runPreimages (nativeHost E) cfg ops ++
    tx.inputs.val.flatMap fun input => proofPreimages E.blake2_256 input.fcmpProof.val)

/-- Fees are paid out of emitted coins: the waiting ones and that of a valid transfer together are at
most the emission. -/
theorem blockFees_add_fee_le (hl : 2 ^ 250 < l) (hind : Independent E) (hcanon : CanonicalPoints E)
    (hpublic : PublicAmounts E) {ops : List Op} (hideal : IdealRun E cfg ops) {now : ℕ}
    {tx : TransferTx} (hnext : IdealNext E cfg ops tx)
    (hvalid : TransferValid (nativeHost E) cfg now
      (run (step (nativeHost E) cfg) (.genesis (nativeHost E)) ops).store tx) :
    (run (step (nativeHost E) cfg) (.genesis (nativeHost E)) ops).store.blockFees.toNat +
        tx.fee.toNat ≤
      (run (step (nativeHost E) cfg) (.genesis (nativeHost E)) ops).store.emitted.toNat := by
  obtain ⟨a, hsim, hsound⟩ := exists_simulates hl hind hcanon hpublic hideal
  have hspends := exists_spends_of_valid hvalid hnext.fcmp fun input hinput =>
    hnext.hash.mono (List.append_subset.mpr ⟨List.subset_append_left _ _, fun x hx =>
      List.mem_append_right _ (List.mem_flatMap.mpr ⟨input, hinput, hx⟩)⟩)
  obtain ⟨is, his⟩ := exists_forall₂ hspends
  have hle := hsound.fees_add_le (hsim.admissible hl hind hcanon
    (hasValue_of_mem_ledger hpublic hideal) hvalid hnext.range his)
  rw [hsim.fees, hsim.emitted] at hle
  exact hle

/-- The waiting fees are at most the emission. -/
theorem blockFees_le (hl : 2 ^ 250 < l) (hind : Independent E) (hcanon : CanonicalPoints E)
    (hpublic : PublicAmounts E) {ops : List Op} (hideal : IdealRun E cfg ops) :
    (run (step (nativeHost E) cfg) (.genesis (nativeHost E)) ops).store.blockFees.toNat ≤
      (run (step (nativeHost E) cfg) (.genesis (nativeHost E)) ops).store.emitted.toNat := by
  obtain ⟨a, hsim, hsound⟩ := exists_simulates hl hind hcanon hpublic hideal
  have hle := hsound.fees_le
  rw [hsim.fees, hsim.emitted] at hle
  exact hle

/-- The counters never overflow and failed calls write nothing. In every state within `2 ^ 32` blocks of
a run with sound proofs the emission is bounded by the curve and the tail rewards; the fee of a valid
transfer, the payout of the next coinbase and the next emission fit; a call that fails does not fail
with an overflow and leaves the storage as it was, without any rollback; and behind the initialization
of the next block the inherent is built, and executed whenever its two keys are valid points. -/
theorem counters_never_overflow (E : CryptoLib l Point) (cfg : Config) (hl : 2 ^ 250 < l)
    (hind : Independent E) (hcanon : CanonicalPoints E) (hpublic : PublicAmounts E) (ops : List Op)
    (hideal : IdealRun E cfg ops)
    (hnumber : (run (step (nativeHost E) cfg) (.genesis (nativeHost E)) ops).number ≤ 2 ^ 32) :
    let c := run (step (nativeHost E) cfg) (.genesis (nativeHost E)) ops
    c.store.emitted.toNat ≤ MAX_CURVE_SUPPLY +
      acceptedCoinbases (nativeHost E) cfg (.genesis (nativeHost E)) ops * TAIL_REWARD ∧
    (∀ tx, IdealNext E cfg ops tx →
      verifyTransfer (nativeHost E) cfg c.number c.store tx = .ok () →
      c.store.blockFees.toNat + tx.fee.toNat < 2 ^ 64) ∧
    (blockReward c.store.emitted).toNat + c.store.blockFees.toNat < 2 ^ 64 ∧
    c.store.emitted.toNat + (blockReward c.store.emitted).toNat < 2 ^ 64 ∧
    (∀ origin call e, (∀ tx, call = .transfer tx → IdealNext E cfg ops tx) →
      (dispatch (nativeHost E) cfg origin c.number c.store call).1 = .error e →
      e ≠ .module .arithmeticOverflow ∧
        (dispatch (nativeHost E) cfg origin c.number c.store call).2 = c.store) ∧
    ∀ key txPubkey viewTag, ∃ call,
      createInherent (onInitialize c.store) (some (key, txPubkey, viewTag)) = some call ∧
      (Native.isValidPoint E key = true → Native.isValidPoint E txPubkey = true → ∃ ev,
        (dispatch (nativeHost E) cfg .none (c.number + 1) (onInitialize c.store) call).1 = .ok ev) := by
  intro c
  have hemitted : c.store.emitted.toNat < 2 ^ 63 := emitted_lt hnumber
  have hreward := blockReward_lt c.store.emitted
  have hfees : c.store.blockFees.toNat ≤ c.store.emitted.toNat :=
    blockFees_le hl hind hcanon hpublic hideal
  have htransfer : ∀ tx, IdealNext E cfg ops tx →
      TransferValid (nativeHost E) cfg c.number c.store tx →
      c.store.blockFees.toNat + tx.fee.toNat < 2 ^ 64 := by
    intro tx hnext hvalid
    have hle : c.store.blockFees.toNat + tx.fee.toNat ≤ c.store.emitted.toNat :=
      blockFees_add_fee_le hl hind hcanon hpublic hideal hnext hvalid
    omega
  have hnextReward : c.store.emitted.toNat + (blockReward c.store.emitted).toNat < 2 ^ 64 := by
    omega
  refine ⟨emitted_le_curve ops, ?_, by omega, hnextReward, ?_, ?_⟩
  · intro tx hnext hverify
    exact htransfer tx hnext (verifyTransfer_iff.mp hverify)
  · intro origin call e hnext herror
    cases call with
    | transfer tx => exact transfer_error (htransfer tx (hnext tx rfl)) herror
    | coinbase outputs txPubkey => exact coinbase_error hnextReward herror
  · intro key txPubkey viewTag
    obtain ⟨outputs, hcall, hvalid⟩ := @exists_createInherent (nativeHost E) c.store key txPubkey
      viewTag (by omega)
    refine ⟨_, hcall, fun hkey hpubkey => ?_⟩
    have hadd : checkedAdd (onInitialize c.store).emitted (blockReward (onInitialize c.store).emitted) =
        some (c.store.emitted + blockReward c.store.emitted) := by
      rw [checkedAdd]
      exact if_pos hnextReward
    exact ⟨_, congrArg Prod.fst (coinbase_eq_ok (hvalid hkey hpubkey) hadd)⟩

end Ideal

/-! ## The spend over the plane -/

/-- The run up to the spend. -/
def planeStart : List Op := blockOps planeBlock ++ [.onInitialize]

namespace OverflowLemmas

open PlaneLemmas

theorem planeOps_eq : planeOps = planeStart ++ [.dispatch .authorized (.transfer planeSpend)] := by
  rw [planeStart, planeOps, List.append_assoc]
  rfl

theorem planeStart_prefix : planeStart <+: planeOps := ⟨_, planeOps_eq.symm⟩

theorem planeStart_acceptedTransfers : acceptedTransfers (nativeHost (plane ristrettoOrder)) eagerConfig
    (.genesis (nativeHost (plane ristrettoOrder))) planeStart = [] := by
  rw [List.eq_nil_iff_forall_not_mem]
  intro tx htx
  have hmem := exists_dispatch_of_mem htx
  simp [planeStart, blockOps, planeBlock] at hmem

theorem planeStart_ideal : IdealRun (plane ristrettoOrder) eagerConfig planeStart := by
  refine ⟨?_, ?_, ?_⟩
  · rw [planeStart_acceptedTransfers]
    exact fun tx htx => absurd htx List.not_mem_nil
  · rw [planeStart_acceptedTransfers]
    exact fun tx htx => absurd htx List.not_mem_nil
  · rw [acceptedInputs, planeStart_acceptedTransfers, List.flatMap_nil, List.flatMap_nil,
      List.append_nil]
    exact planeOps_spec.2.mono fun x hx =>
      List.mem_append_left _ (runPreimages_mono planeStart_prefix hx)

theorem planeSpend_idealNext : IdealNext (plane ristrettoOrder) eagerConfig planeStart planeSpend := by
  refine ⟨fun _ out _ => plane_hasValue _, planeSpend_fcmpSound, ?_⟩
  refine planeOps_spec.2.mono (List.append_subset.mpr ⟨fun x hx => ?_,
    List.subset_append_right _ _⟩)
  exact List.mem_append_left _ (runPreimages_mono planeStart_prefix hx)

theorem planeSpend_valid : TransferValid (nativeHost (plane ristrettoOrder)) eagerConfig
    (run (step (nativeHost (plane ristrettoOrder)) eagerConfig)
      (.genesis (nativeHost (plane ristrettoOrder))) planeStart).number
    (run (step (nativeHost (plane ristrettoOrder)) eagerConfig)
      (.genesis (nativeHost (plane ristrettoOrder))) planeStart).store planeSpend := by
  obtain ⟨hlength, -⟩ := planeOps_spec
  rw [acceptedInputs, planeOps_eq, acceptedTransfers_concat, planeStart_acceptedTransfers] at hlength
  rcases hexec : acceptedTransfer (nativeHost (plane ristrettoOrder)) eagerConfig
    (run (step (nativeHost (plane ristrettoOrder)) eagerConfig)
      (.genesis (nativeHost (plane ristrettoOrder))) planeStart)
    (.dispatch .authorized (.transfer planeSpend)) with _ | tx
  · rw [hexec] at hlength
    cases hlength
  · obtain rfl := eq_of_acceptedTransfer hexec
    exact (acceptedTransfer_spec hexec).1

end OverflowLemmas

theorem counters_never_overflow_plane :
    (run (step (nativeHost (plane ristrettoOrder)) eagerConfig)
      (.genesis (nativeHost (plane ristrettoOrder))) planeStart).store.blockFees.toNat +
      planeSpend.fee.toNat < 2 ^ 64 ∧
    (run (step (nativeHost (plane ristrettoOrder)) eagerConfig)
      (.genesis (nativeHost (plane ristrettoOrder))) planeStart).store.emitted.toNat ≤
      MAX_CURVE_SUPPLY + acceptedCoinbases (nativeHost (plane ristrettoOrder)) eagerConfig
        (.genesis (nativeHost (plane ristrettoOrder))) planeStart * TAIL_REWARD := by
  have hl : 2 ^ 250 < ristrettoOrder := by decide
  obtain ⟨hemitted, hfee, -⟩ := counters_never_overflow (plane ristrettoOrder) eagerConfig hl
    PlaneLemmas.plane_independent (fun _ _ => plane_compress_of_decompress hl)
    (plane_decompress_value hl) planeStart planeStart_ideal (by decide)
  exact ⟨hfee planeSpend planeSpend_idealNext (verifyTransfer_iff.mpr planeSpend_valid), hemitted⟩

end Kohl.Pallet
