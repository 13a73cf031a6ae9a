import Kohl.Pallet.Commute
import Kohl.Security.SpendPath
import Kohl.Wallet.Accepted

/-!
# The pool and the ledger

The pool decides about a transfer with a few cheap checks, tags it with its key images and keeps it
for a fixed number of blocks; everything else is left to the dispatch. Here the two are compared: what
the tags say about conflicts, what an accepted transfer pays, and how long its anchor lives.

* `gatePassed_of_transferValid`: the pool never turns away a transfer that consensus accepts.
* `pool_gate_exact`: the tags of two valid transfers meet exactly when the transfers conflict.
* `fee_of_authorized`: a transfer the pool takes pays its fee once, exactly when consensus accepts it.
* `anchor_outlives_entry`: an entry anchored to the root of the block it is checked in expires first.
* `anchor_expires_first`: one anchored to an older root may not.
-/

namespace Kohl.Pallet

open ByteLib Run CallLemmas

variable {H : Host} {cfg : Config}

/-! ## The gate and the consensus check -/

/-- The checks of the pool are among those of consensus. -/
theorem gatePassed_of_transferValid {now : ℕ} {s : Storage} {tx : TransferTx}
    (h : TransferValid H cfg now s tx) : GatePassed cfg now s tx :=
  ⟨h.fee, h.inputs_ne, h.outputs_ne, h.unspent, h.root⟩

namespace PoolLemmas

theorem tag_inj {a b : Bytes32} (h : ascii "kohl/ki" ++ a.val = ascii "kohl/ki" ++ b.val) : a = b :=
  Subtype.ext (List.append_cancel_left h)

/-- The tags of a transfer are those of its key images. -/
theorem mem_provides {tx : TransferTx} {tag : Bytes} :
    tag ∈ (poolEntry tx).provides ↔
      ∃ ki ∈ tx.inputs.val.map FcmpInput.keyImage, tag = ascii "kohl/ki" ++ ki.val := by
  rw [poolEntry, List.mem_map]
  constructor
  · rintro ⟨input, hinput, rfl⟩
    exact ⟨_, List.mem_map_of_mem hinput, rfl⟩
  · rintro ⟨ki, hki, rfl⟩
    obtain ⟨input, hinput, rfl⟩ := List.mem_map.mp hki
    exact ⟨input, hinput, rfl⟩

theorem tags_meet_iff {t₁ t₂ : TransferTx} :
    (∃ tag, tag ∈ (poolEntry t₁).provides ∧ tag ∈ (poolEntry t₂).provides) ↔
      ∃ ki, ki ∈ t₁.inputs.val.map FcmpInput.keyImage ∧
        ki ∈ t₂.inputs.val.map FcmpInput.keyImage := by
  constructor
  · rintro ⟨tag, h₁, h₂⟩
    obtain ⟨ki, hki, rfl⟩ := mem_provides.mp h₁
    obtain ⟨ki', hki', heq⟩ := mem_provides.mp h₂
    rw [← tag_inj heq] at hki'
    exact ⟨ki, hki, hki'⟩
  · rintro ⟨ki, h₁, h₂⟩
    exact ⟨_, mem_provides.mpr ⟨ki, h₁, rfl⟩, mem_provides.mpr ⟨ki, h₂, rfl⟩⟩

theorem ensure_bind_of_true {ε β : Type} {b : Bool} (hb : b = true) (e : ε)
    (f : Unit → Except ε β) : (ensure b e >>= f) = f () := by
  subst hb
  rfl

theorem ensure_bind_of_false {ε β : Type} {b : Bool} (hb : b = false) (e : ε)
    (f : Unit → Except ε β) : (ensure b e >>= f) = .error e := by
  subst hb
  rfl

/-- Inputs whose proofs are fine fail with the first spent key image. -/
theorem verifyInputs_of_spent {s s' : Storage} {msg root : Bytes32} {inputs : List FcmpInput}
    (hok : ∀ input ∈ inputs, verifyInput H s msg root input = .ok ()) {ki : Bytes32}
    (hki : ki ∈ inputs.map FcmpInput.keyImage) (hspent : s'.keyImages.containsKey ki = true) :
    verifyInputs H s' msg root inputs = .error .keyImageAlreadySpent := by
  induction inputs with
  | nil => exact absurd hki List.not_mem_nil
  | cons input inputs ih =>
    rw [List.forall_mem_cons] at hok
    rw [verifyInputs]
    rcases hfirst : s'.keyImages.containsKey input.keyImage with _ | _
    · -- the first input passes, so the spent key image is among the others
      have hinput : verifyInput H s' msg root input = .ok () :=
        verifyInput_iff.mpr ⟨hfirst, (verifyInput_iff.mp hok.1).2⟩
      rw [List.map_cons, List.mem_cons] at hki
      rcases hki with rfl | hki
      · rw [hfirst] at hspent
        cases hspent
      · rw [hinput]
        exact ih hok.2 hki
    · have hinput : verifyInput H s' msg root input = .error .keyImageAlreadySpent := by
        rw [verifyInput, ensure_bind_of_true (decide_eq_true input.fcmpProof.property),
          ensure_bind_of_false (by rw [hfirst]; rfl)]
      rw [hinput]
      rfl

/-- A transfer that was valid once is refused, once a key image of it is spent, by that check or by
one of the two before it that depend on the state. -/
theorem verifyTransfer_of_spent {now now' : ℕ} {s s' : Storage} {tx : TransferTx}
    (h : TransferValid H cfg now s tx) {ki : Bytes32}
    (hki : ki ∈ tx.inputs.val.map FcmpInput.keyImage) (hspent : s'.keyImages.containsKey ki = true) :
    ∃ e, verifyTransfer H cfg now' s' tx = .error e ∧
      (e = .treeTooLargeForFcmp ∨ e = .rootStale ∨ e = .keyImageAlreadySpent) := by
  have hne : (!tx.inputs.val.isEmpty && !tx.outputs.val.isEmpty) = true := by
    rw [Bool.and_eq_true, Bool.not_eq_true', Bool.not_eq_true', List.isEmpty_eq_false_iff,
      List.isEmpty_eq_false_iff]
    exact ⟨h.inputs_ne, h.outputs_ne⟩
  have hkeys : (tx.outputs.val.all fun out => H.isValidPointV1 out.oneTimeKey) = true := by
    rw [List.all_eq_true]
    exact h.keys
  have hinputs := verifyInputs_of_spent (s := s)
    (fun input hinput => verifyInput_iff.mpr ⟨h.unspent input hinput, h.keyImages input hinput,
      h.pseudos input hinput, h.fcmp input hinput⟩) hki hspent
  rw [verifyTransfer, ensure_bind_of_true hne, ensure_bind_of_true (decide_eq_true tx.inputs.property),
    ensure_bind_of_true (sorted_iff.mpr h.sorted), ensure_bind_of_true (decide_eq_true h.fee),
    ensure_bind_of_true h.txPubkey, ensure_bind_of_true hkeys]
  rcases hslots : decide (s'.treeSlots ≤ MAX_FCMP_ANON_SET) with _ | _
  · exact ⟨_, ensure_bind_of_false rfl _ _, .inl rfl⟩
  rw [ensure_bind_of_true rfl]
  rcases hroot : membershipRootAccepted now' s' tx.membershipRoot with _ | _
  · exact ⟨_, ensure_bind_of_false rfl _ _, .inr (.inl rfl)⟩
  rw [ensure_bind_of_true rfl, hinputs]
  exact ⟨_, rfl, .inr (.inr rfl)⟩

end PoolLemmas

open PoolLemmas

/-- Without a further transfer no key image is added. -/
theorem keyImages_of_acceptedTransfers_nil {c : Chain} {ops : List Op}
    (h : acceptedTransfers H cfg c ops = []) (ki : Bytes32) :
    (run (step H cfg) c ops).store.keyImages.containsKey ki = c.store.keyImages.containsKey ki := by
  induction ops generalizing c with
  | nil => rfl
  | cons op ops ih =>
    rw [acceptedTransfers, List.append_eq_nil_iff, Option.toList_eq_nil_iff] at h
    rw [run_cons, ih h.2, Bool.eq_iff_iff, containsKey_keyImages_step, h.1]
    simp

/-- The pool gate never blocks a valid transfer and flags exactly the conflicts. Two transfers that
consensus accepts in a state are both taken by the pool there, and their tags meet exactly when they
share a key image. If they do, then once one of them is executed, the other is refused in every later
state, as spent or by one of the two state checks before; if they do not, no key image of the other is
spent in any later state reached without a further transfer. -/
theorem pool_gate_exact (H : Host) (cfg : Config) (c : Chain) (t₁ t₂ : TransferTx)
    (h₁ : verifyTransfer H cfg c.number c.store t₁ = .ok ())
    (h₂ : verifyTransfer H cfg c.number c.store t₂ = .ok ()) :
    ∃ v₁ v₂, authorizeTransfer cfg c.number c.store t₁ = .ok v₁ ∧
      authorizeTransfer cfg c.number c.store t₂ = .ok v₂ ∧
      ((∃ tag, tag ∈ v₁.provides ∧ tag ∈ v₂.provides) ↔
        ∃ ki, ki ∈ t₁.inputs.val.map FcmpInput.keyImage ∧
          ki ∈ t₂.inputs.val.map FcmpInput.keyImage) ∧
      ((∃ tag, tag ∈ v₁.provides ∧ tag ∈ v₂.provides) →
        acceptedTransfer H cfg c (.dispatch .authorized (.transfer t₁)) = some t₁ → ∀ later,
        let c' := run (step H cfg) c (.dispatch .authorized (.transfer t₁) :: later)
        ∃ e, verifyTransfer H cfg c'.number c'.store t₂ = .error e ∧
          (e = .treeTooLargeForFcmp ∨ e = .rootStale ∨ e = .keyImageAlreadySpent)) ∧
      ((¬∃ tag, tag ∈ v₁.provides ∧ tag ∈ v₂.provides) → ∀ later,
        acceptedTransfers H cfg (step H cfg c (.dispatch .authorized (.transfer t₁))) later = [] →
        ∀ ki ∈ t₂.inputs.val.map FcmpInput.keyImage,
          (run (step H cfg) c (.dispatch .authorized (.transfer t₁) :: later)).store.keyImages.containsKey
            ki = false) := by
  rw [verifyTransfer_iff] at h₁ h₂
  refine ⟨poolEntry t₁, poolEntry t₂,
    authorizeTransfer_eq_ok.mpr ⟨gatePassed_of_transferValid h₁, rfl⟩,
    authorizeTransfer_eq_ok.mpr ⟨gatePassed_of_transferValid h₂, rfl⟩, tags_meet_iff, ?_, ?_⟩
  · intro hmeet hexec later c'
    obtain ⟨ki, hki₁, hki₂⟩ := tags_meet_iff.mp hmeet
    have hspent : c'.store.keyImages.containsKey ki = true :=
      keyImages_mono ((containsKey_keyImages_step c _ ki).mpr (.inl ⟨t₁, hexec, hki₁⟩)) later
    exact verifyTransfer_of_spent h₂ hki₂ hspent
  · intro hdisjoint later hlater ki hki
    obtain ⟨input, hinput, rfl⟩ := List.mem_map.mp hki
    rw [run_cons, keyImages_of_acceptedTransfers_nil hlater, ← Bool.not_eq_true,
      containsKey_keyImages_step, not_or, Bool.not_eq_true]
    refine ⟨?_, h₂.unspent input hinput⟩
    rintro ⟨tx, hexec, hmem⟩
    rw [← eq_of_acceptedTransfer hexec] at hmem
    exact hdisjoint (tags_meet_iff.mpr ⟨_, hmem, hki⟩)

/-- Behind the first of two spends of a split reward the second is still unspent, and the first is refused
when it comes again. -/
theorem pool_gate_exact_split :
    let c := step sampleHost ⟨0, 0, 0⟩ splitChain (.dispatch .authorized (.transfer splitFirst))
    (∀ ki ∈ splitSecond.keyImages, c.store.keyImages.containsKey ki = false) ∧
      ∃ e, verifyTransfer sampleHost ⟨0, 0, 0⟩ c.number c.store splitFirst = .error e := by
  have hverified := CommuteLemmas.splitSpends_compatible.verified
  have hfirst := hverified splitFirst List.mem_cons_self
  have hsecond := hverified splitSecond (List.mem_cons_of_mem _ List.mem_cons_self)
  constructor
  · obtain ⟨v₁, v₂, -, -, htags, -, hdisjoint⟩ :=
      pool_gate_exact sampleHost ⟨0, 0, 0⟩ splitChain splitFirst splitSecond hfirst hsecond
    refine hdisjoint ?_ [] rfl
    rw [htags]
    rintro ⟨ki, hki₁, hki₂⟩
    exact List.rel_of_pairwise_cons CommuteLemmas.splitSpends_compatible.disjoint List.mem_cons_self hki₁ hki₂
  · obtain ⟨v₁, v₂, -, -, htags, hmeet, -⟩ :=
      pool_gate_exact sampleHost ⟨0, 0, 0⟩ splitChain splitFirst splitFirst hfirst hfirst
    have hsum := CommuteLemmas.splitSpends_compatible.fees
    rw [List.map_cons, List.sum_cons, ← Nat.add_assoc] at hsum
    have hfees : checkedAdd splitChain.store.blockFees splitFirst.fee =
        some (splitChain.store.blockFees + splitFirst.fee) :=
      if_pos ((Nat.le_add_right _ _).trans_lt hsum)
    have hexec := acceptedTransfer_of_valid (verifyTransfer_iff.mp hfirst) hfees
    obtain ⟨input, hinput⟩ := List.exists_mem_of_ne_nil _ (verifyTransfer_iff.mp hfirst).inputs_ne
    have hki := List.mem_map_of_mem (f := FcmpInput.keyImage) hinput
    obtain ⟨e, hrefused, -⟩ := hmeet (htags.mpr ⟨_, hki, hki⟩) hexec []
    exact ⟨e, hrefused⟩

/-! ## What a pool entry pays -/

/-- A transfer the pool takes declares at least the floor for its size. If consensus accepts it and the
waiting fees do not overflow, its dispatch adds the fee to them, and no later state takes the transfer
again; otherwise its dispatch changes nothing. -/
theorem fee_of_authorized (H : Host) (cfg : Config) (c : Chain) (tx : TransferTx)
    (v : ValidTransaction) (h : authorizeTransfer cfg c.number c.store tx = .ok v) :
    saturatingMul cfg.minFeePerByte tx.encodedSize ≤ tx.fee ∧
    (verifyTransfer H cfg c.number c.store tx = .ok () ∧
        c.store.blockFees.toNat + tx.fee.toNat < 2 ^ 64 →
      (step H cfg c (.dispatch .authorized (.transfer tx))).store.blockFees.toNat =
        c.store.blockFees.toNat + tx.fee.toNat ∧
      ∀ later v', authorizeTransfer cfg
        (run (step H cfg) c (.dispatch .authorized (.transfer tx) :: later)).number
        (run (step H cfg) c (.dispatch .authorized (.transfer tx) :: later)).store tx ≠ .ok v') ∧
    (¬(verifyTransfer H cfg c.number c.store tx = .ok () ∧
        c.store.blockFees.toNat + tx.fee.toNat < 2 ^ 64) →
      step H cfg c (.dispatch .authorized (.transfer tx)) = c) := by
  obtain ⟨hgate, -⟩ := authorizeTransfer_eq_ok.mp h
  refine ⟨hgate.fee, ?_, ?_⟩
  · rintro ⟨hverify, hfits⟩
    have hfees : checkedAdd c.store.blockFees tx.fee = some (c.store.blockFees + tx.fee) := by
      rw [checkedAdd, if_pos hfits]
    have hexec := acceptedTransfer_of_valid (verifyTransfer_iff.mp hverify) hfees
    obtain ⟨-, fees, hfees', hstore⟩ := acceptedTransfer_spec hexec
    refine ⟨?_, ?_⟩
    · rw [hstore, (transferred_money _ _ _ _).1]
      exact checkedAdd_eq_some.mp hfees'
    · intro later v' hv'
      -- its key images are spent from now on
      obtain ⟨input, hinput⟩ := List.exists_mem_of_ne_nil _ hgate.inputs_ne
      have hspent := keyImages_of_acceptedTransfer hexec (List.mem_map_of_mem hinput) later
      rw [(authorizeTransfer_eq_ok.mp hv').1.unspent input hinput] at hspent
      cases hspent
  · intro hfails
    have hspec := @step_spec H cfg c (.dispatch .authorized (.transfer tx))
    have hchain : step H cfg c (.dispatch .authorized (.transfer tx)) =
        { c with store := (step H cfg c (.dispatch .authorized (.transfer tx))).store } := rfl
    rw [hchain]
    generalize (step H cfg c (.dispatch .authorized (.transfer tx))).store = s' at hspec ⊢
    generalize acceptedCall H cfg c (.dispatch .authorized (.transfer tx)) = a at hspec
    cases hspec with
    | rejected origin call e he => rfl
    | transfer tx fees hvalid hfees =>
      have hlt := fees.toNat_lt
      rw [checkedAdd_eq_some.mp hfees] at hlt
      exact absurd ⟨verifyTransfer_iff.mpr hvalid, hlt⟩ hfails

open Wallet SampleLemmas in
theorem fee_of_authorized_payout : ∃ tx, payoutSpend = .ok tx ∧
    (step (nativeHost (cyclic ristrettoOrder)) eagerConfig payoutChain
      (.dispatch .authorized (.transfer tx))).store.blockFees.toNat = tx.fee.toNat := by
  obtain ⟨tx, htx, hvalid⟩ := payoutSpend_valid
  have hvalid' := hvalid payoutChain.number
  obtain ⟨-, hfees, -⟩ := payoutChain_collisionFree
  have hfits : payoutChain.store.blockFees.toNat + tx.fee.toNat < 2 ^ 64 := by
    rw [hfees, Nat.zero_add]
    exact tx.fee.toNat_lt
  obtain ⟨-, hpaid, -⟩ := fee_of_authorized (nativeHost (cyclic ristrettoOrder)) eagerConfig
    payoutChain tx _ (authorizeTransfer_eq_ok.mpr ⟨gatePassed_of_transferValid hvalid', rfl⟩)
  have hadded := (hpaid ⟨verifyTransfer_iff.mpr hvalid', hfits⟩).1
  rw [hfees, Nat.zero_add] at hadded
  exact ⟨tx, htx, hadded⟩

/-- A transfer without proofs that declares a large fee. -/
def unprovenTransfer (root : Bytes32) : TransferTx where
  membershipRoot := root
  inputs := ⟨[⟨Cyclic.toBytes (Cyclic.scalarOf 7), Cyclic.toBytes (Cyclic.scalarOf 8),
    ⟨[], Nat.zero_le _⟩⟩], by decide⟩
  outputs := ⟨[⟨Cyclic.toBytes (Cyclic.scalarOf 5), Cyclic.toBytes (Cyclic.scalarOf 6), 0,
    ⟨[], Nat.zero_le _⟩⟩], by decide⟩
  txPubkey := Cyclic.toBytes (Cyclic.scalarOf 3)
  rangeProof := ⟨[], Nat.zero_le _⟩
  fee := 1000000

namespace PoolLemmas

theorem encodedSize_unprovenTransfer (root root' : Bytes32) :
    (unprovenTransfer root).encodedSize = (unprovenTransfer root').encodedSize := by
  simp only [TransferTx.encodedSize, TransferTx.encode, unprovenTransfer, List.length_append,
    Bytes32.length_val]

/-- The pool takes it wherever its root is accepted and its key image is new. -/
theorem gatePassed_unprovenTransfer {now : ℕ} {s : Storage} {root : Bytes32}
    (hroot : membershipRootAccepted now s root = true)
    (hnew : s.keyImages.containsKey (Cyclic.toBytes (Cyclic.scalarOf 7 : ZMod ristrettoOrder)) = false) :
    GatePassed runtimeConfig now s (unprovenTransfer root) := by
  refine ⟨?_, List.cons_ne_nil _ _, List.cons_ne_nil _ _, ?_, hroot⟩
  · rw [encodedSize_unprovenTransfer root ⟨List.replicate 32 0, rfl⟩]
    show _ ≤ (1000000 : UInt64)
    decide +kernel
  · intro input hinput
    rw [List.mem_singleton.mp hinput]
    exact hnew

end PoolLemmas

/-- The first block, before its first call. -/
def firstBlock : Chain := insideBlock (nativeHost (cyclic ristrettoOrder)) runtimeConfig [] []

/-- In the first block the pool takes a transfer without proofs; its dispatch pays nothing. -/
theorem unproven_pays_nothing :
    authorizeTransfer runtimeConfig firstBlock.number firstBlock.store
        (unprovenTransfer firstBlock.store.membershipRoot) =
      .ok (poolEntry (unprovenTransfer firstBlock.store.membershipRoot)) ∧
    (step (nativeHost (cyclic ristrettoOrder)) runtimeConfig firstBlock (.dispatch .authorized
        (.transfer (unprovenTransfer firstBlock.store.membershipRoot)))).store.blockFees.toNat ≠
      firstBlock.store.blockFees.toNat +
        (unprovenTransfer firstBlock.store.membershipRoot).fee.toNat := by
  refine ⟨authorizeTransfer_eq_ok.mpr ⟨gatePassed_unprovenTransfer ?_ rfl, rfl⟩, by decide +kernel⟩
  exact membershipRootAccepted_iff.mpr (.inl rfl)

/-! ## How long an anchor lives -/

/-- A transfer that the pool takes at the end of block `n`, anchored to the root recorded for that
block, keeps its anchor as long as the pool keeps the transfer: at the ends of the blocks before
`n + longevity` and everywhere inside the blocks up to it. -/
theorem anchor_outlives_entry (H : Host) (cfg : Config) (blocks : List (List (Origin × Call)))
    (tx : TransferTx) (v : ValidTransaction)
    (hauth : authorizeTransfer cfg (afterBlocks H cfg blocks).number (afterBlocks H cfg blocks).store
      tx = .ok v)
    (hroot : (afterBlocks H cfg blocks).store.membershipRootAt.get (afterBlocks H cfg blocks).number =
      some tx.membershipRoot) :
    ∀ later calls, later.length < v.longevity →
      membershipRootAccepted (afterBlocks H cfg (blocks ++ later)).number
        (afterBlocks H cfg (blocks ++ later)).store tx.membershipRoot = true ∧
      membershipRootAccepted (insideBlock H cfg (blocks ++ later) calls).number
        (insideBlock H cfg (blocks ++ later) calls).store tx.membershipRoot = true := by
  intro later calls hlater
  have hage : FCMP_ROOT_MAX_AGE_BLOCKS = 64 := rfl
  obtain ⟨-, rfl⟩ := authorizeTransfer_eq_ok.mp hauth
  have hlongevity : (poolEntry tx).longevity = 64 := rfl
  rw [hlongevity] at hlater
  -- the root recorded for block `n` is the one at its end
  rw [(number_afterBlocks blocks).1, rootAt_afterBlocks] at hroot
  split at hroot
  case isFalse => cases hroot
  next hwin =>
  rw [List.take_length, Option.some.injEq] at hroot
  have htake : (blocks ++ later).take blocks.length = blocks := List.take_left
  constructor
  · rw [(number_afterBlocks (blocks ++ later)).1, List.length_append]
    refine membershipRootAccepted_iff.mpr (.inr ⟨blocks.length, by omega, by omega, ?_⟩)
    rw [rootAt_afterBlocks, htake, hroot, List.length_append, if_pos (by omega)]
  · rw [(insideBlock_spec (blocks ++ later) calls).1]
    refine rootAccepted_insideBlock.mpr (.inr ⟨blocks.length, ?_, ?_, ?_⟩)
    · rw [List.length_append]
      omega
    · rw [List.length_append]
      omega
    · rw [htake, hroot]

/-- The chain behind `n` mined blocks and `k` empty ones. -/
def minedThenIdle (n k : ℕ) : Chain :=
  afterBlocks (nativeHost (cyclic ristrettoOrder)) runtimeConfig
    (MinedLemmas.sampleMined n ++ List.replicate k [])

/-- The chain inside the block that follows. -/
def insideIdle (n k : ℕ) : Chain :=
  insideBlock (nativeHost (cyclic ristrettoOrder)) runtimeConfig
    (MinedLemmas.sampleMined n ++ List.replicate k []) []

namespace PoolLemmas

open MembershipTree MinedLemmas

theorem length_mined (n k : ℕ) : (sampleMined n ++ List.replicate k []).length = n + k := by
  have hmined : (sampleMined n).length = n := by
    induction n with
    | zero => rfl
    | succ n ih =>
      show (sampleMined n ++ [_]).length = n + 1
      rw [List.length_append, ih]
      rfl
  rw [List.length_append, hmined, List.length_replicate]

theorem root_insideIdle (n k : ℕ) :
    (insideIdle n k).store.membershipRoot = (minedThenIdle n k).store.membershipRoot := by
  rw [insideIdle, WindowLemmas.insideBlock_eq, minedThenIdle]
  rfl

/-- The pool takes the unproven transfer for every root of the window. -/
theorem authorize_minedThenIdle {n k : ℕ} {root : Bytes32}
    (hroot : membershipRootAccepted (minedThenIdle n k).number (minedThenIdle n k).store root = true)
    (hnew : (minedThenIdle n k).store.keyImages.containsKey
      (Cyclic.toBytes (Cyclic.scalarOf 7 : ZMod ristrettoOrder)) = false) :
    authorizeTransfer runtimeConfig (minedThenIdle n k).number (minedThenIdle n k).store
      (unprovenTransfer root) = .ok (poolEntry (unprovenTransfer root)) :=
  authorizeTransfer_eq_ok.mpr ⟨gatePassed_unprovenTransfer hroot hnew, rfl⟩

/-- The roots a tree over two outputs can have, whichever of them are admitted. -/
def twoSlotRoots (hash : Bytes → Bytes32) (a b : StoredOutput) : List Bytes32 :=
  [none, some (a.oneTimeKey, a.commitment)].flatMap fun x =>
    [none, some (b.oneTimeKey, b.commitment)].map fun y =>
      rootFromLeaves hash [slotDigest hash x, slotDigest hash y]

theorem slotOf_mem {s : Storage} {i : ℕ} {out : StoredOutput} (h : s.outputs.get i = some out) :
    slotOf s i ∈ [none, some (out.oneTimeKey, out.commitment)] := by
  rw [slotOf, h]
  split
  · exact List.mem_cons_of_mem _ List.mem_cons_self
  · exact List.mem_cons_self

theorem root_mem_twoSlotRoots {ops : List Op} {a b : StoredOutput}
    (hnext : (run (step H cfg) (.genesis H) ops).store.nextOutputIndex = 2)
    (ha : (run (step H cfg) (.genesis H) ops).store.outputs.get 0 = some a)
    (hb : (run (step H cfg) (.genesis H) ops).store.outputs.get 1 = some b) :
    (run (step H cfg) (.genesis H) ops).store.membershipRoot ∈ twoSlotRoots H.blake2_256 a b := by
  rw [membershipRoot_eq_slotsOf, slotsOf, (treeInv_run_genesis ops).2, hnext]
  exact List.mem_flatMap.mpr ⟨_, slotOf_mem ha, List.mem_map.mpr ⟨_, slotOf_mem hb, rfl⟩⟩

/-- The reward of the first or second of the mined blocks, as it is stored. -/
def minedOutput (height : ℕ) (amount : UInt64) : StoredOutput :=
  storedOfCoinbase (nativeHost (cyclic ristrettoOrder)) height (Cyclic.toBytes (Cyclic.scalarOf 3))
    ⟨Cyclic.toBytes (Cyclic.scalarOf 5), amount, 0⟩

/-- What is stored behind the two mined blocks, and behind the first one. -/
theorem minedTwo_spec : (minedThenIdle 2 0).store.nextOutputIndex = 2 ∧
    (minedThenIdle 2 0).store.outputs.get 0 = some (minedOutput 1 (blockReward 0)) ∧
    (minedThenIdle 2 0).store.outputs.get 1 =
      some (minedOutput 2 (blockReward (blockReward 0))) ∧
    (minedThenIdle 2 0).store.keyImages.containsKey
      (Cyclic.toBytes (Cyclic.scalarOf 7 : ZMod ristrettoOrder)) = false ∧
    (minedThenIdle 1 0).store.keyImages.containsKey
      (Cyclic.toBytes (Cyclic.scalarOf 7 : ZMod ristrettoOrder)) = false ∧
    (minedThenIdle 1 0).store.membershipRoot ∉
      twoSlotRoots (nativeHost (cyclic ristrettoOrder)).blake2_256 (minedOutput 1 (blockReward 0))
        (minedOutput 2 (blockReward (blockReward 0))) := by
  decide +kernel

/-- Behind two mined blocks the tree has two slots, so its root is not the one of the first block. -/
theorem root_minedThenIdle_ne (k : ℕ) :
    (minedThenIdle 2 k).store.membershipRoot ≠ (minedThenIdle 1 0).store.membershipRoot := by
  have hrun : minedThenIdle 2 k = run (step (nativeHost (cyclic ristrettoOrder)) runtimeConfig)
      (minedThenIdle 2 0) (emptyBlocks k) := by
    rw [minedThenIdle, minedThenIdle, afterBlocks, List.flatMap_append, run_append, afterBlocks,
      List.flatMap_append, run_append]
    rfl
  obtain ⟨hnext, ha, hb, -, -, hroot⟩ := minedTwo_spec
  obtain ⟨hkept, -⟩ := @emptyBlocks_keep (nativeHost (cyclic ristrettoOrder)) runtimeConfig
    (minedThenIdle 2 0) k
  rw [← hrun] at hkept
  rw [← hkept.next] at hnext
  rw [← hkept.outputs] at ha hb
  intro heq
  refine hroot (heq ▸ ?_)
  exact root_mem_twoSlotRoots hnext ha hb

end PoolLemmas

open MinedLemmas in
theorem anchor_outlives_entry_mined :
    (minedThenIdle 1 0).store.membershipRootAt.get 1 =
      some (minedThenIdle 1 0).store.membershipRoot ∧
    membershipRootAccepted (insideIdle 1 63).number (insideIdle 1 63).store
      (minedThenIdle 1 0).store.membershipRoot = true := by
  have hrecorded : (minedThenIdle 1 0).store.membershipRootAt.get 1 =
      some (minedThenIdle 1 0).store.membershipRoot := by
    rw [minedThenIdle, rootAt_afterBlocks, length_mined, if_pos (by decide),
      List.take_of_length_le (by rw [length_mined])]
  have hnumber : (minedThenIdle 1 0).number = 1 := by
    rw [minedThenIdle, (number_afterBlocks _).1, length_mined]
  obtain ⟨-, -, -, -, hnew, -⟩ := minedTwo_spec
  refine ⟨hrecorded, ?_⟩
  exact (anchor_outlives_entry (nativeHost (cyclic ristrettoOrder)) runtimeConfig
    (sampleMined 1 ++ List.replicate 0 []) (unprovenTransfer (minedThenIdle 1 0).store.membershipRoot)
    _ (authorize_minedThenIdle (membershipRootAccepted_iff.mpr (.inl rfl)) hnew)
    (by rw [← minedThenIdle, hnumber]; exact hrecorded) (List.replicate 63 []) [] (by decide)).2

open MinedLemmas in
/-- At the end of the second block the pool takes a transfer anchored to the root of the first for 64
blocks; inside block 66 the anchor is gone. -/
theorem anchor_expires_first :
    authorizeTransfer runtimeConfig (minedThenIdle 2 0).number (minedThenIdle 2 0).store
        (unprovenTransfer (minedThenIdle 1 0).store.membershipRoot) =
      .ok (poolEntry (unprovenTransfer (minedThenIdle 1 0).store.membershipRoot)) ∧
    (insideIdle 2 63).number = (minedThenIdle 2 0).number +
      (poolEntry (unprovenTransfer (minedThenIdle 1 0).store.membershipRoot)).longevity ∧
    membershipRootAccepted (insideIdle 2 63).number (insideIdle 2 63).store
      (minedThenIdle 1 0).store.membershipRoot = false := by
  obtain ⟨-, -, -, hnew, -, -⟩ := minedTwo_spec
  refine ⟨authorize_minedThenIdle ?_ hnew, ?_, ?_⟩
  · rw [minedThenIdle, (number_afterBlocks _).1, length_mined]
    refine membershipRootAccepted_iff.mpr (.inr ⟨1, by decide, by decide, ?_⟩)
    rw [rootAt_afterBlocks, length_mined, if_pos (by decide)]
    rfl
  · rw [insideIdle, (insideBlock_spec _ _).1, minedThenIdle, (number_afterBlocks _).1, length_mined,
      length_mined]
    rfl
  · have hage : FCMP_ROOT_MAX_AGE_BLOCKS = 64 := rfl
    rw [insideIdle, (insideBlock_spec _ _).1, ← Bool.not_eq_true, rootAccepted_insideBlock, length_mined]
    rintro (hlive | ⟨h, hlow, hhigh, hroot⟩)
    · rw [← insideIdle, root_insideIdle] at hlive
      exact root_minedThenIdle_ne 63 hlive.symm
    · obtain ⟨k, rfl⟩ := Nat.exists_eq_add_of_le (show 2 ≤ h by omega)
      have htake : (sampleMined 2 ++ List.replicate 63 []).take (2 + k) =
          sampleMined 2 ++ List.replicate k [] := by
        have hlen : (sampleMined 2).length = 2 := by simpa using length_mined 2 0
        rw [List.take_append, hlen, Nat.add_sub_cancel_left, List.take_replicate,
          min_eq_left (by omega), List.take_of_length_le (by omega)]
      rw [htake] at hroot
      exact root_minedThenIdle_ne k hroot.symm

end Kohl.Pallet
