import Kohl.Crypto.Cyclic
import Kohl.Crypto.FcmpSpec
import Kohl.Pallet.KeyImages
import Kohl.Pallet.Ledger
import Kohl.Pallet.TreeInvariant

/-!
# Independent transfers commute

Transfers that are valid in one state, spend distinct key images and are anchored in recorded roots
can be executed in any order. A transfer moves the live root and the number of slots, which the next
one's checks read, but not what an independent transfer needs of them. The storage behind an order is
determined by sums and unions over the transfers, up to the places of the new outputs.

* `compatible_run`: compatible transfers are executed one after the other, and what that adds.
* `transfers_commute`: every order executes every transfer, and two orders differ in the outputs only.
-/

namespace Kohl.Pallet

open ByteLib Run MembershipTree Fcmp KeyImageLemmas TreeInvLemmas

def TransferTx.keyImages (tx : TransferTx) : List Bytes32 := tx.inputs.val.map FcmpInput.keyImage

/-- The dispatches of the transfers, one after the other. -/
def transferOps (txs : List TransferTx) : List Op :=
  txs.map fun tx => .dispatch .authorized (.transfer tx)

variable (H : Host) (cfg : Config)

/-- Transfers that are accepted in one state, share no key image, are anchored in recorded roots of
the window, and whose fees and outputs fit together. -/
structure Compatible (c : Chain) (txs : List TransferTx) : Prop where
  verified : ∀ tx ∈ txs, verifyTransfer H cfg c.number c.store tx = .ok ()
  disjoint : txs.Pairwise fun a b => a.keyImages.Disjoint b.keyImages
  recorded : ∀ tx ∈ txs, ∃ h, c.number - FCMP_ROOT_MAX_AGE_BLOCKS ≤ h ∧ h ≤ c.number ∧
    c.store.membershipRootAt.get h = some tx.membershipRoot
  fees : c.store.blockFees.toNat + (txs.map fun tx => tx.fee.toNat).sum < 2 ^ 64
  slots : c.store.treeSlots + (txs.map fun tx => tx.outputs.val.length).sum ≤ MAX_FCMP_ANON_SET

/-- The outputs of transfers, as block `now` stores them. -/
def storedBy (now : ℕ) (txs : List TransferTx) : List StoredOutput :=
  txs.flatMap fun tx => tx.outputs.val.map (storedOfTransfer now tx)

/-- What a storage `s'` behind the transfers has in common with `s`, and what they have added. -/
structure Executed (now : ℕ) (s : Storage) (txs : List TransferTx) (s' : Storage) : Prop where
  frame : ∃ k f o t d r n, s' =
    { s with
      keyImages := k
      blockFees := f
      outputs := o
      treeSlots := t
      membershipLeafDigest := d
      membershipRoot := r
      nextOutputIndex := n }
  keyImages : ∀ ki, s'.keyImages.containsKey ki = true ↔
    ki ∈ txs.flatMap TransferTx.keyImages ∨ s.keyImages.containsKey ki = true
  fees : s'.blockFees.toNat = s.blockFees.toNat + (txs.map fun tx => tx.fee.toNat).sum
  next : s'.nextOutputIndex = s.nextOutputIndex + (storedBy now txs).length
  outputs : ∀ j, s'.outputs.get j =
    if s.nextOutputIndex ≤ j ∧ j < s.nextOutputIndex + (storedBy now txs).length then
      (storedBy now txs)[j - s.nextOutputIndex]?
    else s.outputs.get j

variable {H cfg}

namespace CommuteLemmas

theorem length_storedBy (now : ℕ) (txs : List TransferTx) :
    (storedBy now txs).length = (txs.map fun tx => tx.outputs.val.length).sum := by
  simp only [storedBy, List.length_flatMap, List.length_map]

theorem compatible_perm {c : Chain} {txs txs' : List TransferTx} (h : Compatible H cfg c txs)
    (hperm : txs.Perm txs') : Compatible H cfg c txs' := by
  refine ⟨fun tx htx => h.verified tx (hperm.mem_iff.mpr htx), ?_,
    fun tx htx => h.recorded tx (hperm.mem_iff.mpr htx), ?_, ?_⟩
  · exact (hperm.pairwise_iff fun hab => hab.symm).mp h.disjoint
  · rw [← (hperm.map _).sum_eq]
    exact h.fees
  · rw [← (hperm.map _).sum_eq]
    exact h.slots

/-- One transfer adds itself. -/
theorem executed_transferred (now : ℕ) {s : Storage} {tx : TransferTx} {fees : UInt64}
    (hfees : checkedAdd s.blockFees tx.fee = some fees) :
    Executed now s [tx] (transferred H now s tx fees) := by
  obtain ⟨o, t, d, r, hstore⟩ := @exists_transferred H now s tx fees
  have hone : storedBy now [tx] = tx.outputs.val.map (storedOfTransfer now tx) :=
    List.flatMap_singleton _ _
  refine ⟨⟨_, _, o, t, d, r, _, hstore⟩, fun ki => ?_, ?_, ?_, fun j => ?_⟩
  · rw [hstore, containsKey_foldl_insert, List.flatMap_singleton]
    exact Iff.rfl
  · rw [hstore, checkedAdd_eq_some.mp hfees, List.map_singleton, List.sum_singleton]
  · rw [hstore, hone, List.length_map]
  · rw [hone, transferred, get_outputs_storeOutputs]

/-- What lists of transfers add one after the other. -/
theorem executed_append {now : ℕ} {s s' s'' : Storage} {txs txs' : List TransferTx}
    (h : Executed now s txs s') (h' : Executed now s' txs' s'') :
    Executed now s (txs ++ txs') s'' := by
  obtain ⟨k, f, o, t, d, r, n, hframe⟩ := h.frame
  obtain ⟨k', f', o', t', d', r', n', hframe'⟩ := h'.frame
  have hstored : storedBy now (txs ++ txs') = storedBy now txs ++ storedBy now txs' :=
    List.flatMap_append
  refine ⟨⟨k', f', o', t', d', r', n', by rw [hframe', hframe]⟩, fun ki => ?_, ?_, ?_, fun j => ?_⟩
  · rw [h'.keyImages, h.keyImages, List.flatMap_append, List.mem_append]
    exact or_left_comm.trans or_assoc.symm
  · rw [h'.fees, h.fees, List.map_append, List.sum_append, Nat.add_assoc]
  · rw [h'.next, h.next, hstored, List.length_append, Nat.add_assoc]
  · rw [h'.outputs, h.outputs, h.next, hstored, List.length_append]
    by_cases hlater : s.nextOutputIndex + (storedBy now txs).length ≤ j ∧
        j < s.nextOutputIndex + (storedBy now txs).length + (storedBy now txs').length
    · rw [if_pos hlater, if_pos (by omega), List.getElem?_append_right (by omega), Nat.sub_sub]
    · rw [if_neg hlater]
      by_cases hnew : s.nextOutputIndex ≤ j ∧ j < s.nextOutputIndex + (storedBy now txs).length
      · rw [if_pos hnew, if_pos (by omega), List.getElem?_append_left (by omega)]
      · rw [if_neg hnew, if_neg (by omega)]

/-- A transfer takes nothing that an independent one, anchored in a recorded root, is checked
against. -/
theorem TransferValid.executed {now : ℕ} {s s' : Storage} {tx tx' : TransferTx}
    (h : TransferValid H cfg now s tx') (hexec : Executed now s [tx] s')
    (hdisjoint : tx.keyImages.Disjoint tx'.keyImages) (hslots : s'.treeSlots ≤ MAX_FCMP_ANON_SET)
    (hrecorded : ∃ h, now - FCMP_ROOT_MAX_AGE_BLOCKS ≤ h ∧ h ≤ now ∧
      s.membershipRootAt.get h = some tx'.membershipRoot) : TransferValid H cfg now s' tx' := by
  obtain ⟨_, _, _, _, _, _, _, hframe⟩ := hexec.frame
  have hroots : s'.membershipRootAt = s.membershipRootAt := by rw [hframe]
  have hunspent : ∀ input ∈ tx'.inputs.val, s'.keyImages.containsKey input.keyImage = false := by
    intro input hinput
    rw [Bool.eq_false_iff]
    intro hspent
    rcases (hexec.keyImages input.keyImage).mp hspent with hnew | hold
    · rw [List.flatMap_singleton] at hnew
      exact hdisjoint hnew (List.mem_map_of_mem hinput)
    · rw [h.unspent input hinput] at hold
      cases hold
  exact ⟨h.inputs_ne, h.outputs_ne, h.sorted, h.fee, h.txPubkey, h.keys, hslots,
    membershipRootAccepted_iff.mpr (Or.inr (hroots ▸ hrecorded)), hunspent, h.keyImages, h.pseudos,
    h.fcmp, h.balance, h.range⟩

/-- One dispatch of compatible transfers executes its transfer and leaves the rest compatible. -/
theorem compatible_step {c : Chain} {tx : TransferTx} {txs : List TransferTx}
    (h : Compatible H cfg c (tx :: txs)) (hinv : TreeInv H cfg c)
    (hlevel : c.store.treeSlots = c.store.nextOutputIndex) :
    let c' := step H cfg c (.dispatch .authorized (.transfer tx))
    acceptedTransfer H cfg c (.dispatch .authorized (.transfer tx)) = some tx ∧
      Executed c.number c.store [tx] c'.store ∧ Compatible H cfg c' txs := by
  intro c'
  have hvalid := verifyTransfer_iff.mp (h.verified tx List.mem_cons_self)
  have hsum := h.fees
  have hslots := h.slots
  rw [List.map_cons, List.sum_cons] at hsum hslots
  have hfees : checkedAdd c.store.blockFees tx.fee = some (c.store.blockFees + tx.fee) :=
    if_pos (by omega)
  have haccepted := acceptedTransfer_of_valid hvalid hfees
  obtain ⟨-, fees, hfees', hstore⟩ := acceptedTransfer_spec haccepted
  have hexec : Executed c.number c.store [tx] c'.store := by
    rw [hstore]
    exact executed_transferred c.number hfees'
  obtain ⟨_, _, _, _, _, _, _, hframe⟩ := hexec.frame
  have hroots : c'.store.membershipRootAt = c.store.membershipRootAt := by rw [hframe]
  have hlevel' := (treeInv_step hinv hlevel.le (.dispatch .authorized (.transfer tx))).2.2 hlevel
  have hnext := hexec.next
  rw [length_storedBy, List.map_singleton, List.sum_singleton] at hnext
  have hcount : c'.store.treeSlots = c.store.treeSlots + tx.outputs.val.length := by
    rw [hlevel', hnext, hlevel]
  have hfeesum := hexec.fees
  rw [List.map_singleton, List.sum_singleton] at hfeesum
  refine ⟨haccepted, hexec, ?_, (List.pairwise_cons.mp h.disjoint).2, ?_, ?_, ?_⟩
  · intro tx' htx'
    refine verifyTransfer_iff.mpr (TransferValid.executed
      (verifyTransfer_iff.mp (h.verified tx' (List.mem_cons_of_mem tx htx'))) hexec
      ((List.pairwise_cons.mp h.disjoint).1 tx' htx') (by omega)
      (h.recorded tx' (List.mem_cons_of_mem tx htx')))
  · intro tx' htx'
    rw [hroots]
    exact h.recorded tx' (List.mem_cons_of_mem tx htx')
  · omega
  · omega

/-- Compatible transfers are executed one after the other. -/
theorem compatible_run {c : Chain} {txs : List TransferTx} (h : Compatible H cfg c txs)
    (hinv : TreeInv H cfg c) (hlevel : c.store.treeSlots = c.store.nextOutputIndex) :
    acceptedTransfers H cfg c (transferOps txs) = txs ∧
      Executed c.number c.store txs (run (step H cfg) c (transferOps txs)).store := by
  induction txs generalizing c with
  | nil =>
    refine ⟨rfl, ⟨_, _, _, _, _, _, _, rfl⟩, fun ki => ?_, rfl, rfl, fun j => ?_⟩
    · simp [transferOps]
    · rw [if_neg (by simp [storedBy])]
      rfl
  | cons tx txs ih =>
    obtain ⟨haccepted, hexec, hrest⟩ := compatible_step h hinv hlevel
    obtain ⟨hinv', -, hlevel'⟩ :=
      treeInv_step hinv hlevel.le (.dispatch .authorized (.transfer tx))
    obtain ⟨htxs, hexecs⟩ := ih hrest hinv' (hlevel' hlevel)
    refine ⟨?_, executed_append hexec hexecs⟩
    show (acceptedTransfer H cfg c (.dispatch .authorized (.transfer tx))).toList ++ _ = tx :: txs
    rw [haccepted]
    exact congrArg (tx :: ·) htxs

/-- Two storages that satisfy the tree invariant and agree on the slots, the admissions and the
admitted outputs agree on the digests and the root. -/
theorem tree_eq_of_inv {fin fin' : ℕ} {s s' : Storage} (h : SlotInv H cfg fin s)
    (h' : SlotInv H cfg fin' s') (hroot : RootInv H s) (hroot' : RootInv H s')
    (hslots : s.treeSlots = s'.treeSlots) (hadmitted : s.admitted = s'.admitted)
    (houtputs : ∀ i, s.admitted.containsKey i = true → s.outputs.get i = s'.outputs.get i) :
    s.membershipLeafDigest = s'.membershipLeafDigest ∧ s.membershipRoot = s'.membershipRoot := by
  have hslot : ∀ i, slotOf s i = slotOf s' i := by
    intro i
    unfold slotOf
    rw [← hadmitted]
    split
    · next hi => rw [houtputs i hi]
    · rfl
  have hdigest : s.membershipLeafDigest = s'.membershipLeafDigest := by
    refine StorageMap.ext (funext fun i => ?_)
    rcases Nat.lt_or_ge i s.treeSlots with hi | hi
    · rw [h.digest i hi, h'.digest i (hslots ▸ hi), hslot]
    · rw [(h.above i hi).1, (h'.above i (hslots ▸ hi)).1]
  refine ⟨hdigest, ?_⟩
  rw [hroot, hroot', digestsOf, digestsOf, hdigest, hslots]

theorem keyImages_ext {m m' : StorageMap Bytes32 Unit}
    (h : ∀ ki, m.containsKey ki = true ↔ m'.containsKey ki = true) : m = m' := by
  refine StorageMap.ext (funext fun ki => ?_)
  have hki := h ki
  unfold StorageMap.containsKey at hki
  cases hm : m.get ki with
  | none =>
    rw [hm] at hki
    cases hm' : m'.get ki with
    | none => rfl
    | some u =>
      rw [hm'] at hki
      exact absurd (hki.mpr rfl) Bool.false_ne_true
  | some u =>
    rw [hm] at hki
    obtain ⟨u', hu'⟩ := Option.isSome_iff_exists.mp (hki.mp rfl)
    rw [hu']

/-- What the transfers leave behind, but for the outputs, is the same for every order. -/
theorem executed_eq_of_perm {now fin fin' : ℕ} {s s₁ s₂ : Storage} {txs txs' : List TransferTx}
    (hadmitted : ∀ i, s.admitted.containsKey i = true → i < s.nextOutputIndex)
    (h : Executed now s txs s₁) (h' : Executed now s txs' s₂) (hperm : txs.Perm txs')
    (hslots : SlotInv H cfg fin s₁) (hslots' : SlotInv H cfg fin' s₂) (hroot : RootInv H s₁)
    (hroot' : RootInv H s₂) (hlevel : s₁.treeSlots = s₁.nextOutputIndex)
    (hlevel' : s₂.treeSlots = s₂.nextOutputIndex) : { s₁ with outputs := s₂.outputs } = s₂ := by
  have hkeys : s₁.keyImages = s₂.keyImages := by
    refine keyImages_ext fun ki => ?_
    rw [h.keyImages, h'.keyImages, (hperm.flatMap_right _).mem_iff]
  have hfees : s₁.blockFees = s₂.blockFees := by
    rw [← UInt64.toNat_inj, h.fees, h'.fees, (hperm.map _).sum_eq]
  have hnext : s₁.nextOutputIndex = s₂.nextOutputIndex := by
    rw [h.next, h'.next, length_storedBy, length_storedBy, (hperm.map _).sum_eq]
  have hcount : s₁.treeSlots = s₂.treeSlots := by rw [hlevel, hlevel', hnext]
  obtain ⟨k, f, o, t, d, r, n, hframe⟩ := h.frame
  obtain ⟨k', f', o', t', d', r', n', hframe'⟩ := h'.frame
  have hsame : s₁.admitted = s.admitted := by rw [hframe]
  have hsame' : s₂.admitted = s.admitted := by rw [hframe']
  obtain ⟨hdigest, hrootEq⟩ := tree_eq_of_inv hslots hslots' hroot hroot' hcount
    (hsame.trans hsame'.symm) (by
      intro i hi
      have hold := hadmitted i (hsame ▸ hi)
      rw [h.outputs, h'.outputs, if_neg (by omega), if_neg (by omega)])
  subst hframe hframe'
  dsimp only at hkeys hfees hnext hcount hdigest hrootEq
  rw [hkeys, hfees, hnext, hcount, hdigest, hrootEq]

end CommuteLemmas

open CommuteLemmas

/-- Independent transfers commute: in every state reachable from genesis, compatible transfers are
all executed in every order, and the states behind two orders agree on everything but the outputs;
those are the outputs of before, and from the next index on the ones of the transfers in the order of
their execution. -/
theorem transfers_commute (H : Host) (cfg : Config) (ops : List Op) (txs : List TransferTx)
    (hcompatible : Compatible H cfg (run (step H cfg) (.genesis H) ops) txs) :
    let c := run (step H cfg) (.genesis H) ops
    let after := fun order => (run (step H cfg) c (transferOps order)).store
    (∀ order, order.Perm txs → acceptedTransfers H cfg c (transferOps order) = order) ∧
    (∀ order order', order.Perm txs → order'.Perm txs →
      { after order with outputs := (after order').outputs } = after order') ∧
    ∀ order, order.Perm txs → ∀ j, (after order).outputs.get j =
      if c.store.nextOutputIndex ≤ j ∧
          j < c.store.nextOutputIndex + (storedBy c.number order).length then
        (storedBy c.number order)[j - c.store.nextOutputIndex]?
      else c.store.outputs.get j := by
  intro c after
  obtain ⟨hinv, hlevel⟩ := @treeInv_run_genesis H cfg ops
  have hrun : ∀ order, order.Perm txs → acceptedTransfers H cfg c (transferOps order) = order ∧
      Executed c.number c.store order (after order) := fun order hperm =>
    compatible_run (compatible_perm hcompatible hperm.symm) hinv hlevel
  refine ⟨fun order hperm => (hrun order hperm).1, ?_, fun order hperm => (hrun order hperm).2.outputs⟩
  intro order order' hperm hperm'
  obtain ⟨hinv₁, hlevel₁⟩ := @treeInv_run_genesis H cfg (ops ++ transferOps order)
  obtain ⟨hinv₂, hlevel₂⟩ := @treeInv_run_genesis H cfg (ops ++ transferOps order')
  rw [run_append] at hinv₁ hlevel₁ hinv₂ hlevel₂
  refine executed_eq_of_perm ?_ (hrun order hperm).2 (hrun order' hperm').2
    (hperm.trans hperm'.symm) hinv₁.slots hinv₂.slots hinv₁.root hinv₂.root hlevel₁ hlevel₂
  intro i hi
  rw [← hlevel]
  exact SlotInv.lt_of_admitted hinv.slots hi

/-! ## Two spends of a split reward -/

/-- The host functions over the polynomial. -/
def sampleHost : Host := nativeHost (cyclicPolynomial ristrettoOrder)

/-- A block whose coinbase pays a thousand to the key with secret six and the rest of the reward to
the one with secret five. -/
def splitBlock : List (Origin × Call) :=
  [(.none, .coinbase ⟨[⟨Cyclic.toBytes (Cyclic.scalarOf 5), blockReward 0 - 1000, 0⟩,
    ⟨Cyclic.toBytes (Cyclic.scalarOf 6), 1000, 0⟩], Nat.le_of_ble_eq_true rfl⟩
    (Cyclic.toBytes (Cyclic.scalarOf 3)))]

/-- The steps up to the inside of the block behind it. -/
def splitOps : List Op := blockOps splitBlock ++ [.onInitialize]

def splitChain : Chain := run (step sampleHost ⟨0, 0, 0⟩) (.genesis sampleHost) splitOps

/-- The spend of an output of the split reward for a fee of a hundred. -/
def splitTransfer (secret : ℕ) (amount : UInt64) (proof : Bytes) : TransferTx where
  membershipRoot := splitChain.store.membershipRoot
  inputs := ⟨[⟨Cyclic.toBytes (Cyclic.scalarOf secret •
      Clsag.hp (cyclicPolynomial ristrettoOrder) (Cyclic.toBytes (Cyclic.scalarOf secret)).val),
    Cyclic.polynomialCommitment amount (Cyclic.scalarOf 9),
    ⟨proof.take MAX_FCMP_PROOF_BYTES, List.length_take_le _ _⟩⟩], Nat.le_of_ble_eq_true rfl⟩
  outputs := ⟨[⟨Cyclic.toBytes (Cyclic.scalarOf 7),
    Cyclic.polynomialCommitment (amount - 100) (Cyclic.scalarOf 9), 0, ⟨[], Nat.zero_le _⟩⟩],
    Nat.le_of_ble_eq_true rfl⟩
  txPubkey := Cyclic.toBytes (Cyclic.scalarOf 3)
  rangeProof := ⟨(Cyclic.openings [amount - 100] [Cyclic.scalarOf 9]).take MAX_RANGE_PROOF_BYTES,
    List.length_take_le _ _⟩
  fee := 100

def splitProof (secret : ℕ) (amount : UInt64) (index : ℕ) : Bytes :=
  ((prove (cyclicPolynomial ristrettoOrder) ⟨Cyclic.scalarOf 13, fun _ => Cyclic.scalarOf 17⟩
    (signingHash sampleHost.blake2_256 (splitTransfer secret amount []))
    ⟨digestsOf sampleHost splitChain.store, ringOfSlots (slotsOf splitChain.store), index,
      Cyclic.toBytes (Cyclic.scalarOf secret), Cyclic.toBytes (Cyclic.scalarOf 0),
      Cyclic.toBytes (Cyclic.scalarOf 9)⟩).toOption.bind id).elim [] ProveResult.proof

def splitFirst : TransferTx :=
  splitTransfer 5 (blockReward 0 - 1000) (splitProof 5 (blockReward 0 - 1000) 0)

def splitSecond : TransferTx := splitTransfer 6 1000 (splitProof 6 1000 1)

namespace CommuteLemmas

theorem splitSpends_compatible :
    Compatible sampleHost ⟨0, 0, 0⟩ splitChain [splitFirst, splitSecond] := by
  have hverified : ∀ tx ∈ [splitFirst, splitSecond],
      verifyTransfer sampleHost ⟨0, 0, 0⟩ splitChain.number splitChain.store tx = .ok () := by
    decide +kernel
  have hdistinct : ∀ ki ∈ splitFirst.keyImages, ki ∉ splitSecond.keyImages := by
    decide +kernel
  have hrecorded : splitChain.store.membershipRootAt.get 1 =
      some splitChain.store.membershipRoot := by
    decide +kernel
  refine ⟨hverified, List.pairwise_pair.mpr hdistinct, ?_, ?_, ?_⟩
  · intro tx htx
    refine ⟨1, by decide +kernel, by decide +kernel, ?_⟩
    rw [List.mem_cons, List.mem_singleton] at htx
    cases htx with
    | inl hfirst => exact hfirst ▸ hrecorded
    | inr hsecond => exact hsecond ▸ hrecorded
  · decide +kernel
  · decide +kernel

end CommuteLemmas

theorem transfers_commute_split :
    acceptedTransfers sampleHost ⟨0, 0, 0⟩ splitChain (transferOps [splitSecond, splitFirst]) =
      [splitSecond, splitFirst] ∧
    { (run (step sampleHost ⟨0, 0, 0⟩) splitChain (transferOps [splitFirst, splitSecond])).store with
      outputs := (run (step sampleHost ⟨0, 0, 0⟩) splitChain
        (transferOps [splitSecond, splitFirst])).store.outputs } =
      (run (step sampleHost ⟨0, 0, 0⟩) splitChain (transferOps [splitSecond, splitFirst])).store := by
  obtain ⟨hall, hsame, -⟩ := transfers_commute sampleHost ⟨0, 0, 0⟩ splitOps [splitFirst, splitSecond]
    splitSpends_compatible
  exact ⟨hall _ (List.Perm.swap _ _ _), hsame _ _ (List.Perm.refl _) (List.Perm.swap _ _ _)⟩

end Kohl.Pallet
