import Kohl.Security.Payment
import Kohl.Wallet.SendBuilt

/-!
# A payment arrives

From the wallet that builds a transfer to the wallet that is paid: once the transfer is executed, every later
scan of the chain finds the payment with its amount and the change, and the inputs are spent.

* `outputs_of_build`: the two outputs of a built transfer.
* `tryOwn_first`: the scan reads the amount of an output whose key is derived for the first place.
* `payment_arrives`: what the two wallets find, in every later state.
-/

namespace Kohl.Wallet

open ByteLib Run Pallet Fcmp Stealth CallLemmas BuildLemmas
open LargestFirst (total)

variable {l : ℕ} {Point : Type} [AddCommGroup Point] [Module (ZMod l) Point]
variable {E : CryptoLib l Point} {w payee : Wallet E} {rand : TransferRandomness l}
  {inputs : List OwnedOutput} {membership : MembershipSnapshot} {dest : StealthAddress}
  {amount fee : UInt64}

namespace ArrivalLemmas

/-! ## What is in a built transfer -/

/-- The payment and the change, with the key they are made under. -/
structure Outputs (E : CryptoLib l Point) (w : Wallet E) (rand : TransferRandomness l)
    (inputs : List OwnedOutput) (dest : StealthAddress) (amount fee : UInt64) (tx : TransferTx) :
    Prop where
  txPubkey : tx.txPubkey = E.compress (rand.txSecret • E.G)
  made : ∃ payment change left, changeOf inputs amount fee = .ok left ∧
    makeOutput E (E.scalarToBytes rand.txSecret) dest 0 amount = .ok payment ∧
    makeOutput E (E.scalarToBytes rand.txSecret) w.address 1 left = .ok change ∧
    tx.outputs.val = [payment.1, change.1]

theorem input_of_stage {x : OwnedOutput × Bytes32} {s : Staged} (h : stage E membership x = .ok s) :
    s.input = x.1 := by
  unfold stage at h
  obtain ⟨realIndex, -, h⟩ := bind_eq_ok.mp h
  obtain ⟨cPrime, -, h⟩ := bind_eq_ok.mp h
  cases h
  rfl

theorem outputs_of_skeleton {tx : TransferTx} {staged : List Staged}
    (h : skeletonTransfer E w rand inputs membership dest amount fee = .ok (tx, staged)) :
    Outputs E w rand inputs dest amount fee tx ∧ (staged.map Staged.input).Perm inputs := by
  unfold skeletonTransfer at h
  obtain ⟨⟨⟩, hcheck, h⟩ := bind_eq_ok.mp h
  obtain ⟨left, hleft, h⟩ := bind_eq_ok.mp h
  obtain ⟨out0, hout0, h⟩ := bind_eq_ok.mp h
  obtain ⟨out1, hout1, h⟩ := bind_eq_ok.mp h
  obtain ⟨last, -, h⟩ := bind_eq_ok.mp h
  obtain ⟨unsorted, hstaged, h⟩ := bind_eq_ok.mp h
  obtain ⟨skeleton, -, h⟩ := bind_eq_ok.mp h
  obtain ⟨proof, -, h⟩ := bind_eq_ok.mp h
  obtain ⟨bskeleton, -, h⟩ := bind_eq_ok.mp h
  obtain ⟨outputs, houtputs, h⟩ := bind_eq_ok.mp h
  obtain ⟨rangeProof, -, h⟩ := bind_eq_ok.mp h
  cases h
  refine ⟨⟨rfl, out0, out1, left, hleft, hout0, hout1, val_of_bounded houtputs⟩, ?_⟩
  obtain ⟨hne, -⟩ := checkInputs_ne_nil hcheck
  have hpos := List.length_pos_iff.mpr hne
  have hmap : unsorted.map Staged.input =
      (inputs.zip ((List.range (inputs.length - 1)).map (fun i => E.scalarToBytes (rand.blindings i)) ++
        [last])).map Prod.fst :=
    map_eq_of_forall₂ (forall₂_of_tryMap hstaged) fun _ _ hs => input_of_stage hs
  rw [List.map_fst_zip (by rw [List.length_append, List.length_map, List.length_range,
    List.length_singleton]; omega)] at hmap
  rw [← hmap]
  exact (List.mergeSort_perm _ _).map _

/-- A built transfer has the two outputs, and carries the key images of its inputs. -/
theorem outputs_of_build [DecidableEq Point] {tx : TransferTx}
    (h : buildTransferMulti E w rand inputs membership dest amount fee = .ok tx) :
    Outputs E w rand inputs dest amount fee tx ∧
      (tx.inputs.val.map FcmpInput.keyImage).Perm (inputs.map OwnedOutput.keyImage) := by
  obtain ⟨skeleton, staged, hskeleton, htx, hproved⟩ := buildTransferMulti_made h
  obtain ⟨houtputs, hperm⟩ := outputs_of_skeleton hskeleton
  have hs := skeletonTransfer_made hskeleton
  constructor
  · rw [htx]
    exact ⟨houtputs.txPubkey, houtputs.made⟩
  · rw [(proved_alike hs hproved).1, hs.keyImages]
    have hmap := hperm.map OwnedOutput.keyImage
    rw [List.map_map] at hmap
    exact hmap

/-! ## The scan reads the amount -/

/-- The first turn of the scan finds an output whose key is derived for the first place, and reads the amount
that opens there. -/
theorem tryOwn_first (hK : E.ReadsKeys) (hS : E.CanonicalScalars) {a b r : ZMod l}
    (hw : addressOf E a b = (payee.keys, payee.address)) {stored : StoredOutput}
    (hpubkey : stored.txPubkey = E.compress (r • E.G))
    (htag : viewTag E (E.compress (a • r • E.G)) 0 = stored.viewTag)
    (hotk : E.compress (derivationScalar E (E.compress (a • r • E.G)) 0 • E.G + b • E.G) =
      stored.oneTimeKey) {blinding : Bytes32}
    (hopen : openAmount E (E.compress (a • r • E.G)) 0 stored = .found (amount, blinding))
    (gi : UInt64) : ∃ o, tryOwn E payee gi stored = some o ∧ o.amount = amount := by
  have hkeys : payee.keys = (addressOf E a b).1 := by rw [hw]
  have hshared : receiverSharedSecret E payee.keys.viewSecret stored.txPubkey =
      some (E.compress (a • r • E.G)) := by
    rw [hpubkey, receiverSharedSecret, sharedSecret, hK, Option.bind_some, hkeys, addressOf, hS,
      Option.map_some]
  obtain ⟨o, hfound⟩ : ∃ o, tryOwnAt E payee gi stored (E.compress (a • r • E.G)) 0 = .found o :=
    PaymentLemmas.tryOwnAt_found hK hS hw hshared htag hotk hopen
  refine ⟨o, ?_, ?_⟩
  · have hrange : List.range MAX_OUTPUTS = 0 :: (List.range (MAX_OUTPUTS - 1)).map Nat.succ :=
      List.range_succ_eq_map
    rw [tryOwn, hshared, Option.bind_some, hrange, tryOwnLoop, hfound]
  · have hread := (ScanLemmas.tryOwnAt_spec hfound).amount
    rw [hopen, Turn.found.injEq, Prod.mk.injEq] at hread
    exact hread.1.symm

/-- The scan finds an output that was made in the first place, with the amount it was made for. -/
theorem tryOwn_payment (hK : E.ReadsKeys) (hS : E.CanonicalScalars) {r : ZMod l} {out : Output}
    {blinding : Bytes32} (hmake : makeOutput E (E.scalarToBytes r) payee.address 0 amount =
      .ok (out, blinding)) {now : ℕ} {tx : TransferTx} (htx : tx.txPubkey = E.compress (r • E.G))
    (gi : UInt64) :
    ∃ o, tryOwn E payee gi (storedOfTransfer now tx out) = some o ∧ o.amount = amount := by
  obtain ⟨a, b, hw⟩ := payee.derived
  have haddress : payee.address = (addressOf E a b).2 := by rw [hw]
  obtain ⟨hlen, hmade⟩ := PaymentLemmas.makeOutput_addressOf hK hS (hS r) a b 0 amount
  rw [haddress, hmade] at hmake
  cases hmake
  exact tryOwn_first hK hS hw htx rfl rfl (PaymentLemmas.openAmount_maskAmount hS rfl rfl rfl) gi

/-! ## In every later state -/

section Chain

variable [DecidableEq Point] {cfg : Config} {ops : List Op} {op : Op} {tx : TransferTx}

/-- An executed call appends its outputs for good. -/
theorem get_of_acceptedCall {H : Host} {call : Call}
    (hexec : acceptedCall H cfg (run (step H cfg) (.genesis H) ops) op = some call) (later : List Op)
    {k : ℕ} {out : StoredOutput}
    (hout : (call.storedOutputs H (run (step H cfg) (.genesis H) ops).number)[k]? = some out) :
    let c := run (step H cfg) (.genesis H) ops
    (run (step H cfg) c (op :: later)).store.outputs.get (c.store.nextOutputIndex + k) = some out := by
  intro c
  have hcall : stepOutputs H cfg c op = call.storedOutputs H c.number := by
    rw [stepOutputs, hexec]
    exact List.append_nil _
  have hlt := (List.getElem?_eq_some_iff.mp hout).1
  have hnow : (run (step H cfg) (.genesis H) (ops ++ [op])).store.outputs.get
      (c.store.nextOutputIndex + k) = some out := by
    rw [run_concat, get_outputs_step, hcall, if_pos ⟨Nat.le_add_right _ _,
      Nat.add_lt_add_left hlt _⟩, Nat.add_sub_cancel_left, hout]
  have hlater := get_outputs_mono hnow later
  rw [List.append_assoc, run_append] at hlater
  exact hlater

/-- An executed transfer appends its outputs for good. -/
theorem get_of_acceptedTransfer {H : Host}
    (hexec : acceptedTransfer H cfg (run (step H cfg) (.genesis H) ops) op = some tx)
    (later : List Op) {k : ℕ} {out : Output} (hout : tx.outputs.val[k]? = some out) :
    let c := run (step H cfg) (.genesis H) ops
    (run (step H cfg) c (op :: later)).store.outputs.get (c.store.nextOutputIndex + k) =
      some (storedOfTransfer c.number tx out) := by
  intro c
  unfold acceptedTransfer at hexec
  split at hexec
  · next tx' htx' =>
    cases hexec
    refine get_of_acceptedCall htx' later ?_
    rw [Call.storedOutputs, List.getElem?_map, hout, Option.map_some]
  · cases hexec

/-- What is stored is scanned. -/
theorem mem_scan_of_get {i : ℕ} {out : StoredOutput} {o : OwnedOutput}
    (hget : (run (step (nativeHost E) cfg) (.genesis (nativeHost E)) ops).store.outputs.get i = some out)
    (hown : tryOwn E w (UInt64.ofNat i) out = some o) :
    o ∈ scan E w
      (storedOutputs (run (step (nativeHost E) cfg) (.genesis (nativeHost E)) ops).store) := by
  refine List.mem_filterMap.mpr ⟨(UInt64.ofNat i, out), ?_, hown⟩
  obtain ⟨hledger, hnext⟩ := @ledger_spec (nativeHost E) cfg ops
  refine List.mem_filterMap.mpr ⟨i, ?_, by rw [hget, Option.map_some]⟩
  rw [List.mem_range, hnext]
  rw [hledger] at hget
  exact (List.getElem?_eq_some_iff.mp hget).1

end Chain

end ArrivalLemmas

open ArrivalLemmas

/-- A payment arrives. Let a wallet build a transfer to another one, or to itself, from any snapshot, and let a
step of any run execute it. In every later state the payee's scan finds the first new output, owned and with
the amount that was sent; the sender's scan finds the second one, with what is left of the inputs as far as
commitments are binding; and every input is spent. -/
theorem payment_arrives [DecidableEq Point] (E : CryptoLib l Point) (hR : ReadBack E)
    (hS : E.CanonicalScalars) (cfg : Config) (ops : List Op) (w payee : Wallet E)
    (rand : TransferRandomness l) (inputs : List OwnedOutput) (membership : MembershipSnapshot)
    (amount fee : UInt64) (tx : TransferTx)
    (hbuild : buildTransferMulti E w rand inputs membership payee.address amount fee = .ok tx)
    (op : Op) (hexec : acceptedTransfer (nativeHost E) cfg
      (run (step (nativeHost E) cfg) (.genesis (nativeHost E)) ops) op = some tx) (later : List Op) :
    let c := run (step (nativeHost E) cfg) (.genesis (nativeHost E)) ops
    let c' := run (step (nativeHost E) cfg) c (op :: later)
    (∃ o ∈ scan E payee (storedOutputs c'.store),
      o.globalIndex = UInt64.ofNat c.store.nextOutputIndex ∧ Owned E o ∧ o.amount = amount) ∧
    (∃ o ∈ scan E w (storedOutputs c'.store),
      o.globalIndex = UInt64.ofNat (c.store.nextOutputIndex + 1) ∧ Owned E o ∧
      (2 ^ 64 ≤ l → Independent E →
        total amountOf inputs = amount.toNat + fee.toNat + o.amount.toNat)) ∧
    ∀ input ∈ inputs, c'.store.keyImages.containsKey input.keyImage = true := by
  intro c c'
  obtain ⟨⟨hpubkey, payment, change, left, hleft, hpayment, hchange, houtputs⟩, himages⟩ :=
    outputs_of_build hbuild
  have hc' : c' = run (step (nativeHost E) cfg) (.genesis (nativeHost E)) (ops ++ op :: later) :=
    (run_append _ _ _).symm
  have hpublic : ∀ (out : Output) (a : UInt64), (storedOfTransfer c.number tx out).amount = some a →
      Native.commit E a zeroBlinding = some (storedOfTransfer c.number tx out).commitment := by
    intro out a ha
    cases ha
  refine ⟨?_, ?_, fun input hinput => ?_⟩
  · have hfirst : tx.outputs.val[0]? = some payment.1 := by rw [houtputs]; rfl
    have hget := get_of_acceptedTransfer hexec later hfirst
    obtain ⟨o, hown, hamount⟩ : ∃ o, tryOwn E payee (UInt64.ofNat c.store.nextOutputIndex)
        (storedOfTransfer c.number tx payment.1) = some o ∧ o.amount = amount :=
      tryOwn_payment hR.keys hS hpayment hpubkey _
    obtain ⟨howned, hindex, -, -⟩ := tryOwn_owned hR.keys hS (hpublic payment.1) hown
    refine ⟨o, ?_, hindex, howned, hamount⟩
    rw [hc']
    refine mem_scan_of_get ?_ hown
    rw [← hc']
    exact hget
  · have hsecond : tx.outputs.val[1]? = some change.1 := by rw [houtputs]; rfl
    have hget := get_of_acceptedTransfer hexec later hsecond
    obtain ⟨o, hown⟩ : ∃ o, tryOwn E w (UInt64.ofNat (c.store.nextOutputIndex + 1))
        (storedOfTransfer c.number tx change.1) = some o :=
      PaymentLemmas.tryOwn_makeOutput hR.keys hS w (hS rand.txSecret) (by decide) hchange hpubkey _
    obtain ⟨howned, hindex, -, hcommitment⟩ := tryOwn_owned hR.keys hS (hpublic change.1) hown
    refine ⟨o, ?_, hindex, howned, fun hl hind => ?_⟩
    · rw [hc']
      refine mem_scan_of_get ?_ hown
      rw [← hc']
      exact hget
    · have hcommit := howned.commits
      rw [hcommitment] at hcommit
      rw [PaymentLemmas.amount_of_commit hl hR hind hchange hcommit]
      obtain ⟨hfunds, hfits⟩ := SendLemmas.funds_of_changeOf hleft
      obtain ⟨left', hleft', hsum⟩ := changeOf_eq_ok hfunds hfits
      rw [hleft, Except.ok.injEq] at hleft'
      rw [hleft']
      exact hsum
  · refine keyImages_of_acceptedTransfer hexec ?_ later
    exact himages.mem_iff.mpr (List.mem_map_of_mem hinput)

/-! ## A payment over the plane that is read back -/

namespace ArrivalLemmas

open Cyclic MembershipTree PaymentLemmas

/-- A wallet with the secrets two and nine. -/
def readablePayee : Wallet (readable ristrettoOrder) where
  keys := (addressOf (readable ristrettoOrder) (scalarOf 2) (scalarOf 9)).1
  address := (addressOf (readable ristrettoOrder) (scalarOf 2) (scalarOf 9)).2
  derived := ⟨_, _, rfl⟩

/-- A block that pays the whole reward to the owner with the secrets three and five, under the transaction
secret seven: the shared secret is twenty-one. -/
def earnedBlock : List (Origin × Call) :=
  let E := readable ristrettoOrder
  let shared := E.compress (scalarOf 21 • E.G)
  [(.none, .coinbase ⟨[⟨E.compress ((derivationScalar E shared 0 + scalarOf 5) • E.G), blockReward 0,
    viewTag E shared 0⟩], by decide⟩ (E.compress (scalarOf 7 • E.G)))]

def earnedChain : Chain := afterBlocks (nativeHost (readable ristrettoOrder)) eagerConfig [earnedBlock]

def earnedInputs : List OwnedOutput :=
  scan (readable ristrettoOrder) readableOwner (storedOutputs earnedChain.store)

def earnedSnapshot : MembershipSnapshot where
  root := earnedChain.store.membershipRoot
  digests := (slotsOf earnedChain.store).map (slotDigest (readable ristrettoOrder).blake2_256)
  admitted := ringOfSlots (slotsOf earnedChain.store)

/-- The spend of the reward: a thousand units to the payee, for a fee of a hundred. -/
def earnedSpend : Except BuildFailure TransferTx :=
  buildTransferMulti (readable ristrettoOrder) readableOwner sampleRandomness earnedInputs earnedSnapshot
    readablePayee.address 1000 100

/-- The reward is found, no fees wait, and the spend is accepted. -/
theorem earnedChain_spec : total amountOf earnedInputs = (blockReward 0).toNat ∧
    earnedChain.store.blockFees.toNat = 0 ∧
    (earnedSpend.toOption.any fun tx =>
      (verifyTransfer (nativeHost (readable ristrettoOrder)) eagerConfig earnedChain.number
        earnedChain.store tx).toOption.isSome) = true := by
  decide +kernel

theorem earnedSpend_executed : ∃ tx, earnedSpend = .ok tx ∧
    acceptedTransfer (nativeHost (readable ristrettoOrder)) eagerConfig earnedChain
      (.dispatch .authorized (.transfer tx)) = some tx := by
  obtain ⟨-, hfees, haccepted⟩ := earnedChain_spec
  obtain ⟨tx, htx, hverify⟩ := SampleLemmas.exists_ok_of_any haccepted
  refine ⟨tx, htx, ?_⟩
  have hok : verifyTransfer (nativeHost (readable ristrettoOrder)) eagerConfig earnedChain.number
      earnedChain.store tx = .ok () := by
    cases hresult : verifyTransfer (nativeHost (readable ristrettoOrder)) eagerConfig
        earnedChain.number earnedChain.store tx with
    | ok => rfl
    | error e =>
      rw [hresult] at hverify
      cases hverify
  have hlt := tx.fee.toNat_lt
  exact acceptedTransfer_of_valid (verifyTransfer_iff.mp hok) (if_pos (by omega))

end ArrivalLemmas

open ReadableLemmas PaymentLemmas Cyclic

/-- The owner of a reward pays a thousand units: the payee finds them and the owner finds the rest, in
whatever the chain becomes. -/
theorem payment_arrives_earned : ∃ tx, earnedSpend = .ok tx ∧ ∀ later,
    let c := run (step (nativeHost (readable ristrettoOrder)) eagerConfig) earnedChain
      (.dispatch .authorized (.transfer tx) :: later)
    (∃ o ∈ scan (readable ristrettoOrder) readablePayee (storedOutputs c.store), o.amount = 1000) ∧
    ∃ o ∈ scan (readable ristrettoOrder) readableOwner (storedOutputs c.store),
      1000 + 100 + o.amount.toNat = (blockReward 0).toNat := by
  have hl : 2 ^ 250 < ristrettoOrder := by decide
  obtain ⟨tx, htx, hexec⟩ := earnedSpend_executed
  have hchain : earnedChain = run (step (nativeHost (readable ristrettoOrder)) eagerConfig)
      (.genesis (nativeHost (readable ristrettoOrder))) ([earnedBlock].flatMap blockOps) := by
    rw [earnedChain, afterBlocks]
  rw [hchain] at hexec
  refine ⟨tx, htx, fun later => ?_⟩
  obtain ⟨⟨o, hmem, -, -, hamount⟩, ⟨o', hmem', -, -, hchange⟩, -⟩ :=
    payment_arrives (readable ristrettoOrder) (readable_readBack hl (by decide))
      (readable_canonicalScalars (by decide)) eagerConfig ([earnedBlock].flatMap blockOps) readableOwner
      readablePayee sampleRandomness earnedInputs earnedSnapshot 1000 100 tx htx _ hexec later
  rw [← hchain] at hmem hmem'
  refine ⟨⟨o, hmem, hamount⟩, o', hmem', ?_⟩
  rw [← earnedChain_spec.1]
  exact (hchange (by decide) readable_independent).symm

end Kohl.Wallet
