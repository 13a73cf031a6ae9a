import Kohl.Wallet.SendNode

/-!
# The outcome of the Send command

* `send_accepted_iff`: a transfer that is submitted, from any answers.
* `send_exact`: every call behind a node that stands still.
-/

namespace Kohl

open ByteLib Run Pallet MembershipTree Fcmp Stealth RuntimeApi
open LargestFirst (total)

namespace Wallet

/-! ## A payout and its spend -/

/-- The text of a seed with one byte that is not zero. -/
def sampleSeedText : Bytes := ascii "0000000000000000000000000000000000000000000000000000000000000007"

def sampleSeed : Bytes32 := ⟨List.replicate 31 0 ++ [7], rfl⟩

def seedWallet : Wallet (cyclic ristrettoOrder) := fromSeed (cyclic ristrettoOrder) sampleSeed

/-- A block that pays the whole reward to the wallet of the seed, and sixty blocks on top. -/
def seedBlocks : List (List (Origin × Call)) :=
  let E := cyclic ristrettoOrder
  let a := Clsag.hs E (ascii "kohl/wallet/view/v1") [sampleSeed.val]
  let b := Clsag.hs E (ascii "kohl/wallet/spend/v1") [sampleSeed.val]
  let shared := Cyclic.toBytes (a * Cyclic.scalarOf 5)
  [(.none, .coinbase ⟨[⟨Cyclic.toBytes (derivationScalar E shared 0 + b), blockReward 0,
    viewTag E shared 0⟩], Nat.le_of_ble_eq_true rfl⟩ (Cyclic.toBytes (Cyclic.scalarOf 5)))] ::
    List.replicate 60 []

/-- What the wallet selects to pay a thousand units. -/
def seedChoice : Except SendError (List OwnedOutput × UInt64) :=
  selectInputs (SendLemmas.unspentAt (cyclic ristrettoOrder) eagerConfig seedBlocks .asKept seedWallet)
    seedBlocks.length (SendLemmas.snapshotAt (cyclic ristrettoOrder)
      (afterBlocks (nativeHost (cyclic ristrettoOrder)) eagerConfig seedBlocks).store) 1000
    eagerConfig.minFeePerByte

namespace SendLemmas

open SampleLemmas

theorem parseSeed_sample : parseSeed sampleSeedText = .ok sampleSeed := by
  decide +kernel

theorem decompress_seedAddress :
    (∃ p, (cyclic ristrettoOrder).decompress seedWallet.address.viewPublic = some p) ∧
      ∃ p, (cyclic ristrettoOrder).decompress seedWallet.address.spendPublic = some p := by
  have hE : (cyclic ristrettoOrder).Canonical := cyclic_canonical (by decide)
  exact ⟨⟨_, hE.decompress_compress _⟩, ⟨_, hE.decompress_compress _⟩⟩

/-- The chain of the seed is short, and its tree small and without collisions. -/
theorem seedBlocks_spec :
    let s := (afterBlocks (nativeHost (cyclic ristrettoOrder)) eagerConfig seedBlocks).store
    s.nextOutputIndex < 2 ^ 32 ∧ s.treeSlots ≤ MAX_FCMP_ANON_SET ∧
      CollisionFree (cyclic ristrettoOrder).blake2_256
        (treePreimages (cyclic ristrettoOrder).blake2_256 (slotsOf s)) := by
  decide +kernel

/-- One output covers the payment. -/
theorem seedChoice_eq_ok : ∃ selected fee, seedChoice = .ok (selected, fee) ∧
    FitsTransfer selected 1000 fee := by
  obtain ⟨⟨selected, fee⟩, hok, hr⟩ := exists_ok_of_any (o := seedChoice)
    (f := fun r => decide (r.1.length = 1 ∧ r.2 = 0)) (by decide +kernel)
  obtain ⟨hlen, rfl⟩ := of_decide_eq_true hr
  obtain ⟨o, rfl⟩ := List.length_eq_one_iff.mp hlen
  exact ⟨[o], 0, hok, List.cons_ne_nil _ _, Nat.le_of_ble_eq_true rfl, o.amount.toNat_lt, by decide⟩

end SendLemmas

open SendLemmas SampleLemmas TextLemmas Cyclic

/-! ## What is sent -/

variable {l : ℕ} {Point : Type} [AddCommGroup Point] [Module (ZMod l) Point] [DecidableEq Point]

/-- What can go wrong with a transfer that the command submits. Let the outputs it was told of be outputs of
the chain, and let every other answer be anything, from any node at any time. Then whatever it submits
carries a root that it was told, and a node accepts it exactly where the fee comes to its floor, the tree has
at most 64 slots, the root is within the window, no input is spent or spent twice, and no point is the
identity: its proofs, its balance and its range proof never fail. Where the rate it was told is at least the
chain's, the fee comes to the floor unless the tree has grown since it was estimated. -/
theorem send_accepted_iff (E : CryptoLib l Point) (hE : E.Canonical) (hS : E.CanonicalScalars)
    (hZ : E.ZeroScalar) (hR : E.RangeComplete) (cfg : Config) (ops : List Op) (c : Chain)
    (hc : c = run (step (nativeHost E) cfg) (.genesis (nativeHost E)) ops)
    (rand : TransferRandomness l) (seedText destText : Bytes) (amount : UInt64) (answers : SendAnswers)
    (hfeed : ∀ best feed, answers.bestNumber = .ok best → answers.outputsInRange 0 best = .ok feed →
      ∀ x ∈ feed, c.store.outputs.get x.1.toNat = some x.2)
    (tx : TransferTx) (selected : List OwnedOutput)
    (hsend : send E rand seedText destText amount answers = .ok (tx, selected)) :
    (verifyTransfer (nativeHost E) cfg c.number c.store tx = .ok () ↔
      Current E cfg c.number c.store selected tx) ∧
    (answers.snapshot.membershipRoot = .ok tx.membershipRoot ∨
      answers.snapshotAgain.membershipRoot = .ok tx.membershipRoot) ∧
    ∃ seed p membership, parseSeed seedText = .ok seed ∧
      prepareSend E (fromSeed E seed) amount answers = .ok p ∧
      recheckSend E.blake2_256 answers p = .ok membership ∧
      (membership.digests.length ≤ p.membership.digests.length →
        (∀ rate, answers.minFeePerByte = .ok rate → cfg.minFeePerByte ≤ rate) →
        saturatingMul cfg.minFeePerByte tx.encodedSize ≤ tx.fee) := by
  obtain ⟨seed, dest, p, membership, hseed, -, hp, hmembership, rfl, hbuild⟩ := send_eq_ok hsend
  obtain ⟨best, rate, owned, hbest, hrate, hall, howned, hselect, hroot, hbuilt, hcache⟩ :=
    prepareSend_eq_ok hp
  have hs : c.store = (run (step (nativeHost E) cfg) (.genesis (nativeHost E)) ops).store := by rw [hc]
  -- both snapshots come from the outputs the command was told of
  have horigin : (answers.snapshot.membershipRoot = .ok membership.root ∨
      answers.snapshotAgain.membershipRoot = .ok membership.root) ∧
      BuiltFrom E.blake2_256 p.outputs membership := by
    rcases recheckSend_eq_ok hcache hmembership with rfl | ⟨hagain, hbuilt'⟩
    · exact ⟨.inl hroot, hbuilt⟩
    · exact ⟨.inr hagain, hbuilt'⟩
  obtain ⟨skeleton, staged, hskeleton, htx, -⟩ := buildTransferMulti_made hbuild
  obtain ⟨hcheck, ⟨hfunds, hfits⟩, hview, hspend⟩ := checked_of_skeleton hskeleton
  obtain ⟨hselected, hfee, -, -⟩ := SelectionLemmas.selectInputs_eq_ok.mp hselect
  have hscan : ∀ o ∈ p.selected, o ∈ scan E (fromSeed E seed) p.outputs := by
    intro o ho
    rw [hselected] at ho
    exact howned o (SelectionLemmas.mem_ranked.mp (LargestFirst.subset_takeUntil _ _ _ ho)).1
  have hcan : CanSpend E membership p.selected :=
    canSpend_of_feed hs hE hS hZ (hfeed best _ hbest hall) horigin.2 hscan hcheck
  obtain ⟨tx', hbuild', hbuilt'⟩ := buildTransferMulti_built hE hS hR (fromSeed E seed) rand hcan hview
    hspend hfunds hfits
  rw [hbuild, Except.ok.injEq] at hbuild'
  subst hbuild'
  obtain ⟨pairs, hprepared⟩ := hbuilt'.prepared
  refine ⟨?_, ?_, seed, p, membership, hseed, hp, hmembership, ?_⟩
  · rw [verifyTransfer_iff]
    exact transferValid_iff_of_built hE hbuilt' hcan.owned hcan.inputs_ne
  · rw [hprepared.root]
    exact horigin.1
  · intro hgrown hfloor
    obtain ⟨-, hcap, hpos, -, -, -⟩ := built_size hbuild
    have hsize := (length_encode_le_estimate hbuild).trans (estimateTxBytes_le hpos hgrown
      (CacheLemmas.rebuild_eq_ok hbuilt).2.2.2.fits (by omega))
    rw [hprepared.fee_eq, hfee]
    exact saturatingMul_encodedSize_le (hfloor rate hrate) hsize

/-- The spend of the payout, sent behind a node with none of the methods. -/
theorem send_accepted_iff_payout : ∃ tx selected,
    let c := afterBlocks (nativeHost (cyclic ristrettoOrder)) eagerConfig seedBlocks
    send (cyclic ristrettoOrder) sampleRandomness sampleSeedText (addressString seedWallet) 1000
        (.ofEndpoint (endpointAt (cyclic ristrettoOrder) eagerConfig seedBlocks .asKept
          fun _ => false)) = .ok (tx, selected) ∧
      (verifyTransfer (nativeHost (cyclic ristrettoOrder)) eagerConfig c.number c.store tx = .ok () ↔
        Current (cyclic ristrettoOrder) eagerConfig c.number c.store selected tx) := by
  have hl : ristrettoOrder ≤ 2 ^ 256 := by decide
  obtain ⟨hfits, hslots, hfree⟩ := seedBlocks_spec
  obtain ⟨selected, fee, hchoice, hfunds⟩ := seedChoice_eq_ok
  have hheight : seedBlocks.length < 2 ^ 32 := by decide
  obtain ⟨tx, hsend, -, -⟩ := exists_send hheight sampleRandomness parseSeed_sample
    (parseAddress_payoutAddress seedWallet.address) hslots (legible_of_collisionFree hfree) hchoice
    (cyclic_canonical hl) (cyclic_canonicalScalars hl) cyclic_zeroScalar (cyclic_rangeComplete hl)
    decompress_seedAddress.1 decompress_seedAddress.2 hfunds
  refine ⟨tx, selected, hsend, ?_⟩
  exact (send_accepted_iff (cyclic ristrettoOrder) (cyclic_canonical hl) (cyclic_canonicalScalars hl)
    cyclic_zeroScalar (cyclic_rangeComplete hl) eagerConfig (seedBlocks.flatMap blockOps)
    (afterBlocks (nativeHost (cyclic ristrettoOrder)) eagerConfig seedBlocks) (by rw [afterBlocks])
    sampleRandomness sampleSeedText (addressString seedWallet) 1000 _
    (fun best feed hbest hall => get_of_feed hheight hfits hbest hall) tx selected hsend).1

/-- Every call behind a node that stands still, whichever methods the node has and in whatever order it
iterates, below 2^32 blocks. The texts come first: a seed or an address that does not parse is the command's
error. Beyond 64 slots, as long as the digests of all outputs fit an answer, the tree is too large. Within 64
slots, with no collision among the hashes of the tree, it is the selection that decides: its error is the
command's, and a selection of no or of more than four inputs, or whose sums do not fit a `u64`, is out of
bounds. What is left fails on a view key and then on a spend key that is no point, and is sent otherwise. The
node accepts what is sent exactly where no key image is selected twice and no point is the identity. -/
theorem send_exact (E : CryptoLib l Point) (hE : E.Canonical) (hS : E.CanonicalScalars)
    (hZ : E.ZeroScalar) (hR : E.RangeComplete) (cfg : Config) (blocks : List (List (Origin × Call)))
    (order : Iteration Entry) (serves : String → Bool) (hheight : blocks.length < 2 ^ 32)
    (rand : TransferRandomness l) (seedText destText : Bytes) (amount : UInt64) :
    let c := afterBlocks (nativeHost E) cfg blocks
    let outcome := send E rand seedText destText amount
      (.ofEndpoint (endpointAt E cfg blocks order serves))
    (∀ e, parseSeed seedText = .error e → outcome = .error (.text e)) ∧
    ∀ seed, parseSeed seedText = .ok seed →
      (∀ e, parseAddress destText = .error e → outcome = .error (.text e)) ∧
      ∀ dest, parseAddress destText = .ok dest →
        (MAX_FCMP_ANON_SET < c.store.treeSlots → 32 * c.store.nextOutputIndex + 5 < 2 ^ 32 →
          outcome = .error (.membership (.wallet .treeTooLarge))) ∧
        (c.store.treeSlots ≤ MAX_FCMP_ANON_SET →
          CollisionFree E.blake2_256 (treePreimages E.blake2_256 (slotsOf c.store)) →
          let choice := selectInputs (unspentAt E cfg blocks order (fromSeed E seed)) blocks.length
            (snapshotAt E c.store) amount cfg.minFeePerByte
          (∀ e, choice = .error e → outcome = .error (.selection e)) ∧
          ∀ selected fee, choice = .ok (selected, fee) →
            (¬FitsTransfer selected amount fee → outcome = .error (.build (.wallet .bounds))) ∧
            (FitsTransfer selected amount fee →
              (E.decompress dest.viewPublic = none →
                outcome = .error (.build (.wallet (.crypto "shared secret")))) ∧
              ((E.decompress dest.viewPublic).isSome = true → E.decompress dest.spendPublic = none →
                outcome = .error (.build (.wallet (.crypto "one-time key")))) ∧
              ((E.decompress dest.viewPublic).isSome = true →
                (E.decompress dest.spendPublic).isSome = true →
                ∃ tx, outcome = .ok (tx, selected) ∧
                  (verifyTransfer (nativeHost E) cfg c.number c.store tx = .ok () ↔
                    (selected.map OwnedOutput.keyImage).Nodup ∧ NoIdentity E tx)))) := by
  intro c outcome
  refine ⟨fun e he => send_of_seedText rand he, fun seed hseed => ?_⟩
  refine ⟨fun e he => send_of_destText rand hseed he, fun dest hdest => ?_⟩
  refine ⟨fun hcrowded hdigests => send_of_crowded hheight rand hseed hdest hcrowded hdigests, ?_⟩
  intro hslots hfree choice
  have hlegible := legible_of_collisionFree hfree
  refine ⟨fun e he => send_of_refused hheight rand hseed hdest hslots hlegible he, ?_⟩
  intro selected fee hchoice
  constructor
  · intro hunfit
    refine send_of_skeleton hheight rand hseed hdest hslots hlegible hchoice ?_
    by_cases hinputs : selected = [] ∨ MAX_FCMP_INPUTS < selected.length
    · exact skeleton_of_inputs hinputs
    · obtain ⟨hne, hmax⟩ := not_or.mp hinputs
      have hcheck := (canSpend_of_selectInputs hE hS hZ hslots hlegible hchoice hne
        (Nat.not_lt.mp hmax)).1
      refine skeleton_of_funds hcheck ?_
      by_contra hfunds
      obtain ⟨htotal, hneeded⟩ := not_or.mp hfunds
      exact hunfit ⟨hne, Nat.not_lt.mp hmax, Nat.not_le.mp htotal, Nat.not_le.mp hneeded⟩
  intro hfits
  obtain ⟨hne, hmax, htotal, hneeded⟩ := hfits
  have hcheck := (canSpend_of_selectInputs hE hS hZ hslots hlegible hchoice hne hmax).1
  have hcovered := covered_of_selectInputs hchoice hneeded
  refine ⟨fun hview => ?_, fun hview hspend => ?_, fun hview hspend => ?_⟩
  · exact send_of_skeleton hheight rand hseed hdest hslots hlegible hchoice
      (skeleton_of_view hcheck hcovered htotal hview)
  · exact send_of_skeleton hheight rand hseed hdest hslots hlegible hchoice
      (skeleton_of_spend hcheck hcovered htotal hS (Option.isSome_iff_exists.mp hview) hspend)
  · obtain ⟨tx, hsent, hbuild, hbuilt⟩ := exists_send hheight rand hseed hdest hslots hlegible hchoice
      hE hS hZ hR (Option.isSome_iff_exists.mp hview) (Option.isSome_iff_exists.mp hspend)
      ⟨hne, hmax, htotal, hneeded⟩
    exact ⟨tx, hsent, verify_sent_iff hE hS hZ hslots hlegible hchoice hne hmax hbuild hbuilt⟩

/-- The payment of a thousand units goes out, to a node that can only mind a key image or an identity. -/
theorem send_exact_payout : ∃ tx selected,
    let c := afterBlocks (nativeHost (cyclic ristrettoOrder)) eagerConfig seedBlocks
    send (cyclic ristrettoOrder) sampleRandomness sampleSeedText (addressString seedWallet) 1000
        (.ofEndpoint (endpointAt (cyclic ristrettoOrder) eagerConfig seedBlocks .asKept
          fun _ => false)) = .ok (tx, selected) ∧
      (verifyTransfer (nativeHost (cyclic ristrettoOrder)) eagerConfig c.number c.store tx = .ok () ↔
        (selected.map OwnedOutput.keyImage).Nodup ∧ NoIdentity (cyclic ristrettoOrder) tx) := by
  have hl : ristrettoOrder ≤ 2 ^ 256 := by decide
  obtain ⟨-, hslots, hfree⟩ := seedBlocks_spec
  obtain ⟨selected, fee, hchoice, hfits⟩ := seedChoice_eq_ok
  obtain ⟨-, hseeds⟩ := send_exact (cyclic ristrettoOrder) (cyclic_canonical hl)
    (cyclic_canonicalScalars hl) cyclic_zeroScalar (cyclic_rangeComplete hl) eagerConfig seedBlocks
    .asKept (fun _ => false) (by decide) sampleRandomness sampleSeedText (addressString seedWallet) 1000
  obtain ⟨-, haddresses⟩ := hseeds sampleSeed parseSeed_sample
  obtain ⟨-, hroom⟩ := haddresses seedWallet.address (parseAddress_payoutAddress seedWallet.address)
  obtain ⟨-, hall⟩ := hroom hslots hfree
  obtain ⟨-, -, hsent⟩ := (hall selected fee hchoice).2 hfits
  obtain ⟨tx, hsend, haccepted⟩ := hsent (Option.isSome_iff_exists.mpr decompress_seedAddress.1)
    (Option.isSome_iff_exists.mpr decompress_seedAddress.2)
  exact ⟨tx, selected, hsend, haccepted⟩

end Wallet

end Kohl
