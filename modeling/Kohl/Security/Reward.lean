import Kohl.Security.Arrival
import Kohl.Security.Overflow

/-!
# The miner is paid

From the address a node mines for to the wallet that holds its secrets: the payout in the inherent data is a
one-time key of that address, the runtime turns it into the coinbase of the block, and once that is executed
every later scan finds the reward and the fees.

* `miningInherentData`: the payout of a block, `mining_inherent_data_providers` in `node/src/service.rs`.
* `reward_arrives`: when there is a coinbase, when it is executed, and what the wallet of the miner finds.
-/

namespace Kohl.Wallet

open ByteLib Run Pallet Fcmp Stealth CallLemmas BuildLemmas ArrivalLemmas

variable {l : ℕ} {Point : Type} [AddCommGroup Point] [Module (ZMod l) Point]

/-- The inherent data of a mining node: a transaction key drawn for the block, and the one-time key of
output 0 for the address the node mines for. -/
def miningInherentData (E : CryptoLib l Point) (minerAddress : StealthAddress) (r : ZMod l) :
    Except String CoinbaseInherent :=
  let (txSecret, txPubkey) := txKeypair E r
  okOr (((senderSharedSecret E txSecret minerAddress.viewPublic).bind fun shared =>
    deriveOneTimeKey E shared minerAddress.spendPublic 0).map fun (oneTimeKey, viewTag) =>
      (oneTimeKey, txPubkey, viewTag)) "invalid miner address"

namespace RewardLemmas

variable {E : CryptoLib l Point}

/-- There is a payout exactly for an address of two points. -/
theorem miningInherentData_isOk (hS : E.CanonicalScalars) {address : StealthAddress} {r : ZMod l} :
    (∃ data, miningInherentData E address r = .ok data) ↔
      (∃ p, E.decompress address.viewPublic = some p) ∧
        ∃ p, E.decompress address.spendPublic = some p := by
  unfold miningInherentData
  simp only [txKeypair, okOr_eq_ok, senderSharedSecret, sharedSecret, deriveOneTimeKey]
  cases hview : E.decompress address.viewPublic with
  | none => simp
  | some p =>
    rw [Option.bind_some, hS, Option.map_some, Option.bind_some]
    cases hspend : E.decompress address.spendPublic with
    | none => simp
    | some q => simp

/-- The payout for an address with known secrets. -/
theorem miningInherentData_addressOf (hE : E.Canonical) (hS : E.CanonicalScalars) (a b r : ZMod l) :
    miningInherentData E (addressOf E a b).2 r =
      .ok (E.compress (derivationScalar E (E.compress (a • r • E.G)) 0 • E.G + b • E.G),
        E.compress (r • E.G), viewTag E (E.compress (a • r • E.G)) 0) := by
  have hshared : senderSharedSecret E (E.scalarToBytes r) (addressOf E a b).2.viewPublic =
      some (E.compress (a • r • E.G)) := by
    rw [senderSharedSecret, sharedSecret, addressOf, hE.decompress_compress, Option.bind_some, hS,
      Option.map_some, smul_comm]
  have hkey : deriveOneTimeKey E (E.compress (a • r • E.G)) (addressOf E a b).2.spendPublic 0 =
      some (E.compress (derivationScalar E (E.compress (a • r • E.G)) 0 • E.G + b • E.G),
        viewTag E (E.compress (a • r • E.G)) 0) := by
    rw [deriveOneTimeKey, addressOf, hE.decompress_compress, Option.map_some]
  simp only [miningInherentData, txKeypair, hshared, Option.bind_some, hkey, Option.map_some, okOr_some]

/-- The coinbase of a payout has one output, of the reward and the fees. -/
theorem createInherent_eq_some {s : Storage} {data : CoinbaseInherent} {call : Call}
    (h : createInherent s (some data) = some call) :
    ∃ outputs : BoundedVec CoinbaseOutput MAX_OUTPUTS, ∃ amount : UInt64,
      call = .coinbase outputs data.2.1 ∧ outputs.val = [⟨data.1, amount, data.2.2⟩] ∧
      amount.toNat = (blockReward s.emitted).toNat + s.blockFees.toNat := by
  obtain ⟨key, txPubkey, viewTag⟩ := data
  rw [createInherent, Option.bind_some] at h
  obtain ⟨amount, hadd, h⟩ := Option.bind_eq_some_iff.mp h
  split at h
  · cases h
  · obtain ⟨outputs, houtputs, rfl⟩ := Option.map_eq_some_iff.mp h
    have hone : 1 ≤ MAX_OUTPUTS := by decide
    rw [BoundedVec.tryFrom_eq_some hone] at houtputs
    cases houtputs
    exact ⟨_, amount, rfl, rfl, checkedAdd_eq_some.mp hadd⟩

/-- The coinbase of a payout is valid exactly if its two keys are. -/
theorem coinbaseValid_iff {H : Host} {s : Storage} {data : CoinbaseInherent}
    {outputs : BoundedVec CoinbaseOutput MAX_OUTPUTS} {txPubkey : Bytes32}
    (h : createInherent (onInitialize s) (some data) = some (.coinbase outputs txPubkey)) :
    CoinbaseValid H (onInitialize s) outputs.val txPubkey ↔
      H.isValidPointV1 data.1 = true ∧ H.isValidPointV1 txPubkey = true := by
  obtain ⟨outputs', amount, heq, houtputs, hamount⟩ := createInherent_eq_some h
  cases heq
  constructor
  · intro hvalid
    refine ⟨hvalid.keys ⟨data.1, amount, data.2.2⟩ ?_, hvalid.txPubkey⟩
    rw [houtputs]
    exact List.mem_cons_self
  · rintro ⟨hkey, hpubkey⟩
    have hfits : (blockReward s.emitted).toNat + s.blockFees.toNat < 2 ^ 64 := hamount ▸ amount.toNat_lt
    obtain ⟨outputs', hcall, hvalid⟩ :=
      @OverflowLemmas.exists_createInherent H s data.1 data.2.1 data.2.2 hfits
    rw [h] at hcall
    cases hcall
    exact hvalid hkey hpubkey

/-- There is no coinbase exactly where the reward and the fees do not fit. -/
theorem createInherent_eq_none {H : Host} {s : Storage} {data : CoinbaseInherent} :
    createInherent (onInitialize s) (some data) = none ↔
      2 ^ 64 ≤ (blockReward s.emitted).toNat + s.blockFees.toNat := by
  obtain ⟨key, txPubkey, viewTag⟩ := data
  constructor
  · intro hnone
    by_contra hfits
    obtain ⟨outputs, hcall, -⟩ :=
      @OverflowLemmas.exists_createInherent H s key txPubkey viewTag (Nat.lt_of_not_le hfits)
    rw [hnone] at hcall
    cases hcall
  · intro hbig
    have hadd : checkedAdd (blockReward (onInitialize s).emitted) (onInitialize s).blockFees = none := by
      rw [checkedAdd]
      exact if_neg (Nat.not_lt.mpr hbig)
    rw [createInherent, Option.bind_some, hadd]
    rfl

/-- When the coinbase of a block is executed. -/
theorem acceptedCall_coinbase_iff {H : Host} {cfg : Config} {c : Chain}
    {outputs : BoundedVec CoinbaseOutput MAX_OUTPUTS} {txPubkey : Bytes32} :
    acceptedCall H cfg c (.dispatch .none (.coinbase outputs txPubkey)) =
        some (.coinbase outputs txPubkey) ↔
      CoinbaseValid H c.store outputs.val txPubkey ∧
        c.store.emitted.toNat + (blockReward c.store.emitted).toNat < 2 ^ 64 := by
  constructor
  · intro h
    rcases @ChainLemmas.coinbase_cases H .none c.number c.store outputs txPubkey with
      ⟨e, he⟩ | ⟨-, hvalid, emitted, hemitted, -⟩
    · simp only [acceptedCall, dispatch, he] at h
      cases h
    · have hsum := checkedAdd_eq_some.mp hemitted
      exact ⟨hvalid, hsum ▸ emitted.toNat_lt⟩
  · rintro ⟨hvalid, hfits⟩
    have hemitted : checkedAdd c.store.emitted (blockReward c.store.emitted) =
        some (c.store.emitted + blockReward c.store.emitted) := by
      rw [checkedAdd, if_pos hfits]
    simp only [acceptedCall, dispatch, ChainLemmas.coinbase_eq_ok hvalid hemitted]

/-- An executed payout to the keys of a wallet is found by its scan in every later state. -/
theorem scan_of_payout [DecidableEq Point] (hE : E.Canonical) (hS : E.CanonicalScalars)
    (hZ : E.ZeroScalar) {miner : Wallet E} {a b r : ZMod l}
    (hw : addressOf E a b = (miner.keys, miner.address)) {cfg : Config} {ops : List Op}
    {outputs : BoundedVec CoinbaseOutput MAX_OUTPUTS} {amount : UInt64}
    (houtputs : outputs.val =
      [⟨E.compress (derivationScalar E (E.compress (a • r • E.G)) 0 • E.G + b • E.G), amount,
        viewTag E (E.compress (a • r • E.G)) 0⟩])
    (hexec : acceptedCall (nativeHost E) cfg (run (step (nativeHost E) cfg) (.genesis (nativeHost E)) ops)
      (.dispatch .none (.coinbase outputs (E.compress (r • E.G)))) =
        some (.coinbase outputs (E.compress (r • E.G)))) (later : List Op) :
    let c := run (step (nativeHost E) cfg) (.genesis (nativeHost E)) ops
    let c' := run (step (nativeHost E) cfg) c
      (.dispatch .none (.coinbase outputs (E.compress (r • E.G))) :: later)
    ∃ o ∈ scan E miner (storedOutputs c'.store),
      o.globalIndex = UInt64.ofNat c.store.nextOutputIndex ∧ Owned E o ∧ o.amount = amount := by
  intro c c'
  have hc' : c' = run (step (nativeHost E) cfg) (.genesis (nativeHost E))
      (ops ++ .dispatch .none (.coinbase outputs (E.compress (r • E.G))) :: later) :=
    (run_append _ _ _).symm
  generalize hstored : storedOfCoinbase (nativeHost E) c.number (E.compress (r • E.G))
    ⟨E.compress (derivationScalar E (E.compress (a • r • E.G)) 0 • E.G + b • E.G), amount,
      viewTag E (E.compress (a • r • E.G)) 0⟩ = stored
  have hget : c'.store.outputs.get c.store.nextOutputIndex = some stored := by
    refine get_of_acceptedCall (k := 0) hexec later ?_
    rw [Call.storedOutputs, houtputs, ← hstored]
    rfl
  have hopen : openAmount E (E.compress (a • r • E.G)) 0 stored = .found (amount, zeroBlinding) := by
    rw [← hstored]
    rfl
  obtain ⟨o, hown, hamount⟩ : ∃ o, tryOwn E miner (UInt64.ofNat c.store.nextOutputIndex) stored = some o ∧
      o.amount = amount :=
    tryOwn_first hE.readsKeys hS hw (by rw [← hstored]; rfl) (by rw [← hstored]; rfl)
      (by rw [← hstored]; rfl) hopen _
  have hpublic : ∀ x, stored.amount = some x → Native.commit E x zeroBlinding = some stored.commitment := by
    rw [← hstored]
    intro x hx
    cases hx
    exact commit_zeroBlinding hS hZ amount
  obtain ⟨howned, hindex, -, -⟩ := tryOwn_owned hE.readsKeys hS hpublic hown
  refine ⟨o, ?_, hindex, howned, hamount⟩
  rw [hc']
  refine mem_scan_of_get ?_ hown
  rw [← hc']
  exact hget

end RewardLemmas

open RewardLemmas

/-- The miner is paid. A node mines for an address exactly if it consists of two points. For the address of a
wallet the inherent data gives a coinbase exactly if the reward and the fees collected so far fit a counter;
the coinbase is executed exactly if neither of its keys is the identity and the emission does not overflow;
and once it is executed, in every later state the scan of the wallet finds the next output, owned and with
the reward and the fees. -/
theorem reward_arrives [DecidableEq Point] (E : CryptoLib l Point) (hE : E.Canonical)
    (hS : E.CanonicalScalars) (hZ : E.ZeroScalar) (cfg : Config) (ops : List Op) (miner : Wallet E)
    (r : ZMod l) :
    let H := nativeHost E
    let c := step H cfg (run (step H cfg) (.genesis H) ops) .onInitialize
    let reward := (blockReward c.store.emitted).toNat
    (∀ address, (∃ data, miningInherentData E address r = .ok data) ↔
      (∃ p, E.decompress address.viewPublic = some p) ∧
        ∃ p, E.decompress address.spendPublic = some p) ∧
    ∃ data, miningInherentData E miner.address r = .ok data ∧
      (createInherent c.store (some data) = none ↔ 2 ^ 64 ≤ reward + c.store.blockFees.toNat) ∧
      ∀ call, createInherent c.store (some data) = some call →
        (acceptedCall H cfg c (.dispatch .none call) = some call ↔
          data.1 ≠ E.compress 0 ∧ r • E.G ≠ 0 ∧ c.store.emitted.toNat + reward < 2 ^ 64) ∧
        (acceptedCall H cfg c (.dispatch .none call) = some call → ∀ later,
          let c' := run (step H cfg) c (.dispatch .none call :: later)
          ∃ o ∈ scan E miner (storedOutputs c'.store),
            o.globalIndex = UInt64.ofNat c.store.nextOutputIndex ∧ Owned E o ∧
            o.amount.toNat = reward + c.store.blockFees.toNat) := by
  intro H c reward
  obtain ⟨a, b, hw⟩ := miner.derived
  have haddress : miner.address = (addressOf E a b).2 := by rw [hw]
  refine ⟨fun address => miningInherentData_isOk hS, _,
    haddress ▸ miningInherentData_addressOf hE hS a b r, @createInherent_eq_none H _ _, ?_⟩
  intro call hcall
  obtain ⟨outputs, amount, rfl, houtputs, hamount⟩ := createInherent_eq_some hcall
  constructor
  · rw [acceptedCall_coinbase_iff]
    refine (and_congr (@coinbaseValid_iff H _ _ _ _ hcall) Iff.rfl).trans ?_
    show (Native.isValidPoint E (E.compress _) = true ∧ Native.isValidPoint E (E.compress _) = true) ∧ _ ↔ _
    rw [SpecLemmas.isValidPoint_compress hE, SpecLemmas.isValidPoint_compress hE, and_assoc]
    refine and_congr (not_congr ⟨fun h => congrArg E.compress h, fun h => ?_⟩) Iff.rfl
    have hpoint := congrArg E.decompress h
    rw [hE.decompress_compress, hE.decompress_compress, Option.some.injEq] at hpoint
    exact hpoint
  · intro hexec later c'
    have hc : run (step H cfg) (.genesis H) (ops ++ [.onInitialize]) = c := by
      rw [run_concat]
    rw [← hc] at hexec
    obtain ⟨o, hmem, hindex, howned, hread⟩ := scan_of_payout hE hS hZ hw houtputs hexec later
    rw [hc] at hmem hindex
    exact ⟨o, hmem, hindex, howned, by rw [hread]; exact hamount⟩

open SampleLemmas Cyclic

/-- The first block pays its whole reward to the wallet it is mined for. -/
theorem reward_arrives_first :
    let H := nativeHost (cyclic ristrettoOrder)
    let c := step H eagerConfig (.genesis H) .onInitialize
    ∃ data call, miningInherentData (cyclic ristrettoOrder) sampleWallet.address (scalarOf 5) = .ok data ∧
      createInherent c.store (some data) = some call ∧
      ∀ later, ∃ o ∈ scan (cyclic ristrettoOrder) sampleWallet
          (storedOutputs (run (step H eagerConfig) c (.dispatch .none call :: later)).store),
        o.amount.toNat = (blockReward 0).toNat := by
  intro H c
  have hl : ristrettoOrder ≤ 2 ^ 256 := by decide
  obtain ⟨-, data, hdata, hnone, hcalls⟩ := reward_arrives (cyclic ristrettoOrder) (cyclic_canonical hl)
    (cyclic_canonicalScalars hl) cyclic_zeroScalar eagerConfig [] sampleWallet (scalarOf 5)
  cases hcall : createInherent c.store (some data) with
  | none => exact absurd (hnone.mp hcall) (by decide)
  | some call =>
    obtain ⟨hexec, hfound⟩ := hcalls call hcall
    have hkey : data.1 ≠ (cyclic ristrettoOrder).compress 0 := by
      obtain ⟨data', hdata', hne⟩ := exists_ok_of_any
        (o := miningInherentData (cyclic ristrettoOrder) sampleWallet.address (scalarOf 5))
        (f := fun d => decide (d.1 ≠ (cyclic ristrettoOrder).compress 0)) (by decide +kernel)
      rw [hdata, Except.ok.injEq] at hdata'
      rw [hdata']
      exact of_decide_eq_true hne
    refine ⟨data, call, hdata, hcall, fun later => ?_⟩
    obtain ⟨o, hmem, -, -, hamount⟩ := hfound (hexec.mpr ⟨hkey, by decide +kernel, by decide⟩) later
    exact ⟨o, hmem, hamount⟩

end Kohl.Wallet
