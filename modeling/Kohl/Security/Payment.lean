import Kohl.Security.ReadBack
import Kohl.Wallet.Built
import Kohl.Wallet.Completeness

/-!
# Stealth payments

A payment to a wallet is found by its scan with the amount that was sent, and whatever the scan
returns can be spent. The receiver does not know the index an output was made for: an earlier index
may pass the view tag and even the key by coincidence, and is then decided by the commitment, which
the independence of the generators ties to one amount.

* `found_iff_matchesOutput`: a turn of the scan finds an output that matches and whose amount opens.
* `stealth_round_trip`: completeness for payments, soundness for every stored output.
-/

namespace Kohl.Wallet

open ByteLib Pallet Stealth BuildLemmas InflationLemmas ScanLemmas

variable {l : ℕ} {Point : Type} [AddCommGroup Point] [Module (ZMod l) Point]

namespace PaymentLemmas

variable {E : CryptoLib l Point}

/-! ## The sender -/

/-- The output made for an address with known secrets. -/
theorem makeOutput_addressOf (hK : E.ReadsKeys) (hS : E.CanonicalScalars) {txSecret : Bytes32}
    {r : ZMod l} (hr : E.scalarFromCanonicalBytes txSecret = some r) (a b : ZMod l) (li : ℕ)
    (amount : UInt64) : ∃ hlen,
    let shared := E.compress (a • r • E.G)
    makeOutput E txSecret (addressOf E a b).2 li amount =
      .ok (⟨E.compress (derivationScalar E shared li • E.G + b • E.G),
        E.compress (E.pcCommit (amount.toNat : ZMod l) (derive E DOM_BLINDING shared li)),
        viewTag E shared li, ⟨maskAmount E shared li amount, hlen⟩⟩,
        deriveBlinding E shared li) := by
  have hlen : (maskAmount E (E.compress (a • r • E.G)) li amount).length ≤ MAX_PAYLOAD_BYTES := by
    rw [length_maskAmount]
    decide
  have hshared : senderSharedSecret E txSecret (addressOf E a b).2.viewPublic =
      some (E.compress (a • r • E.G)) := by
    rw [senderSharedSecret, sharedSecret, addressOf, hK, Option.bind_some, hr, Option.map_some, smul_comm]
  have hkey : deriveOneTimeKey E (E.compress (a • r • E.G)) (addressOf E a b).2.spendPublic li =
      some (E.compress (derivationScalar E (E.compress (a • r • E.G)) li • E.G + b • E.G),
        viewTag E (E.compress (a • r • E.G)) li) := by
    rw [deriveOneTimeKey, addressOf, hK, Option.map_some]
  have hcommit : Native.commit E amount (deriveBlinding E (E.compress (a • r • E.G)) li) =
      some (E.compress (E.pcCommit (amount.toNat : ZMod l)
        (derive E DOM_BLINDING (E.compress (a • r • E.G)) li))) := by
    rw [Native.commit, deriveBlinding, hS, Option.map_some]
  refine ⟨hlen, ?_⟩
  simp only [makeOutput, hshared, hkey, hcommit, okOr_some, ok_bind, bounded_eq_ok hlen]

/-! ## The receiver -/

/-- With a hidden amount and a payload of eight bytes no turn of the scan leaves early. -/
theorem openAmount_ne_leave (hS : E.CanonicalScalars) {shared : Bytes32} {li : ℕ}
    {out : StoredOutput} (hhidden : out.amount = none) (hpayload : 8 ≤ out.payload.val.length) :
    openAmount E shared li out ≠ .leave := by
  have hcommit : ∀ amount, Native.commit E amount (deriveBlinding E shared li) =
      some (E.compress (E.pcCommit (amount.toNat : ZMod l) (derive E DOM_BLINDING shared li))) := by
    intro amount
    rw [Native.commit, deriveBlinding, hS, Option.map_some]
  unfold openAmount
  rw [hhidden]
  dsimp only
  rw [if_neg (Nat.not_lt.mpr hpayload), hcommit]
  dsimp only
  split
  · intro h
    cases h
  · intro h
    cases h

/-- The turn of the index an output was made for reads the amount back. -/
theorem openAmount_maskAmount (hS : E.CanonicalScalars) {shared : Bytes32} {li : ℕ}
    {amount : UInt64} {out : StoredOutput} (hhidden : out.amount = none)
    (hpayload : out.payload.val = maskAmount E shared li amount)
    (hcommitment : out.commitment =
      E.compress (E.pcCommit (amount.toNat : ZMod l) (derive E DOM_BLINDING shared li))) :
    openAmount E shared li out = .found (amount, deriveBlinding E shared li) := by
  have hlen : out.payload.val.length = 8 := by rw [hpayload, length_maskAmount]
  have htake : out.payload.val.take 8 = maskAmount E shared li amount := by
    rw [List.take_of_length_le hlen.le, hpayload]
  unfold openAmount
  rw [hhidden]
  dsimp only
  rw [if_neg (by rw [hlen]; decide), htake, unmaskAmount_maskAmount, Native.commit, deriveBlinding, hS,
    Option.map_some]
  dsimp only
  rw [if_neg (not_not.mpr hcommitment.symm)]

/-- What a turn computes before it looks at the amount is there, and so is the key image. -/
theorem turn_computes (hK : E.ReadsKeys) (hS : E.CanonicalScalars) {w : Wallet E}
    {txPubkey shared : Bytes32} {a b : ZMod l} (hw : addressOf E a b = (w.keys, w.address))
    (hshared : receiverSharedSecret E w.keys.viewSecret txPubkey = some shared) (li : ℕ) :
    deriveOneTimeKey E shared w.address.spendPublic li =
      some (E.compress (derivationScalar E shared li • E.G + b • E.G), viewTag E shared li) ∧
    ∃ secret keyImage, recoverSpendSecret E w.keys txPubkey li = some secret ∧
      Clsag.keyImage E secret = some keyImage := by
  have hkeys : w.keys = (addressOf E a b).1 := by rw [hw]
  have haddress : w.address = (addressOf E a b).2 := by rw [hw]
  have hsecret : recoverSpendSecret E w.keys txPubkey li =
      some (E.scalarToBytes (derivationScalar E shared li + b)) := by
    rw [recoverSpendSecret, hshared, Option.bind_some, hkeys, addressOf, hS, Option.map_some]
  have hkeyImage : Clsag.keyImage E (E.scalarToBytes (derivationScalar E shared li + b)) =
      some (E.compress ((derivationScalar E shared li + b) •
        Clsag.hp E (E.compress ((derivationScalar E shared li + b) • E.G)).val)) := by
    rw [Clsag.keyImage, hS, Option.map_some]
  refine ⟨?_, _, _, hsecret, hkeyImage⟩
  rw [haddress, deriveOneTimeKey, addressOf, hK, Option.map_some]

theorem tryOwnAt_ne_leave (hK : E.ReadsKeys) (hS : E.CanonicalScalars) {w : Wallet E} {gi : UInt64}
    {out : StoredOutput} {shared : Bytes32} {a b : ZMod l} (hw : addressOf E a b = (w.keys, w.address))
    (hshared : receiverSharedSecret E w.keys.viewSecret out.txPubkey = some shared) {li : ℕ}
    (hopen : openAmount E shared li out ≠ .leave) : tryOwnAt E w gi out shared li ≠ .leave := by
  obtain ⟨hkey, secret, keyImage, hsecret, hkeyImage⟩ := turn_computes hK hS hw hshared li
  unfold tryOwnAt
  rw [hkey, hsecret]
  dsimp only
  rw [hkeyImage]
  split
  · intro h
    cases h
  split
  · intro h
    cases h
  cases hturn : openAmount E shared li out with
  | next =>
    intro h
    cases h
  | leave => exact absurd hturn hopen
  | found opening =>
    intro h
    cases h

theorem tryOwnAt_found (hK : E.ReadsKeys) (hS : E.CanonicalScalars) {w : Wallet E} {gi : UInt64}
    {out : StoredOutput} {shared : Bytes32} {a b : ZMod l} (hw : addressOf E a b = (w.keys, w.address))
    (hshared : receiverSharedSecret E w.keys.viewSecret out.txPubkey = some shared) {li : ℕ}
    (htag : viewTag E shared li = out.viewTag)
    (hotk : E.compress (derivationScalar E shared li • E.G + b • E.G) = out.oneTimeKey)
    {opening : UInt64 × Bytes32} (hopen : openAmount E shared li out = .found opening) :
    ∃ o, tryOwnAt E w gi out shared li = .found o := by
  obtain ⟨hkey, secret, keyImage, hsecret, hkeyImage⟩ := turn_computes hK hS hw hshared li
  unfold tryOwnAt
  rw [if_neg (not_not.mpr htag), hkey, hsecret]
  dsimp only
  rw [if_neg (not_not.mpr hotk), hopen, hkeyImage]
  exact ⟨_, rfl⟩

/-- A scan none of whose turns leaves returns something once one turn finds something. -/
theorem tryOwnLoop_isSome {w : Wallet E} {gi : UInt64} {out : StoredOutput} {shared : Bytes32}
    {lis : List ℕ} (hstays : ∀ li ∈ lis, tryOwnAt E w gi out shared li ≠ .leave) {li : ℕ}
    (hmem : li ∈ lis) {o : OwnedOutput} (hfound : tryOwnAt E w gi out shared li = .found o) :
    ∃ o', tryOwnLoop E w gi out shared lis = some o' := by
  induction lis with
  | nil => cases hmem
  | cons first lis ih =>
    rw [tryOwnLoop]
    cases hturn : tryOwnAt E w gi out shared first with
    | next =>
      rw [List.mem_cons] at hmem
      cases hmem with
      | inl heq =>
        rw [heq, hturn] at hfound
        cases hfound
      | inr hlater => exact ih (fun li hli => hstays li (List.mem_cons_of_mem first hli)) hlater
    | leave => exact absurd hturn (hstays first List.mem_cons_self)
    | found o' => exact ⟨o', rfl⟩

/-- The scan finds an output that was made for the wallet. -/
theorem tryOwn_makeOutput (hK : E.ReadsKeys) (hS : E.CanonicalScalars) (w : Wallet E)
    {txSecret : Bytes32} {r : ZMod l} (hr : E.scalarFromCanonicalBytes txSecret = some r) {li : ℕ}
    (hli : li < MAX_OUTPUTS) {amount : UInt64} {out : Output} {blinding : Bytes32}
    (hmake : makeOutput E txSecret w.address li amount = .ok (out, blinding)) {now : ℕ}
    {tx : TransferTx} (htx : tx.txPubkey = E.compress (r • E.G)) (gi : UInt64) :
    ∃ o, tryOwn E w gi (storedOfTransfer now tx out) = some o := by
  obtain ⟨a, b, hw⟩ := w.derived
  have hkeys : w.keys = (addressOf E a b).1 := by rw [hw]
  have haddress : w.address = (addressOf E a b).2 := by rw [hw]
  obtain ⟨hlen, hmade⟩ := makeOutput_addressOf hK hS hr a b li amount
  rw [haddress, hmade] at hmake
  cases hmake
  generalize hout : storedOfTransfer now tx _ = stored
  have hshared : receiverSharedSecret E w.keys.viewSecret stored.txPubkey =
      some (E.compress (a • r • E.G)) := by
    rw [← hout, storedOfTransfer, htx, receiverSharedSecret, sharedSecret, hK, Option.bind_some, hkeys,
      addressOf, hS, Option.map_some]
  have hstays : ∀ li' ∈ List.range MAX_OUTPUTS,
      tryOwnAt E w gi stored (E.compress (a • r • E.G)) li' ≠ .leave := by
    intro li' _
    refine tryOwnAt_ne_leave hK hS hw hshared ?_
    rw [← hout]
    exact openAmount_ne_leave hS rfl (length_maskAmount _ _ _ _).ge
  have hfound : ∃ o, tryOwnAt E w gi stored (E.compress (a • r • E.G)) li = .found o := by
    have hopen : openAmount E (E.compress (a • r • E.G)) li stored =
        .found (amount, deriveBlinding E (E.compress (a • r • E.G)) li) := by
      rw [← hout]
      exact openAmount_maskAmount hS rfl rfl rfl
    exact tryOwnAt_found hK hS hw hshared (by rw [← hout]; rfl) (by rw [← hout]; rfl) hopen
  obtain ⟨o, hfound⟩ := hfound
  rw [tryOwn, hshared, Option.bind_some]
  exact tryOwnLoop_isSome hstays (List.mem_range.mpr hli) hfound

/-- The commitment of an output carries one amount. -/
theorem amount_of_commit (hl : 2 ^ 64 ≤ l) (hR : ReadBack E) (hind : Independent E)
    {txSecret : Bytes32} {recipient : StealthAddress} {li : ℕ} {amount amount' : UInt64}
    {out : Output} {blinding blinding' : Bytes32}
    (hmake : makeOutput E txSecret recipient li amount = .ok (out, blinding))
    (hcommit : Native.commit E amount' blinding' = some out.commitment) : amount' = amount := by
  have hmade : ∃ blinding, Native.commit E amount blinding = some out.commitment := by
    unfold makeOutput at hmake
    simp only [CallLemmas.bind_eq_ok, okOr_eq_ok] at hmake
    obtain ⟨shared, -, key, -, commitment, hcommitment, payload, -, hout⟩ := hmake
    cases hout
    exact ⟨_, hcommitment⟩
  obtain ⟨blinding, hmade⟩ := hmade
  -- both amounts are read off the one commitment
  obtain ⟨hamount, b, hb⟩ := hasValue_of_commit hR hmade
  obtain ⟨hamount', b', hb'⟩ := hasValue_of_commit hR hcommit
  rw [hb, Option.some.injEq] at hb'
  exact UInt64.toNat_inj.mp
    (natCast_inj (hamount'.trans_le hl) (hamount.trans_le hl) (pcCommit_inj hind hb').1.symm)

end PaymentLemmas

open PaymentLemmas

/-- A turn of the scan finds exactly the outputs that match the keys of the wallet at its index and whose
amount opens there. -/
theorem found_iff_matchesOutput {E : CryptoLib l Point} (hK : E.ReadsKeys) (hS : E.CanonicalScalars)
    (w : Wallet E) (gi : UInt64) (out : StoredOutput) {shared : Bytes32}
    (hshared : receiverSharedSecret E w.keys.viewSecret out.txPubkey = some shared) (li : ℕ) :
    (∃ o, tryOwnAt E w gi out shared li = .found o) ↔
      matchesOutput E w.keys.viewSecret w.address.spendPublic out.txPubkey li out.oneTimeKey
          out.viewTag = true ∧
        ∃ opening, openAmount E shared li out = .found opening := by
  rw [matchesOutput_iff hshared]
  constructor
  · rintro ⟨o, ho⟩
    have hfound := tryOwnAt_spec ho
    exact ⟨⟨hfound.tag, hfound.key⟩, _, hfound.amount⟩
  · rintro ⟨⟨htag, tag, hkey⟩, opening, hopen⟩
    obtain ⟨a, b, hw⟩ := w.derived
    obtain ⟨hderived, -⟩ := turn_computes hK hS hw hshared li
    rw [hderived, Option.some.injEq, Prod.mk.injEq] at hkey
    exact tryOwnAt_found hK hS hw hshared htag hkey.1 hopen

/-- Completeness: an output made for a wallet and stored by a transfer under the sender's public key
is found by the wallet's scan, with an opening of the stored key and commitment and, where commitments
are binding, with the amount that was sent. Soundness: whatever the scan returns for a stored output,
whoever created it, opens the key and the commitment of the output and carries the key image of the
secret. -/
theorem stealth_round_trip (E : CryptoLib l Point) (hl : 2 ^ 64 ≤ l) (hR : ReadBack E)
    (hS : E.CanonicalScalars) (hZ : E.ZeroScalar) (w : Wallet E) (gi : UInt64) :
    (∀ (txSecret : Bytes32) (r : ZMod l) (li : ℕ) (amount : UInt64) (out : Output)
      (blinding : Bytes32) (now : ℕ) (tx : TransferTx),
      E.scalarFromCanonicalBytes txSecret = some r → tx.txPubkey = E.compress (r • E.G) →
      li < MAX_OUTPUTS → makeOutput E txSecret w.address li amount = .ok (out, blinding) →
      ∃ o x, tryOwn E w gi (storedOfTransfer now tx out) = some o ∧
        (Independent E → o.amount = amount) ∧
        Native.commit E o.amount o.blinding = some out.commitment ∧
        E.scalarFromCanonicalBytes o.secret = some x ∧ E.compress (x • E.G) = out.oneTimeKey) ∧
    ∀ (out : StoredOutput) (o : OwnedOutput),
      (∀ a, out.amount = some a → out.commitment = Native.valueCommitment E a) →
      tryOwn E w gi out = some o →
      (∃ x, E.scalarFromCanonicalBytes o.secret = some x ∧
        E.compress (x • E.G) = out.oneTimeKey) ∧
      Native.commit E o.amount o.blinding = some out.commitment ∧
      Clsag.keyImage E o.secret = some o.keyImage := by
  have hsound : ∀ (out : StoredOutput) (o : OwnedOutput),
      (∀ a, out.amount = some a → out.commitment = Native.valueCommitment E a) →
      tryOwn E w gi out = some o →
      (∃ x, E.scalarFromCanonicalBytes o.secret = some x ∧
        E.compress (x • E.G) = out.oneTimeKey) ∧
      Native.commit E o.amount o.blinding = some out.commitment ∧
      Clsag.keyImage E o.secret = some o.keyImage := by
    intro out o hpublic hown
    obtain ⟨howned, -, -, hcommitment⟩ := tryOwn_owned hR.keys hS
      (fun a ha => (commit_zeroBlinding hS hZ a).trans (congrArg some (hpublic a ha).symm)) hown
    refine ⟨tryOwn_opens hR.keys hS hown, ?_, howned.keyImage⟩
    rw [← hcommitment]
    exact howned.commits
  refine ⟨?_, hsound⟩
  intro txSecret r li amount out blinding now tx hr htx hli hmake
  obtain ⟨o, hown⟩ := @tryOwn_makeOutput _ _ _ _ E hR.keys hS w txSecret r hr li hli amount out blinding
    hmake now tx htx gi
  obtain ⟨⟨x, hx, hkey⟩, hcommit, -⟩ := hsound _ o (fun a ha => by cases ha) hown
  refine ⟨o, x, hown, fun hind => ?_, hcommit, hx, hkey⟩
  exact amount_of_commit hl hR hind hmake hcommit

/-! ## A payment over the plane that is read back -/

namespace PaymentLemmas

open Cyclic

/-- A wallet with the secrets three and five. -/
def readableOwner : Wallet (readable ristrettoOrder) where
  keys := (addressOf (readable ristrettoOrder) (scalarOf 3) (scalarOf 5)).1
  address := (addressOf (readable ristrettoOrder) (scalarOf 3) (scalarOf 5)).2
  derived := ⟨_, _, rfl⟩

def readableTransfer : TransferTx :=
  { planeSkeleton with
    txPubkey := (readable ristrettoOrder).compress (scalarOf 7 • (readable ristrettoOrder).G) }

end PaymentLemmas

open ReadableLemmas Cyclic

/-- A payment of 42 as output 1 of a transaction with secret seven. -/
theorem stealth_round_trip_readable :
    ∃ out blinding, makeOutput (readable ristrettoOrder)
        ((readable ristrettoOrder).scalarToBytes (scalarOf 7)) readableOwner.address 1 42 =
          .ok (out, blinding) ∧
      ∃ o, tryOwn (readable ristrettoOrder) readableOwner 0 (storedOfTransfer 9 readableTransfer out) =
          some o ∧ o.amount = 42 ∧
        Clsag.keyImage (readable ristrettoOrder) o.secret = some o.keyImage := by
  have hl : 2 ^ 250 < ristrettoOrder := by decide
  have hR : ReadBack (readable ristrettoOrder) := readable_readBack hl (by decide)
  have hS : (readable ristrettoOrder).CanonicalScalars := readable_canonicalScalars (by decide)
  obtain ⟨_, hmake⟩ := makeOutput_addressOf hR.keys hS (hS (scalarOf 7)) (scalarOf 3) (scalarOf 5) 1 42
  refine ⟨_, _, hmake, ?_⟩
  obtain ⟨hcomplete, hsound⟩ := stealth_round_trip (readable ristrettoOrder) (by decide) hR hS
    readable_zeroScalar readableOwner 0
  obtain ⟨o, x, hown, hamount, -⟩ := hcomplete _ _ 1 42 _ _ 9 readableTransfer (hS (scalarOf 7)) rfl
    (by decide) hmake
  obtain ⟨-, -, himage⟩ := hsound _ o (fun a ha => by cases ha) hown
  exact ⟨o, hown, hamount readable_independent, himage⟩

end Kohl.Wallet
