import Kohl.Pallet.Calls
import Kohl.Wallet.Membership
import Kohl.Wallet.Stealth

/-!
# The wallet

`wallet/src/lib.rs`: keys, the scan for own outputs, and the construction of a transfer under a
membership snapshot. The random choices of a transfer are an argument.

* `tryOwn_owned`: what the scan returns is an output with its opening.
-/

namespace Kohl

/-- The keys of a wallet with the address that belongs to them. -/
structure Wallet {l : ℕ} {Point : Type} [AddCommGroup Point] [Module (ZMod l) Point]
    (E : CryptoLib l Point) where
  keys : Stealth.StealthKeys
  address : Stealth.StealthAddress
  derived : ∃ a b, Stealth.addressOf E a b = (keys, address)

namespace Wallet

open ByteLib MembershipTree Fcmp Pallet Stealth

variable {l : ℕ} {Point : Type} [AddCommGroup Point] [Module (ZMod l) Point]

/-- `Option::ok_or`. -/
def okOr {ε α : Type} (o : Option α) (e : ε) : Except ε α :=
  match o with
  | some a => .ok a
  | none => .error e

/-- `BoundedVec::try_from` with the wallet's error. -/
def bounded {α : Type} {n : ℕ} (v : List α) : Except WalletError (BoundedVec α n) :=
  okOr (BoundedVec.tryFrom v) .bounds

/-! ## Keys and the scan -/

def fromSeed (E : CryptoLib l Point) (seed : Bytes32) : Wallet E where
  keys := (keypairFromSeed E seed).1
  address := (keypairFromSeed E seed).2
  derived := ⟨_, _, rfl⟩

/-- An output the wallet owns and can spend. -/
structure OwnedOutput where
  globalIndex : UInt64
  localIndex : ℕ
  amount : UInt64
  blinding : Bytes32
  secret : Bytes32
  keyImage : Bytes32
  oneTimeKey : Bytes32
  commitment : Bytes32
  height : ℕ
  coinbase : Bool
deriving DecidableEq

/-- How one turn of a loop goes on: with the next turn, by leaving empty-handed, or with a result. -/
inductive Turn (α : Type)
  | next
  | leave
  | found (a : α)

/-- The blinding of a public amount. -/
def zeroBlinding : Bytes32 := ⟨List.replicate 32 0, rfl⟩

/-- The amount and the blinding of an output: public, or read off the payload and checked against
the commitment. -/
def openAmount (E : CryptoLib l Point) (shared : Bytes32) (li : ℕ) (out : StoredOutput) :
    Turn (UInt64 × Bytes32) :=
  match out.amount with
  | some a => .found (a, zeroBlinding)
  | none =>
    if out.payload.val.length < 8 then .leave
    else
      let amount := unmaskAmount E shared li (out.payload.val.take 8)
      let blinding := deriveBlinding E shared li
      match Native.commit E amount blinding with
      | none => .leave
      | some commitment =>
        if commitment ≠ out.commitment then .next else .found (amount, blinding)

/-- The turn of the scan for local index `li`. -/
def tryOwnAt (E : CryptoLib l Point) (w : Wallet E) (globalIndex : UInt64) (out : StoredOutput)
    (shared : Bytes32) (li : ℕ) : Turn OwnedOutput :=
  if viewTag E shared li ≠ out.viewTag then .next
  else
    match deriveOneTimeKey E shared w.address.spendPublic li with
    | none => .leave
    | some (otk, _) =>
      if otk ≠ out.oneTimeKey then .next
      else
        match recoverSpendSecret E w.keys out.txPubkey li with
        | none => .leave
        | some secret =>
          match openAmount E shared li out with
          | .next => .next
          | .leave => .leave
          | .found (amount, blinding) =>
            match Clsag.keyImage E secret with
            | none => .leave
            | some keyImage =>
              .found ⟨globalIndex, li, amount, blinding, secret, keyImage, out.oneTimeKey,
                out.commitment, out.height, out.coinbase⟩

/-- The turns for the given local indices. -/
def tryOwnLoop (E : CryptoLib l Point) (w : Wallet E) (globalIndex : UInt64) (out : StoredOutput)
    (shared : Bytes32) : List ℕ → Option OwnedOutput
  | [] => none
  | li :: lis =>
    match tryOwnAt E w globalIndex out shared li with
    | .next => tryOwnLoop E w globalIndex out shared lis
    | .leave => none
    | .found o => some o

def tryOwn (E : CryptoLib l Point) (w : Wallet E) (globalIndex : UInt64) (out : StoredOutput) :
    Option OwnedOutput :=
  (receiverSharedSecret E w.keys.viewSecret out.txPubkey).bind fun shared =>
    tryOwnLoop E w globalIndex out shared (List.range MAX_OUTPUTS)

def scan (E : CryptoLib l Point) (w : Wallet E) (outputs : List (UInt64 × StoredOutput)) :
    List OwnedOutput :=
  outputs.filterMap fun x => tryOwn E w x.1 x.2

/-! ## Building a transfer -/

/-- What is drawn for a transfer: the transaction secret, the free blindings, the randomness of the
range proof and the nonces of each input. -/
structure TransferRandomness (l : ℕ) where
  txSecret : ZMod l
  blindings : ℕ → ZMod l
  rangeProof : Bytes
  nonces : ℕ → Clsag.Nonces l

/-- Ways to end without a transfer: the signer does not return, or the wallet's own error. -/
inductive BuildFailure
  | fault (f : Clsag.Fault)
  | wallet (e : WalletError)
deriving DecidableEq, Repr

/-- The checks on the inputs and the snapshot. -/
def checkInputs (E : CryptoLib l Point) (inputs : List OwnedOutput)
    (membership : MembershipSnapshot) : Except WalletError Unit :=
  if inputs.isEmpty || decide (MAX_FCMP_INPUTS < inputs.length) then .error .bounds
  else if MAX_FCMP_ANON_SET < membership.digests.length then .error .treeTooLarge
  else if membership.admitted.isEmpty then .error .membershipIncomplete
  else if rootFromLeaves E.blake2_256 membership.digests ≠ membership.root then
    .error .membershipStale
  else if inputs.all fun input =>
      membership.admitted.any fun m => m.treeIndex == input.globalIndex then .ok ()
  else .error .membershipIncomplete

/-- The total of the inputs, unless it overflows. -/
def totalIn : List OwnedOutput → UInt64 → Option UInt64
  | [], acc => some acc
  | input :: inputs, acc => (checkedAdd acc input.amount).bind (totalIn inputs)

/-- What is left for the change. -/
def changeOf (inputs : List OwnedOutput) (sendAmount fee : UInt64) : Except WalletError UInt64 :=
  match totalIn inputs 0 with
  | none => .error .bounds
  | some total =>
    match checkedAdd sendAmount fee with
    | none => .error .bounds
    | some needed =>
      if total < needed then .error (.notEnoughFunds needed total) else .ok (total - needed)

/-- An output of a transfer, with its blinding. -/
def makeOutput (E : CryptoLib l Point) (txSecret : Bytes32) (recipient : StealthAddress) (li : ℕ)
    (amount : UInt64) : Except WalletError (Output × Bytes32) := do
  let shared ← okOr (senderSharedSecret E txSecret recipient.viewPublic) (.crypto "shared secret")
  let key ← okOr (deriveOneTimeKey E shared recipient.spendPublic li) (.crypto "one-time key")
  let blinding := deriveBlinding E shared li
  let commitment ← okOr (Native.commit E amount blinding) (.crypto "commit")
  let payload ← bounded (maskAmount E shared li amount)
  .ok (⟨key.1, commitment, key.2, payload⟩, blinding)

/-- An input with its pseudo-blinding, its position in the ring and its pseudo-commitment. -/
structure Staged where
  input : OwnedOutput
  pseudoBlinding : Bytes32
  realIndex : ℕ
  cPrime : Bytes32

def stage (E : CryptoLib l Point) (membership : MembershipSnapshot) (x : OwnedOutput × Bytes32) :
    Except WalletError Staged := do
  let realIndex ← okOr (membership.admitted.findIdx? fun m => m.treeIndex == x.1.globalIndex)
    .membershipIncomplete
  let cPrime ← okOr (Native.commit E x.1.amount x.2) (.crypto "commit")
  .ok ⟨x.1, x.2, realIndex, cPrime⟩

/-- An input without its proof. -/
def skeletonInput (s : Staged) : Except WalletError FcmpInput := do
  let placeholder ← bounded (List.replicate 32 0)
  .ok ⟨s.input.keyImage, s.cPrime, placeholder⟩

/-- The transfer before its inputs are proved, and the inputs in the order of their key images. -/
def skeletonTransfer (E : CryptoLib l Point) (w : Wallet E) (rand : TransferRandomness l)
    (inputs : List OwnedOutput) (membership : MembershipSnapshot) (dest : StealthAddress)
    (sendAmount fee : UInt64) : Except WalletError (TransferTx × List Staged) := do
  checkInputs E inputs membership
  let change ← changeOf inputs sendAmount fee
  let tx := txKeypair E rand.txSecret
  let out0 ← makeOutput E tx.1 dest 0 sendAmount
  let out1 ← makeOutput E tx.1 w.address 1 change
  let free := (List.range (inputs.length - 1)).map fun i => E.scalarToBytes (rand.blindings i)
  let last ← okOr (Native.balancingBlinding E [out0.2, out1.2] free) (.crypto "blinding sum")
  let staged ← tryMap (stage E membership) (inputs.zip (free ++ [last]))
  let staged := staged.mergeSort fun a b => decide (a.input.keyImage ≤ b.input.keyImage)
  let skeleton ← tryMap skeletonInput staged
  let proof ← okOr (Native.proveRange E rand.rangeProof [sendAmount, change] [out0.2, out1.2])
    (.crypto "range proof")
  let skeleton ← bounded skeleton
  let outputs ← bounded [out0.1, out1.1]
  let rangeProof ← bounded proof.1
  .ok (⟨membership.root, skeleton, outputs, tx.2, rangeProof, fee⟩, staged)

/-- Prove one staged input; `k` is its place. -/
def proveInput [DecidableEq Point] (E : CryptoLib l Point) (nonces : ℕ → Clsag.Nonces l)
    (msg : Bytes32) (membership : MembershipSnapshot) (x : Staged × ℕ) :
    Except BuildFailure FcmpInput :=
  let s := x.1
  match prove E (nonces x.2) msg ⟨membership.digests, membership.admitted, s.realIndex,
      s.input.secret, s.input.blinding, s.pseudoBlinding⟩ with
  | .error fault => .error (.fault fault)
  | .ok none => .error (.wallet (.crypto "fcmp prove"))
  | .ok (some res) =>
    if res.keyImage ≠ s.input.keyImage ∨ res.pseudoCommitment ≠ s.cPrime then
      .error (.wallet (.crypto "fcmp ki/commitment mismatch"))
    else
      match bounded res.proof with
      | .error e => .error (.wallet e)
      | .ok proof => .ok ⟨s.input.keyImage, s.cPrime, proof⟩

/-- Build a transfer that spends owned admitted outputs, with a payment and a change output. -/
def buildTransferMulti [DecidableEq Point] (E : CryptoLib l Point) (w : Wallet E)
    (rand : TransferRandomness l) (inputs : List OwnedOutput) (membership : MembershipSnapshot)
    (dest : StealthAddress) (sendAmount fee : UInt64) : Except BuildFailure TransferTx :=
  match skeletonTransfer E w rand inputs membership dest sendAmount fee with
  | .error e => .error (.wallet e)
  | .ok (tx, staged) =>
    let msg := signingHash E.blake2_256 tx
    match tryMap (proveInput E rand.nonces msg membership) staged.zipIdx with
    | .error e => .error e
    | .ok finalInputs =>
      match bounded finalInputs with
      | .error e => .error (.wallet e)
      | .ok finalInputs => .ok { tx with inputs := finalInputs }

/-! ## What the scan returns -/

/-- An output with its opening: the secret of its key, the amount and the blinding of its
commitment, and its key image. -/
structure Owned (E : CryptoLib l Point) (o : OwnedOutput) : Prop where
  opens : ∃ x, E.scalarFromCanonicalBytes o.secret = some x ∧
    E.decompress o.oneTimeKey = some (x • E.G)
  commits : Native.commit E o.amount o.blinding = some o.commitment
  keyImage : Clsag.keyImage E o.secret = some o.keyImage

namespace ScanLemmas

/-- The opening a turn finds is one of the commitment. -/
theorem openAmount_eq_found {E : CryptoLib l Point} {shared : Bytes32} {li : ℕ} {out : StoredOutput}
    (hpublic : ∀ a, out.amount = some a → Native.commit E a zeroBlinding = some out.commitment)
    {r : UInt64 × Bytes32} (h : openAmount E shared li out = .found r) :
    Native.commit E r.1 r.2 = some out.commitment := by
  unfold openAmount at h
  split at h
  · next a ha =>
    cases h
    exact hpublic a ha
  split at h
  · cases h
  dsimp only at h
  split at h
  · cases h
  next commitment hcommit =>
  split at h
  · cases h
  next heq =>
  cases h
  rw [hcommit, not_not.mp heq]

/-- What a turn of the scan that finds an output has computed. -/
structure FoundAt (E : CryptoLib l Point) (w : Wallet E) (globalIndex : UInt64) (out : StoredOutput)
    (shared : Bytes32) (li : ℕ) (o : OwnedOutput) : Prop where
  tag : viewTag E shared li = out.viewTag
  key : ∃ tag, deriveOneTimeKey E shared w.address.spendPublic li = some (out.oneTimeKey, tag)
  secret : recoverSpendSecret E w.keys out.txPubkey li = some o.secret
  amount : openAmount E shared li out = .found (o.amount, o.blinding)
  keyImage : Clsag.keyImage E o.secret = some o.keyImage
  globalIndex : o.globalIndex = globalIndex
  oneTimeKey : o.oneTimeKey = out.oneTimeKey
  commitment : o.commitment = out.commitment

theorem tryOwnAt_spec {E : CryptoLib l Point} {w : Wallet E} {gi : UInt64} {out : StoredOutput}
    {shared : Bytes32} {li : ℕ} {o : OwnedOutput} (h : tryOwnAt E w gi out shared li = .found o) :
    FoundAt E w gi out shared li o := by
  unfold tryOwnAt at h
  split at h
  · cases h
  next htag =>
  split at h
  · cases h
  next otk tag hotk =>
  split at h
  · cases h
  next hkey =>
  split at h
  · cases h
  next secret hsecret =>
  split at h
  · cases h
  · cases h
  next amount blinding hamount =>
  split at h
  · cases h
  next keyImage hki =>
  cases h
  exact ⟨not_not.mp htag, ⟨tag, not_not.mp hkey ▸ hotk⟩, hsecret, hamount, hki, rfl, rfl, rfl⟩

/-- What the scan returns was found by one of its turns. -/
theorem tryOwn_spec {E : CryptoLib l Point} {w : Wallet E} {gi : UInt64} {out : StoredOutput}
    {o : OwnedOutput} (h : tryOwn E w gi out = some o) : ∃ shared li,
    receiverSharedSecret E w.keys.viewSecret out.txPubkey = some shared ∧
      FoundAt E w gi out shared li o := by
  obtain ⟨shared, hshared, hloop⟩ := Option.bind_eq_some_iff.mp h
  generalize List.range MAX_OUTPUTS = lis at hloop
  induction lis with
  | nil => cases hloop
  | cons li lis ih =>
    rw [tryOwnLoop] at hloop
    split at hloop
    · exact ih hloop
    · cases hloop
    · next o' ho' =>
      cases hloop
      exact ⟨shared, li, hshared, tryOwnAt_spec ho'⟩

end ScanLemmas

open ScanLemmas

/-- The secret of what the scan returns is the one of the key of the output. -/
theorem tryOwn_opens {E : CryptoLib l Point} (hK : E.ReadsKeys) (hS : E.CanonicalScalars)
    {w : Wallet E} {gi : UInt64} {out : StoredOutput} {o : OwnedOutput}
    (h : tryOwn E w gi out = some o) :
    ∃ x, E.scalarFromCanonicalBytes o.secret = some x ∧ E.compress (x • E.G) = out.oneTimeKey := by
  obtain ⟨a, b, hw⟩ := w.derived
  have hkeys : w.keys = (addressOf E a b).1 := by rw [hw]
  have haddress : w.address = (addressOf E a b).2 := by rw [hw]
  obtain ⟨shared, li, hshared, hfound⟩ := tryOwn_spec h
  obtain ⟨tag, hotk⟩ := hfound.key
  have hsecret := hfound.secret
  rw [hkeys] at hshared hsecret
  rw [haddress] at hotk
  exact recoverSpendSecret_opens hK hS hshared hotk hsecret

/-- What the scan returns for an output is that output with its opening, provided a public amount is
the one of the commitment. -/
theorem tryOwn_owned {E : CryptoLib l Point} (hK : E.ReadsKeys) (hS : E.CanonicalScalars)
    {w : Wallet E} {gi : UInt64} {out : StoredOutput} {o : OwnedOutput}
    (hpublic : ∀ a, out.amount = some a → Native.commit E a zeroBlinding = some out.commitment)
    (h : tryOwn E w gi out = some o) :
    Owned E o ∧ o.globalIndex = gi ∧ o.oneTimeKey = out.oneTimeKey ∧
      o.commitment = out.commitment := by
  obtain ⟨x, hx, hkey⟩ := tryOwn_opens hK hS h
  obtain ⟨shared, li, -, hfound⟩ := tryOwn_spec h
  refine ⟨⟨⟨x, hx, ?_⟩, ?_, hfound.keyImage⟩, hfound.globalIndex, hfound.oneTimeKey, hfound.commitment⟩
  · rw [hfound.oneTimeKey, ← hkey, hK]
  · rw [hfound.commitment]
    exact openAmount_eq_found hpublic hfound.amount

/-- A public amount is committed with the blinding of zero bytes. -/
theorem commit_zeroBlinding {E : CryptoLib l Point} (hS : E.CanonicalScalars) (hZ : E.ZeroScalar)
    (a : UInt64) : Native.commit E a zeroBlinding = some (Native.valueCommitment E a) := by
  have hzero : zeroBlinding = E.scalarToBytes 0 := Subtype.ext hZ.symm
  rw [Native.commit, hzero, hS, Option.map_some, Native.valueCommitment]

end Wallet

end Kohl
