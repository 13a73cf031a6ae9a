import Kohl.Crypto.Clsag

/-!
# Stealth addresses

`primitives/ringct-crypto/src/stealth.rs`: dual-key addresses, the shared secret of a transaction,
and what both sides derive from it: the one-time key, the view tag, the blinding and the mask of the
amount. The random scalars of the key pairs are arguments.

* `sharedSecret_agree`: the sender and the receiver compute the same secret.
* `recoverSpendSecret_opens`: the recovered secret is the discrete logarithm of the one-time key.
* `unmaskAmount_maskAmount`: the mask of the amount is an involution.
-/

namespace Kohl.Stealth

open ByteLib

variable {l : ℕ} {Point : Type} [AddCommGroup Point] [Module (ZMod l) Point]

def DOM_OTK : Bytes := ascii "kohl/stealth/otk/v1"
def DOM_VIEW_TAG : Bytes := ascii "kohl/stealth/view-tag/v1"
def DOM_BLINDING : Bytes := ascii "kohl/stealth/blinding/v1"
def DOM_AMOUNT : Bytes := ascii "kohl/stealth/amount/v1"

/-- The secrets of a wallet. -/
structure StealthKeys where
  viewSecret : Bytes32
  spendSecret : Bytes32
deriving DecidableEq

/-- The public address `(A, B)`. -/
structure StealthAddress where
  viewPublic : Bytes32
  spendPublic : Bytes32
deriving DecidableEq

/-! ## Key pairs -/

def addressOf (E : CryptoLib l Point) (a b : ZMod l) : StealthKeys × StealthAddress :=
  (⟨E.scalarToBytes a, E.scalarToBytes b⟩, ⟨E.compress (a • E.G), E.compress (b • E.G)⟩)

/-- The keys of a seed. -/
def keypairFromSeed (E : CryptoLib l Point) (seed : Bytes32) : StealthKeys × StealthAddress :=
  addressOf E (Clsag.hs E (ascii "kohl/wallet/view/v1") [seed.val])
    (Clsag.hs E (ascii "kohl/wallet/spend/v1") [seed.val])

/-- The key pair `(r, R = r·G)` of a transaction, for the drawn scalar `r`. -/
def txKeypair (E : CryptoLib l Point) (r : ZMod l) : Bytes32 × Bytes32 :=
  (E.scalarToBytes r, E.compress (r • E.G))

/-! ## The shared secret -/

/-- A public key multiplied by a secret, compressed. -/
def sharedSecret (E : CryptoLib l Point) (secret publicKey : Bytes32) : Option Bytes32 :=
  (E.decompress publicKey).bind fun p =>
    (E.scalarFromCanonicalBytes secret).map fun x => E.compress (x • p)

/-- Sender side: `r·A`. -/
def senderSharedSecret (E : CryptoLib l Point) (txSecret viewPublic : Bytes32) : Option Bytes32 :=
  sharedSecret E txSecret viewPublic

/-- Receiver side: `a·R`. -/
def receiverSharedSecret (E : CryptoLib l Point) (viewSecret txPubkey : Bytes32) : Option Bytes32 :=
  sharedSecret E viewSecret txPubkey

/-! ## Derivations -/

/-- The hash of a shared secret and the index of an output under a domain. -/
def derive (E : CryptoLib l Point) (domain : Bytes) (shared : Bytes32) (outputIndex : ℕ) : ZMod l :=
  Clsag.hs E domain [shared.val, leBytes 4 outputIndex]

def derivationScalar (E : CryptoLib l Point) (shared : Bytes32) (outputIndex : ℕ) : ZMod l :=
  derive E DOM_OTK shared outputIndex

def viewTag (E : CryptoLib l Point) (shared : Bytes32) (outputIndex : ℕ) : UInt8 :=
  (E.scalarToBytes (derive E DOM_VIEW_TAG shared outputIndex)).val.getD 0 0

/-- The one-time key `h·G + B` and the view tag of an output. -/
def deriveOneTimeKey (E : CryptoLib l Point) (shared spendPublic : Bytes32) (outputIndex : ℕ) :
    Option (Bytes32 × UInt8) :=
  (E.decompress spendPublic).map fun b =>
    (E.compress (derivationScalar E shared outputIndex • E.G + b), viewTag E shared outputIndex)

/-- Whether an output belongs to a view secret and a spend key: the tag first, then the key. -/
def matchesOutput (E : CryptoLib l Point) (viewSecret spendPublic txPubkey : Bytes32)
    (outputIndex : ℕ) (oneTimeKey : Bytes32) (tag : UInt8) : Bool :=
  match receiverSharedSecret E viewSecret txPubkey with
  | none => false
  | some shared =>
    if viewTag E shared outputIndex ≠ tag then false
    else (deriveOneTimeKey E shared spendPublic outputIndex).any fun p => decide (p.1 = oneTimeKey)

/-- The one-time secret `x = h + b`. -/
def recoverSpendSecret (E : CryptoLib l Point) (keys : StealthKeys) (txPubkey : Bytes32)
    (outputIndex : ℕ) : Option Bytes32 :=
  (receiverSharedSecret E keys.viewSecret txPubkey).bind fun shared =>
    (E.scalarFromCanonicalBytes keys.spendSecret).map fun b =>
      E.scalarToBytes (derivationScalar E shared outputIndex + b)

def deriveBlinding (E : CryptoLib l Point) (shared : Bytes32) (outputIndex : ℕ) : Bytes32 :=
  E.scalarToBytes (derive E DOM_BLINDING shared outputIndex)

/-! ## The mask of the amount -/

/-- `for (o, m) in out.iter_mut().zip(mask) { *o ^= m }`: bytes without a partner stay. -/
def xorMask : Bytes → Bytes → Bytes
  | o :: out, m :: mask => (o ^^^ m) :: xorMask out mask
  | out, _ => out

def amountMask (E : CryptoLib l Point) (shared : Bytes32) (outputIndex : ℕ) : Bytes32 :=
  E.scalarToBytes (derive E DOM_AMOUNT shared outputIndex)

def maskAmount (E : CryptoLib l Point) (shared : Bytes32) (outputIndex : ℕ) (amount : UInt64) :
    Bytes :=
  xorMask (u64LeBytes amount) (amountMask E shared outputIndex).val

def unmaskAmount (E : CryptoLib l Point) (shared : Bytes32) (outputIndex : ℕ) (masked : Bytes) :
    UInt64 :=
  u64FromLeBytes (xorMask masked (amountMask E shared outputIndex).val)

theorem xorMask_xorMask (out mask : Bytes) : xorMask (xorMask out mask) mask = out := by
  induction out generalizing mask with
  | nil => cases mask <;> rfl
  | cons o out ih =>
    cases mask with
    | nil => rfl
    | cons m mask =>
      simp only [xorMask, ih, List.cons.injEq, and_true]
      rw [UInt8.xor_assoc, UInt8.xor_self, UInt8.xor_zero]

@[simp] theorem length_xorMask (out mask : Bytes) : (xorMask out mask).length = out.length := by
  induction out generalizing mask with
  | nil => cases mask <;> rfl
  | cons o out ih =>
    cases mask with
    | nil => rfl
    | cons m mask => simp [xorMask, ih]

omit [AddCommGroup Point] [Module (ZMod l) Point] in
@[simp] theorem length_maskAmount (E : CryptoLib l Point) (shared : Bytes32) (outputIndex : ℕ)
    (amount : UInt64) : (maskAmount E shared outputIndex amount).length = 8 := by
  rw [maskAmount, length_xorMask, length_u64LeBytes]

omit [AddCommGroup Point] [Module (ZMod l) Point] in
/-- Unmasking returns the masked amount. -/
theorem unmaskAmount_maskAmount (E : CryptoLib l Point) (shared : Bytes32) (outputIndex : ℕ)
    (amount : UInt64) :
    unmaskAmount E shared outputIndex (maskAmount E shared outputIndex amount) = amount := by
  rw [unmaskAmount, maskAmount, xorMask_xorMask, u64FromLeBytes_u64LeBytes]

/-! ## Both sides agree -/

/-- An output matches when its tag and its key are the ones that the shared secret gives. -/
theorem matchesOutput_iff {E : CryptoLib l Point} {viewSecret spendPublic txPubkey shared otk : Bytes32}
    {i : ℕ} {tag : UInt8} (hshared : receiverSharedSecret E viewSecret txPubkey = some shared) :
    matchesOutput E viewSecret spendPublic txPubkey i otk tag = true ↔
      viewTag E shared i = tag ∧ ∃ tag', deriveOneTimeKey E shared spendPublic i = some (otk, tag') := by
  unfold matchesOutput
  rw [hshared]
  dsimp only
  split
  · next htag => exact ⟨fun h => absurd h Bool.false_ne_true, fun h => absurd h.1 htag⟩
  next htag =>
  rw [Option.any_eq_true]
  constructor
  · rintro ⟨⟨otk', tag'⟩, hderived, hkey⟩
    obtain rfl : otk' = otk := of_decide_eq_true hkey
    exact ⟨not_not.mp htag, tag', hderived⟩
  · rintro ⟨-, tag', hderived⟩
    exact ⟨_, hderived, decide_eq_true rfl⟩

/-- `r·(a·G) = a·(r·G)`: the sender and the receiver compute the same secret. -/
theorem sharedSecret_agree {E : CryptoLib l Point} (hK : E.ReadsKeys) (hS : E.CanonicalScalars)
    (a b r : ZMod l) :
    senderSharedSecret E (txKeypair E r).1 (addressOf E a b).2.viewPublic =
      receiverSharedSecret E (addressOf E a b).1.viewSecret (txKeypair E r).2 := by
  simp only [senderSharedSecret, receiverSharedSecret, sharedSecret, txKeypair, addressOf,
    hK _, hS r, hS a, Option.bind_some, Option.map_some, smul_smul, mul_comm]

/-- The secret recovered for an output whose key is the derived one is the secret of that key. -/
theorem recoverSpendSecret_opens {E : CryptoLib l Point} (hK : E.ReadsKeys)
    (hS : E.CanonicalScalars) {a b : ZMod l} {txPubkey shared otk secret : Bytes32} {tag : UInt8}
    {i : ℕ}
    (hshared : receiverSharedSecret E (addressOf E a b).1.viewSecret txPubkey = some shared)
    (hotk : deriveOneTimeKey E shared (addressOf E a b).2.spendPublic i = some (otk, tag))
    (hsecret : recoverSpendSecret E (addressOf E a b).1 txPubkey i = some secret) :
    ∃ x, E.scalarFromCanonicalBytes secret = some x ∧ E.compress (x • E.G) = otk := by
  rw [recoverSpendSecret, hshared, Option.bind_some, addressOf, hS b, Option.map_some,
    Option.some.injEq] at hsecret
  rw [deriveOneTimeKey, addressOf, hK, Option.map_some, Option.some.injEq, Prod.mk.injEq] at hotk
  refine ⟨derivationScalar E shared i + b, ?_, ?_⟩
  · rw [← hsecret, hS]
  · rw [← hotk.1, add_smul]

end Kohl.Stealth
