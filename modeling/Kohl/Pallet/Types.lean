import Kohl.Lib.Scale
import Kohl.Lib.StorageMap
import Kohl.Crypto.Fcmp

/-!
# The data of pallet-ringct

`pallets/ringct/src/lib.rs`: outputs, inputs and transfers with their SCALE encoding and the signing
hash, the configuration, the host functions the runtime calls, the errors and events, and the
storage. Amounts and fees are `UInt64`. Block numbers and output indices are natural numbers, where
the runtime has `u32` and `u64`: what follows is about chains whose block numbers stay below `2 ^ 32`
also when a maturity is added to them, and with fewer than `2 ^ 64` outputs.
-/

namespace Kohl.Pallet

open ByteLib

/-! ## Transactions -/

abbrev Payload := BoundedVec UInt8 MAX_PAYLOAD_BYTES

/-- A new confidential output inside a transaction. -/
structure Output where
  oneTimeKey : Bytes32
  commitment : Bytes32
  viewTag : UInt8
  payload : Payload
deriving DecidableEq

/-- A coinbase output: its amount is public. -/
structure CoinbaseOutput where
  oneTimeKey : Bytes32
  amount : UInt64
  viewTag : UInt8
deriving DecidableEq

/-- A stored output with its bookkeeping: `amount` is present for coinbase outputs only. -/
structure StoredOutput where
  oneTimeKey : Bytes32
  commitment : Bytes32
  txPubkey : Bytes32
  viewTag : UInt8
  payload : Payload
  amount : Option UInt64
  height : ℕ
  coinbase : Bool
deriving DecidableEq

/-- One spend inside a transfer. -/
structure FcmpInput where
  keyImage : Bytes32
  pseudoCommitment : Bytes32
  fcmpProof : BoundedVec UInt8 MAX_FCMP_PROOF_BYTES
deriving DecidableEq

structure TransferTx where
  membershipRoot : Bytes32
  inputs : BoundedVec FcmpInput MAX_FCMP_INPUTS
  outputs : BoundedVec Output MAX_OUTPUTS
  txPubkey : Bytes32
  rangeProof : BoundedVec UInt8 MAX_RANGE_PROOF_BYTES
  fee : UInt64
deriving DecidableEq

def Output.encode (o : Output) : Bytes :=
  o.oneTimeKey.val ++ o.commitment.val ++ [o.viewTag] ++ Scale.byteVec o.payload.val

def FcmpInput.encode (i : FcmpInput) : Bytes :=
  i.keyImage.val ++ i.pseudoCommitment.val ++ Scale.byteVec i.fcmpProof.val

def TransferTx.encode (tx : TransferTx) : Bytes :=
  tx.membershipRoot.val ++ Scale.vec FcmpInput.encode tx.inputs.val ++
    Scale.vec Output.encode tx.outputs.val ++ tx.txPubkey.val ++
    Scale.byteVec tx.rangeProof.val ++ u64LeBytes tx.fee

/-- `tx.encoded_size() as u64`. -/
def TransferTx.encodedSize (tx : TransferTx) : UInt64 := UInt64.ofNat tx.encode.length

def SIGNING_DOMAIN : Bytes := ascii "kohl/transfer/v4"

/-- What the signing hash is taken of: everything but the proofs. -/
def signingPreimage (tx : TransferTx) : Bytes :=
  SIGNING_DOMAIN ++ tx.membershipRoot.val ++
    Scale.vec Subtype.val (tx.inputs.val.map FcmpInput.keyImage) ++
    Scale.vec Subtype.val (tx.inputs.val.map FcmpInput.pseudoCommitment) ++
    Scale.vec Output.encode tx.outputs.val ++ tx.txPubkey.val ++ u64LeBytes tx.fee

/-- The message every input proves. -/
def signingHash (blake2_256 : Bytes → Bytes32) (tx : TransferTx) : Bytes32 :=
  blake2_256 (signingPreimage tx)

/-! ## Configuration and host functions -/

structure Config where
  spendableAge : ℕ
  coinbaseMaturity : ℕ
  minFeePerByte : UInt64

/-- The functions of the host that the runtime calls. -/
structure Host where
  blake2_256 : Bytes → Bytes32
  isValidPointV1 : Bytes32 → Bool
  valueCommitmentV1 : UInt64 → Bytes32
  verifyFcmpV1 : Bytes → Bytes → Bytes → Bytes → Bytes → Bool
  verifyBalanceV1 : Bytes → Bytes → UInt64 → Bool
  verifyRangeProofV1 : Bytes → Bytes → Bool

/-- The host functions of the node, over the native implementations. -/
def nativeHost {l : ℕ} {Point : Type} [AddCommGroup Point] [Module (ZMod l) Point]
    [DecidableEq Point] (E : CryptoLib l Point) : Host where
  blake2_256 := E.blake2_256
  isValidPointV1 := Native.isValidPoint E
  valueCommitmentV1 := Native.valueCommitment E
  verifyFcmpV1 := Fcmp.verify E
  verifyBalanceV1 := Native.verifyBalance E
  verifyRangeProofV1 := Native.verifyRangeProof E

/-! ## Errors and events -/

inductive Error
  | emptyInputsOrOutputs
  | inputsNotSortedUnique
  | keyImageAlreadySpent
  | invalidPoint
  | fcmpInvalid
  | rootStale
  | fcmpProofTooLarge
  | tooManyInputs
  | treeTooLargeForFcmp
  | balanceCheckFailed
  | rangeProofInvalid
  | feeTooLow
  | arithmeticOverflow
  | coinbaseAlreadyIncluded
  | coinbaseAmountInvalid
deriving DecidableEq, Repr

/-- What a dispatch fails with: the origin check, or an error of the pallet. -/
inductive DispatchError
  | badOrigin
  | module (e : Error)
deriving DecidableEq, Repr

/-- Why the pool refuses a transfer. -/
inductive InvalidTransaction
  | payment
  | badProof
  | stale
deriving DecidableEq, Repr

structure ValidTransaction where
  priority : UInt64
  requires : List Bytes
  provides : List Bytes
  longevity : ℕ
  propagate : Bool
deriving DecidableEq

inductive Event
  | transferred (keyImages : List Bytes32) (firstOutputIndex outputCount : ℕ) (fee : UInt64)
  | coinbaseMinted (firstOutputIndex outputCount : ℕ) (reward fees : UInt64)
  | membershipTreeUpdated (treeSlots nextOutputIndex : ℕ) (root : Bytes32)
      (admittedThisBlock catchupGrown : ℕ) (lagging : Bool) (admitScanCursor : ℕ)
deriving DecidableEq

/-! ## Storage -/

/-- The storage items of the pallet. -/
structure Storage where
  outputs : StorageMap ℕ StoredOutput
  nextOutputIndex : ℕ
  keyImages : StorageMap Bytes32 Unit
  emitted : UInt64
  blockFees : UInt64
  coinbaseDone : Bool
  treeSlots : ℕ
  membershipLeafDigest : StorageMap ℕ Bytes32
  admitted : StorageMap ℕ Unit
  admitScanCursor : ℕ
  membershipRoot : Bytes32
  membershipRootAt : StorageMap ℕ Bytes32

/-- The storage before the first block: empty, with the default root. -/
def Storage.genesis (blake2_256 : Bytes → Bytes32) : Storage where
  outputs := .empty
  nextOutputIndex := 0
  keyImages := .empty
  emitted := 0
  blockFees := 0
  coinbaseDone := false
  treeSlots := 0
  membershipLeafDigest := .empty
  admitted := .empty
  admitScanCursor := 0
  membershipRoot := MembershipTree.emptyMembershipRoot blake2_256
  membershipRootAt := .empty

end Kohl.Pallet
