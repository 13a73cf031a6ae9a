import Mathlib.Data.ZMod.Basic
import Mathlib.Algebra.Module.Basic
import Mathlib.Algebra.BigOperators.Group.List.Basic
import Kohl.Primitives
import Kohl.Lib.Merkle

/-!
# Commitments, balance and range proofs

`primitives/ringct-crypto/src/lib.rs`, module `native`: the Pedersen commitments, the point check,
the balance equation and the range proofs behind the host functions.

The curve, the hashes and the Bulletproofs come from third-party crates. `CryptoLib` holds them as
parameters: scalars are `ZMod l`, points a module over them. What the crates promise is stated by
separate properties (`Canonical`, `CanonicalScalars`, `ZeroScalar`, `RangeComplete`), and a result asks only for
those it needs.
-/

namespace Kohl

open ByteLib

/-- The third-party functions the chain and the wallet call: the Ristretto group, the hashes and
the Bulletproofs.

* `compress`, `decompress`: `RistrettoPoint::compress` and `CompressedRistretto::decompress`;
* `scalarToBytes`, `scalarFromCanonicalBytes`: `Scalar::to_bytes` and
  `Scalar::from_canonical_bytes`;
* `scalarFromHash`, `pointFromHash`: `from_hash` of the SHA-512 of the argument;
* `rangeProve`: `RangeProof::prove_multiple` and `to_bytes` with the prover's randomness as the
  first argument; it returns the commitments too;
* `rangeVerify`: `RangeProof::from_bytes` and `verify_multiple`. -/
structure CryptoLib (l : ℕ) (Point : Type) where
  G : Point
  compress : Point → Bytes32
  decompress : Bytes32 → Option Point
  scalarToBytes : ZMod l → Bytes32
  scalarFromCanonicalBytes : Bytes32 → Option (ZMod l)
  scalarFromHash : Bytes → ZMod l
  pointFromHash : Bytes → Point
  blake2_256 : Bytes → Bytes32
  rangeProve : Bytes → List UInt64 → List (ZMod l) → Option (Bytes × List Bytes32)
  rangeVerify : Bytes → List Bytes32 → Bool

namespace CryptoLib

variable {l : ℕ} {Point : Type} [AddCommGroup Point] [Module (ZMod l) Point]

/-- The value generator `H` of the commitments (`pc_gens().B`). -/
def H (E : CryptoLib l Point) : Point := E.pointFromHash (ascii "kohl/pedersen/value-generator/v1")

/-- `pc_gens().commit(v, b)`: value on `H`, blinding on `G`. -/
def pcCommit (E : CryptoLib l Point) (v b : ZMod l) : Point := v • E.H + b • E.G

/-! ## What the crates promise -/

/-- Points have canonical encodings: compressing and decompressing are inverse. -/
structure Canonical (E : CryptoLib l Point) : Prop where
  decompress_compress : ∀ p, E.decompress (E.compress p) = some p
  compress_of_decompress : ∀ {b p}, E.decompress b = some p → E.compress p = b

/-- The points a wallet makes of its secrets, the multiples of the blinding generator, are read back. -/
def ReadsKeys (E : CryptoLib l Point) : Prop :=
  ∀ x : ZMod l, E.decompress (E.compress (x • E.G)) = some (x • E.G)

/-- Scalars have canonical encodings. -/
def CanonicalScalars (E : CryptoLib l Point) : Prop :=
  ∀ x, E.scalarFromCanonicalBytes (E.scalarToBytes x) = some x

/-- The zero scalar is written as zero bytes. -/
def ZeroScalar (E : CryptoLib l Point) : Prop :=
  (E.scalarToBytes 0).val = List.replicate 32 0

/-- Bulletproofs are complete: for as many 64-bit values as blindings, a power of two of them and
at most eight, the prover succeeds with the commitments of the values and a proof of
`(9 + 2·log2(64·m))·32` bytes that verifies. -/
def RangeComplete (E : CryptoLib l Point) : Prop :=
  ∀ (rng : Bytes) (values : List UInt64) (blindings : List (ZMod l)),
    values.length = blindings.length → values ≠ [] → values.length ≤ MAX_OUTPUTS →
    Merkle.nextPowerOfTwo values.length = values.length →
    ∃ proof, E.rangeProve rng values blindings = some (proof, List.zipWith
        (fun v b => E.compress (E.pcCommit (v.toNat : ZMod l) b)) values blindings) ∧
      proof.length = (9 + 2 * Nat.log2 (64 * values.length)) * 32 ∧
      E.rangeVerify proof (List.zipWith
        (fun v b => E.compress (E.pcCommit (v.toNat : ZMod l) b)) values blindings) = true

theorem Canonical.readsKeys {E : CryptoLib l Point} (hE : E.Canonical) : E.ReadsKeys :=
  fun _ => hE.decompress_compress _

end CryptoLib

namespace Native

variable {l : ℕ} {Point : Type} [AddCommGroup Point] [Module (ZMod l) Point]

/-! ## Commitments -/

/-- The commitment `a·H + x·G`; `none` when the blinding is no canonical scalar. -/
def commit (E : CryptoLib l Point) (amount : UInt64) (blinding : Bytes32) : Option Bytes32 :=
  (E.scalarFromCanonicalBytes blinding).map fun x => E.compress (E.pcCommit (amount.toNat : ZMod l) x)

/-- The commitment to a public amount, with zero blinding. -/
def valueCommitment (E : CryptoLib l Point) (amount : UInt64) : Bytes32 :=
  E.compress (E.pcCommit (amount.toNat : ZMod l) 0)

/-- A canonical compressed point other than the identity. -/
def isValidPoint [DecidableEq Point] (E : CryptoLib l Point) (bytes : Bytes32) : Bool :=
  match E.decompress bytes with
  | some p => decide (p ≠ 0)
  | none => false

/-! ## Balance -/

/-- Split a blob into compressed points; `none` unless its length is a multiple of 32. -/
def parsePoints (blob : Bytes) : Option (List Bytes32) :=
  if blob.length % 32 ≠ 0 then none else collect Bytes32.ofBytes (chunksExact 32 blob)

def decompressAll (E : CryptoLib l Point) (points : List Bytes32) : Option (List Point) :=
  collect E.decompress points

/-- The consensus balance equation `Σ inputs = Σ outputs + fee·H`. -/
def verifyBalance [DecidableEq Point] (E : CryptoLib l Point) (inputs outputs : Bytes)
    (fee : UInt64) : Bool :=
  match (parsePoints inputs).bind (decompressAll E) with
  | none => false
  | some ins =>
    match (parsePoints outputs).bind (decompressAll E) with
    | none => false
    | some outs =>
      if ins.isEmpty || outs.isEmpty then false
      else
        let inSum := ins.foldl (· + ·) 0
        let outSum := outs.foldl (· + ·) 0
        decide (inSum = outSum + (fee.toNat : ZMod l) • E.H)

/-! ## Range proofs -/

/-- Pad to the next power of two. -/
def padToPowerOfTwo {α : Type} (pad : α) (xs : List α) : List α :=
  xs ++ List.replicate (Merkle.nextPowerOfTwo xs.length - xs.length) pad

/-- Verify one aggregated range proof over concatenated commitments, padded with the identity. -/
def verifyRangeProof (E : CryptoLib l Point) (proof commitments : Bytes) : Bool :=
  match parsePoints commitments with
  | none => false
  | some points =>
    if points.isEmpty || decide (MAX_OUTPUTS < points.length) then false
    else E.rangeVerify proof (padToPowerOfTwo (E.compress 0) points)

/-- Prove the values under the blindings, padded with zeros; the proof and the commitments of the
values proper. -/
def proveRange (E : CryptoLib l Point) (rng : Bytes) (values : List UInt64)
    (blindings : List Bytes32) : Option (Bytes × List Bytes32) :=
  if values.isEmpty || decide (values.length ≠ blindings.length)
      || decide (MAX_OUTPUTS < values.length) then none
  else
    (collect E.scalarFromCanonicalBytes blindings).bind fun scalars =>
    (E.rangeProve rng (padToPowerOfTwo 0 values) (padToPowerOfTwo 0 scalars)).map
      fun (proof, commitments) => (proof, commitments.take values.length)

/-- The blinding that balances a transaction: `Σ input − Σ output`. -/
def balancingBlinding (E : CryptoLib l Point) (inputs outputs : List Bytes32) : Option Bytes32 :=
  (collect E.scalarFromCanonicalBytes inputs).bind fun ins =>
  (collect E.scalarFromCanonicalBytes outputs).map fun outs =>
    E.scalarToBytes (ins.foldl (· + ·) 0 - outs.foldl (· + ·) 0)

/-! ## What the checks mean -/

omit [Module (ZMod l) Point] in
theorem isValidPoint_iff [DecidableEq Point] {E : CryptoLib l Point} {b : Bytes32} :
    isValidPoint E b = true ↔ ∃ p, E.decompress b = some p ∧ p ≠ 0 := by
  rw [isValidPoint]
  split
  · next p hp => simp [hp]
  · next hnone => simp [hnone]

theorem parsePoints_flatMap (cs : List Bytes32) :
    parsePoints (cs.flatMap Subtype.val) = some cs := by
  have hmod : (cs.flatMap Subtype.val).length % 32 = 0 := by
    rw [List.length_flatMap, List.map_congr_left (g := fun _ => 32) (by simp), List.map_const',
      List.sum_replicate, smul_eq_mul, Nat.mul_mod_left]
  rw [parsePoints, if_neg (not_not.mpr hmod), List.flatMap_def,
    chunksExact_flatten (by omega) (by simp +contextual), collect_map,
    collect_eq_some_map (g := id) (by simp), List.map_id]

/-- The balance check of two lists of commitments: all of them are points, neither list is empty,
and the sums differ by the fee. -/
theorem verifyBalance_iff [DecidableEq Point] {E : CryptoLib l Point} {inputs outputs : List Bytes32}
    {fee : UInt64} :
    verifyBalance E (inputs.flatMap Subtype.val) (outputs.flatMap Subtype.val) fee = true ↔
      ∃ ins outs, collect E.decompress inputs = some ins ∧
        collect E.decompress outputs = some outs ∧ ins ≠ [] ∧ outs ≠ [] ∧
        ins.sum = outs.sum + (fee.toNat : ZMod l) • E.H := by
  simp only [verifyBalance, parsePoints_flatMap, Option.bind_some, decompressAll]
  split
  · next h => simp [h]
  next ins hins =>
  split
  · next h => simp [h]
  next outs houts =>
  simp only [hins, houts, Option.some.injEq, exists_and_left, exists_eq_left', List.sum_eq_foldl]
  split
  · next hempty =>
    rw [Bool.or_eq_true, List.isEmpty_iff, List.isEmpty_iff] at hempty
    constructor
    · intro h
      cases h
    · rintro ⟨h1, h2, -⟩
      exact (hempty.elim h1 h2).elim
  · next hempty =>
    rw [Bool.or_eq_true, List.isEmpty_iff, List.isEmpty_iff, not_or] at hempty
    rw [decide_eq_true_iff]
    exact ⟨fun h => ⟨hempty.1, hempty.2, h⟩, fun h => h.2.2⟩

end Native

end Kohl
