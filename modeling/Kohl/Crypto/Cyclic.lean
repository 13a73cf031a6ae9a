import Kohl.Crypto.Native
import Kohl.Lib.Blake2b

/-!
# The additive group of the scalars

The crates' functions over `ZMod l` itself, with discrete logarithms in the clear: points and scalars
are written as 32 little-endian bytes, hashes are BLAKE2b, and a range proof lists the values and
blindings it proves. All the laws hold, so what is proved under them is not empty, and everything
can be evaluated.

* `cyclic_canonical`, `cyclic_canonicalScalars`, `cyclic_zeroScalar`, `cyclic_rangeComplete`: the
  laws, for every modulus of at most 256 bits.
-/

namespace Kohl

open ByteLib

/-- The order of the Ristretto group. -/
def ristrettoOrder : ℕ := 2 ^ 252 + 27742317777372353535851937790883648493

instance : NeZero ristrettoOrder := ⟨by decide⟩

namespace Cyclic

/-- A number as a scalar of the order of the Ristretto group. -/
def scalarOf (n : ℕ) : ZMod ristrettoOrder := n

variable {l : ℕ} [NeZero l]

def toBytes (x : ZMod l) : Bytes32 := ⟨leBytes 32 x.val, length_leBytes _ _⟩

/-- The canonical encodings are those below the order. -/
def fromBytes (b : Bytes32) : Option (ZMod l) :=
  if leNat b.val < l then some (leNat b.val : ZMod l) else none

/-- The hash of a byte string as a number below the order. -/
def fromHash (b : Bytes) : ZMod l := (leNat (Blake2b.hash256 b).val : ZMod l)

/-- The length of a proof for `m` values. -/
def proofLength (m : ℕ) : ℕ := (9 + 2 * Nat.log2 (64 * m)) * 32

/-- The openings, one after the other, filled up to the length of a proof. -/
def openings (values : List UInt64) (blindings : List (ZMod l)) : Bytes :=
  let b := values.flatMap u64LeBytes ++ blindings.flatMap fun x => (toBytes x).val
  b ++ List.replicate (proofLength values.length - b.length) 0

/-- The openings of `m` commitments, read back. -/
def readOpenings (m : ℕ) (proof : Bytes) : Option (List UInt64 × List (ZMod l)) :=
  (collect (fun b => (Bytes32.ofBytes b).bind fromBytes)
      (chunksExact 32 ((proof.drop (m * 8)).take (m * 32)))).map fun blindings =>
    ((chunksExact 8 (proof.take (m * 8))).map u64FromLeBytes, blindings)

/-- The commitment `v·H + x·G` with `G = 1`. -/
def commitment (v : UInt64) (x : ZMod l) : Bytes32 :=
  toBytes ((v.toNat : ZMod l) * fromHash (ascii "kohl/pedersen/value-generator/v1") + x)

end Cyclic

open Cyclic

/-- The functions of the crates over the additive group of the scalars. -/
def cyclic (l : ℕ) [NeZero l] : CryptoLib l (ZMod l) where
  G := 1
  compress := toBytes
  decompress := fromBytes
  scalarToBytes := toBytes
  scalarFromCanonicalBytes := fromBytes
  scalarFromHash := fromHash
  pointFromHash := fromHash
  blake2_256 := Blake2b.hash256
  rangeProve := fun _ values blindings =>
    some (openings values blindings, List.zipWith commitment values blindings)
  rangeVerify := fun proof commitments =>
    decide (proof.length = proofLength commitments.length) &&
      match (readOpenings commitments.length proof : Option (List UInt64 × List (ZMod l))) with
      | none => false
      | some (values, blindings) => decide (List.zipWith commitment values blindings = commitments)

namespace Cyclic

variable {l : ℕ} [NeZero l]

/-- A polynomial in the bytes of a string. -/
def polynomial (b : Bytes) : ℕ := b.foldl (fun acc x => (acc * 1000003 + x.toNat + 1) % 2 ^ 256) 0

def polynomialScalar (b : Bytes) : ZMod l := (polynomial b : ZMod l)

def polynomialCommitment (v : UInt64) (x : ZMod l) : Bytes32 :=
  toBytes ((v.toNat : ZMod l) * polynomialScalar (ascii "kohl/pedersen/value-generator/v1") + x)

end Cyclic

/-- The same with a polynomial in place of the hashes, which is quick to evaluate. -/
def cyclicPolynomial (l : ℕ) [NeZero l] : CryptoLib l (ZMod l) :=
  { cyclic l with
    scalarFromHash := polynomialScalar
    pointFromHash := polynomialScalar
    blake2_256 := fun b => ⟨leBytes 32 (polynomial b), length_leBytes _ _⟩
    rangeProve := fun _ values blindings =>
      some (openings values blindings, List.zipWith polynomialCommitment values blindings)
    rangeVerify := fun proof commitments =>
      decide (proof.length = proofLength commitments.length) &&
        match (readOpenings commitments.length proof : Option (List UInt64 × List (ZMod l))) with
        | none => false
        | some (values, blindings) =>
          decide (List.zipWith polynomialCommitment values blindings = commitments) }

namespace CyclicLemmas

variable {l : ℕ} [NeZero l]

theorem fromBytes_toBytes (hl : l ≤ 2 ^ 256) (x : ZMod l) : fromBytes (toBytes x) = some x := by
  have hx := ZMod.val_lt x
  have hval : leNat (leBytes 32 x.val) = x.val := leNat_leBytes_of_lt (by omega)
  rw [fromBytes, toBytes, hval, if_pos hx, ZMod.natCast_zmod_val]

omit [NeZero l] in
theorem toBytes_of_fromBytes {b : Bytes32} {x : ZMod l} (h : fromBytes b = some x) :
    toBytes x = b := by
  unfold fromBytes at h
  split at h
  · next hlt =>
    have hx : x.val = leNat b.val := by
      rw [← Option.some.inj h]
      exact ZMod.val_natCast_of_lt hlt
    have hback := leBytes_leNat b.val
    rw [Bytes32.length_val, ← hx] at hback
    exact Subtype.ext hback
  · exact absurd h.symm (Option.some_ne_none x)

theorem pcCommit_cyclic (v x : ZMod l) : (cyclic l).pcCommit v x =
    v * fromHash (ascii "kohl/pedersen/value-generator/v1") + x := by
  simp [CryptoLib.pcCommit, CryptoLib.H, cyclic]

theorem readOpenings_openings (hl : l ≤ 2 ^ 256) {values : List UInt64} {blindings : List (ZMod l)}
    (hlen : values.length = blindings.length) :
    readOpenings values.length (openings values blindings) = some (values, blindings) := by
  have hv : (values.flatMap u64LeBytes).length = values.length * 8 := by
    rw [List.length_flatMap, List.map_congr_left (g := fun _ => 8) (by simp), List.map_const',
      List.sum_replicate, smul_eq_mul]
  have hb : (blindings.flatMap fun x => (toBytes x).val).length = values.length * 32 := by
    rw [List.length_flatMap, List.map_congr_left (g := fun _ => 32) (by simp), List.map_const',
      List.sum_replicate, smul_eq_mul, hlen]
  have htake : (openings values blindings).take (values.length * 8) = values.flatMap u64LeBytes := by
    rw [openings, List.append_assoc, List.take_left' hv]
  have hdrop : ((openings values blindings).drop (values.length * 8)).take (values.length * 32) =
      blindings.flatMap fun x => (toBytes x).val := by
    rw [openings, List.append_assoc, List.drop_left' hv, List.take_left' hb]
  have hchunks : chunksExact 8 (values.flatMap u64LeBytes) = values.map u64LeBytes := by
    rw [List.flatMap_def, chunksExact_flatten (by omega) (by simp)]
  have hchunks' : chunksExact 32 (blindings.flatMap fun x => (toBytes x).val) =
      blindings.map fun x => (toBytes x).val := by
    rw [List.flatMap_def, chunksExact_flatten (by omega) (by simp)]
  have hcollect : collect (fun b => (Bytes32.ofBytes b).bind fromBytes)
      (blindings.map fun x => (toBytes x).val) = some blindings := by
    rw [collect_map, collect_eq_some_map (g := id) (by simp [fromBytes_toBytes hl]), List.map_id]
  have hvalues : (values.map u64LeBytes).map u64FromLeBytes = values := by
    rw [List.map_map, List.map_congr_left (g := id) (by simp), List.map_id]
  rw [readOpenings, htake, hdrop, hchunks, hchunks', hcollect, Option.map_some, hvalues]

end CyclicLemmas

open CyclicLemmas

variable {l : ℕ} [NeZero l]

theorem cyclic_canonical (hl : l ≤ 2 ^ 256) : (cyclic l).Canonical :=
  ⟨fromBytes_toBytes hl, toBytes_of_fromBytes⟩

theorem cyclic_canonicalScalars (hl : l ≤ 2 ^ 256) : (cyclic l).CanonicalScalars :=
  fromBytes_toBytes hl

theorem cyclic_zeroScalar : (cyclic l).ZeroScalar := by
  show leBytes 32 (0 : ZMod l).val = List.replicate 32 0
  rw [ZMod.val_zero]
  rfl

theorem cyclic_rangeComplete (hl : l ≤ 2 ^ 256) : (cyclic l).RangeComplete := by
  intro rng values blindings hlen hne hmax _
  have hcommit : (fun (v : UInt64) (b : ZMod l) =>
      (cyclic l).compress ((cyclic l).pcCommit (v.toNat : ZMod l) b)) = commitment := by
    funext v b
    rw [pcCommit_cyclic]
    rfl
  have hzip : (List.zipWith commitment values blindings).length = values.length := by
    rw [List.length_zipWith, hlen, min_self]
  have hpos : 0 < values.length := List.length_pos_iff.mpr hne
  have hproof : (openings values blindings).length = proofLength values.length := by
    have hlog : 6 ≤ Nat.log2 (64 * values.length) := (Nat.le_log2 (by omega)).mpr (by omega)
    have hm : values.length ≤ 8 := hmax
    simp only [openings, List.length_append, List.length_replicate, List.length_flatMap,
      length_u64LeBytes, Bytes32.length_val, List.map_const', List.sum_replicate, smul_eq_mul,
      proofLength, ← hlen]
    omega
  refine ⟨openings values blindings, ?_, hproof, ?_⟩
  · rw [hcommit]
    rfl
  · rw [hcommit]
    simp only [cyclic, hzip, hproof, readOpenings_openings hl hlen, decide_true, Bool.and_self]

end Kohl
