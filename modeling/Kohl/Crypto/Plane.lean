import Mathlib.Algebra.Module.Prod
import Kohl.Crypto.Cyclic

/-!
# The plane over the scalars

The crates' functions over pairs of scalars, with the value generator `(1, 0)` and the blinding
generator `(0, 1)`: here the two are independent. A point is written as eight bytes of value and
twenty-four bytes of blinding, shifted so that small blindings of both signs have encodings; every
byte string is the encoding of a point. Hashes are BLAKE2b, cut to sixteen bytes for points.

* `plane_decompress`: what a byte string stands for.
* `plane_compress_of_decompress`, `plane_decompress_value`: encodings are canonical, and public
  amounts are read back.
-/

namespace Kohl

open ByteLib Cyclic

namespace Plane

variable {l : ℕ} [NeZero l]

/-- What is added to a blinding before it is written. -/
def shift : ℕ := 2 ^ 191

def toBytes (p : ZMod l × ZMod l) : Bytes32 :=
  ⟨leBytes 8 p.1.val ++ leBytes 24 (p.2 + (shift : ZMod l)).val, by simp⟩

def fromBytes (b : Bytes32) : ZMod l × ZMod l :=
  ((leNat (b.val.take 8) : ZMod l), (leNat (b.val.drop 8) : ZMod l) - (shift : ZMod l))

/-- The value generator for its tag, a small multiple of the blinding generator for every other
string. -/
def fromHash (b : Bytes) : ZMod l × ZMod l :=
  if b = ascii "kohl/pedersen/value-generator/v1" then (1, 0)
  else (0, (leNat ((Blake2b.hash256 b).val.take 16) : ZMod l))

def commitment (v : UInt64) (x : ZMod l) : Bytes32 := toBytes ((v.toNat : ZMod l), x)

end Plane

/-- The functions of the crates over the plane. -/
def plane (l : ℕ) [NeZero l] : CryptoLib l (ZMod l × ZMod l) where
  G := (0, 1)
  compress := Plane.toBytes
  decompress := fun b => some (Plane.fromBytes b)
  scalarToBytes := Cyclic.toBytes
  scalarFromCanonicalBytes := Cyclic.fromBytes
  scalarFromHash := Cyclic.fromHash
  pointFromHash := Plane.fromHash
  blake2_256 := Blake2b.hash256
  rangeProve := fun _ values blindings =>
    some (openings values blindings, List.zipWith Plane.commitment values blindings)
  rangeVerify := fun proof commitments =>
    decide (proof.length = proofLength commitments.length) &&
      match (readOpenings commitments.length proof : Option (List UInt64 × List (ZMod l))) with
      | none => false
      | some (values, blindings) =>
        decide (List.zipWith Plane.commitment values blindings = commitments)

variable {l : ℕ} [NeZero l]

theorem plane_H : (plane l).H = (1, 0) := rfl

theorem plane_pcCommit (v b : ZMod l) : (plane l).pcCommit v b = (v, b) := by
  rw [CryptoLib.pcCommit, plane_H]
  simp [plane]

/-- Every byte string stands for a 64-bit value and a blinding. -/
theorem plane_decompress (c : Bytes32) : ∃ v : ℕ, v < 2 ^ 64 ∧ ∃ b,
    (plane l).decompress c = some ((plane l).pcCommit (v : ZMod l) b) := by
  refine ⟨leNat (c.val.take 8), ?_, (leNat (c.val.drop 8) : ZMod l) - (Plane.shift : ZMod l), ?_⟩
  · have hlt := leNat_lt (c.val.take 8)
    simpa using hlt
  · rw [plane_pcCommit]
    rfl

theorem plane_compress_of_decompress (hl : 2 ^ 250 < l) {b : Bytes32} {p : ZMod l × ZMod l}
    (h : (plane l).decompress b = some p) : (plane l).compress p = b := by
  cases h
  have hvalue : leNat (b.val.take 8) < l := by
    have hlt := leNat_lt (b.val.take 8)
    simp at hlt
    omega
  have hblinding : leNat (b.val.drop 8) < l := by
    have hlt := leNat_lt (b.val.drop 8)
    simp at hlt
    omega
  apply Subtype.ext
  have htake := leBytes_leNat (b.val.take 8)
  have hdrop := leBytes_leNat (b.val.drop 8)
  rw [List.length_take, Bytes32.length_val] at htake
  rw [List.length_drop, Bytes32.length_val] at hdrop
  show leBytes 8 (leNat (b.val.take 8) : ZMod l).val ++
    leBytes 24 ((leNat (b.val.drop 8) : ZMod l) - (Plane.shift : ZMod l) + (Plane.shift : ZMod l)).val =
      b.val
  rw [sub_add_cancel, ZMod.val_natCast_of_lt hvalue, ZMod.val_natCast_of_lt hblinding]
  exact (congrArg₂ (· ++ ·) htake hdrop).trans (List.take_append_drop 8 b.val)

theorem plane_decompress_value (hl : 2 ^ 250 < l) (a : UInt64) :
    (plane l).decompress (Native.valueCommitment (plane l) a) =
      some ((plane l).pcCommit (a.toNat : ZMod l) 0) := by
  have ha := a.toNat_lt
  have hshift : Plane.shift = 2 ^ 191 := rfl
  rw [Native.valueCommitment, plane_pcCommit]
  show some (Plane.fromBytes (Plane.toBytes ((a.toNat : ZMod l), 0))) = _
  have htake : (Plane.toBytes ((a.toNat : ZMod l), 0)).val.take 8 = leBytes 8 (a.toNat : ZMod l).val :=
    List.take_left' (length_leBytes _ _)
  have hdrop : (Plane.toBytes ((a.toNat : ZMod l), 0)).val.drop 8 =
      leBytes 24 ((0 : ZMod l) + (Plane.shift : ZMod l)).val :=
    List.drop_left' (length_leBytes _ _)
  rw [Plane.fromBytes, htake, hdrop, zero_add, ZMod.val_natCast_of_lt (by omega),
    ZMod.val_natCast_of_lt (by omega), leNat_leBytes_of_lt (by omega),
    leNat_leBytes_of_lt (by omega), sub_self]

end Kohl
