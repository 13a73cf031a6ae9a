import Kohl.Security.Inflation

/-!
# What a wallet needs of the encodings

Independent generators span more points than 32 bytes can tell apart, so that not every point is read
back where commitments are binding. A wallet needs less: that its keys are read back, and of a commitment
the amount.

* `ReadBack`: what is asked instead, and `hasValue_of_commit`: a commitment carries its amount.
* `readable`: a plane with independent generators where it holds.
-/

namespace Kohl.Wallet

open ByteLib Cyclic Pallet

variable {l : ℕ} {Point : Type} [AddCommGroup Point] [Module (ZMod l) Point]

/-- What `Canonical` promises of the points a wallet compresses: keys are read back, and of a commitment its
amount is. -/
structure ReadBack (E : CryptoLib l Point) : Prop where
  keys : ∀ x : ZMod l, E.decompress (E.compress (x • E.G)) = some (x • E.G)
  values : ∀ (a : UInt64) (x : ZMod l), HasValue E (E.compress (E.pcCommit (a.toNat : ZMod l) x)) a.toNat

theorem readBack_of_canonical {E : CryptoLib l Point} (hE : E.Canonical) : ReadBack E where
  keys _ := hE.decompress_compress _
  values a x := ⟨a.toNat_lt, x, hE.decompress_compress _⟩

theorem hasValue_of_commit {E : CryptoLib l Point} (hR : ReadBack E) {a : UInt64} {blinding c : Bytes32}
    (h : Native.commit E a blinding = some c) : HasValue E c a.toNat := by
  obtain ⟨x, -, rfl⟩ := Option.map_eq_some_iff.mp h
  exact hR.values a x

/-! ## A plane that is read back -/

/-- The number of a point with coordinates `v` and `b`: even for a multiple of the blinding generator, and odd
for any other, cut to eight bytes of value and twenty-three of blinding. -/
def pointNumber (v b : ℕ) : ℕ := if v = 0 then 2 * b else 2 * (v + 2 ^ 64 * (b % 2 ^ 184)) + 1

def pointOfNumber (l n : ℕ) : Option (ℕ × ℕ) :=
  if n % 2 = 0 then if n / 2 < l then some (0, n / 2) else none
  else if n / 2 % 2 ^ 64 ≠ 0 ∧ n / 2 / 2 ^ 64 < 2 ^ 184 then some (n / 2 % 2 ^ 64, n / 2 / 2 ^ 64)
  else none

namespace Readable

variable {l : ℕ} [NeZero l]

def toBytes (p : ZMod l × ZMod l) : Bytes32 :=
  ⟨leBytes 32 (pointNumber p.1.val p.2.val), length_leBytes _ _⟩

def commitment (v : UInt64) (x : ZMod l) : Bytes32 := toBytes ((v.toNat : ZMod l), x)

/-- The value generator for its tag, a multiple of the blinding generator for every other string. -/
def fromHash (b : Bytes) : ZMod l × ZMod l :=
  if b = ascii "kohl/pedersen/value-generator/v1" then (1, 0) else (0, polynomialScalar b)

end Readable

/-- The plane with points written as their numbers, and with a polynomial in place of the hashes. Scalars are
hashed to sixteen bytes, so that the blindings a wallet derives are read back as well. -/
def readable (l : ℕ) [NeZero l] : CryptoLib l (ZMod l × ZMod l) :=
  { plane l with
    compress := Readable.toBytes
    decompress := fun b =>
      (pointOfNumber l (leNat b.val)).map fun p => ((p.1 : ZMod l), (p.2 : ZMod l))
    scalarFromHash := fun b => (polynomial b % 2 ^ 128 : ℕ)
    pointFromHash := Readable.fromHash
    blake2_256 := (cyclicPolynomial l).blake2_256
    rangeProve := fun _ values blindings =>
      some (openings values blindings, List.zipWith Readable.commitment values blindings)
    rangeVerify := fun proof commitments =>
      decide (proof.length = proofLength commitments.length) &&
        match (readOpenings commitments.length proof : Option (List UInt64 × List (ZMod l))) with
        | none => false
        | some (values, blindings) =>
          decide (List.zipWith Readable.commitment values blindings = commitments) }

namespace ReadableLemmas

theorem pointOfNumber_zero {l b : ℕ} (hb : b < l) : pointOfNumber l (pointNumber 0 b) = some (0, b) := by
  have heven : 2 * b % 2 = 0 := Nat.mul_mod_right 2 b
  have hhalf : 2 * b / 2 = b := Nat.mul_div_cancel_left b two_pos
  rw [pointNumber, if_pos rfl, pointOfNumber, if_pos heven, hhalf, if_pos hb]

theorem pointOfNumber_value {l v b : ℕ} (hv : v < 2 ^ 64) (hpos : v ≠ 0) :
    pointOfNumber l (pointNumber v b) = some (v, b % 2 ^ 184) := by
  have hcut : b % 2 ^ 184 < 2 ^ 184 := Nat.mod_lt _ (Nat.two_pow_pos 184)
  rw [pointNumber, if_neg hpos, pointOfNumber]
  generalize b % 2 ^ 184 = c at hcut
  have hodd : ¬(2 * (v + 2 ^ 64 * c) + 1) % 2 = 0 := by omega
  have hhalf : (2 * (v + 2 ^ 64 * c) + 1) / 2 = v + 2 ^ 64 * c := by omega
  have hlow : (v + 2 ^ 64 * c) % 2 ^ 64 = v := by omega
  have hhigh : (v + 2 ^ 64 * c) / 2 ^ 64 = c := by omega
  rw [if_neg hodd, hhalf, hlow, hhigh, if_pos ⟨hpos, hcut⟩]

theorem pointNumber_of_point {l n v b : ℕ} (hl : 2 ^ 250 < l) (h : pointOfNumber l n = some (v, b)) :
    pointNumber v b = n ∧ v < l ∧ b < l := by
  unfold pointOfNumber at h
  split at h
  · next heven =>
    split at h
    · next hlt =>
      cases h
      refine ⟨?_, Nat.zero_lt_of_lt hl, hlt⟩
      rw [pointNumber, if_pos rfl]
      omega
    · cases h
  · next hodd =>
    split at h
    · next hcut =>
      cases h
      refine ⟨?_, ?_, hcut.2.trans (Nat.lt_trans (by decide) hl)⟩
      · rw [pointNumber, if_neg hcut.1, Nat.mod_eq_of_lt hcut.2]
        omega
      · exact (Nat.mod_lt _ (Nat.two_pow_pos 64)).trans (Nat.lt_trans (by decide) hl)
    · cases h

theorem pointNumber_lt {v b : ℕ} (hv : v < 2 ^ 64) (hb : b < 2 ^ 255) : pointNumber v b < 2 ^ 256 := by
  have hcut : b % 2 ^ 184 < 2 ^ 184 := Nat.mod_lt _ (Nat.two_pow_pos 184)
  unfold pointNumber
  split
  · omega
  · omega

variable {l : ℕ} [NeZero l]

theorem readable_pcCommit (v b : ZMod l) : (readable l).pcCommit v b = (v, b) := by
  have hH : (readable l).H = (1, 0) := rfl
  have hG : (readable l).G = (0, 1) := rfl
  rw [CryptoLib.pcCommit, hH, hG]
  simp

theorem leNat_compress {p : ZMod l × ZMod l} (h : pointNumber p.1.val p.2.val < 2 ^ 256) :
    leNat ((readable l).compress p).val = pointNumber p.1.val p.2.val := leNat_leBytes_of_lt h

theorem readable_decompress (b : Bytes32) : (readable l).decompress b =
    (pointOfNumber l (leNat b.val)).map fun p => ((p.1 : ZMod l), (p.2 : ZMod l)) := rfl

/-- What becomes of a small value and its blinding. -/
theorem decompress_compress (hl : 2 ^ 250 < l) (hl' : l ≤ 2 ^ 255) {v : ℕ} (hv : v < 2 ^ 64) (b : ZMod l) :
    ∃ b' : ZMod l, (readable l).decompress ((readable l).compress ((v : ZMod l), b)) =
      some ((v : ZMod l), b') ∧ (v = 0 ∨ b = 0 → b' = b) := by
  have hsmall : v < l := (hv.trans (Nat.pow_lt_pow_right one_lt_two (by decide))).trans hl
  have hval : (v : ZMod l).val = v := ZMod.val_natCast_of_lt hsmall
  have hb := ZMod.val_lt b
  have hread : (readable l).decompress ((readable l).compress ((v : ZMod l), b)) =
      (pointOfNumber l (pointNumber v b.val)).map fun p => ((p.1 : ZMod l), (p.2 : ZMod l)) := by
    have hnumber := pointNumber_lt hv (hb.trans_le hl')
    rw [readable_decompress, leNat_compress (by rw [hval]; exact hnumber), hval]
  rw [hread]
  by_cases hzero : v = 0
  · refine ⟨b, ?_, fun _ => rfl⟩
    rw [hzero, pointOfNumber_zero hb, Option.map_some, Nat.cast_zero, ZMod.natCast_zmod_val]
  · refine ⟨((b.val % 2 ^ 184 : ℕ) : ZMod l), by rw [pointOfNumber_value hv hzero, Option.map_some], ?_⟩
    intro h
    rw [h.resolve_left hzero, ZMod.val_zero, Nat.zero_mod, Nat.cast_zero]

theorem readable_readBack (hl : 2 ^ 250 < l) (hl' : l ≤ 2 ^ 255) : ReadBack (readable l) where
  keys x := by
    have hG : x • (readable l).G = (((0 : ℕ) : ZMod l), x) := by
      show x • ((0 : ZMod l), (1 : ZMod l)) = _
      rw [Prod.smul_mk, smul_zero, smul_eq_mul, mul_one, Nat.cast_zero]
    obtain ⟨b, hb, heq⟩ := decompress_compress hl hl' (v := 0) (by decide) x
    rw [hG, hb, heq (.inl rfl)]
  values a x := by
    obtain ⟨b, hb, -⟩ := decompress_compress hl hl' a.toNat_lt x
    refine ⟨a.toNat_lt, b, ?_⟩
    rw [readable_pcCommit, readable_pcCommit, hb]

theorem readable_publicAmounts (hl : 2 ^ 250 < l) (hl' : l ≤ 2 ^ 255) : PublicAmounts (readable l) := by
  intro a
  obtain ⟨b, hb, heq⟩ := decompress_compress hl hl' a.toNat_lt (0 : ZMod l)
  rw [Native.valueCommitment, readable_pcCommit, hb, heq (.inr rfl)]

theorem readable_canonicalPoints (hl : 2 ^ 250 < l) : CanonicalPoints (readable l) := by
  intro b p h
  obtain ⟨⟨v, c⟩, hpoint, hp⟩ := Option.map_eq_some_iff.mp h
  obtain ⟨hnumber, hv, hc⟩ := pointNumber_of_point hl hpoint
  have hback := leBytes_leNat b.val
  rw [Bytes32.length_val] at hback
  apply Subtype.ext
  rw [← hp]
  show leBytes 32 (pointNumber (v : ZMod l).val (c : ZMod l).val) = b.val
  rw [ZMod.val_natCast_of_lt hv, ZMod.val_natCast_of_lt hc, hnumber, hback]

theorem readable_independent : Independent (readable l) := by
  intro a b h
  have hcommit : (readable l).pcCommit a b = 0 := h
  rw [readable_pcCommit, Prod.mk_eq_zero] at hcommit
  exact hcommit

theorem readable_canonicalScalars (hl : l ≤ 2 ^ 256) : (readable l).CanonicalScalars :=
  cyclic_canonicalScalars hl

theorem readable_zeroScalar : (readable l).ZeroScalar := @cyclic_zeroScalar l _

end ReadableLemmas

end Kohl.Wallet
