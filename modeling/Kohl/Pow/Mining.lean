import Kohl.Lib.Blake2b
import Kohl.Lib.Scale

/-!
# Proof-of-work seals

`consensus/kohl-pow/src/mining.rs`: the seal format, the difficulty predicate, the verifier of a
seal and the miner's loop. The hasher is a parameter, as in the source; `blakeHasher` is the one of
the development chains.

* `verifySeal_iff`: a seal is accepted exactly when its first 40 bytes are the encoding of a winning
  nonce. What follows them is not looked at.
* `mine_eq_some`: what the miner returns is a winning seal.
* `verifySeal_unique_iff`: when a seal has the one encoding of its nonce.
-/

namespace Kohl.Pow

open ByteLib

/-- The winning nonce and the work hash it produced. -/
structure Seal where
  nonce : UInt64
  work : Bytes32
deriving DecidableEq

def encodeSeal (s : Seal) : Bytes := u64LeBytes s.nonce ++ s.work.val

/-- `Seal::decode` reads the two fields and leaves the rest of its input unread. -/
def decodeSeal (bytes : Bytes) : Option Seal :=
  (Scale.decodeU64 bytes).bind fun (nonce, rest) =>
    (Scale.decodeArray32 rest).map fun (work, _) => ⟨nonce, work⟩

/-- Something that turns a pre-hash, a seed and a nonce into a work hash. -/
abbrev Hasher := Bytes → Bytes → UInt64 → Bytes32

abbrev U256 := BitVec 256

/-- `U256::from_big_endian`. -/
def fromBigEndian (work : Bytes32) : ℕ := leNat work.val.reverse

/-- A work hash meets a difficulty when it is at most `U256::MAX / difficulty`; zero counts as
one. -/
def hashMeetsDifficulty (work : Bytes32) (difficulty : U256) : Bool :=
  let target := (2 ^ 256 - 1) / max difficulty.toNat 1
  decide (fromBigEndian work ≤ target)

/-- Recompute the work of a seal, compare it with the claimed one and check the difficulty. -/
def verifySeal (hasher : Hasher) (preHash seed sealBytes : Bytes) (difficulty : U256) : Bool :=
  match decodeSeal sealBytes with
  | none => false
  | some s =>
    let work := hasher preHash seed s.nonce
    decide (work = s.work) && hashMeetsDifficulty work difficulty

/-- Try `rounds` nonces from `nonce` on. -/
def mineFrom (hasher : Hasher) (preHash seed : Bytes) (difficulty : U256) :
    ℕ → UInt64 → Option Seal
  | 0, _ => none
  | rounds + 1, nonce =>
    let work := hasher preHash seed nonce
    if hashMeetsDifficulty work difficulty then some ⟨nonce, work⟩
    else mineFrom hasher preHash seed difficulty rounds (nonce + 1)

/-- Try the nonces of `start..start.saturating_add(rounds)`. -/
def mine (hasher : Hasher) (preHash seed : Bytes) (difficulty : U256) (start rounds : UInt64) :
    Option Seal :=
  mineFrom hasher preHash seed difficulty
    (min (start.toNat + rounds.toNat) (2 ^ 64 - 1) - start.toNat) start

/-- The keyed hasher of the development chains. -/
def blakeHasher : Hasher := fun preHash seed nonce =>
  Blake2b.hash256 (ascii "kohl/pow/blake/v1" ++ seed ++ preHash ++ u64LeBytes nonce)

/-! ## The verifier -/

/-- The first 40 bytes are the nonce and the work of a winning seal. -/
def StartsWithWinningSeal (hasher : Hasher) (preHash seed b : Bytes) (difficulty : U256) : Prop :=
  let work := hasher preHash seed (u64FromLeBytes (b.take 8))
  (b.drop 8).take 32 = work.val ∧ hashMeetsDifficulty work difficulty = true

namespace MiningLemmas

@[simp] theorem length_encodeSeal (s : Seal) : (encodeSeal s).length = 40 := by
  simp [encodeSeal]

theorem decodeSeal_eq_some {b : Bytes} {s : Seal} :
    decodeSeal b = some s ↔ s.nonce = u64FromLeBytes (b.take 8) ∧ s.work.val = (b.drop 8).take 32 := by
  unfold decodeSeal Scale.decodeU64 Scale.decodeArray32
  split
  · next h =>
    -- fewer than eight bytes leave none for the work
    have hnil : b.drop 8 = [] := List.drop_eq_nil_of_le h.le
    constructor
    · intro h
      cases h
    · rintro ⟨-, hwork⟩
      have := congrArg List.length hwork
      simp [hnil] at this
  · simp only [Option.bind_some, Option.map_map, Option.map_eq_some_iff, Function.comp_apply,
      Bytes32.ofBytes_eq_some]
    constructor
    · rintro ⟨work, hwork, rfl⟩
      exact ⟨rfl, hwork⟩
    · rintro ⟨hnonce, hwork⟩
      exact ⟨s.work, hwork, by rw [← hnonce]⟩

/-- A string of 40 bytes that decodes to a seal is its encoding. -/
theorem encodeSeal_of_decodeSeal {b : Bytes} {s : Seal} (h : decodeSeal b = some s)
    (hlen : b.length ≤ 40) : b = encodeSeal s := by
  obtain ⟨hnonce, hwork⟩ := decodeSeal_eq_some.mp h
  have h32 : ((b.drop 8).take 32).length = 32 := by rw [← hwork, Bytes32.length_val]
  rw [List.length_take, List.length_drop] at h32
  rw [encodeSeal, hnonce, hwork, u64LeBytes_u64FromLeBytes (by rw [List.length_take]; omega),
    List.take_of_length_le (l := b.drop 8) (by rw [List.length_drop]; omega), List.take_append_drop]

theorem decodeSeal_encodeSeal (s : Seal) : decodeSeal (encodeSeal s) = some s := by
  rw [decodeSeal_eq_some, encodeSeal, List.take_left' (length_u64LeBytes _),
    List.drop_left' (length_u64LeBytes _), u64FromLeBytes_u64LeBytes,
    List.take_of_length_le (Bytes32.length_val _).le]
  exact ⟨rfl, rfl⟩

/-- What the miner's loop returns has the recomputed work and meets the difficulty. -/
theorem mineFrom_eq_some {hasher : Hasher} {preHash seed : Bytes} {difficulty : U256} {rounds : ℕ}
    {nonce : UInt64} {s : Seal}
    (h : mineFrom hasher preHash seed difficulty rounds nonce = some s) :
    s.work = hasher preHash seed s.nonce ∧ hashMeetsDifficulty s.work difficulty = true := by
  induction rounds generalizing nonce with
  | zero => cases h
  | succ rounds ih =>
    simp only [mineFrom] at h
    split at h
    · next hmeets =>
      rw [Option.some.injEq] at h
      subst h
      exact ⟨rfl, hmeets⟩
    · exact ih h

end MiningLemmas

open MiningLemmas

/-- A seal is accepted exactly when its first 40 bytes are a winning seal. -/
theorem verifySeal_iff {hasher : Hasher} {preHash seed b : Bytes} {difficulty : U256} :
    verifySeal hasher preHash seed b difficulty = true ↔
      StartsWithWinningSeal hasher preHash seed b difficulty := by
  unfold verifySeal StartsWithWinningSeal
  split
  · next hnone =>
    constructor
    · intro h
      cases h
    rintro ⟨hwork, -⟩
    have hsome : decodeSeal b = some ⟨_, _⟩ := decodeSeal_eq_some.mpr ⟨rfl, hwork.symm⟩
    rw [hnone] at hsome
    cases hsome
  · next s hs =>
    obtain ⟨hnonce, hwork⟩ := decodeSeal_eq_some.mp hs
    rw [Bool.and_eq_true, decide_eq_true_eq, ← hnonce, ← hwork]
    exact and_congr_left fun _ => ⟨fun h => by rw [h], fun h => Subtype.ext h.symm⟩

theorem mine_eq_some {hasher : Hasher} {preHash seed : Bytes} {difficulty : U256}
    {start rounds : UInt64} {s : Seal}
    (h : mine hasher preHash seed difficulty start rounds = some s) :
    s.work = hasher preHash seed s.nonce ∧ hashMeetsDifficulty s.work difficulty = true :=
  mineFrom_eq_some h

/-- The encoding of a winning nonce is accepted. -/
theorem verifySeal_encodeSeal {hasher : Hasher} {preHash seed : Bytes} {difficulty : U256}
    {nonce : UInt64}
    (hmeets : hashMeetsDifficulty (hasher preHash seed nonce) difficulty = true) :
    verifySeal hasher preHash seed (encodeSeal ⟨nonce, hasher preHash seed nonce⟩) difficulty =
      true := by
  simp only [verifySeal, decodeSeal_encodeSeal, decide_true, Bool.true_and, hmeets]

/-- Every seal of the miner is accepted. -/
theorem verifySeal_of_mine {hasher : Hasher} {preHash seed : Bytes} {difficulty : U256}
    {start rounds : UInt64} {s : Seal}
    (hs : mine hasher preHash seed difficulty start rounds = some s) :
    verifySeal hasher preHash seed (encodeSeal s) difficulty = true := by
  obtain ⟨hwork, hmeets⟩ := mine_eq_some hs
  obtain ⟨nonce, work⟩ := s
  simp only at hwork hmeets
  subst hwork
  exact verifySeal_encodeSeal hmeets

/-- The verifier accepts a byte string exactly when it is the encoding of a winning nonce, if and
only if the string has at most 40 bytes or does not start with a winning seal: the decoder does not
look at the bytes behind a seal. Every seal of the miner is accepted. -/
theorem verifySeal_unique_iff (hasher : Hasher) (preHash seed b : Bytes) (difficulty : U256) :
    ((verifySeal hasher preHash seed b difficulty = true ↔
        ∃ nonce, b = encodeSeal ⟨nonce, hasher preHash seed nonce⟩ ∧
          hashMeetsDifficulty (hasher preHash seed nonce) difficulty = true) ↔
      b.length ≤ 40 ∨ ¬StartsWithWinningSeal hasher preHash seed b difficulty) ∧
    ∀ start rounds s, mine hasher preHash seed difficulty start rounds = some s →
      verifySeal hasher preHash seed (encodeSeal s) difficulty = true := by
  refine ⟨⟨fun h => ?_, fun h => ⟨fun hv => ?_, ?_⟩⟩,
    fun start rounds s hs => verifySeal_of_mine hs⟩
  · by_contra hcond
    rw [not_or, not_not] at hcond
    obtain ⟨nonce, hb, -⟩ := h.mp (verifySeal_iff.mpr hcond.2)
    rw [hb, length_encodeSeal] at hcond
    exact hcond.1 le_rfl
  · have hwin := verifySeal_iff.mp hv
    have hlen := h.resolve_right (not_not.mpr hwin)
    refine ⟨u64FromLeBytes (b.take 8), encodeSeal_of_decodeSeal ?_ hlen, hwin.2⟩
    exact decodeSeal_eq_some.mpr ⟨rfl, hwin.1.symm⟩
  · rintro ⟨nonce, rfl, hmeets⟩
    exact verifySeal_encodeSeal hmeets

/-- At difficulty one the seal of nonce zero is accepted with a zero byte behind it. -/
theorem verifySeal_accepts_trailing_byte :
    verifySeal blakeHasher (ascii "x") (ascii "s")
        (encodeSeal ⟨0, blakeHasher (ascii "x") (ascii "s") 0⟩ ++ [0]) 1 = true ∧
      ¬∃ nonce, encodeSeal ⟨0, blakeHasher (ascii "x") (ascii "s") 0⟩ ++ [0] =
          encodeSeal ⟨nonce, blakeHasher (ascii "x") (ascii "s") nonce⟩ ∧
        hashMeetsDifficulty (blakeHasher (ascii "x") (ascii "s") nonce) 1 = true := by
  refine ⟨by decide +kernel, ?_⟩
  rintro ⟨nonce, h, -⟩
  have := congrArg List.length h
  simp at this

end Kohl.Pow
