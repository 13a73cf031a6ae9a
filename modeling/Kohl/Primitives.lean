import Kohl.Lib.Bytes

/-!
# Consensus constants and the emission schedule

`primitives/ringct-primitives/src/lib.rs`: the caps, the domain tags of the membership tree and
`block_reward`.
-/

namespace Kohl

open ByteLib

/-! ## Supply -/

def ATOMIC_UNITS : ℕ := 100000000

/-- The supply the decaying curve aims at. -/
def MAX_CURVE_SUPPLY : ℕ := 92000000 * ATOMIC_UNITS

/-- The perpetual reward per block. -/
def TAIL_REWARD : ℕ := 3 * ATOMIC_UNITS / 10

def EMISSION_SHIFT : ℕ := 19

/-- The reward as a function of the coins emitted so far; subtraction saturates. -/
def blockReward (emitted : UInt64) : UInt64 :=
  let curve := (MAX_CURVE_SUPPLY - emitted.toNat) >>> EMISSION_SHIFT
  if TAIL_REWARD < curve then UInt64.ofNat curve else UInt64.ofNat TAIL_REWARD

theorem toNat_blockReward (emitted : UInt64) :
    (blockReward emitted).toNat =
      max TAIL_REWARD ((MAX_CURVE_SUPPLY - emitted.toNat) / 2 ^ EMISSION_SHIFT) := by
  have hcurve : (MAX_CURVE_SUPPLY - emitted.toNat) / 2 ^ EMISSION_SHIFT < 2 ^ 64 := by
    refine lt_of_le_of_lt (Nat.div_le_self _ _) ?_
    have : MAX_CURVE_SUPPLY < 2 ^ 64 := by decide
    omega
  simp only [blockReward, Nat.shiftRight_eq_div_pow]
  split
  · next h =>
    rw [UInt64.toNat_ofNat', Nat.mod_eq_of_lt hcurve, max_eq_right h.le]
  · next h =>
    rw [UInt64.toNat_ofNat', max_eq_left (not_lt.mp h)]
    rfl

theorem tail_le_blockReward (emitted : UInt64) : TAIL_REWARD ≤ (blockReward emitted).toNat := by
  rw [toNat_blockReward]
  exact le_max_left _ _

/-! ## Caps -/

def MAX_OUTPUTS : ℕ := 8
def MAX_RANGE_PROOF_BYTES : ℕ := 1024
def MAX_PAYLOAD_BYTES : ℕ := 80
def FCMP_ADMIT_MAX_LEAVES_PER_BLOCK : ℕ := 64
def FCMP_GROW_CATCHUP_MAX_PER_BLOCK : ℕ := 64
def FCMP_ROOT_MAX_AGE_BLOCKS : ℕ := 64
def MAX_FCMP_INPUTS : ℕ := 4
def MAX_FCMP_PROOF_BYTES : ℕ := 12288
def MAX_FCMP_ANON_SET : ℕ := 64

/-! ## Domain tags -/

def FCMP_LEAF_DOM : Bytes := ascii "kohl/fcmp/leaf/v1"
def FCMP_EMPTY_LEAF_DOM : Bytes := ascii "kohl/fcmp/leaf/empty/v1"
def FCMP_MERKLE_DOM : Bytes := ascii "kohl/fcmp/merkle/v1"
def FCMP_MERKLE_EMPTY_DOM : Bytes := ascii "kohl/fcmp/merkle/v1/empty"

/-! ## Checked arithmetic -/

/-- `u64::checked_add`. -/
def checkedAdd (a b : UInt64) : Option UInt64 :=
  if a.toNat + b.toNat < 2 ^ 64 then some (a + b) else none

theorem checkedAdd_eq_some {a b c : UInt64} :
    checkedAdd a b = some c ↔ c.toNat = a.toNat + b.toNat := by
  have hc := c.toNat_lt
  unfold checkedAdd
  split
  · next h =>
    have hsum : (a + b).toNat = a.toNat + b.toNat := by
      rw [UInt64.toNat_add]
      omega
    rw [Option.some.injEq, ← UInt64.toNat_inj, hsum]
    exact eq_comm
  · next h =>
    refine ⟨fun e => (by cases e), fun e => absurd ?_ h⟩
    omega

/-- `u64::saturating_mul`. -/
def saturatingMul (a b : UInt64) : UInt64 := UInt64.ofNat (min (a.toNat * b.toNat) (2 ^ 64 - 1))

theorem toNat_saturatingMul (a b : UInt64) :
    (saturatingMul a b).toNat = min (a.toNat * b.toNat) (2 ^ 64 - 1) := by
  rw [saturatingMul, UInt64.toNat_ofNat', Nat.mod_eq_of_lt]
  omega

/-- `u64::saturating_add`. -/
def saturatingAdd (a b : UInt64) : UInt64 := UInt64.ofNat (min (a.toNat + b.toNat) (2 ^ 64 - 1))

theorem toNat_saturatingAdd (a b : UInt64) :
    (saturatingAdd a b).toNat = min (a.toNat + b.toNat) (2 ^ 64 - 1) := by
  rw [saturatingAdd, UInt64.toNat_ofNat', Nat.mod_eq_of_lt]
  omega

end Kohl
