import Mathlib.Data.BitVec
import Mathlib.Order.Nat

/-!
# Machine integers that trap

Unsigned integers of any width as bit vectors, with the arithmetic that panics: `none` stands for
the panic. `toNat` turns every operation into the one of the natural numbers.
-/

namespace Machine

variable {w : ℕ}

/-- `a + b`, which panics on overflow. -/
def add (a b : BitVec w) : Option (BitVec w) :=
  if a.toNat + b.toNat < 2 ^ w then some (a + b) else none

/-- `a * b`, which panics on overflow. -/
def mul (a b : BitVec w) : Option (BitVec w) :=
  if a.toNat * b.toNat < 2 ^ w then some (a * b) else none

/-- `a / b`, which panics when `b` is zero. -/
def div (a b : BitVec w) : Option (BitVec w) :=
  if b = 0 then none else some (a / b)

/-- `a.saturating_mul(b)`. -/
def saturatingMul (a b : BitVec w) : BitVec w :=
  BitVec.ofNat w (min (a.toNat * b.toNat) (2 ^ w - 1))

theorem toNat_ofNat_of_lt {n : ℕ} (h : n < 2 ^ w) : (BitVec.ofNat w n).toNat = n := by
  rw [BitVec.toNat_ofNat, Nat.mod_eq_of_lt h]

theorem exists_add {a b : BitVec w} (h : a.toNat + b.toNat < 2 ^ w) :
    ∃ c, add a b = some c ∧ c.toNat = a.toNat + b.toNat := by
  refine ⟨a + b, if_pos h, ?_⟩
  rw [BitVec.toNat_add, Nat.mod_eq_of_lt h]

theorem exists_mul {a b : BitVec w} (h : a.toNat * b.toNat < 2 ^ w) :
    ∃ c, mul a b = some c ∧ c.toNat = a.toNat * b.toNat := by
  refine ⟨a * b, if_pos h, ?_⟩
  rw [BitVec.toNat_mul, Nat.mod_eq_of_lt h]

theorem exists_div {a b : BitVec w} (h : 0 < b.toNat) :
    ∃ c, div a b = some c ∧ c.toNat = a.toNat / b.toNat := by
  have hne : b ≠ 0 := by
    intro hzero
    rw [hzero] at h
    exact absurd h (Nat.lt_irrefl 0)
  exact ⟨a / b, if_neg hne, BitVec.toNat_udiv⟩

theorem toNat_saturatingMul (a b : BitVec w) :
    (saturatingMul a b).toNat = min (a.toNat * b.toNat) (2 ^ w - 1) := by
  have hpos : 0 < 2 ^ w := Nat.two_pow_pos w
  exact toNat_ofNat_of_lt ((Nat.min_le_right _ _).trans_lt (Nat.sub_lt hpos Nat.one_pos))

/-- `a.max(b)`. -/
def umax (a b : BitVec w) : BitVec w := if a.toNat ≤ b.toNat then b else a

theorem toNat_umax (a b : BitVec w) : (umax a b).toNat = max a.toNat b.toNat := by
  unfold umax
  split
  · next h => exact (max_eq_right h).symm
  · next h => exact (max_eq_left (Nat.le_of_not_le h)).symm

end Machine
