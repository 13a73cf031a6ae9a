import Mathlib.Data.Int.GCD
import Mathlib.Data.Int.ModEq
import Mathlib.Tactic.Ring

/-!
# Strides round a ring

A counter that goes round a ring of `size` places in steps of `stride`, which need not divide the size. From lap
to lap it comes by other places.

* `exists_place_eq`: it comes by every place that its start agrees with modulo `gcd stride size`, and no later
  than in the step `size / gcd stride size`.
-/

namespace Stride

/-- Where the counter is after `k` steps. -/
def place (size stride start k : ℕ) : ℕ := (start + k * stride) % size

theorem place_succ (size stride start k : ℕ) :
    place size stride start (k + 1) = place size stride ((start + stride) % size) k := by
  rw [place, place, Nat.mod_add_mod, Nat.succ_mul]
  congr 1
  omega

theorem exists_place_eq {size stride start target : ℕ} (htarget : target < size)
    (h : start ≡ target [MOD Nat.gcd stride size]) :
    ∃ k < size / Nat.gcd stride size, place size stride start k = target := by
  have hsize : 0 < size := Nat.zero_lt_of_lt htarget
  have hgcd : 0 < Nat.gcd stride size := Nat.gcd_pos_of_pos_right stride hsize
  obtain ⟨q, hq⟩ := Nat.modEq_iff_dvd.mp h
  obtain ⟨s, hs⟩ := Nat.gcd_dvd_left stride size
  obtain ⟨period, hperiod⟩ := Nat.gcd_dvd_right stride size
  have hbezout := Nat.gcd_eq_gcd_ab stride size
  generalize Nat.gcdA stride size = a at hbezout
  generalize Nat.gcdB stride size = b at hbezout
  generalize Nat.gcd stride size = d at hgcd hq hs hperiod hbezout ⊢
  have hpos : 0 < period := Nat.pos_of_mul_pos_left (hperiod ▸ hsize)
  have hlap : size / d = period := by rw [hperiod, Nat.mul_div_cancel_left period hgcd]
  -- the multiple of the stride that leads to the target, within one lap
  have hk : ((a * q % period).toNat : ℤ) = a * q % period :=
    Int.toNat_of_nonneg (Int.emod_nonneg _ (by omega))
  have hlt : (a * q % period).toNat < period := by
    have hmod := Int.emod_lt_of_pos (a * q) (by omega : (0 : ℤ) < period)
    omega
  refine ⟨(a * q % period).toNat, hlap ▸ hlt, ?_⟩
  have hmodEq : start + (a * q % period).toNat * stride ≡ target [MOD size] := by
    refine Nat.modEq_iff_dvd.mpr ⟨s * (a * q / period) + b * q, ?_⟩
    have hdiv : a * q % period = a * q - period * (a * q / period) :=
      eq_sub_of_add_eq (Int.emod_add_mul_ediv (a * q) period)
    have hsize' : (size : ℤ) = d * period := by rw [hperiod, Nat.cast_mul]
    have hstride' : (stride : ℤ) = d * s := by rw [hs, Nat.cast_mul]
    rw [Nat.cast_add, Nat.cast_mul, hk]
    calc (target : ℤ) - (start + a * q % period * stride)
        = (target - start) - a * q % period * stride := by ring
      _ = d * q - (a * q - period * (a * q / period)) * stride := by
        rw [hq, hdiv]
      _ = (stride * a + size * b) * q - (a * q - period * (a * q / period)) * stride := by
        rw [← hbezout]
      _ = size * (s * (a * q / period) + b * q) := by
        rw [hsize', hstride']
        ring
  rw [place, hmodEq, Nat.mod_eq_of_lt htarget]

end Stride
