import Mathlib.Algebra.BigOperators.Group.Finset.Basic
import Mathlib.Algebra.Order.BigOperators.Group.Finset
import Mathlib.Algebra.Order.BigOperators.Group.List
import Mathlib.Tactic.Ring

/-!
# Linearly weighted sums

`weighted i [x₀, x₁, …] = i·x₀ + (i+1)·x₁ + …`, the sum in which later entries count more, and the
truncated mean of a list.

* `weighted_mono`: the sum is monotone in every entry.
* `weighted_le`, `le_weighted`: with entries on one side of `c` it is on that side of `c·Σi`.
* `le_mean`, `mean_le`: so is the truncated mean.
* `sum_div_weights_le`: quotients by the weights of ever longer lists add up to less than the
  dividend.
-/

namespace LinearWeight

/-- The sum of the entries with the weights `i`, `i + 1`, …. -/
def weighted : ℕ → List ℕ → ℕ
  | _, [] => 0
  | i, x :: xs => i * x + weighted (i + 1) xs

/-- The sum of the `n` weights from `i` on. -/
def weights : ℕ → ℕ → ℕ
  | _, 0 => 0
  | i, n + 1 => i + weights (i + 1) n

/-- The mean of a list, rounded down. -/
def mean (xs : List ℕ) : ℕ := xs.sum / xs.length

theorem two_mul_weights (i n : ℕ) : 2 * weights (i + 1) n = n * (2 * i + n + 1) := by
  induction n generalizing i with
  | zero => simp [weights]
  | succ n ih =>
    rw [weights, Nat.mul_add, ih]
    ring

theorem two_mul_weights_one (n : ℕ) : 2 * weights 1 n = n * (n + 1) := by
  have h := two_mul_weights 0 n
  rwa [Nat.mul_zero, Nat.zero_add n] at h

/-- The weights from one on add up to a triangular number. -/
theorem weights_one (n : ℕ) : weights 1 n = n * (n + 1) / 2 :=
  (Nat.div_eq_of_eq_mul_right two_pos (two_mul_weights_one n).symm).symm

theorem weights_pos {n : ℕ} (h : 0 < n) : 0 < weights 1 n := by
  cases n with
  | zero => exact absurd h (Nat.lt_irrefl 0)
  | succ n => exact Nat.add_pos_left Nat.one_pos _

theorem weights_mono {m n : ℕ} (h : m ≤ n) : weights 1 m ≤ weights 1 n := by
  have hm := two_mul_weights_one m
  have hn := two_mul_weights_one n
  have hmul : m * (m + 1) ≤ n * (n + 1) := Nat.mul_le_mul h (Nat.succ_le_succ h)
  omega

theorem weighted_mono {xs ys : List ℕ} (h : List.Forall₂ (· ≤ ·) xs ys) (i : ℕ) :
    weighted i xs ≤ weighted i ys := by
  induction h generalizing i with
  | nil => exact le_rfl
  | cons hxy _ ih => exact Nat.add_le_add (Nat.mul_le_mul_left i hxy) (ih (i + 1))

theorem weighted_le {xs : List ℕ} {c : ℕ} (h : ∀ x ∈ xs, x ≤ c) (i : ℕ) :
    weighted i xs ≤ c * weights i xs.length := by
  induction xs generalizing i with
  | nil => exact Nat.zero_le _
  | cons x xs ih =>
    have hx : i * x ≤ c * i := by
      rw [Nat.mul_comm c i]
      exact Nat.mul_le_mul_left i (h x List.mem_cons_self)
    have hxs := ih (fun y hy => h y (List.mem_cons_of_mem x hy)) (i + 1)
    rw [weighted, List.length_cons, weights, Nat.mul_add]
    exact Nat.add_le_add hx hxs

theorem le_weighted {xs : List ℕ} {c : ℕ} (h : ∀ x ∈ xs, c ≤ x) (i : ℕ) :
    c * weights i xs.length ≤ weighted i xs := by
  induction xs generalizing i with
  | nil => exact Nat.zero_le _
  | cons x xs ih =>
    have hx : c * i ≤ i * x := by
      rw [Nat.mul_comm c i]
      exact Nat.mul_le_mul_left i (h x List.mem_cons_self)
    have hxs := ih (fun y hy => h y (List.mem_cons_of_mem x hy)) (i + 1)
    rw [weighted, List.length_cons, weights, Nat.mul_add]
    exact Nat.add_le_add hx hxs

theorem le_mean {xs : List ℕ} {c : ℕ} (hne : xs ≠ []) (h : ∀ x ∈ xs, c ≤ x) : c ≤ mean xs := by
  have hsum := List.card_nsmul_le_sum xs c h
  rw [mean, Nat.le_div_iff_mul_le (List.length_pos_iff.mpr hne), Nat.mul_comm]
  exact hsum

theorem mean_le {xs : List ℕ} {c : ℕ} (h : ∀ x ∈ xs, x ≤ c) : mean xs ≤ c := by
  have hsum := List.sum_le_card_nsmul xs c h
  exact Nat.div_le_of_le_mul hsum

theorem mean_mono {xs ys : List ℕ} (h : List.Forall₂ (· ≤ ·) xs ys) : mean xs ≤ mean ys := by
  rw [mean, mean, h.length_eq]
  exact Nat.div_le_div_right h.sum_le_sum

/-! ## Quotients by the weights -/

theorem div_weights (m j : ℕ) : m / weights 1 j = 2 * m / (j * (j + 1)) := by
  rw [← two_mul_weights_one, Nat.mul_div_mul_left _ _ two_pos]

/-- `1/(j(j+1)) + 1/(j+1) = 1/j`, rounded down. -/
theorem div_weights_add_le (m : ℕ) {j : ℕ} (hj : 0 < j) :
    m / weights 1 j + 2 * m / (j + 1) ≤ 2 * m / j := by
  have hfirst := Nat.div_mul_le_self (2 * m) (j * (j + 1))
  have hsecond := Nat.div_mul_le_self (2 * m) (j + 1)
  rw [div_weights, Nat.le_div_iff_mul_le hj]
  refine Nat.le_of_mul_le_mul_right ?_ (Nat.succ_pos j)
  calc (2 * m / (j * (j + 1)) + 2 * m / (j + 1)) * j * (j + 1)
      = 2 * m / (j * (j + 1)) * (j * (j + 1)) + 2 * m / (j + 1) * (j + 1) * j := by ring
    _ ≤ 2 * m + 2 * m * j := Nat.add_le_add hfirst (Nat.mul_le_mul_right j hsecond)
    _ = 2 * m * (j + 1) := by ring

/-- A telescoping sum: the quotients by the weights of ever longer lists, from two entries on. -/
theorem sum_div_weights_le (m v : ℕ) :
    ∑ i ∈ Finset.range v, m / weights 1 (2 + i) + 2 * m / (2 + v) ≤ m := by
  induction v with
  | zero =>
    rw [Finset.sum_range_zero, Nat.zero_add, Nat.add_zero, Nat.mul_div_cancel_left _ two_pos]
  | succ v ih =>
    have h := div_weights_add_le m (show 0 < 2 + v from Nat.add_pos_left two_pos v)
    rw [Finset.sum_range_succ, Nat.add_assoc]
    exact (Nat.add_le_add_left h _).trans ih

end LinearWeight
