import Mathlib.Algebra.BigOperators.Group.List.Basic
import Mathlib.Algebra.GroupWithZero.Nat
import Mathlib.Data.List.Perm.Basic
import Mathlib.Order.Nat

/-!
# Ranges of a list ordered by a key

* `within_append_within`: adjacent ranges of an ordered list follow each other.
* `tally_eq`: what a loop that counts elements into buckets leaves in them.
-/

namespace Ranges

variable {α : Type*} (key : α → ℕ)

/-- The elements with a key from `a` to `b`. -/
def within (a b : ℕ) (xs : List α) : List α := xs.filter fun x => decide (a ≤ key x ∧ key x ≤ b)

/-- How many elements have the key `k`. -/
def countAt (k : ℕ) (xs : List α) : ℕ := (within key k k xs).length

/-- Add one to bucket `i`, if there is one. -/
def bump (buckets : List ℕ) (i : ℕ) : Option (List ℕ) :=
  if h : i < buckets.length then some (buckets.set i (buckets[i] + 1)) else none

/-- Count the elements with a key from `a` to `b` into the bucket of their key; the first bucket is that
of `a`. -/
def tally (a b : ℕ) : List α → List ℕ → Option (List ℕ)
  | [], buckets => some buckets
  | x :: xs, buckets =>
    if a ≤ key x ∧ key x ≤ b then (bump buckets (key x - a)).bind (tally a b xs)
    else tally a b xs buckets

variable {key} {a b m : ℕ} {xs ys : List α}

theorem within_append (a b : ℕ) (xs ys : List α) :
    within key a b (xs ++ ys) = within key a b xs ++ within key a b ys := List.filter_append _ _

theorem within_perm (h : xs.Perm ys) (a b : ℕ) : (within key a b xs).Perm (within key a b ys) :=
  h.filter _

theorem within_eq_self (h : ∀ x ∈ xs, a ≤ key x ∧ key x ≤ b) : within key a b xs = xs :=
  List.filter_eq_self.mpr fun x hx => decide_eq_true (h x hx)

theorem within_eq_nil (h : ∀ x ∈ xs, key x < a ∨ b < key x) : within key a b xs = [] := by
  rw [within, List.filter_eq_nil_iff]
  intro x hx
  rw [decide_eq_true_iff]
  have := h x hx
  omega

theorem within_cons_pos {x : α} (h : a ≤ key x ∧ key x ≤ b) :
    within key a b (x :: xs) = x :: within key a b xs :=
  List.filter_cons_of_pos (decide_eq_true h)

theorem within_cons_neg {x : α} (h : ¬(a ≤ key x ∧ key x ≤ b)) :
    within key a b (x :: xs) = within key a b xs :=
  List.filter_cons_of_neg (by rw [decide_eq_true_iff]; exact h)

/-- Two adjacent ranges of an ordered list make up one. -/
theorem within_append_within (hsorted : xs.Pairwise fun x y => key x ≤ key y) (ha : a ≤ m + 1)
    (hb : m ≤ b) : within key a m xs ++ within key (m + 1) b xs = within key a b xs := by
  induction xs with
  | nil => rfl
  | cons x xs ih =>
    obtain ⟨hhead, htail⟩ := List.pairwise_cons.mp hsorted
    rcases Nat.lt_or_ge m (key x) with hx | hx
    · -- everything from here on is behind the first range
      have hall : ∀ y ∈ x :: xs, m < key y := by
        intro y hy
        rcases List.mem_cons.mp hy with rfl | hy
        · exact hx
        · exact hx.trans_le (hhead y hy)
      rw [within_eq_nil fun y hy => .inr (hall y hy), List.nil_append]
      refine List.filter_congr fun y hy => ?_
      have := hall y hy
      rw [decide_eq_decide]
      omega
    · rw [within_cons_neg (a := m + 1) (by omega)]
      by_cases hin : a ≤ key x
      · rw [within_cons_pos ⟨hin, hx⟩, within_cons_pos ⟨hin, hx.trans hb⟩, List.cons_append, ih htail]
      · rw [within_cons_neg (by omega), within_cons_neg (by omega), ih htail]

/-! ## Counting -/

theorem countAt_cons (x : α) (k : ℕ) :
    countAt key k (x :: xs) = (if key x = k then 1 else 0) + countAt key k xs := by
  unfold countAt
  split
  · next h =>
    rw [within_cons_pos (by omega), List.length_cons, Nat.add_comm]
  · next h => rw [within_cons_neg (by omega), Nat.zero_add]

theorem bump_map_range {n i : ℕ} (hi : i < n) (g : ℕ → ℕ) :
    bump ((List.range n).map g) i =
      some ((List.range n).map fun k => g k + if i = k then 1 else 0) := by
  have hlen : i < ((List.range n).map g).length := by
    rw [List.length_map, List.length_range]
    exact hi
  rw [bump, dif_pos hlen, Option.some.injEq]
  apply List.ext_getElem
  · rw [List.length_set, List.length_map, List.length_map]
  · intro k hk hk'
    simp only [List.getElem_set, List.getElem_map, List.getElem_range]
    split
    · next heq => rw [heq]
    · rfl

/-- The loop finds a bucket for every key of the range, and counts each key. -/
theorem tally_eq (hab : a ≤ b) (xs : List α) (g : ℕ → ℕ) :
    tally key a b xs ((List.range (b - a + 1)).map g) =
      some ((List.range (b - a + 1)).map fun k => g k + countAt key (a + k) xs) := by
  induction xs generalizing g with
  | nil => rfl
  | cons x xs ih =>
    rw [tally]
    split
    · next hin =>
      rw [bump_map_range (by omega), Option.bind_some, ih, Option.some.injEq]
      refine List.map_congr_left fun k _ => ?_
      rw [countAt_cons, Nat.add_assoc]
      have hiff : key x - a = k ↔ key x = a + k := by omega
      simp only [hiff]
    · next hout =>
      rw [ih, Option.some.injEq]
      refine List.map_congr_left fun k hk => ?_
      rw [List.mem_range] at hk
      rw [countAt_cons, if_neg (by omega), Nat.zero_add]

/-- A range that ends before it begins takes no element. -/
theorem tally_of_lt (hba : b < a) (xs : List α) (buckets : List ℕ) :
    tally key a b xs buckets = some buckets := by
  induction xs generalizing buckets with
  | nil => rfl
  | cons x xs ih =>
    rw [tally, if_neg (by omega)]
    exact ih buckets

theorem sum_indicator (a n i : ℕ) :
    ((List.range n).map fun k => if i = a + k then 1 else 0).sum =
      if a ≤ i ∧ i < a + n then 1 else 0 := by
  induction n with
  | zero =>
    rw [if_neg (by omega)]
    rfl
  | succ n ih =>
    rw [List.range_succ, List.map_append, List.sum_append, ih, List.map_singleton, List.sum_singleton]
    split_ifs <;> omega

/-- Without buckets the first element of the range ends the loop. -/
theorem tally_nil_eq_none (h : ∃ x ∈ xs, a ≤ key x ∧ key x ≤ b) : tally key a b xs [] = none := by
  induction xs with
  | nil =>
    obtain ⟨x, hx, -⟩ := h
    cases hx
  | cons x xs ih =>
    rw [tally]
    split
    · rfl
    · next hout =>
      obtain ⟨y, hy, hin⟩ := h
      rcases List.mem_cons.mp hy with rfl | hy
      · exact absurd hin hout
      · exact ih ⟨y, hy, hin⟩

/-- The counts of a range add up to its elements. -/
theorem sum_countAt (hab : a ≤ b) (xs : List α) :
    ((List.range (b - a + 1)).map fun k => countAt key (a + k) xs).sum =
      (within key a b xs).length := by
  induction xs with
  | nil =>
    show ((List.range (b - a + 1)).map fun _ => 0).sum = 0
    refine List.sum_eq_zero fun n hn => ?_
    obtain ⟨-, -, rfl⟩ := List.mem_map.mp hn
    rfl
  | cons x xs ih =>
    simp only [countAt_cons]
    rw [List.sum_map_add, ih, sum_indicator]
    by_cases hin : a ≤ key x ∧ key x ≤ b
    · rw [if_pos (by omega), within_cons_pos hin, List.length_cons, Nat.add_comm]
    · rw [if_neg (by omega), within_cons_neg hin, Nat.zero_add]

end Ranges
