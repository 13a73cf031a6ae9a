import Mathlib.Algebra.BigOperators.Group.List.Basic
import Mathlib.Algebra.GroupWithZero.Nat
import Mathlib.Data.List.Perm.Subperm
import Mathlib.Data.Nat.Find
import Mathlib.Order.Nat

/-!
# Taking the largest first

Elements are taken from the front of a list until their weights reach a target. Sorted by descending
weight, no other choice of as many elements is heavier.

* `takeUntil_eq_take`: the loop takes the shortest run that reaches the target.
* `exists_shortest`: a run that reaches the target has a shortest one inside.
* `total_le_total_take`: the heaviest choice of a given number is the front of the sorted list.
-/

namespace LargestFirst

variable {α : Type*} {w : α → ℕ} {target : ℕ}

def total (w : α → ℕ) (l : List α) : ℕ := (l.map w).sum

/-- Take elements until their weights on top of `acc` reach the target. -/
def takeUntil (w : α → ℕ) (target : ℕ) : ℕ → List α → List α
  | _, [] => []
  | acc, a :: l => if target ≤ acc + w a then [a] else a :: takeUntil w target (acc + w a) l

/-- The first `j` elements reach the target and no shorter run does. -/
structure Shortest (w : α → ℕ) (target : ℕ) (l : List α) (j : ℕ) : Prop where
  le_length : j ≤ l.length
  reaches : target ≤ total w (l.take j)
  below : ∀ i < j, total w (l.take i) < target

@[simp] theorem total_nil : total w [] = 0 := rfl

@[simp] theorem total_cons (a : α) (l : List α) : total w (a :: l) = w a + total w l := by
  rw [total, List.map_cons, List.sum_cons, total]

theorem total_append (l r : List α) : total w (l ++ r) = total w l + total w r := by
  rw [total, List.map_append, List.sum_append, total, total]

theorem total_perm {l r : List α} (h : l.Perm r) : total w l = total w r := (h.map w).sum_eq

theorem subset_takeUntil (target acc : ℕ) (l : List α) : takeUntil w target acc l ⊆ l := by
  induction l generalizing acc with
  | nil => exact List.Subset.refl _
  | cons a l ih =>
    rw [takeUntil]
    split
    · exact List.cons_subset_cons a (List.nil_subset l)
    · exact List.cons_subset_cons a (ih _)

/-- A target of nothing is reached by the first element. -/
theorem takeUntil_zero (acc : ℕ) (l : List α) : takeUntil w 0 acc l = l.take 1 := by
  cases l with
  | nil => rfl
  | cons a l => rw [takeUntil, if_pos (Nat.zero_le _), List.take_succ_cons, List.take_zero]

theorem takeUntil_eq_take_of_acc {acc j : ℕ} {l : List α} (hj : j ≤ l.length)
    (hreaches : target ≤ acc + total w (l.take j))
    (hbelow : ∀ i < j, acc + total w (l.take i) < target) (hpos : 0 < j) :
    takeUntil w target acc l = l.take j := by
  induction l generalizing acc j with
  | nil => exact absurd (Nat.le_antisymm hj (Nat.zero_le j)) (Nat.ne_of_gt hpos)
  | cons a l ih =>
    obtain ⟨j, rfl⟩ := Nat.exists_eq_succ_of_ne_zero (Nat.ne_of_gt hpos)
    rw [takeUntil, List.take_succ_cons]
    cases j with
    | zero =>
      have hfirst : target ≤ acc + w a := hreaches
      rw [if_pos hfirst, List.take_zero]
    | succ j =>
      have hnot : ¬target ≤ acc + w a := Nat.not_le.mpr (hbelow 1 (by omega))
      rw [if_neg hnot, ih (Nat.le_of_succ_le_succ hj) ?_ ?_ (Nat.succ_pos j)]
      · rw [List.take_succ_cons, total_cons, ← Nat.add_assoc] at hreaches
        exact hreaches
      · intro i hi
        have hshift := hbelow (i + 1) (Nat.succ_lt_succ hi)
        rw [List.take_succ_cons, total_cons, ← Nat.add_assoc] at hshift
        exact hshift

/-- The loop takes the shortest run. -/
theorem takeUntil_eq_take {l : List α} {j : ℕ} (h : Shortest w target l j) (htarget : 0 < target) :
    takeUntil w target 0 l = l.take j := by
  have hpos : 0 < j := by
    refine Nat.pos_of_ne_zero ?_
    rintro rfl
    exact absurd h.reaches (Nat.not_le.mpr htarget)
  refine takeUntil_eq_take_of_acc h.le_length ?_ ?_ hpos
  · rw [Nat.zero_add]
    exact h.reaches
  · intro i hi
    rw [Nat.zero_add]
    exact h.below i hi

theorem exists_shortest {l : List α} {k : ℕ} (hk : k ≤ l.length)
    (h : target ≤ total w (l.take k)) : ∃ j ≤ k, Shortest w target l j := by
  have hex : ∃ j, target ≤ total w (l.take j) := ⟨k, h⟩
  have hle : Nat.find hex ≤ k := Nat.find_min' hex h
  refine ⟨Nat.find hex, hle, hle.trans hk, Nat.find_spec hex, ?_⟩
  intro i hi
  exact Nat.not_le.mp (Nat.find_min hex hi)

/-- A heaviest element in front does not lower the weight of a run. -/
theorem total_take_le_cons {a : α} {l : List α} (h : ∀ b ∈ l, w b ≤ w a) (k : ℕ) :
    total w (l.take k) ≤ total w ((a :: l).take k) := by
  cases k with
  | zero => exact Nat.le_refl _
  | succ k =>
    have hlast : total w l[k]?.toList ≤ w a := by
      cases hk : l[k]? with
      | none => exact Nat.zero_le _
      | some b =>
        rw [Option.toList_some, total_cons, total_nil, Nat.add_zero]
        exact h b (List.mem_of_getElem? hk)
    rw [List.take_succ_cons, total_cons, List.take_add_one, total_append, Nat.add_comm]
    exact Nat.add_le_add_right hlast _

theorem total_le_of_sublist {s l : List α} (hsub : s.Sublist l)
    (hsorted : l.Pairwise fun a b => w b ≤ w a) : total w s ≤ total w (l.take s.length) := by
  induction hsub with
  | slnil => exact Nat.le_refl _
  | cons a _ ih =>
    rw [List.pairwise_cons] at hsorted
    exact (ih hsorted.2).trans (total_take_le_cons hsorted.1 _)
  | cons_cons a _ ih =>
    rw [List.pairwise_cons] at hsorted
    rw [List.length_cons, List.take_succ_cons, total_cons, total_cons]
    exact Nat.add_le_add_left (ih hsorted.2) _

/-- No choice of elements outweighs the front of the sorted list. -/
theorem total_le_total_take {chosen l : List α} (hsub : chosen.Subperm l)
    (hsorted : l.Pairwise fun a b => w b ≤ w a) : total w chosen ≤ total w (l.take chosen.length) := by
  obtain ⟨s, hperm, hsub⟩ := hsub
  rw [← total_perm hperm, ← hperm.length_eq]
  exact total_le_of_sublist hsub hsorted

end LargestFirst
