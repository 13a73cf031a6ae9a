import Mathlib.Data.List.Nodup
import Mathlib.Data.List.Range
import Mathlib.Data.Nat.ModEq

/-!
# Walks round a ring

`visits size start count` are the places a walk of `count` steps round a ring of `size` places meets,
from `start` on.

* `nodup_visits`: a walk of at most one lap meets no place twice.
* `mem_visits_lap`: a full lap meets every place.
-/

namespace RoundRobin

def visits (size start count : ℕ) : List ℕ := (List.range count).map fun k => (start + k) % size

@[simp] theorem length_visits (size start count : ℕ) : (visits size start count).length = count := by
  rw [visits, List.length_map, List.length_range]

/-- A walk is its first place and the walk from the place behind it. -/
theorem visits_succ {size start : ℕ} (hstart : start < size) (count : ℕ) :
    visits size start (count + 1) = start :: visits size ((start + 1) % size) count := by
  rw [visits, List.range_succ_eq_map, List.map_cons, Nat.add_zero, Nat.mod_eq_of_lt hstart,
    List.map_map, visits]
  congr 1
  refine List.map_congr_left fun k _ => ?_
  rw [Function.comp_apply, Nat.mod_add_mod]
  congr 1
  omega

/-- The place behind `i`. -/
theorem next_eq_mod {size i : ℕ} (hi : i < size) :
    (if size ≤ i + 1 then 0 else i + 1) = (i + 1) % size := by
  split
  · next h =>
    have hlast : i + 1 = size := by omega
    rw [hlast, Nat.mod_self]
  · next h => exact (Nat.mod_eq_of_lt (by omega)).symm

theorem mem_visits {size start count i : ℕ} :
    i ∈ visits size start count ↔ ∃ k < count, (start + k) % size = i := by
  rw [visits, List.mem_map]
  simp only [List.mem_range]

theorem nodup_visits {size start count : ℕ} (h : count ≤ size) : (visits size start count).Nodup := by
  rw [visits, List.nodup_map_iff_inj_on List.nodup_range]
  intro j hj k hk heq
  rw [List.mem_range] at hj hk
  have hmod : j % size = k % size := Nat.ModEq.add_left_cancel' start heq
  rwa [Nat.mod_eq_of_lt (by omega), Nat.mod_eq_of_lt (by omega)] at hmod

theorem mem_visits_lap {size start i : ℕ} (hsize : 0 < size) :
    i ∈ visits size start size ↔ i < size := by
  rw [mem_visits]
  constructor
  · rintro ⟨k, -, rfl⟩
    exact Nat.mod_lt _ hsize
  · intro hi
    -- the distance from `start` to `i`, round the ring
    have hstart := Nat.mod_lt start hsize
    refine ⟨(i + (size - start % size)) % size, Nat.mod_lt _ hsize, ?_⟩
    rw [Nat.add_mod_mod, ← Nat.mod_add_mod]
    have hsum : start % size + (i + (size - start % size)) = i + size := by omega
    rw [hsum, Nat.add_mod_right, Nat.mod_eq_of_lt hi]

end RoundRobin
