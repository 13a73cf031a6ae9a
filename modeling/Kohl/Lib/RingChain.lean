import Mathlib.Data.List.Range
import Mathlib.Data.List.Basic

/-!
# Closing a ring of challenges

A ring signature derives a challenge for every position of a ring from the one before it. The
verifier walks the ring once from position `0` and compares the last challenge with the first.
The signer starts behind its own position, walks round the ring until it is back, and remembers
the challenge it saw at position `0`.

* `loop_spec`: the signer's loop ends within `n` steps and has passed position `0`.
* `walk_closes`: when the signer's own position sends the challenge it closes with to the
  challenge it started from, the verifier's walk ends where it began.
-/

namespace RingChain

variable {C : Type*}

/-- The challenges after the `k` positions `i, i + 1, …`, without going round. -/
def walk (f : ℕ → C → C) (i k : ℕ) (c : C) : C := (List.range' i k).foldl (fun c j => f j c) c

/-- The signer's loop in a ring of `n`: from position `cur` with challenge `c`, until it is back at
`stop`; `c0` is the challenge seen at position `0` so far. `none` when the fuel runs out. -/
def loop (f : ℕ → C → C) (n stop : ℕ) : ℕ → ℕ → C → Option C → Option (C × Option C)
  | 0, _, _, _ => none
  | fuel + 1, cur, c, c0 =>
    if cur = stop then some (c, c0)
    else
      let c' := f cur c
      let cur' := (cur + 1) % n
      loop f n stop fuel cur' c' (if cur' = 0 then some c' else c0)

variable {f : ℕ → C → C}

theorem loop_succ {n stop fuel cur : ℕ} {c : C} {c0 : Option C} (h : cur ≠ stop) :
    loop f n stop (fuel + 1) cur c c0 = loop f n stop fuel ((cur + 1) % n) (f cur c)
      (if (cur + 1) % n = 0 then some (f cur c) else c0) := by
  simp only [loop, if_neg h]

@[simp] theorem walk_zero (i : ℕ) (c : C) : walk f i 0 c = c := rfl

theorem walk_succ (i k : ℕ) (c : C) : walk f i (k + 1) c = walk f (i + 1) k (f i c) := by
  simp [walk, List.range'_succ]

theorem walk_add (i j k : ℕ) (c : C) : walk f i (j + k) c = walk f (i + j) k (walk f i j c) := by
  induction j generalizing i c with
  | zero => simp
  | succ j ih =>
    rw [show j + 1 + k = j + k + 1 by omega, walk_succ, ih, walk_succ,
      show i + 1 + j = i + (j + 1) by omega]

theorem walk_congr {g : ℕ → C → C} {i k : ℕ} (h : ∀ j, i ≤ j → j < i + k → g j = f j) (c : C) :
    walk g i k c = walk f i k c := by
  induction k generalizing i c with
  | zero => rfl
  | succ k ih =>
    rw [walk_succ, walk_succ, h i le_rfl (by omega)]
    exact ih (fun j hij hjk => h j (by omega) (by omega)) _

/-- Before the end of the ring the loop just walks. -/
theorem loop_below {n stop : ℕ} (hs : stop < n) {k cur fuel : ℕ} {c : C} {c0 : Option C}
    (hcur : cur + k = stop) (hfuel : k < fuel) :
    loop f n stop fuel cur c c0 = some (walk f cur k c, c0) := by
  induction k generalizing cur fuel c with
  | zero =>
    obtain ⟨fuel, rfl⟩ : ∃ m, fuel = m + 1 := ⟨fuel - 1, by omega⟩
    simp only [loop, Nat.add_zero] at hcur ⊢
    rw [if_pos hcur, walk_zero]
  | succ k ih =>
    obtain ⟨fuel, rfl⟩ : ∃ m, fuel = m + 1 := ⟨fuel - 1, by omega⟩
    have hmod : (cur + 1) % n = cur + 1 := Nat.mod_eq_of_lt (by omega)
    rw [loop_succ (by omega), hmod, if_neg (Nat.succ_ne_zero cur), walk_succ]
    exact ih (by omega) (by omega)

/-- From a position behind `stop` the loop walks to the end of the ring, records the challenge at
position `0` and walks on from there. -/
theorem loop_above {n stop : ℕ} (hs : stop < n) {k cur fuel : ℕ} {c : C} {c0 : Option C}
    (hstop : stop < cur) (hcur : cur + (k + 1) = n) (hfuel : k + 1 + stop < fuel) :
    loop f n stop fuel cur c c0 =
      some (walk f 0 stop (walk f cur (k + 1) c), some (walk f cur (k + 1) c)) := by
  induction k generalizing cur fuel c c0 with
  | zero =>
    obtain ⟨fuel, rfl⟩ : ∃ m, fuel = m + 1 := ⟨fuel - 1, by omega⟩
    have hmod : (cur + 1) % n = 0 := by rw [← hcur]; simp
    rw [loop_succ (by omega), hmod, if_pos rfl, walk_succ, walk_zero]
    exact loop_below hs (by omega) (by omega)
  | succ k ih =>
    obtain ⟨fuel, rfl⟩ : ∃ m, fuel = m + 1 := ⟨fuel - 1, by omega⟩
    have hmod : (cur + 1) % n = cur + 1 := Nat.mod_eq_of_lt (by omega)
    rw [loop_succ (by omega), hmod, if_neg (Nat.succ_ne_zero cur), walk_succ]
    exact ih (by omega) (by omega) (by omega)

/-- The signer's loop, started behind its own position `real` with challenge `c`: it ends, it has
passed position `0`, and both challenges are the walks between these positions. -/
theorem loop_spec {n real : ℕ} (hr : real < n) (c : C) :
    ∃ c0, c0 = walk f (real + 1) (n - 1 - real) c ∧
      loop f n real n ((real + 1) % n) c (if (real + 1) % n = 0 then some c else none) =
        some (walk f 0 real c0, some c0) := by
  refine ⟨_, rfl, ?_⟩
  rcases Nat.lt_or_ge (real + 1) n with h | h
  · obtain ⟨k, hk⟩ : ∃ k, n - 1 - real = k + 1 := ⟨n - 1 - real - 1, by omega⟩
    rw [Nat.mod_eq_of_lt h, hk]
    exact loop_above hr (by omega) (by omega) (by omega)
  · have hn : real + 1 = n := by omega
    have hzero : n - 1 - real = 0 := by omega
    rw [hn, Nat.mod_self, if_pos rfl, hzero, walk_zero]
    exact loop_below hr (by omega) (by omega)

/-- `g` is the verifier's step: the signer's step everywhere but at `real`, where it sends the
closing challenge back to the signer's first one. Then the walk round the ring closes. -/
theorem walk_closes {g : ℕ → C → C} {n real : ℕ} (hr : real < n) {c c0 : C}
    (hc0 : c0 = walk f (real + 1) (n - 1 - real) c)
    (hg : ∀ j, j ≠ real → g j = f j) (hreal : g real (walk f 0 real c0) = c) :
    walk g 0 n c0 = c0 := by
  have hn : n = real + (1 + (n - 1 - real)) := by omega
  have hlow : walk g 0 real c0 = walk f 0 real c0 :=
    walk_congr (fun j _ hj => hg j (by omega)) c0
  have hhigh : walk g (real + 1) (n - 1 - real) c = c0 := by
    rw [hc0]
    exact walk_congr (fun j hj _ => hg j (by omega)) c
  calc walk g 0 n c0 = walk g 0 (real + (1 + (n - 1 - real))) c0 := by rw [← hn]
    _ = walk g real (1 + (n - 1 - real)) (walk g 0 real c0) := by rw [walk_add, Nat.zero_add]
    _ = walk g (real + 1) (n - 1 - real) (g real (walk f 0 real c0)) := by
        rw [Nat.add_comm 1, walk_succ, hlow]
    _ = c0 := by rw [hreal, hhigh]

end RingChain
