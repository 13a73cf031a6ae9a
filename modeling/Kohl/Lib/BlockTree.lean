import Mathlib.Logic.Function.Iterate
import Mathlib.Order.Nat

/-!
# Trees of numbered blocks

Every known block but the genesis block has a known parent whose number is one less. A chain is
given by its tip: its block at a height is the ancestor of the tip there.

* `ancestorAt_ancestorAt`: an ancestor of an ancestor is an ancestor.
* `commonFrom_iff`: two chains have a common block at some height from `h` on exactly when they have
  the same block at `h`.
-/

/-- The blocks of type `α` that are known, with their numbers and their parents. -/
structure BlockTree (α : Type*) where
  /-- The number of a known block. -/
  number : α → Option ℕ
  parent : α → α
  genesis : α
  number_genesis : number genesis = some 0
  eq_genesis : ∀ {b}, number b = some 0 → b = genesis
  number_parent : ∀ {b n}, number b = some (n + 1) → number (parent b) = some n

namespace BlockTree

variable {α : Type*} {t : BlockTree α} {a b c : α} {h k n : ℕ}

/-- The block at height `h` on the way from `b` back to the genesis block. -/
def ancestorAt (t : BlockTree α) (b : α) (h : ℕ) : Option α :=
  match t.number b with
  | none => none
  | some n => if h ≤ n then some (t.parent^[n - h] b) else none

/-- The chains that end in `a` and in `b` have a common block at height `h` or above it: they part
at `h` at the earliest. -/
def CommonFrom (t : BlockTree α) (a b : α) (h : ℕ) : Prop :=
  ∃ k c, h ≤ k ∧ t.ancestorAt a k = some c ∧ t.ancestorAt b k = some c

theorem ancestorAt_of_number (hb : t.number b = some n) (hle : h ≤ n) :
    t.ancestorAt b h = some (t.parent^[n - h] b) := by
  simp only [ancestorAt, hb, if_pos hle]

/-- A block has an ancestor at a height exactly when its number is no smaller. -/
theorem ancestorAt_eq_some_iff :
    t.ancestorAt b h = some c ↔ ∃ n, t.number b = some n ∧ h ≤ n ∧ t.parent^[n - h] b = c := by
  unfold ancestorAt
  cases hn : t.number b with
  | none => simp
  | some n =>
    by_cases hle : h ≤ n
    · simp [hle]
    · simp [hle]

theorem number_iterate_parent (hb : t.number b = some n) (hk : k ≤ n) :
    t.number (t.parent^[k] b) = some (n - k) := by
  induction k with
  | zero => exact hb
  | succ k ih =>
    have hstep : t.number (t.parent^[k] b) = some (n - (k + 1) + 1) := by
      rw [ih (Nat.le_of_succ_le hk)]
      congr 1
      omega
    rw [Function.iterate_succ_apply']
    exact t.number_parent hstep

/-- The ancestor at a height has that number. -/
theorem number_of_ancestorAt (hc : t.ancestorAt b h = some c) : t.number c = some h := by
  obtain ⟨n, hb, hle, rfl⟩ := ancestorAt_eq_some_iff.mp hc
  rw [number_iterate_parent hb (Nat.sub_le n h), Nat.sub_sub_self hle]

/-- An ancestor has the ancestors of the block at its own height and below. -/
theorem ancestorAt_ancestorAt (hc : t.ancestorAt b k = some c) (hk : h ≤ k) :
    t.ancestorAt c h = t.ancestorAt b h := by
  have hnum := number_of_ancestorAt hc
  obtain ⟨n, hb, hle, rfl⟩ := ancestorAt_eq_some_iff.mp hc
  rw [ancestorAt_of_number hnum hk, ancestorAt_of_number hb (hk.trans hle),
    ← Function.iterate_add_apply]
  congr 3
  omega

/-- Every known block descends from the genesis block. -/
theorem ancestorAt_zero (hb : t.number b = some n) : t.ancestorAt b 0 = some t.genesis := by
  have hzero := ancestorAt_of_number hb (Nat.zero_le n)
  rw [hzero, t.eq_genesis (number_of_ancestorAt hzero)]

/-- Chains that have a common block from `h` on are the same chain up to `h`. -/
theorem commonFrom_iff :
    t.CommonFrom a b h ↔ ∃ c, t.ancestorAt a h = some c ∧ t.ancestorAt b h = some c := by
  constructor
  · rintro ⟨k, c, hk, ha, hb⟩
    have hc := ancestorAt_of_number (number_of_ancestorAt ha) hk
    exact ⟨_, (ancestorAt_ancestorAt ha hk).symm.trans hc,
      (ancestorAt_ancestorAt hb hk).symm.trans hc⟩
  · rintro ⟨c, ha, hb⟩
    exact ⟨h, c, le_rfl, ha, hb⟩

/-- All chains have the genesis block in common. -/
theorem commonFrom_zero {m : ℕ} (ha : t.number a = some m) (hb : t.number b = some n) :
    t.CommonFrom a b 0 :=
  commonFrom_iff.mpr ⟨t.genesis, ancestorAt_zero ha, ancestorAt_zero hb⟩

theorem CommonFrom.mono (hab : t.CommonFrom a b k) (hk : h ≤ k) : t.CommonFrom a b h := by
  obtain ⟨i, c, hi, ha, hb⟩ := hab
  exact ⟨i, c, hk.trans hi, ha, hb⟩

end BlockTree
