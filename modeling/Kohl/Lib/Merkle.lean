import Mathlib.Data.List.Basic
import Mathlib.Data.Nat.Log
import Mathlib.Tactic.Ring

/-!
# Padded binary Merkle trees

A tree over a list of leaf digests that is padded with a sentinel to the next power of two and
collapsed level by level. The node hash and the sentinel are parameters.

The root does not bind the number of leaves by itself: it is the root of every vector that the
padding makes equal. `root_unique` says what does bind it: when the node hash has no collision
on the pairs the two trees hash, and neither a leaf nor the sentinel is a node of the other tree,
equal roots have equal leaf vectors.
-/

namespace Merkle

variable {D : Type*}

/-! ## The tree -/

/-- The number of levels above `n` leaves. -/
def depth (n : ℕ) : ℕ := if n ≤ 1 then 0 else Nat.log2 (n - 1) + 1

/-- The least power of two that is at least `n`. -/
def nextPowerOfTwo (n : ℕ) : ℕ := 2 ^ depth n

/-- One level up: hash the pairs of neighbours. -/
def levelUp (node : D → D → D) : List D → List D
  | a :: b :: rest => node a b :: levelUp node rest
  | _ => []

/-- Collapse levels while more than one digest is left. `fuel` bounds the recursion only: every
level is half as long as the one below. -/
def collapse (node : D → D → D) : ℕ → List D → List D
  | 0, level => level
  | fuel + 1, level => if 1 < level.length then collapse node fuel (levelUp node level) else level

/-- The bottom level: the leaves, padded to the next power of two. -/
def padded (pad : D) (leaves : List D) : List D :=
  leaves ++ List.replicate (nextPowerOfTwo leaves.length - leaves.length) pad

/-- The root over `leaves`; the tree without leaves has the sentinel as its root. -/
def root (node : D → D → D) (pad : D) (leaves : List D) : D :=
  if leaves.isEmpty then pad
  else (collapse node (padded pad leaves).length (padded pad leaves)).headD pad

/-! ## Levels and the pairs they hash -/

/-- The level `k` steps up. -/
def climb (node : D → D → D) : ℕ → List D → List D
  | 0, level => level
  | k + 1, level => climb node k (levelUp node level)

/-- The pairs one level hashes. -/
def levelPairs : List D → List (D × D)
  | a :: b :: rest => (a, b) :: levelPairs rest
  | _ => []

/-- The pairs hashed on the first `k` levels. -/
def climbPairs (node : D → D → D) : ℕ → List D → List (D × D)
  | 0, _ => []
  | k + 1, level => levelPairs level ++ climbPairs node k (levelUp node level)

/-- Every pair of digests the root over `leaves` hashes. -/
def pairs (node : D → D → D) (pad : D) (leaves : List D) : List (D × D) :=
  climbPairs node (depth leaves.length) (padded pad leaves)

variable {node : D → D → D} {pad : D}

theorem le_nextPowerOfTwo (n : ℕ) : n ≤ nextPowerOfTwo n := by
  unfold nextPowerOfTwo depth
  split
  · omega
  · next h =>
    have hne : n - 1 ≠ 0 := by omega
    have := (Nat.log2_lt hne).mp (Nat.lt_succ_self _)
    omega

@[simp] theorem length_padded (leaves : List D) :
    (padded pad leaves).length = 2 ^ depth leaves.length := by
  have := le_nextPowerOfTwo leaves.length
  simp only [padded, List.length_append, List.length_replicate]
  rw [Nat.add_sub_cancel' this, nextPowerOfTwo]

/-- Padding loses nothing when the sentinel is not a leaf. -/
theorem padded_inj {l₁ l₂ : List D} (h₁ : pad ∉ l₁) (h₂ : pad ∉ l₂)
    (h : padded pad l₁ = padded pad l₂) : l₁ = l₂ := by
  unfold padded at h
  generalize nextPowerOfTwo l₁.length - l₁.length = m at h
  generalize nextPowerOfTwo l₂.length - l₂.length = n at h
  induction l₁ generalizing l₂ with
  | nil =>
    cases l₂ with
    | nil => rfl
    | cons b l₂ =>
      have hb : b ∈ List.replicate m pad := by
        rw [List.nil_append] at h
        rw [h]
        simp
      exact absurd (List.eq_of_mem_replicate hb ▸ List.mem_cons_self) h₂
  | cons a l₁ ih =>
    cases l₂ with
    | nil =>
      have ha : a ∈ List.replicate n pad := by
        rw [List.nil_append] at h
        rw [← h]
        simp
      exact absurd (List.eq_of_mem_replicate ha ▸ List.mem_cons_self) h₁
    | cons b l₂ =>
      simp only [List.cons_append, List.cons.injEq] at h
      rw [h.1, ih (fun hm => h₁ (.tail _ hm)) (fun hm => h₂ (.tail _ hm)) h.2]

theorem length_levelUp : ∀ level : List D, (levelUp node level).length = level.length / 2
  | [] => by simp [levelUp]
  | [_] => by simp [levelUp]
  | a :: b :: rest => by
    have hrest := length_levelUp rest
    simp only [levelUp, List.length_cons, hrest]
    omega

theorem length_climb {j k : ℕ} {level : List D} (h : level.length = 2 ^ (j + k)) :
    (climb node j level).length = 2 ^ k := by
  induction j generalizing level with
  | zero => simpa [climb] using h
  | succ j ih =>
    refine ih ?_
    rw [length_levelUp, h, show j + 1 + k = j + k + 1 by ring, pow_succ]
    omega

theorem climb_add (j k : ℕ) (level : List D) :
    climb node (j + k) level = climb node k (climb node j level) := by
  induction j generalizing level with
  | zero => simp [climb]
  | succ j ih => rw [show j + 1 + k = j + k + 1 by ring, climb, climb, ih]

theorem climbPairs_add (j k : ℕ) (level : List D) :
    climbPairs node (j + k) level = climbPairs node j level ++
      climbPairs node k (climb node j level) := by
  induction j generalizing level with
  | zero => simp [climb, climbPairs]
  | succ j ih =>
    rw [show j + 1 + k = j + k + 1 by ring, climb, climbPairs, climbPairs, ih, List.append_assoc]

theorem collapse_eq_climb {k fuel : ℕ} {level : List D} (h : level.length = 2 ^ k)
    (hf : k ≤ fuel) : collapse node fuel level = climb node k level := by
  induction k generalizing fuel level with
  | zero =>
    cases fuel with
    | zero => rfl
    | succ fuel => simp [collapse, climb, h]
  | succ k ih =>
    obtain ⟨fuel, rfl⟩ : ∃ f, fuel = f + 1 := ⟨fuel - 1, by omega⟩
    have hlen : (levelUp node level).length = 2 ^ k := by
      rw [length_levelUp, h, pow_succ]
      omega
    have hlt : 1 < level.length := by
      rw [h]
      exact Nat.one_lt_two_pow (by omega)
    rw [collapse, if_pos hlt, climb, ih hlen (by omega)]

/-- The root is the single digest the padded leaves climb to. -/
theorem climb_depth_padded (node : D → D → D) (pad : D) {leaves : List D} (hne : leaves ≠ []) :
    climb node (depth leaves.length) (padded pad leaves) = [root node pad leaves] := by
  have hlen : (climb node (depth leaves.length) (padded pad leaves)).length = 1 := by
    rw [length_climb (k := 0) (by simp), pow_zero]
  obtain ⟨r, hr⟩ := List.length_eq_one_iff.mp hlen
  have hfuel : depth leaves.length ≤ (padded pad leaves).length := by
    rw [length_padded]
    exact Nat.lt_two_pow_self.le
  have hempty : leaves.isEmpty = false := by simpa using hne
  have hroot : root node pad leaves = r := by
    rw [root, hempty, if_neg Bool.false_ne_true,
      collapse_eq_climb (length_padded leaves) hfuel, hr]
    rfl
  rw [hr, hroot]

/-- Every digest of a level above the bottom is the hash of a pair hashed below it. -/
theorem mem_levelUp : ∀ {level : List D} {d : D}, d ∈ levelUp node level →
    ∃ p ∈ levelPairs level, d = node p.1 p.2
  | [], _, h => by simp [levelUp] at h
  | [_], _, h => by simp [levelUp] at h
  | a :: b :: rest, d, h => by
    rw [levelUp, List.mem_cons] at h
    rcases h with rfl | h
    · exact ⟨(a, b), by simp [levelPairs], rfl⟩
    · obtain ⟨p, hp, hd⟩ := mem_levelUp h
      exact ⟨p, by simp [levelPairs, hp], hd⟩

theorem mem_climb_succ {k : ℕ} {level : List D} {d : D} (h : d ∈ climb node (k + 1) level) :
    ∃ p ∈ climbPairs node (k + 1) level, d = node p.1 p.2 := by
  rw [climb_add k 1] at h
  obtain ⟨p, hp, hd⟩ := mem_levelUp h
  refine ⟨p, ?_, hd⟩
  rw [climbPairs_add k 1]
  exact List.mem_append_right _ (List.mem_append_left _ hp)

/-! ## Uniqueness -/

/-- The node hash tells the pairs of `ps` apart. -/
def InjOnPairs (node : D → D → D) (ps : List (D × D)) : Prop :=
  ∀ p ∈ ps, ∀ q ∈ ps, node p.1 p.2 = node q.1 q.2 → p = q

theorem InjOnPairs.mono {ps qs : List (D × D)} (h : InjOnPairs node qs) (hs : ps ⊆ qs) :
    InjOnPairs node ps :=
  fun p hp q hq => h p (hs hp) q (hs hq)

theorem levelUp_inj : ∀ {l₁ l₂ : List D}, l₁.length = l₂.length → 2 ∣ l₁.length →
    InjOnPairs node (levelPairs l₁ ++ levelPairs l₂) → levelUp node l₁ = levelUp node l₂ → l₁ = l₂
  | [], [], _, _, _, _ => rfl
  | [_], _, _, hd, _, _ => by simp at hd
  | _ :: _ :: _, [_], hl, _, _, _ => by simp at hl
  | a :: b :: l₁, c :: d :: l₂, hl, hd, hinj, h => by
    simp only [levelUp, List.cons.injEq] at h
    simp only [levelPairs] at hinj
    have hab : (a, b) = (c, d) := hinj (a, b) (by simp) (c, d) (by simp) h.1
    have hrest : l₁ = l₂ := by
      refine levelUp_inj (by simpa using hl) ?_ (hinj.mono ?_) h.2
      · rw [List.length_cons, List.length_cons] at hd
        omega
      · intro p hp
        rcases List.mem_append.mp hp with hp | hp <;> simp [hp]
    rw [hrest, (Prod.mk.inj hab).1, (Prod.mk.inj hab).2]

theorem climb_inj {k : ℕ} {l₁ l₂ : List D} (h₁ : l₁.length = 2 ^ k) (h₂ : l₂.length = 2 ^ k)
    (hinj : InjOnPairs node (climbPairs node k l₁ ++ climbPairs node k l₂))
    (h : climb node k l₁ = climb node k l₂) : l₁ = l₂ := by
  induction k generalizing l₁ l₂ with
  | zero => exact h
  | succ k ih =>
    simp only [climbPairs] at hinj
    have hup : levelUp node l₁ = levelUp node l₂ := by
      refine ih ?_ ?_ (hinj.mono ?_) h
      · rw [length_levelUp, h₁, pow_succ]
        omega
      · rw [length_levelUp, h₂, pow_succ]
        omega
      · intro p hp
        rcases List.mem_append.mp hp with hp | hp <;> simp [hp]
    refine levelUp_inj (h₁.trans h₂.symm) ?_ (hinj.mono ?_) hup
    · rw [h₁, pow_succ]
      exact Nat.dvd_mul_left 2 _
    · intro p hp
      rcases List.mem_append.mp hp with hp | hp <;> simp [hp]

/-- A digest is no node of the tree over `leaves`. -/
def NotNode (node : D → D → D) (pad : D) (leaves : List D) (d : D) : Prop :=
  ∀ p ∈ pairs node pad leaves, d ≠ node p.1 p.2

/-- The shallower of two trees with one root is as deep as the other: below that depth the other
tree would have the shallower one's bottom digests as nodes. -/
theorem depth_le_of_root_eq {l₁ l₂ : List D} (hne₁ : l₁ ≠ []) (hne₂ : l₂ ≠ [])
    (hinj : InjOnPairs node (pairs node pad l₁ ++ pairs node pad l₂))
    (hleaf : ∀ d ∈ l₁, NotNode node pad l₂ d)
    (hroot : root node pad l₁ = root node pad l₂) : depth l₂.length ≤ depth l₁.length := by
  by_contra hlt
  obtain ⟨j, hj⟩ : ∃ j, depth l₂.length = j + 1 + depth l₁.length :=
    ⟨depth l₂.length - depth l₁.length - 1, by omega⟩
  have hlen : (padded pad l₂).length = 2 ^ (j + 1 + depth l₁.length) := by
    rw [length_padded, hj]
  have hclimb : climb node (depth l₁.length) (padded pad l₁) =
      climb node (depth l₁.length) (climb node (j + 1) (padded pad l₂)) := by
    rw [← climb_add, ← hj, climb_depth_padded _ _ hne₁, climb_depth_padded _ _ hne₂, hroot]
  have hpairs : pairs node pad l₂ = climbPairs node (j + 1) (padded pad l₂) ++
      climbPairs node (depth l₁.length) (climb node (j + 1) (padded pad l₂)) := by
    rw [pairs, hj, climbPairs_add]
  have hbottom : padded pad l₁ = climb node (j + 1) (padded pad l₂) := by
    refine climb_inj (length_padded _) (length_climb hlen) (hinj.mono ?_) hclimb
    intro p hp
    rcases List.mem_append.mp hp with hp | hp
    · exact List.mem_append_left _ hp
    · refine List.mem_append_right _ ?_
      rw [hpairs]
      exact List.mem_append_right _ hp
  obtain ⟨d, rest, hd⟩ := List.exists_cons_of_ne_nil hne₁
  have hmem : d ∈ climb node (j + 1) (padded pad l₂) := by
    rw [← hbottom, padded, hd]
    simp
  obtain ⟨p, hp, hdp⟩ := mem_climb_succ hmem
  refine hleaf d (by simp [hd]) p ?_ hdp
  rw [hpairs]
  exact List.mem_append_left _ hp

/-- The root of a tree with leaves is a leaf or one of its nodes. -/
theorem root_leaf_or_node (node : D → D → D) (pad : D) {leaves : List D} (hne : leaves ≠ []) :
    root node pad leaves ∈ leaves ∨
      ∃ p ∈ pairs node pad leaves, root node pad leaves = node p.1 p.2 := by
  have hclimb := climb_depth_padded node pad hne
  cases hd : depth leaves.length with
  | zero =>
    left
    rw [hd, climb] at hclimb
    obtain ⟨d, rest, hd'⟩ := List.exists_cons_of_ne_nil hne
    have hpadded : padded pad leaves = d :: (rest ++ List.replicate
        (nextPowerOfTwo leaves.length - leaves.length) pad) := by
      simp [padded, hd']
    rw [hpadded, List.cons.injEq] at hclimb
    rw [← hclimb.1, hd']
    exact List.mem_cons_self
  | succ k =>
    right
    rw [hd] at hclimb
    have hmem : root node pad leaves ∈ climb node (k + 1) (padded pad leaves) := by
      rw [hclimb]
      exact List.mem_singleton.mpr rfl
    obtain ⟨p, hp, h⟩ := mem_climb_succ hmem
    exact ⟨p, by rw [pairs, hd]; exact hp, h⟩

/-- The root over some leaves is not the sentinel, the root over none. -/
theorem root_ne_pad {leaves : List D} (hne : leaves ≠ []) (hleaf : pad ∉ leaves)
    (hpad : NotNode node pad leaves pad) : root node pad leaves ≠ pad := by
  intro h
  rcases root_leaf_or_node node pad hne with hm | ⟨p, hp, hr⟩
  · exact hleaf (h ▸ hm)
  · exact hpad p hp (h ▸ hr)

/-- Leaf vectors of one length with equal roots are equal. -/
theorem root_inj {l₁ l₂ : List D} (hlen : l₁.length = l₂.length)
    (hinj : InjOnPairs node (pairs node pad l₁ ++ pairs node pad l₂))
    (hroot : root node pad l₁ = root node pad l₂) : l₁ = l₂ := by
  by_cases hne₁ : l₁ = []
  · rw [hne₁] at hlen ⊢
    exact (List.eq_nil_of_length_eq_zero hlen.symm).symm
  have hne₂ : l₂ ≠ [] := by
    rintro rfl
    exact hne₁ (List.eq_nil_of_length_eq_zero hlen)
  have hclimb : climb node (depth l₁.length) (padded pad l₁) =
      climb node (depth l₁.length) (padded pad l₂) := by
    rw [climb_depth_padded _ _ hne₁, hlen, climb_depth_padded _ _ hne₂, hroot]
  have hpadded : padded pad l₁ = padded pad l₂ := by
    refine climb_inj (length_padded _) ?_ ?_ hclimb
    · rw [length_padded, hlen]
    · rw [pairs, pairs, ← hlen] at hinj
      exact hinj
  exact (List.append_inj hpadded hlen).1

/-- Equal roots have equal leaf vectors, length included. -/
theorem root_unique {l₁ l₂ : List D}
    (hinj : InjOnPairs node (pairs node pad l₁ ++ pairs node pad l₂))
    (hleaf₁ : ∀ d ∈ l₁, d ≠ pad ∧ NotNode node pad l₂ d)
    (hleaf₂ : ∀ d ∈ l₂, d ≠ pad ∧ NotNode node pad l₁ d)
    (hpad₁ : NotNode node pad l₁ pad) (hpad₂ : NotNode node pad l₂ pad)
    (hroot : root node pad l₁ = root node pad l₂) : l₁ = l₂ := by
  have hp₁ : pad ∉ l₁ := fun h => (hleaf₁ pad h).1 rfl
  have hp₂ : pad ∉ l₂ := fun h => (hleaf₂ pad h).1 rfl
  by_cases hne₁ : l₁ = []
  · by_cases hne₂ : l₂ = []
    · rw [hne₁, hne₂]
    · refine absurd ?_ (root_ne_pad hne₂ hp₂ hpad₂)
      rw [← hroot, hne₁]
      rfl
  by_cases hne₂ : l₂ = []
  · refine absurd ?_ (root_ne_pad hne₁ hp₁ hpad₁)
    rw [hroot, hne₂]
    rfl
  have hle := depth_le_of_root_eq hne₁ hne₂ hinj (fun d hd => (hleaf₁ d hd).2) hroot
  have hge := depth_le_of_root_eq hne₂ hne₁
    (hinj.mono fun p hp => List.mem_append.mpr (List.mem_append.mp hp).symm)
    (fun d hd => (hleaf₂ d hd).2) hroot.symm
  have hdepth : depth l₁.length = depth l₂.length := le_antisymm hge hle
  have hclimb : climb node (depth l₁.length) (padded pad l₁) =
      climb node (depth l₁.length) (padded pad l₂) := by
    rw [climb_depth_padded _ _ hne₁, hdepth, climb_depth_padded _ _ hne₂, hroot]
  refine padded_inj hp₁ hp₂ (climb_inj (length_padded _) ?_ ?_ hclimb)
  · rw [length_padded, hdepth]
  · rw [pairs, pairs, ← hdepth] at hinj
    exact hinj

end Merkle
