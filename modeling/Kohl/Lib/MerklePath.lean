import Kohl.Lib.Merkle
import Mathlib.Data.Nat.Bitwise

/-!
# Authentication paths

The siblings of a leaf on its way to the root, and the root recomputed from them. A path reads one bit of
its index on each level, so the bits above the depth of the tree are not looked at.

* `ascend_siblings`: the path of a leaf leads to the root.
* `ascend_inj`: without a collision, a path of the right length that leads to the root is the one of the leaf
  at its index, whoever made it.
* `path_unique`: a path of any length that starts at no node of the tree and leads to its root is as long as
  the tree is deep, hence the one of its leaf.
-/

namespace Merkle

variable {D : Type*} {node : D → D → D}

/-- The siblings of position `i`, from the bottom up; none if there is no sibling. -/
def siblings (node : D → D → D) : ℕ → ℕ → List D → Option (List D)
  | 0, _, _ => some []
  | k + 1, i, level =>
    level[i ^^^ 1]?.bind fun s => (siblings node k (i / 2) (levelUp node level)).map (s :: ·)

/-- One step up: the digest at an even position is the left one. -/
def ascendStep (node : D → D → D) (d : D) (i : ℕ) (s : D) : D :=
  if i % 2 = 0 then node d s else node s d

/-- The digest that a path leads to. -/
def ascend (node : D → D → D) : D → ℕ → List D → D
  | d, _, [] => d
  | d, i, s :: rest => ascend node (ascendStep node d i s) (i / 2) rest

/-- The pairs hashed on the way. -/
def ascendPairs (node : D → D → D) : D → ℕ → List D → List (D × D)
  | _, _, [] => []
  | d, i, s :: rest =>
    (if i % 2 = 0 then (d, s) else (s, d)) :: ascendPairs node (ascendStep node d i s) (i / 2) rest

theorem depth_le {n k : ℕ} (h : n ≤ 2 ^ k) : depth n ≤ k := by
  unfold depth
  split
  · exact Nat.zero_le k
  · next hlt =>
    have hne : n - 1 ≠ 0 := by omega
    exact (Nat.log2_lt hne).mpr (by omega)

/-! ## One level -/

theorem getElem?_levelUp : ∀ {level : List D} {j : ℕ} {a b : D}, level[2 * j]? = some a →
    level[2 * j + 1]? = some b → (levelUp node level)[j]? = some (node a b)
  | [], j, a, b, ha, _ => by cases ha
  | [_], j, a, b, ha, hb => by cases hb
  | x :: y :: rest, 0, a, b, ha, hb => by
    rw [Nat.mul_zero, List.getElem?_cons_zero, Option.some.injEq] at ha
    rw [Nat.mul_zero, Nat.zero_add, List.getElem?_cons_succ, List.getElem?_cons_zero,
      Option.some.injEq] at hb
    rw [levelUp, List.getElem?_cons_zero, ha, hb]
  | x :: y :: rest, j + 1, a, b, ha, hb => by
    rw [levelUp, List.getElem?_cons_succ]
    refine getElem?_levelUp ?_ ?_
    · rw [show 2 * (j + 1) = 2 * j + 1 + 1 by ring, List.getElem?_cons_succ,
        List.getElem?_cons_succ] at ha
      exact ha
    · rw [show 2 * (j + 1) + 1 = 2 * j + 1 + 1 + 1 by ring, List.getElem?_cons_succ,
        List.getElem?_cons_succ] at hb
      exact hb

/-- The neighbours at `2 * j` and `2 * j + 1` are a pair of the level. -/
theorem mem_levelPairs : ∀ {level : List D} {j : ℕ} {a b : D}, level[2 * j]? = some a →
    level[2 * j + 1]? = some b → (a, b) ∈ levelPairs level
  | [], j, a, b, ha, _ => by cases ha
  | [_], j, a, b, ha, hb => by cases hb
  | x :: y :: rest, 0, a, b, ha, hb => by
    rw [Nat.mul_zero, List.getElem?_cons_zero, Option.some.injEq] at ha
    rw [Nat.mul_zero, Nat.zero_add, List.getElem?_cons_succ, List.getElem?_cons_zero,
      Option.some.injEq] at hb
    rw [levelPairs, ha, hb]
    exact List.mem_cons_self
  | x :: y :: rest, j + 1, a, b, ha, hb => by
    rw [levelPairs]
    refine List.mem_cons_of_mem _ (mem_levelPairs (j := j) ?_ ?_)
    · rw [show 2 * (j + 1) = 2 * j + 1 + 1 by ring, List.getElem?_cons_succ,
        List.getElem?_cons_succ] at ha
      exact ha
    · rw [show 2 * (j + 1) + 1 = 2 * j + 1 + 1 + 1 by ring, List.getElem?_cons_succ,
        List.getElem?_cons_succ] at hb
      exact hb

/-- A position in a level of even length has a sibling; both are hashed to the position above. -/
theorem exists_sibling {level : List D} {i : ℕ} {d : D} (heven : 2 ∣ level.length)
    (hd : level[i]? = some d) : ∃ s, level[i ^^^ 1]? = some s ∧
      (levelUp node level)[i / 2]? = some (ascendStep node d i s) := by
  have hlt := (List.getElem?_eq_some_iff.mp hd).1
  rcases Nat.even_or_odd' i with ⟨j, rfl | rfl⟩
  · have hs : 2 * j + 1 < level.length := by omega
    refine ⟨level[2 * j + 1], ?_, ?_⟩
    · rw [Nat.xor_one_of_even (even_two_mul j), List.getElem?_eq_getElem hs]
    · rw [Nat.mul_div_cancel_left j Nat.two_pos, ascendStep, if_pos (Nat.mul_mod_right 2 j)]
      exact getElem?_levelUp hd (List.getElem?_eq_getElem hs)
  · have hs : 2 * j < level.length := by omega
    have hhalf : (2 * j + 1) / 2 = j := by omega
    have hodd : ¬(2 * j + 1) % 2 = 0 := by omega
    refine ⟨level[2 * j], ?_, ?_⟩
    · rw [Nat.xor_one_of_odd (odd_two_mul_add_one j), Nat.add_sub_cancel,
        List.getElem?_eq_getElem hs]
    · rw [hhalf, ascendStep, if_neg hodd]
      exact getElem?_levelUp (List.getElem?_eq_getElem hs) hd

/-! ## Completeness -/

/-- The path of a digest exists, has one sibling for each level, and leads to the top. -/
theorem ascend_siblings {k : ℕ} {level : List D} (hlen : level.length = 2 ^ k) {i : ℕ} {d : D}
    (hd : level[i]? = some d) : ∃ sibs, siblings node k i level = some sibs ∧ sibs.length = k ∧
      climb node k level = [ascend node d i sibs] := by
  induction k generalizing level i d with
  | zero =>
    obtain ⟨r, rfl⟩ := List.length_eq_one_iff.mp hlen
    have hi : i = 0 := by
      have hlt := (List.getElem?_eq_some_iff.mp hd).1
      rw [List.length_singleton] at hlt
      omega
    subst hi
    rw [List.getElem?_cons_zero, Option.some.injEq] at hd
    exact ⟨[], rfl, rfl, by rw [climb, ascend, hd]⟩
  | succ k ih =>
    have heven : 2 ∣ level.length := by
      rw [hlen, pow_succ]
      exact Nat.dvd_mul_left 2 _
    obtain ⟨s, hs, hup⟩ := @exists_sibling D node level i d heven hd
    have hlen' : (levelUp node level).length = 2 ^ k := by
      rw [length_levelUp, hlen, pow_succ]
      omega
    obtain ⟨sibs, hsibs, hcount, htop⟩ := ih hlen' hup
    refine ⟨s :: sibs, ?_, by rw [List.length_cons, hcount], ?_⟩
    · rw [siblings, hs, Option.bind_some, hsibs, Option.map_some]
    · rw [climb, ascend, htop]

/-! ## Soundness -/

/-- A path that leads to the top of a level is the one of the digest at its index, as far as the node hash has
no collision on the pairs of the level and of the path. Only the low bits of the index count. -/
theorem ascend_inj {k : ℕ} {level sibs : List D} {d : D} {i : ℕ} (hlen : level.length = 2 ^ k)
    (hsibs : sibs.length = k)
    (hinj : InjOnPairs node (climbPairs node k level ++ ascendPairs node d i sibs))
    (htop : climb node k level = [ascend node d i sibs]) :
    level[i % 2 ^ k]? = some d ∧ siblings node k (i % 2 ^ k) level = some sibs := by
  induction k generalizing level sibs d i with
  | zero =>
    rw [List.length_eq_zero_iff.mp hsibs] at htop ⊢
    rw [climb, ascend] at htop
    rw [htop, pow_zero, Nat.mod_one]
    exact ⟨rfl, rfl⟩
  | succ k ih =>
    cases sibs with
    | nil => cases hsibs
    | cons s sibs =>
    have hlen' : (levelUp node level).length = 2 ^ k := by
      rw [length_levelUp, hlen, pow_succ]
      omega
    have hinj' : InjOnPairs node (climbPairs node k (levelUp node level) ++
        ascendPairs node (ascendStep node d i s) (i / 2) sibs) := by
      refine hinj.mono fun p hp => ?_
      rcases List.mem_append.mp hp with hp | hp
      · exact List.mem_append_left _ (List.mem_append_right _ hp)
      · exact List.mem_append_right _ (List.mem_cons_of_mem _ hp)
    obtain ⟨habove, hrest⟩ := ih hlen' (Nat.succ.inj hsibs) hinj' htop
    -- the position above is the hash of a pair of the level
    generalize hj : i / 2 % 2 ^ k = j at habove hrest
    have hlt : j < 2 ^ k := hj ▸ Nat.mod_lt _ (Nat.two_pow_pos k)
    have hpos : i % 2 ^ (k + 1) = 2 * j + i % 2 := by
      rw [pow_succ', Nat.mod_mul, hj, Nat.add_comm]
    have hleft : 2 * j < level.length := by
      rw [hlen, pow_succ]
      omega
    have hright : 2 * j + 1 < level.length := by
      rw [hlen, pow_succ]
      omega
    have ha := List.getElem?_eq_getElem hleft
    have hb := List.getElem?_eq_getElem hright
    have hpair : (level[2 * j], level[2 * j + 1]) ∈
        climbPairs node (k + 1) level ++ ascendPairs node d i (s :: sibs) :=
      List.mem_append_left _ (List.mem_append_left _ (mem_levelPairs ha hb))
    have hnode : node level[2 * j] level[2 * j + 1] = ascendStep node d i s := by
      rw [getElem?_levelUp ha hb, Option.some.injEq] at habove
      exact habove
    rcases Nat.mod_two_eq_zero_or_one i with heven | hodd
    · have hstep : (d, s) ∈ climbPairs node (k + 1) level ++ ascendPairs node d i (s :: sibs) := by
        refine List.mem_append_right _ ?_
        rw [ascendPairs, if_pos heven]
        exact List.mem_cons_self
      rw [ascendStep, if_pos heven] at hnode
      obtain ⟨hd, hs⟩ := Prod.mk.inj (hinj _ hpair _ hstep hnode)
      rw [hpos, heven, Nat.add_zero]
      refine ⟨by rw [ha, hd], ?_⟩
      rw [siblings, Nat.xor_one_of_even (even_two_mul j), hb, hs, Option.bind_some,
        Nat.mul_div_cancel_left j Nat.two_pos, hrest, Option.map_some]
    · have hne : ¬i % 2 = 0 := by omega
      have hstep : (s, d) ∈ climbPairs node (k + 1) level ++ ascendPairs node d i (s :: sibs) := by
        refine List.mem_append_right _ ?_
        rw [ascendPairs, if_neg hne]
        exact List.mem_cons_self
      rw [ascendStep, if_neg hne] at hnode
      obtain ⟨hs, hd⟩ := Prod.mk.inj (hinj _ hpair _ hstep hnode)
      have hhalf : (2 * j + 1) / 2 = j := by omega
      rw [hpos, hodd]
      refine ⟨by rw [hb, hd], ?_⟩
      rw [siblings, Nat.xor_one_of_odd (odd_two_mul_add_one j), Nat.add_sub_cancel, ha, hs,
        Option.bind_some, hhalf, hrest, Option.map_some]

/-! ## Paths of any length -/

theorem ascend_append (d : D) (i : ℕ) (xs ys : List D) :
    ascend node d i (xs ++ ys) = ascend node (ascend node d i xs) (i / 2 ^ xs.length) ys := by
  induction xs generalizing d i with
  | nil => rw [List.nil_append, ascend, List.length_nil, pow_zero, Nat.div_one]
  | cons s xs ih =>
    rw [List.cons_append, ascend, ascend, ih, List.length_cons, pow_succ', Nat.div_div_eq_div_mul]

theorem ascendPairs_append (d : D) (i : ℕ) (xs ys : List D) :
    ascendPairs node d i (xs ++ ys) = ascendPairs node d i xs ++
      ascendPairs node (ascend node d i xs) (i / 2 ^ xs.length) ys := by
  induction xs generalizing d i with
  | nil => rw [List.nil_append, ascendPairs, List.nil_append, ascend, List.length_nil, pow_zero,
      Nat.div_one]
  | cons s xs ih =>
    rw [List.cons_append, ascendPairs, ascendPairs, ih, List.cons_append, ascend, List.length_cons,
      pow_succ', Nat.div_div_eq_div_mul]

/-- A path that takes a step leads to the hash of one of its pairs. -/
theorem ascend_mem_pairs {d : D} {i : ℕ} {sibs : List D} (hne : sibs ≠ []) :
    ∃ p ∈ ascendPairs node d i sibs, ascend node d i sibs = node p.1 p.2 := by
  induction sibs generalizing d i with
  | nil => exact absurd rfl hne
  | cons s rest ih =>
    rw [ascendPairs, ascend]
    cases rest with
    | nil =>
      refine ⟨_, List.mem_cons_self, ?_⟩
      rw [ascend, ascendStep]
      split
      · rfl
      · rfl
    | cons s' rest =>
      obtain ⟨p, hp, h⟩ := @ih (ascendStep node d i s) (i / 2) (List.cons_ne_nil s' rest)
      exact ⟨p, List.mem_cons_of_mem _ hp, h⟩

/-- A path that leads to the root of a tree, from a digest that is no node of the tree, has one sibling for
each level and is the path of the bottom digest at its index; the index counts modulo the number of bottom
digests. `hbottom` says that no bottom digest is a node of the path. -/
theorem path_unique {pad : D} {leaves sibs : List D} {d : D} {i : ℕ} (hne : leaves ≠ [])
    (hinj : InjOnPairs node (pairs node pad leaves ++ ascendPairs node d i sibs))
    (hleaf : NotNode node pad leaves d)
    (hbottom : ∀ b ∈ padded pad leaves, ∀ p ∈ ascendPairs node d i sibs, b ≠ node p.1 p.2)
    (hroot : ascend node d i sibs = root node pad leaves) :
    sibs.length = depth leaves.length ∧
      (padded pad leaves)[i % 2 ^ depth leaves.length]? = some d ∧
      siblings node (depth leaves.length) (i % 2 ^ depth leaves.length) (padded pad leaves) =
        some sibs := by
  have hclimb := climb_depth_padded node pad hne
  rw [← hroot] at hclimb
  unfold pairs at hinj
  unfold NotNode pairs at hleaf
  generalize hk : depth leaves.length = k at hinj hleaf hclimb ⊢
  have hlen : (padded pad leaves).length = 2 ^ k := by rw [length_padded, hk]
  generalize padded pad leaves = level at hinj hleaf hbottom hclimb hlen ⊢
  rcases lt_trichotomy sibs.length k with hlt | heq | hgt
  · -- a shorter path starts above the bottom, at a node
    exfalso
    obtain ⟨j, hj⟩ : ∃ j, k = j + 1 + sibs.length := ⟨k - sibs.length - 1, by omega⟩
    rw [hj] at hinj hleaf hclimb hlen
    rw [climbPairs_add] at hinj
    rw [climb_add] at hclimb
    obtain ⟨hd, -⟩ := ascend_inj (length_climb hlen) rfl
      (hinj.mono fun p hp => by
        rcases List.mem_append.mp hp with hp | hp
        · exact List.mem_append_left _ (List.mem_append_right _ hp)
        · exact List.mem_append_right _ hp) hclimb
    obtain ⟨p, hp, hnode⟩ := mem_climb_succ (List.mem_of_getElem? hd)
    rw [climbPairs_add] at hleaf
    exact hleaf p (List.mem_append_left _ hp) hnode
  · exact ⟨heq, ascend_inj hlen heq hinj hclimb⟩
  · -- a longer path comes to the bottom from a node of its own
    exfalso
    have hsplit := List.take_append_drop (sibs.length - k) sibs
    have hdrop : (sibs.drop (sibs.length - k)).length = k := by
      rw [List.length_drop]
      omega
    have htake : sibs.take (sibs.length - k) ≠ [] := by
      intro hnil
      have hzero := congrArg List.length hnil
      rw [List.length_take, List.length_nil] at hzero
      omega
    rw [← hsplit, ascendPairs_append] at hinj
    rw [← hsplit, ascend_append] at hclimb
    obtain ⟨hb, -⟩ := ascend_inj hlen hdrop
      (hinj.mono fun p hp => by
        rcases List.mem_append.mp hp with hp | hp
        · exact List.mem_append_left _ hp
        · exact List.mem_append_right _ (List.mem_append_right _ hp)) hclimb
    obtain ⟨p, hp, hnode⟩ := @ascend_mem_pairs D node d i _ htake
    rw [← hsplit, ascendPairs_append] at hbottom
    exact hbottom _ (List.mem_of_getElem? hb) p (List.mem_append_left _ hp) hnode

end Merkle
