import Kohl.Lib.Blake2b
import Kohl.Lib.MerklePath
import Kohl.MembershipTree

/-!
# The sparse tree of the FCMP spike

`primitives/ringct-crypto/src/fcmp_spike/merkle.rs`: slots that are grown empty and filled once, the root
over them and the open authentication paths. A list of slots says what the tree is for: a slot is appended
empty and written at most once.

* `sparse_tree_exact`: after any calls the tree is the one of its slots, and every slot has a path that
  verifies.
* `sparse_path_sound`: without a hash collision no other slot has one.
-/

namespace Kohl.FcmpSpike

open ByteLib MembershipTree MembershipTree.TreeLemmas

/-- The most levels above the slots. -/
def MAX_DEPTH : ℕ := 32

/-! ## Paths -/

structure TransparentPath where
  index : ℕ
  leafHash : Bytes32
  siblings : List Bytes32
deriving DecidableEq

variable (hash : Bytes → Bytes32)

/-- The root that the path leads to. -/
def TransparentPath.computeRoot (path : TransparentPath) : Bytes32 :=
  Merkle.ascend (merkleNodeHash hash) path.leafHash path.index path.siblings

def verifyTransparentPath (path : TransparentPath) (expectedRoot : Bytes32) : Bool :=
  decide (path.computeRoot hash = expectedRoot)

/-! ## The tree -/

/-- The digests of the slots and whether they are admitted. -/
structure SparseMerkleTree where
  leaves : List Bytes32
  admitted : List Bool
  length_admitted : admitted.length = leaves.length
  length_le : leaves.length ≤ 2 ^ MAX_DEPTH

/-- The number of zero bits below the lowest bit of a 64-bit word. -/
def trailingZeros (n : ℕ) : ℕ := ((List.range 64).find? fun k => n.testBit k).getD 64

/-- The digests, padded to the next power of two; the capacity bounds the padding. -/
def padToPowerOfTwo (leaves : List Bytes32) : List Bytes32 :=
  if leaves.isEmpty then [merkleEmptyChild hash]
  else leaves ++ List.replicate
    (min (Merkle.nextPowerOfTwo leaves.length) (2 ^ MAX_DEPTH) - leaves.length) (merkleEmptyChild hash)

namespace SparseMerkleTree

def new : SparseMerkleTree := ⟨[], [], rfl, Nat.zero_le _⟩

def treeSlots (t : SparseMerkleTree) : ℕ := t.leaves.length

def isAdmitted (t : SparseMerkleTree) (index : ℕ) : Bool := t.admitted[index]?.getD false

theorem length_grown {t : SparseMerkleTree} :
    (t.admitted ++ [false]).length = (t.leaves ++ [emptyLeafHash hash]).length := by
  rw [List.length_append, List.length_append, t.length_admitted, List.length_singleton,
    List.length_singleton]

theorem length_grown_le {t : SparseMerkleTree} (h : t.leaves.length < 2 ^ MAX_DEPTH) :
    (t.leaves ++ [emptyLeafHash hash]).length ≤ 2 ^ MAX_DEPTH := by
  rw [List.length_append, List.length_singleton]
  exact h

/-- Append an empty slot; without a result the assertion has failed. -/
def growEmpty (t : SparseMerkleTree) : Option SparseMerkleTree :=
  if h : t.leaves.length < 2 ^ MAX_DEPTH then
    some ⟨t.leaves ++ [emptyLeafHash hash], t.admitted ++ [false], length_grown hash,
      length_grown_le hash h⟩
  else none

/-- Grow the slot of a new output, unless the tree lags behind it; whether it grew. -/
def maybeGrowEmptyOnCreate (t : SparseMerkleTree) (index : ℕ) : Option (SparseMerkleTree × Bool) :=
  if index ≠ t.treeSlots then some (t, false) else (t.growEmpty hash).map (·, true)

/-- The loop that catches up, with `left` turns to go; the number of slots grown. -/
def catchupLoop : ℕ → ℕ → SparseMerkleTree → SparseMerkleTree × ℕ
  | 0, n, t => (t, n)
  | left + 1, n, t =>
    match t.growEmpty hash with
    -- at the capacity the loop ends before the assertion
    | none => (t, n)
    | some t' => catchupLoop left (n + 1) t'

def catchupGrowEmpty (t : SparseMerkleTree) (max : ℕ) : SparseMerkleTree × ℕ := catchupLoop hash max 0 t

/-- Write the digest of an output to a slot that is grown and not admitted; whether it did. -/
def admitLeaf (t : SparseMerkleTree) (index : ℕ) (p c : Bytes32) : SparseMerkleTree × Bool :=
  if t.leaves.length ≤ index ∨ t.isAdmitted index then (t, false)
  else
    (⟨t.leaves.set index (leafHash hash p c), t.admitted.set index true,
      List.length_set.trans (t.length_admitted.trans List.length_set.symm),
      List.length_set.trans_le t.length_le⟩, true)

def root (t : SparseMerkleTree) : Bytes32 :=
  if t.leaves.isEmpty then emptyMembershipRoot hash
  else
    let level := padToPowerOfTwo hash t.leaves
    (Merkle.collapse (merkleNodeHash hash) level.length level).headD (emptyMembershipRoot hash)

/-- The open path of a slot. -/
def transparentPath (t : SparseMerkleTree) (index : ℕ) : Option TransparentPath :=
  t.leaves[index]?.bind fun leaf =>
    let level := padToPowerOfTwo hash t.leaves
    (Merkle.siblings (merkleNodeHash hash) (trailingZeros level.length) index level).map
      (⟨index, leaf, ·⟩)

end SparseMerkleTree

/-! ## Calls and runs -/

inductive TreeCall
  | maybeGrowEmptyOnCreate (index : ℕ)
  | growEmpty
  | catchupGrowEmpty (max : ℕ)
  | admitLeaf (index : ℕ) (p c : Bytes32)
deriving DecidableEq

def SparseMerkleTree.apply (t : SparseMerkleTree) : TreeCall → Option SparseMerkleTree
  | .maybeGrowEmptyOnCreate index => (t.maybeGrowEmptyOnCreate hash index).map Prod.fst
  | .growEmpty => t.growEmpty hash
  | .catchupGrowEmpty max => some (t.catchupGrowEmpty hash max).1
  | .admitLeaf index p c => some (t.admitLeaf hash index p c).1

/-- The tree after some calls; none when an assertion has failed. -/
def SparseMerkleTree.applyAll (t : SparseMerkleTree) (calls : List TreeCall) : Option SparseMerkleTree :=
  calls.foldlM (SparseMerkleTree.apply hash) t

/-! ## The slots -/

/-- What a call does to the slots: append empty ones, or write an empty one. -/
def slotCall (slots : List Slot) : TreeCall → Option (List Slot)
  | .maybeGrowEmptyOnCreate index =>
    if index ≠ slots.length then some slots
    else if slots.length < 2 ^ MAX_DEPTH then some (slots ++ [none]) else none
  | .growEmpty => if slots.length < 2 ^ MAX_DEPTH then some (slots ++ [none]) else none
  | .catchupGrowEmpty max => some (slots ++ List.replicate (min max (2 ^ MAX_DEPTH - slots.length)) none)
  | .admitLeaf index p c =>
    some (if slots[index]? = some none then slots.set index (some (p, c)) else slots)

/-- The tree of some slots. -/
structure TreeOf (slots : List Slot) (t : SparseMerkleTree) : Prop where
  leaves : t.leaves = slots.map (slotDigest hash)
  admitted : t.admitted = slots.map Option.isSome

variable {hash}

namespace SparseTreeLemmas

open SparseMerkleTree

theorem TreeOf.length_eq {slots : List Slot} {t : SparseMerkleTree} (h : TreeOf hash slots t) :
    t.leaves.length = slots.length := by rw [h.leaves, List.length_map]

theorem TreeOf.length_le {slots : List Slot} {t : SparseMerkleTree} (h : TreeOf hash slots t) :
    slots.length ≤ 2 ^ MAX_DEPTH := TreeOf.length_eq h ▸ t.length_le

theorem TreeOf.isAdmitted_eq {slots : List Slot} {t : SparseMerkleTree} (h : TreeOf hash slots t)
    (index : ℕ) : t.isAdmitted index = (slots[index]?.map Option.isSome).getD false := by
  rw [isAdmitted, h.admitted, List.getElem?_map]

theorem growEmpty_treeOf {slots : List Slot} {t : SparseMerkleTree} (h : TreeOf hash slots t)
    (hlt : slots.length < 2 ^ MAX_DEPTH) :
    ∃ t', t.growEmpty hash = some t' ∧ TreeOf hash (slots ++ [none]) t' := by
  have hlt' : t.leaves.length < 2 ^ MAX_DEPTH := by rwa [TreeOf.length_eq h]
  refine ⟨_, dif_pos hlt', ?_, ?_⟩
  · show t.leaves ++ [emptyLeafHash hash] = _
    rw [List.map_append, h.leaves]
    rfl
  · show t.admitted ++ [false] = _
    rw [List.map_append, h.admitted]
    rfl

theorem growEmpty_full {slots : List Slot} {t : SparseMerkleTree} (h : TreeOf hash slots t)
    (hge : ¬slots.length < 2 ^ MAX_DEPTH) : t.growEmpty hash = none := by
  rw [growEmpty, dif_neg (by rwa [TreeOf.length_eq h])]

/-- Catching up appends empty slots up to the capacity. -/
theorem catchupLoop_treeOf {slots : List Slot} {t : SparseMerkleTree} (h : TreeOf hash slots t)
    (left n : ℕ) :
    TreeOf hash (slots ++ List.replicate (min left (2 ^ MAX_DEPTH - slots.length)) none)
        (catchupLoop hash left n t).1 ∧
      (catchupLoop hash left n t).2 = n + min left (2 ^ MAX_DEPTH - slots.length) := by
  induction left generalizing slots n t with
  | zero =>
    rw [Nat.zero_min, List.replicate_zero, List.append_nil]
    exact ⟨h, rfl⟩
  | succ left ih =>
    by_cases hlt : slots.length < 2 ^ MAX_DEPTH
    · obtain ⟨t', hgrow, h'⟩ := growEmpty_treeOf h hlt
      have hmin : min (left + 1) (2 ^ MAX_DEPTH - slots.length) =
          min left (2 ^ MAX_DEPTH - (slots ++ [none]).length) + 1 := by
        rw [List.length_append, List.length_singleton]
        omega
      obtain ⟨htree, hcount⟩ := ih h' (n + 1)
      rw [List.append_assoc, List.singleton_append, ← List.replicate_succ, ← hmin] at htree
      rw [catchupLoop, hgrow]
      refine ⟨htree, hcount.trans ?_⟩
      rw [hmin, Nat.add_assoc, Nat.add_comm 1]
    · rw [catchupLoop, growEmpty_full h hlt, Nat.sub_eq_zero_of_le (Nat.le_of_not_lt hlt), Nat.min_zero,
        List.replicate_zero, List.append_nil]
      exact ⟨h, rfl⟩

/-- A slot is written when it is grown and empty, and is kept otherwise. -/
theorem admitLeaf_treeOf {slots : List Slot} {t : SparseMerkleTree} (h : TreeOf hash slots t)
    (index : ℕ) (p c : Bytes32) :
    TreeOf hash (if slots[index]? = some none then slots.set index (some (p, c)) else slots)
        (t.admitLeaf hash index p c).1 ∧
      (t.admitLeaf hash index p c).2 = decide (slots[index]? = some none) := by
  have hlen := TreeOf.length_eq h
  have hadm := TreeOf.isAdmitted_eq h index
  unfold admitLeaf
  cases hslot : slots[index]? with
  | none =>
    have hout : t.leaves.length ≤ index := hlen ▸ List.getElem?_eq_none_iff.mp hslot
    rw [if_pos (Or.inl hout), if_neg (by simp)]
    exact ⟨h, rfl⟩
  | some slot =>
    rw [hslot] at hadm
    cases slot with
    | some pc =>
      have hfull : t.isAdmitted index = true := hadm
      rw [if_pos (Or.inr hfull), if_neg (by simp)]
      exact ⟨h, rfl⟩
    | none =>
      have hin : ¬t.leaves.length ≤ index := by
        rw [hlen]
        exact Nat.not_le_of_lt (List.getElem?_eq_some_iff.mp hslot).1
      have hempty : ¬t.isAdmitted index = true := by
        rw [hadm]
        exact Bool.false_ne_true
      rw [if_neg (not_or.mpr ⟨hin, hempty⟩), if_pos rfl]
      refine ⟨⟨?_, ?_⟩, rfl⟩
      · show t.leaves.set index (leafHash hash p c) = _
        rw [List.map_set, h.leaves, slotDigest_some]
      · show t.admitted.set index true = _
        rw [List.map_set, h.admitted, Option.isSome_some]

/-- A call fails on the tree when it does on the slots, and otherwise leads to the tree of the slots. -/
theorem apply_treeOf {slots : List Slot} {t : SparseMerkleTree} (h : TreeOf hash slots t)
    (call : TreeCall) :
    (slotCall slots call = none ∧ t.apply hash call = none) ∨
      ∃ slots' t', slotCall slots call = some slots' ∧ t.apply hash call = some t' ∧
        TreeOf hash slots' t' := by
  cases call with
  | growEmpty =>
    by_cases hlt : slots.length < 2 ^ MAX_DEPTH
    · obtain ⟨t', hgrow, h'⟩ := growEmpty_treeOf h hlt
      exact Or.inr ⟨_, t', if_pos hlt, hgrow, h'⟩
    · exact Or.inl ⟨if_neg hlt, growEmpty_full h hlt⟩
  | maybeGrowEmptyOnCreate index =>
    rw [slotCall, SparseMerkleTree.apply, SparseMerkleTree.maybeGrowEmptyOnCreate, treeSlots,
      TreeOf.length_eq h]
    by_cases hindex : index ≠ slots.length
    · rw [if_pos hindex, if_pos hindex]
      exact Or.inr ⟨slots, t, rfl, rfl, h⟩
    · rw [if_neg hindex, if_neg hindex]
      by_cases hlt : slots.length < 2 ^ MAX_DEPTH
      · obtain ⟨t', hgrow, h'⟩ := growEmpty_treeOf h hlt
        refine Or.inr ⟨_, t', if_pos hlt, ?_, h'⟩
        rw [hgrow]
        rfl
      · refine Or.inl ⟨if_neg hlt, ?_⟩
        rw [growEmpty_full h hlt]
        rfl
  | catchupGrowEmpty max => exact Or.inr ⟨_, _, rfl, rfl, (catchupLoop_treeOf h max 0).1⟩
  | admitLeaf index p c => exact Or.inr ⟨_, _, rfl, rfl, (admitLeaf_treeOf h index p c).1⟩

theorem applyAll_treeOf {slots : List Slot} {t : SparseMerkleTree} (h : TreeOf hash slots t)
    (calls : List TreeCall) :
    (calls.foldlM slotCall slots = none ∧ t.applyAll hash calls = none) ∨
      ∃ slots' t', calls.foldlM slotCall slots = some slots' ∧ t.applyAll hash calls = some t' ∧
        TreeOf hash slots' t' := by
  induction calls generalizing slots t with
  | nil => exact Or.inr ⟨slots, t, rfl, rfl, h⟩
  | cons call calls ih =>
    rw [applyAll, List.foldlM_cons, List.foldlM_cons]
    rcases apply_treeOf h call with ⟨hslots, htree⟩ | ⟨slots', t', hslots, htree, h'⟩
    · rw [hslots, htree]
      exact Or.inl ⟨rfl, rfl⟩
    · rw [hslots, htree]
      exact ih h'

/-! ## The padded level -/

theorem trailingZeros_two_pow {k : ℕ} (h : k < 64) : trailingZeros (2 ^ k) = k := by
  have hfind : (List.range 64).find? (fun j => (2 ^ k).testBit j) = some k := by
    rw [List.find?_range_eq_some]
    refine ⟨Nat.testBit_two_pow_self, List.mem_range.mpr h, fun j hj => ?_⟩
    rw [Nat.testBit_two_pow_of_ne hj.ne']
    rfl
  rw [trailingZeros, hfind, Option.getD_some]

/-- The capacity does not cut the padding short. -/
theorem padToPowerOfTwo_eq {leaves : List Bytes32} (hne : leaves ≠ [])
    (hle : leaves.length ≤ 2 ^ MAX_DEPTH) :
    padToPowerOfTwo hash leaves = Merkle.padded (merkleEmptyChild hash) leaves := by
  have hcap : Merkle.nextPowerOfTwo leaves.length ≤ 2 ^ MAX_DEPTH :=
    Nat.pow_le_pow_right Nat.two_pos (Merkle.depth_le hle)
  rw [padToPowerOfTwo, if_neg (by rwa [List.isEmpty_iff]), Nat.min_eq_left hcap, Merkle.padded]

theorem root_eq (t : SparseMerkleTree) : t.root hash = rootFromLeaves hash t.leaves := by
  unfold SparseMerkleTree.root rootFromLeaves Merkle.root
  split
  · rfl
  · next hne =>
    rw [List.isEmpty_iff] at hne
    rw [padToPowerOfTwo_eq hne t.length_le]
    rfl

/-- The path of a slot is the one of its digest in the padded level. -/
theorem transparentPath_eq (t : SparseMerkleTree) (index : ℕ) :
    t.transparentPath hash index = t.leaves[index]?.bind fun leaf =>
      (Merkle.siblings (merkleNodeHash hash) (Merkle.depth t.leaves.length) index
        (Merkle.padded (merkleEmptyChild hash) t.leaves)).map (⟨index, leaf, ·⟩) := by
  unfold transparentPath
  cases hleaf : t.leaves[index]? with
  | none => rfl
  | some leaf =>
    have hne : t.leaves ≠ [] := by
      intro hnil
      rw [hnil] at hleaf
      cases hleaf
    have hdepth : Merkle.depth t.leaves.length < 64 :=
      (Merkle.depth_le t.length_le).trans_lt (Nat.le_of_ble_eq_true rfl)
    rw [Option.bind_some, Option.bind_some, padToPowerOfTwo_eq hne t.length_le]
    dsimp only
    rw [Merkle.length_padded, trailingZeros_two_pow hdepth]

theorem treeOf_new : TreeOf hash [] new := ⟨rfl, rfl⟩

theorem root_treeOf {slots : List Slot} {t : SparseMerkleTree} (h : TreeOf hash slots t) :
    t.root hash = rootFromLeaves hash (slots.map (slotDigest hash)) := by
  rw [root_eq, h.leaves]

/-- A slot has a path, which leads to the root. -/
theorem transparentPath_of_slot {slots : List Slot} {t : SparseMerkleTree} (h : TreeOf hash slots t)
    {index : ℕ} {slot : Slot} (hslot : slots[index]? = some slot) :
    ∃ path, t.transparentPath hash index = some path ∧ path.index = index ∧
      path.leafHash = slotDigest hash slot ∧
      path.siblings.length = Merkle.depth slots.length ∧
      verifyTransparentPath hash path (t.root hash) = true := by
  have hleaf : t.leaves[index]? = some (slotDigest hash slot) := by
    rw [h.leaves, List.getElem?_map, hslot, Option.map_some]
  have hne : t.leaves ≠ [] := by
    intro hnil
    rw [hnil] at hleaf
    cases hleaf
  have hbottom : (Merkle.padded (merkleEmptyChild hash) t.leaves)[index]? =
      some (slotDigest hash slot) := by
    rw [Merkle.padded, List.getElem?_append_left (List.getElem?_eq_some_iff.mp hleaf).1, hleaf]
  obtain ⟨sibs, hsibs, hcount, htop⟩ := @Merkle.ascend_siblings _ (merkleNodeHash hash) _ _
    (Merkle.length_padded t.leaves) _ _ hbottom
  rw [Merkle.climb_depth_padded _ _ hne, List.cons.injEq] at htop
  refine ⟨⟨index, slotDigest hash slot, sibs⟩, ?_, rfl, rfl, ?_, ?_⟩
  · rw [transparentPath_eq, hleaf, Option.bind_some, hsibs, Option.map_some]
  · rw [hcount, TreeOf.length_eq h]
  · rw [root_eq]
    exact decide_eq_true htop.1.symm

theorem transparentPath_of_le {slots : List Slot} {t : SparseMerkleTree} (h : TreeOf hash slots t)
    {index : ℕ} (hle : slots.length ≤ index) : t.transparentPath hash index = none := by
  rw [transparentPath_eq, List.getElem?_eq_none (by rwa [TreeOf.length_eq h]), Option.bind_none]

end SparseTreeLemmas

open SparseTreeLemmas

/-- Any calls: the tree stops at the assertion exactly when a slot is to be grown beyond the capacity, and
otherwise its counts, flags and root are those of the slots the calls write. Every slot has a path with one
sibling for each level, which verifies against the root; nothing else has a path. -/
theorem sparse_tree_exact (hash : Bytes → Bytes32) (calls : List TreeCall) :
    (SparseMerkleTree.new.applyAll hash calls = none ↔ calls.foldlM slotCall [] = none) ∧
    ∀ t, SparseMerkleTree.new.applyAll hash calls = some t →
      ∃ slots, calls.foldlM slotCall [] = some slots ∧ t.treeSlots = slots.length ∧
        (∀ index, t.isAdmitted index = (slots[index]?.map Option.isSome).getD false) ∧
        t.root hash = rootFromLeaves hash (slots.map (slotDigest hash)) ∧
        (∀ index, slots.length ≤ index → t.transparentPath hash index = none) ∧
        ∀ index slot, slots[index]? = some slot →
          ∃ path, t.transparentPath hash index = some path ∧ path.index = index ∧
            path.leafHash = slotDigest hash slot ∧
            path.siblings.length = Merkle.depth slots.length ∧
            verifyTransparentPath hash path (t.root hash) = true := by
  rcases applyAll_treeOf (@treeOf_new hash) calls with
    ⟨hslots, htree⟩ | ⟨slots, t, hslots, htree, h⟩
  · rw [hslots, htree]
    refine ⟨⟨fun _ => rfl, fun _ => rfl⟩, fun t ht => ?_⟩
    cases ht
  · rw [hslots, htree]
    refine ⟨⟨fun hnone => absurd hnone (Option.some_ne_none t),
      fun hnone => absurd hnone (Option.some_ne_none slots)⟩, fun t' ht => ?_⟩
    rw [Option.some.injEq] at ht
    subst ht
    exact ⟨slots, rfl, TreeOf.length_eq h, TreeOf.isAdmitted_eq h, root_treeOf h,
      fun _ hle => transparentPath_of_le h hle, fun _ _ hslot => transparentPath_of_slot h hslot⟩

/-! ## Soundness -/

/-- The preimages a path hashes. -/
def pathPreimages (hash : Bytes → Bytes32) (path : TransparentPath) : List Bytes :=
  (Merkle.ascendPairs (merkleNodeHash hash) path.leafHash path.index path.siblings).map
    fun p => nodePreimage p.1 p.2

namespace SparseTreeLemmas

/-- The digests of the padded level are those of the slots and the sentinel. -/
theorem mem_padded {slots : List Slot} {d : Bytes32}
    (h : d ∈ Merkle.padded (merkleEmptyChild hash) (slots.map (slotDigest hash))) :
    (∃ slot ∈ slots, d = slotDigest hash slot) ∨ d = merkleEmptyChild hash := by
  rcases List.mem_append.mp h with h | h
  · obtain ⟨slot, hslot, hd⟩ := List.mem_map.mp h
    exact Or.inl ⟨slot, hslot, hd.symm⟩
  · exact Or.inr (List.eq_of_mem_replicate h)

/-- A path of a slot's digest that leads to the root of some slots is a path of one of them. -/
theorem slot_of_path {slots : List Slot} {slot : Slot} {path : TransparentPath}
    (hfree : CollisionFree hash
      (slotPreimage slot :: pathPreimages hash path ++ treePreimages hash slots))
    (hleaf : path.leafHash = slotDigest hash slot)
    (hroot : path.computeRoot hash = rootFromLeaves hash (slots.map (slotDigest hash))) :
    path.siblings.length = Merkle.depth slots.length ∧
      slots[path.index % 2 ^ Merkle.depth slots.length]? = some slot ∧
      Merkle.siblings (merkleNodeHash hash) (Merkle.depth slots.length)
        (path.index % 2 ^ Merkle.depth slots.length)
        (Merkle.padded (merkleEmptyChild hash) (slots.map (slotDigest hash))) =
          some path.siblings := by
  have hslotMem : slotPreimage slot ∈
      slotPreimage slot :: pathPreimages hash path ++ treePreimages hash slots :=
    List.mem_append_left _ List.mem_cons_self
  have hsub : treePreimages hash slots ⊆
      slotPreimage slot :: pathPreimages hash path ++ treePreimages hash slots :=
    List.subset_append_right _ _
  have hpathMem : ∀ p ∈ Merkle.ascendPairs (merkleNodeHash hash) path.leafHash path.index
      path.siblings, nodePreimage p.1 p.2 ∈
        slotPreimage slot :: pathPreimages hash path ++ treePreimages hash slots :=
    fun p hp => List.mem_append_left _ (List.mem_cons_of_mem _ (List.mem_map_of_mem hp))
  obtain ⟨hsentinel, hnode⟩ := slotDigest_separate hfree hslotMem hsub
  have hne : slots.map (slotDigest hash) ≠ [] := by
    intro hnil
    -- the sentinel is neither the digest of a slot nor a node
    rw [hnil, rootFromLeaves_nil] at hroot
    by_cases hsibs : path.siblings = []
    · rw [TransparentPath.computeRoot, hsibs, Merkle.ascend, hleaf] at hroot
      exact hsentinel hroot
    · obtain ⟨p, hp, hlast⟩ := @Merkle.ascend_mem_pairs _ (merkleNodeHash hash) path.leafHash path.index
        path.siblings hsibs
      exact (tag_lengths_differ none p.1 p.2).2.2 (hfree _ (hsub (merkleEmptyDom_mem hash slots)) _
        (hpathMem p hp) (hroot.symm.trans hlast))
  have hinj : Merkle.InjOnPairs (merkleNodeHash hash)
      (Merkle.pairs (merkleNodeHash hash) (merkleEmptyChild hash) (slots.map (slotDigest hash)) ++
        Merkle.ascendPairs (merkleNodeHash hash) path.leafHash path.index path.siblings) := by
    have hmem : ∀ p ∈ Merkle.pairs (merkleNodeHash hash) (merkleEmptyChild hash)
          (slots.map (slotDigest hash)) ++
        Merkle.ascendPairs (merkleNodeHash hash) path.leafHash path.index path.siblings,
        nodePreimage p.1 p.2 ∈
          slotPreimage slot :: pathPreimages hash path ++ treePreimages hash slots := by
      intro p hp
      rcases List.mem_append.mp hp with hp | hp
      · exact hsub (nodePreimage_mem hp)
      · exact hpathMem p hp
    intro p hp q hq heq
    obtain ⟨h1, h2⟩ := nodePreimage_inj (hfree _ (hmem p hp) _ (hmem q hq) heq)
    exact Prod.ext h1 h2
  have hbottom : ∀ b ∈ Merkle.padded (merkleEmptyChild hash) (slots.map (slotDigest hash)),
      ∀ p ∈ Merkle.ascendPairs (merkleNodeHash hash) path.leafHash path.index path.siblings,
        b ≠ merkleNodeHash hash p.1 p.2 := by
    intro b hb p hp heq
    rcases mem_padded hb with ⟨s, hs, rfl⟩ | rfl
    · exact (tag_lengths_differ s p.1 p.2).1 (hfree _ (hsub (slotPreimage_mem hs)) _ (hpathMem p hp) heq)
    · exact (tag_lengths_differ none p.1 p.2).2.2
        (hfree _ (hsub (merkleEmptyDom_mem hash slots)) _ (hpathMem p hp) heq)
  obtain ⟨hcount, hat, hsibs⟩ := Merkle.path_unique hne hinj (hleaf.symm ▸ hnode) hbottom hroot
  rw [List.length_map] at hcount hat hsibs
  refine ⟨hcount, ?_, hsibs⟩
  rw [hleaf, Merkle.padded, List.getElem?_append] at hat
  split at hat
  · rw [List.getElem?_map, Option.map_eq_some_iff] at hat
    obtain ⟨s, hs, hdigest⟩ := hat
    have hpreimage := hfree _ (hsub (slotPreimage_mem (List.mem_of_getElem? hs))) _ hslotMem hdigest
    rw [hs, slotPreimage_injective hpreimage]
  · exact absurd (List.eq_of_mem_replicate (List.mem_of_getElem? hat)) hsentinel

end SparseTreeLemmas

/-- After any calls, a path of a slot's digest that verifies against the root is the one the tree gives for
that slot, as far as the hash has no collision among the preimages of the tree and of the path. The path has
one sibling for each level, and the bits of its index above the depth are not looked at. -/
theorem sparse_path_sound (hash : Bytes → Bytes32) (calls : List TreeCall) (t : SparseMerkleTree)
    (slots : List Slot) (path : TransparentPath) (slot : Slot)
    (htree : SparseMerkleTree.new.applyAll hash calls = some t)
    (hslots : calls.foldlM slotCall [] = some slots)
    (hleaf : path.leafHash = slotDigest hash slot)
    (hfree : CollisionFree hash
      (slotPreimage slot :: pathPreimages hash path ++ treePreimages hash slots))
    (hverify : verifyTransparentPath hash path (t.root hash) = true) :
    slots[path.index % 2 ^ Merkle.depth slots.length]? = some slot ∧
      t.transparentPath hash (path.index % 2 ^ Merkle.depth slots.length) =
        some { path with index := path.index % 2 ^ Merkle.depth slots.length } := by
  rcases applyAll_treeOf (@treeOf_new hash) calls with
    ⟨-, hnone⟩ | ⟨slots', t', hslots', htree', h⟩
  · rw [hnone] at htree
    cases htree
  rw [htree, Option.some.injEq] at htree'
  rw [hslots, Option.some.injEq] at hslots'
  subst htree' hslots'
  have hroot := of_decide_eq_true hverify
  rw [root_treeOf h] at hroot
  obtain ⟨-, hslot, hsibs⟩ := slot_of_path hfree hleaf hroot
  refine ⟨hslot, ?_⟩
  have hleafAt : t.leaves[path.index % 2 ^ Merkle.depth slots.length]? = some path.leafHash := by
    rw [h.leaves, List.getElem?_map, hslot, Option.map_some, hleaf]
  rw [transparentPath_eq, hleafAt, Option.bind_some, TreeOf.length_eq h, h.leaves, hsibs, Option.map_some]

/-- An output of two constant strings. -/
def sampleSlot : Slot := some (⟨List.replicate 32 21, rfl⟩, ⟨List.replicate 32 22, rfl⟩)

/-- An empty slot and a filled one. -/
def sampleCalls : List TreeCall :=
  [.catchupGrowEmpty 1, .maybeGrowEmptyOnCreate 1,
    .admitLeaf 1 ⟨List.replicate 32 21, rfl⟩ ⟨List.replicate 32 22, rfl⟩]

theorem sparse_path_sound_sample : ∃ t, ∃ path : TransparentPath,
    SparseMerkleTree.new.applyAll Blake2b.hash256 sampleCalls = some t ∧
      t.transparentPath Blake2b.hash256 (3 % 2 ^ Merkle.depth 2) =
        some { path with index := 3 % 2 ^ Merkle.depth 2 } := by
  have hcheck : (SparseMerkleTree.new.applyAll Blake2b.hash256 sampleCalls).any (fun t =>
      (t.transparentPath Blake2b.hash256 1).any fun path =>
        decide (path.leafHash = slotDigest Blake2b.hash256 sampleSlot) &&
        (decide (CollisionFree Blake2b.hash256 (slotPreimage sampleSlot ::
            pathPreimages Blake2b.hash256 { path with index := 3 } ++
          treePreimages Blake2b.hash256 [none, sampleSlot])) &&
        verifyTransparentPath Blake2b.hash256 { path with index := 3 } (t.root Blake2b.hash256))) =
      true := by
    decide +kernel
  obtain ⟨t, htree, hcheck⟩ := (Option.any_eq_true _ _).mp hcheck
  obtain ⟨path, -, hcheck⟩ := (Option.any_eq_true _ _).mp hcheck
  rw [Bool.and_eq_true, Bool.and_eq_true, decide_eq_true_eq, decide_eq_true_eq] at hcheck
  obtain ⟨hleaf, hfree, hverify⟩ := hcheck
  exact ⟨t, { path with index := 3 }, htree, (sparse_path_sound Blake2b.hash256 sampleCalls t
    [none, sampleSlot] { path with index := 3 } sampleSlot htree rfl hleaf hfree hverify).2⟩

end Kohl.FcmpSpike
