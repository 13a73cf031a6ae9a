import Kohl.Primitives
import Kohl.Lib.Merkle

/-!
# The membership tree

`pallets/ringct/src/membership.rs` and its host copy in `primitives/ringct-crypto/src/fcmp.rs`:
leaf digests, the placeholder of a slot that is not filled, and the padded Merkle root. The hash is
a parameter.

`Slot` says what a slot means, a placeholder or an output's key and commitment; the digests and the
ring of a spend are read off a list of slots. The results are about the digests a tree is built from
and the preimages it hashes:

* `tag_lengths_differ`: the four kinds of preimages never coincide;
* `slots_unique`: without a collision among the preimages of two trees, equal roots have equal slots.
-/

namespace Kohl.MembershipTree

open ByteLib

/-! ## Digests -/

/-- The preimage of an occupied leaf. -/
def leafPreimage (p c : Bytes32) : Bytes := FCMP_LEAF_DOM ++ p.val ++ c.val

/-- The preimage of an internal node. -/
def nodePreimage (left right : Bytes32) : Bytes := FCMP_MERKLE_DOM ++ left.val ++ right.val

/-- Occupied leaf digest. -/
def leafHash (hash : Bytes → Bytes32) (p c : Bytes32) : Bytes32 := hash (leafPreimage p c)

/-- The placeholder of an immature slot. -/
def emptyLeafHash (hash : Bytes → Bytes32) : Bytes32 := hash FCMP_EMPTY_LEAF_DOM

def merkleNodeHash (hash : Bytes → Bytes32) (left right : Bytes32) : Bytes32 :=
  hash (nodePreimage left right)

/-- The sentinel of a missing child. -/
def merkleEmptyChild (hash : Bytes → Bytes32) : Bytes32 := hash FCMP_MERKLE_EMPTY_DOM

/-- The root of a tree without slots. -/
def emptyMembershipRoot (hash : Bytes → Bytes32) : Bytes32 := merkleEmptyChild hash

/-- The Merkle root over leaf digests, padded to the next power of two. -/
def rootFromLeaves (hash : Bytes → Bytes32) (leaves : List Bytes32) : Bytes32 :=
  Merkle.root (merkleNodeHash hash) (merkleEmptyChild hash) leaves

@[simp] theorem rootFromLeaves_nil (hash : Bytes → Bytes32) :
    rootFromLeaves hash [] = emptyMembershipRoot hash := rfl

/-! ## Slots -/

/-- A slot of the tree: a placeholder, or the key and commitment of an admitted output. -/
abbrev Slot := Option (Bytes32 × Bytes32)

def slotPreimage : Slot → Bytes
  | none => FCMP_EMPTY_LEAF_DOM
  | some (p, c) => leafPreimage p c

/-- The leaf digest of a slot. -/
def slotDigest (hash : Bytes → Bytes32) (s : Slot) : Bytes32 := hash (slotPreimage s)

@[simp] theorem slotDigest_none (hash : Bytes → Bytes32) :
    slotDigest hash none = emptyLeafHash hash := rfl

@[simp] theorem slotDigest_some (hash : Bytes → Bytes32) (p c : Bytes32) :
    slotDigest hash (some (p, c)) = leafHash hash p c := rfl

/-- Every preimage the tree over `slots` hashes, the two fixed ones included. -/
def treePreimages (hash : Bytes → Bytes32) (slots : List Slot) : List Bytes :=
  FCMP_EMPTY_LEAF_DOM :: FCMP_MERKLE_EMPTY_DOM :: slots.map slotPreimage ++
    (Merkle.pairs (merkleNodeHash hash) (merkleEmptyChild hash)
      (slots.map (slotDigest hash))).map fun p => nodePreimage p.1 p.2

/-- The hash has no collision among `xs`. -/
def CollisionFree (hash : Bytes → Bytes32) (xs : List Bytes) : Prop :=
  ∀ x ∈ xs, ∀ y ∈ xs, hash x = hash y → x = y

-- the digests are compared as numbers, which the kernel evaluates once each
instance (hash : Bytes → Bytes32) (xs : List Bytes) : Decidable (CollisionFree hash xs) :=
  decidable_of_iff (∀ x ∈ xs, ∀ y ∈ xs, leNat (hash x).val = leNat (hash y).val → x = y) <|
    forall₂_congr fun _ _ => forall₂_congr fun _ _ =>
      imp_congr_left ⟨Bytes32.leNat_injective, congrArg fun b : Bytes32 => leNat b.val⟩

theorem CollisionFree.mono {hash : Bytes → Bytes32} {xs ys : List Bytes}
    (h : CollisionFree hash ys) (hs : xs ⊆ ys) : CollisionFree hash xs :=
  fun x hx y hy => h x (hs hx) y (hs hy)

/-! ## Domain separation -/

namespace TreeLemmas

@[simp] theorem length_leafPreimage (p c : Bytes32) : (leafPreimage p c).length = 81 := by
  simp only [leafPreimage, List.length_append, Bytes32.length_val]
  rfl

@[simp] theorem length_nodePreimage (left right : Bytes32) :
    (nodePreimage left right).length = 83 := by
  simp only [nodePreimage, List.length_append, Bytes32.length_val]
  rfl

theorem length_emptyLeafDom : FCMP_EMPTY_LEAF_DOM.length = 23 := rfl

theorem length_merkleEmptyDom : FCMP_MERKLE_EMPTY_DOM.length = 25 := rfl

theorem length_slotPreimage (s : Slot) :
    (slotPreimage s).length = 23 ∨ (slotPreimage s).length = 81 := by
  cases s with
  | none => exact .inl rfl
  | some pc => exact .inr (length_leafPreimage pc.1 pc.2)

/-- A slot, a node and the sentinel are hashed from preimages of different lengths. -/
theorem tag_lengths_differ (s : Slot) (left right : Bytes32) :
    slotPreimage s ≠ nodePreimage left right ∧ slotPreimage s ≠ FCMP_MERKLE_EMPTY_DOM ∧
      FCMP_MERKLE_EMPTY_DOM ≠ nodePreimage left right := by
  have hs := length_slotPreimage s
  have hn := length_nodePreimage left right
  have he := length_merkleEmptyDom
  refine ⟨fun h => ?_, fun h => ?_, fun h => ?_⟩ <;> replace h := congrArg List.length h <;> omega

theorem leafPreimage_inj {p c p' c' : Bytes32} (h : leafPreimage p c = leafPreimage p' c') :
    p = p' ∧ c = c' := by
  rw [leafPreimage, leafPreimage, List.append_assoc, List.append_assoc] at h
  exact Bytes32.append_inj (List.append_cancel_left h)

theorem nodePreimage_inj {a b a' b' : Bytes32} (h : nodePreimage a b = nodePreimage a' b') :
    a = a' ∧ b = b' := by
  rw [nodePreimage, nodePreimage, List.append_assoc, List.append_assoc] at h
  exact Bytes32.append_inj (List.append_cancel_left h)

theorem slotPreimage_injective : Function.Injective slotPreimage := by
  intro s t h
  cases s with
  | none =>
    cases t with
    | none => rfl
    | some pc =>
      have hlen := congrArg List.length h
      rw [show slotPreimage none = FCMP_EMPTY_LEAF_DOM from rfl, length_emptyLeafDom,
        show slotPreimage (some pc) = leafPreimage pc.1 pc.2 from rfl, length_leafPreimage] at hlen
      omega
  | some pc =>
    cases t with
    | none =>
      have hlen := congrArg List.length h
      rw [show slotPreimage none = FCMP_EMPTY_LEAF_DOM from rfl, length_emptyLeafDom,
        show slotPreimage (some pc) = leafPreimage pc.1 pc.2 from rfl, length_leafPreimage] at hlen
      omega
    | some pc' =>
      obtain ⟨hp, hc⟩ := leafPreimage_inj h
      rw [Prod.ext hp hc]

theorem slotPreimage_mem {hash : Bytes → Bytes32} {slots : List Slot} {s : Slot} (h : s ∈ slots) :
    slotPreimage s ∈ treePreimages hash slots := by
  simp only [treePreimages, List.mem_cons, List.mem_append, List.mem_map, List.cons_append]
  exact .inr (.inr (.inl ⟨s, h, rfl⟩))

theorem merkleEmptyDom_mem (hash : Bytes → Bytes32) (slots : List Slot) :
    FCMP_MERKLE_EMPTY_DOM ∈ treePreimages hash slots := by
  simp [treePreimages]

theorem nodePreimage_mem {hash : Bytes → Bytes32} {slots : List Slot} {p : Bytes32 × Bytes32}
    (h : p ∈ Merkle.pairs (merkleNodeHash hash) (merkleEmptyChild hash)
      (slots.map (slotDigest hash))) :
    nodePreimage p.1 p.2 ∈ treePreimages hash slots := by
  simp only [treePreimages, List.mem_cons, List.mem_append, List.mem_map, List.cons_append]
  exact .inr (.inr (.inr ⟨p, h, rfl⟩))

/-- A slot's digest is neither the sentinel nor a node of a tree hashed without a collision. -/
theorem slotDigest_separate {hash : Bytes → Bytes32} {xs : List Bytes} {slots : List Slot} {s : Slot}
    (hfree : CollisionFree hash xs) (hs : slotPreimage s ∈ xs) (hsub : treePreimages hash slots ⊆ xs) :
    slotDigest hash s ≠ merkleEmptyChild hash ∧
      Merkle.NotNode (merkleNodeHash hash) (merkleEmptyChild hash) (slots.map (slotDigest hash))
        (slotDigest hash s) := by
  refine ⟨fun h => ?_, fun p hp h => ?_⟩
  · exact (tag_lengths_differ s (hash []) (hash [])).2.1
      (hfree _ hs _ (hsub (merkleEmptyDom_mem hash slots)) h)
  · exact (tag_lengths_differ s p.1 p.2).1 (hfree _ hs _ (hsub (nodePreimage_mem hp)) h)

theorem emptyChild_notNode {hash : Bytes → Bytes32} {slots : List Slot}
    (hfree : CollisionFree hash (treePreimages hash slots)) :
    Merkle.NotNode (merkleNodeHash hash) (merkleEmptyChild hash) (slots.map (slotDigest hash))
      (merkleEmptyChild hash) := by
  intro p hp h
  exact (tag_lengths_differ none p.1 p.2).2.2
    (hfree _ (merkleEmptyDom_mem hash slots) _ (nodePreimage_mem hp) h)

/-- Digests of slots that are hashed without a collision tell the slots apart. -/
theorem slots_eq_of_digests {hash : Bytes → Bytes32} {xs : List Bytes} {s₁ s₂ : List Slot}
    (hfree : CollisionFree hash xs) (h₁ : ∀ s ∈ s₁, slotPreimage s ∈ xs)
    (h₂ : ∀ s ∈ s₂, slotPreimage s ∈ xs)
    (h : s₁.map (slotDigest hash) = s₂.map (slotDigest hash)) : s₁ = s₂ := by
  induction s₁ generalizing s₂ with
  | nil => exact (List.map_eq_nil_iff.mp h.symm).symm
  | cons a s₁ ih =>
    cases s₂ with
    | nil => exact absurd h (by simp)
    | cons b s₂ =>
      rw [List.map_cons, List.map_cons, List.cons.injEq] at h
      have hab : a = b := slotPreimage_injective
        (hfree _ (h₁ a List.mem_cons_self) _ (h₂ b List.mem_cons_self) h.1)
      rw [hab, ih (fun s hs => h₁ s (.tail _ hs)) (fun s hs => h₂ s (.tail _ hs)) h.2]

end TreeLemmas

open TreeLemmas

/-- A root is opened in one way only: two trees whose preimages have no collision and whose roots
are equal have the same slots, as many and in the same order. -/
theorem slots_unique {hash : Bytes → Bytes32} {s₁ s₂ : List Slot}
    (hfree : CollisionFree hash (treePreimages hash s₁ ++ treePreimages hash s₂))
    (hroot : rootFromLeaves hash (s₁.map (slotDigest hash)) =
      rootFromLeaves hash (s₂.map (slotDigest hash))) : s₁ = s₂ := by
  have hsub₁ : treePreimages hash s₁ ⊆ treePreimages hash s₁ ++ treePreimages hash s₂ :=
    List.subset_append_left _ _
  have hsub₂ : treePreimages hash s₂ ⊆ treePreimages hash s₁ ++ treePreimages hash s₂ :=
    List.subset_append_right _ _
  have hmem₁ : ∀ s ∈ s₁, slotPreimage s ∈ treePreimages hash s₁ ++ treePreimages hash s₂ :=
    fun s hs => hsub₁ (slotPreimage_mem hs)
  have hmem₂ : ∀ s ∈ s₂, slotPreimage s ∈ treePreimages hash s₁ ++ treePreimages hash s₂ :=
    fun s hs => hsub₂ (slotPreimage_mem hs)
  refine slots_eq_of_digests hfree hmem₁ hmem₂ (Merkle.root_unique ?_ ?_ ?_
    (emptyChild_notNode (hfree.mono hsub₁)) (emptyChild_notNode (hfree.mono hsub₂)) hroot)
  · -- the node hash is injective on the pairs of both trees
    intro p hp q hq h
    have hmem : ∀ r, r ∈ Merkle.pairs (merkleNodeHash hash) (merkleEmptyChild hash)
          (s₁.map (slotDigest hash)) ++ Merkle.pairs (merkleNodeHash hash) (merkleEmptyChild hash)
          (s₂.map (slotDigest hash)) →
        nodePreimage r.1 r.2 ∈ treePreimages hash s₁ ++ treePreimages hash s₂ := by
      intro r hr
      rcases List.mem_append.mp hr with hr | hr
      · exact hsub₁ (nodePreimage_mem hr)
      · exact hsub₂ (nodePreimage_mem hr)
    obtain ⟨h1, h2⟩ := nodePreimage_inj (hfree _ (hmem p hp) _ (hmem q hq) h)
    exact Prod.ext h1 h2
  · intro d hd
    obtain ⟨s, hs, rfl⟩ := List.mem_map.mp hd
    exact slotDigest_separate hfree (hmem₁ s hs) hsub₂
  · intro d hd
    obtain ⟨s, hs, rfl⟩ := List.mem_map.mp hd
    exact slotDigest_separate hfree (hmem₂ s hs) hsub₁

end Kohl.MembershipTree
