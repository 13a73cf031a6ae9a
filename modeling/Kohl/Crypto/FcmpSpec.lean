import Mathlib.Data.List.Sort
import Mathlib.Data.List.Perm.Subperm
import Mathlib.Tactic.Abel
import Kohl.Crypto.Cyclic
import Kohl.Crypto.Fcmp

/-!
# What an FCMP0001 proof shows

The prover and the verifier check in different words that a ring lists the filled slots of a digest
vector: the prover by looking every digest up and counting, the verifier by a set of indices, an
ordering and a covering check. `RingOf` states what both decide, and `RingOf.exists_slots` reads it
as a list of slots whose ring and digests these are.

* `wire_bijection`: the wire format is a bijection between the proofs that encode and the strings that
  decode.
* `proveChecks_iff`, `verifyChecks_iff`: the two groups of checks are the same relation.
* `verify_eq_true_iff`: what an accepted proof has shown.
* `prove_total`, `prove_verify`: the prover always returns, and what it returns verifies.
* `verify_opens_uniquely`: without a hash collision a root is opened in one way only.
-/

namespace Kohl.Fcmp

open ByteLib MembershipTree FcmpLemmas

variable {l : ℕ} {Point : Type} [AddCommGroup Point] [Module (ZMod l) Point]

/-! ## Slots and rings -/

/-- The ring of a list of slots: its filled slots with their indices. -/
def ringOfSlots (slots : List Slot) : List RingMember :=
  slots.zipIdx.filterMap fun (s, i) => s.map fun (p, c) => ⟨p, c, UInt64.ofNat i⟩

/-- No filled slot has the digest of the placeholder. -/
def Legible (hash : Bytes → Bytes32) (slots : List Slot) : Prop :=
  ∀ p c, some (p, c) ∈ slots → leafHash hash p c ≠ emptyLeafHash hash

/-- `ring` lists the filled slots of `digests`, in the order of their indices. -/
structure RingOf (hash : Bytes → Bytes32) (digests : List Bytes32) (ring : List RingMember) :
    Prop where
  sorted : ring.Pairwise fun a b => a.treeIndex < b.treeIndex
  leaf : ∀ m ∈ ring,
    digests[m.treeIndex.toNat]? = some (leafHash hash m.oneTimeKey m.commitment)
  filled : ∀ m ∈ ring, leafHash hash m.oneTimeKey m.commitment ≠ emptyLeafHash hash
  covers : ∀ i d, digests[i]? = some d → d ≠ emptyLeafHash hash →
    ∃ m ∈ ring, m.treeIndex.toNat = i

/-- The slot a ring fills at an index. -/
def slotAt (ring : List RingMember) (i : ℕ) : Slot :=
  (ring.find? fun m => m.treeIndex.toNat == i).map fun m => (m.oneTimeKey, m.commitment)

namespace SpecLemmas

theorem toNat_ofNat {i n : ℕ} (hi : i < n) (hn : n ≤ 2 ^ 64) : (UInt64.ofNat i).toNat = i :=
  UInt64.toNat_ofNat_of_lt' (lt_of_lt_of_le hi hn)

theorem mem_ringOfSlots {slots : List Slot} (hlen : slots.length ≤ 2 ^ 64) {m : RingMember} :
    m ∈ ringOfSlots slots ↔ slots[m.treeIndex.toNat]? = some (some (m.oneTimeKey, m.commitment)) := by
  simp only [ringOfSlots, List.mem_filterMap, List.mem_zipIdx_iff_getElem?, Option.map_eq_some_iff]
  constructor
  · rintro ⟨⟨s, i⟩, hs, pc, rfl, rfl⟩
    rw [toNat_ofNat (List.getElem?_eq_some_iff.mp hs).1 hlen]
    exact hs
  · intro h
    refine ⟨(_, m.treeIndex.toNat), h, _, rfl, ?_⟩
    rw [UInt64.ofNat_toNat]

theorem sorted_ringOfSlots {slots : List Slot} (hlen : slots.length ≤ 2 ^ 64) :
    (ringOfSlots slots).Pairwise fun a b => a.treeIndex < b.treeIndex := by
  have hidx : slots.zipIdx.Pairwise fun a b => a.2 < b.2 := by
    rw [← List.pairwise_map, List.zipIdx_map_snd]
    exact List.pairwise_lt_range'
  refine (hidx.imp_of_mem (S := fun a b => a.2 < slots.length ∧ b.2 < slots.length ∧ a.2 < b.2)
    fun ha hb hab => ⟨?_, ?_, hab⟩).filterMap _ ?_
  · exact (List.getElem?_eq_some_iff.mp (List.mem_zipIdx_iff_getElem?.mp ha)).1
  · exact (List.getElem?_eq_some_iff.mp (List.mem_zipIdx_iff_getElem?.mp hb)).1
  · rintro ⟨s, i⟩ ⟨t, j⟩ ⟨hi, hj, hij⟩ m hm m' hm'
    obtain ⟨_, -, rfl⟩ := Option.map_eq_some_iff.mp hm
    obtain ⟨_, -, rfl⟩ := Option.map_eq_some_iff.mp hm'
    rw [UInt64.lt_iff_toNat_lt, toNat_ofNat hi hlen, toNat_ofNat hj hlen]
    exact hij

theorem length_ringOfSlots (slots : List Slot) :
    (ringOfSlots slots).length = slots.countP Option.isSome := by
  have h : slots.countP Option.isSome = slots.zipIdx.countP fun x => x.1.isSome := by
    conv_lhs => rw [← List.zipIdx_map_fst 0 slots, List.countP_map]
    rfl
  rw [ringOfSlots, List.length_filterMap_eq_countP, h]
  exact List.countP_congr fun x _ => by simp

/-- A ring with increasing indices finds each of its members. -/
theorem find?_of_mem {ring : List RingMember}
    (hs : ring.Pairwise fun a b => a.treeIndex < b.treeIndex) {m : RingMember} (hm : m ∈ ring) :
    ring.find? (fun m' => m'.treeIndex.toNat == m.treeIndex.toNat) = some m := by
  induction ring with
  | nil => exact absurd hm List.not_mem_nil
  | cons a ring ih =>
    rw [List.pairwise_cons] at hs
    rcases List.mem_cons.mp hm with rfl | hm
    · rw [List.find?_cons_of_pos (by simp)]
    · have hlt := UInt64.lt_iff_toNat_lt.mp (hs.1 m hm)
      rw [List.find?_cons_of_neg (by simp; omega), ih hs.2 hm]

theorem slotAt_eq_some {ring : List RingMember} {i : ℕ} {p c : Bytes32}
    (h : slotAt ring i = some (p, c)) :
    ∃ m ∈ ring, m.treeIndex.toNat = i ∧ m.oneTimeKey = p ∧ m.commitment = c := by
  obtain ⟨m, hm, hpc⟩ := Option.map_eq_some_iff.mp h
  rw [Prod.mk.injEq] at hpc
  exact ⟨m, List.mem_of_find?_eq_some hm, by simpa using List.find?_some hm, hpc⟩

end SpecLemmas

open SpecLemmas

/-- A ring of a digest vector is the ring of the slots it fills. -/
theorem RingOf.exists_slots {hash : Bytes → Bytes32} {digests : List Bytes32}
    {ring : List RingMember} (h : RingOf hash digests ring) (hlen : digests.length ≤ 2 ^ 64) :
    ∃ slots : List Slot, slots.length = digests.length ∧ digests = slots.map (slotDigest hash) ∧
      ring = ringOfSlots slots ∧ Legible hash slots := by
  have hslots : ∀ i, i < digests.length → ((List.range digests.length).map (slotAt ring))[i]? =
      some (slotAt ring i) := by
    intro i hi
    rw [List.getElem?_map, List.getElem?_range hi, Option.map_some]
  refine ⟨(List.range digests.length).map (slotAt ring), by simp, ?_, ?_, ?_⟩
  · refine List.ext_getElem? fun i => ?_
    rcases lt_or_ge i digests.length with hi | hi
    · rw [List.getElem?_map, hslots i hi, Option.map_some, List.getElem?_eq_getElem hi,
        Option.some.injEq]
      rcases hslot : slotAt ring i with _ | ⟨p, c⟩
      · -- the ring has no member here, so the digest is the placeholder
        by_contra hne
        obtain ⟨m, hm, hmi⟩ := h.covers i _ (List.getElem?_eq_getElem hi) hne
        rw [slotAt, ← hmi, find?_of_mem h.sorted hm] at hslot
        cases hslot
      · obtain ⟨m, hm, rfl, rfl, rfl⟩ := slotAt_eq_some hslot
        have hleaf := h.leaf m hm
        rw [List.getElem?_eq_getElem hi, Option.some.injEq] at hleaf
        exact hleaf
    · rw [List.getElem?_eq_none hi, List.getElem?_eq_none (by simpa using hi)]
  · refine List.Pairwise.eq_of_mem_iff h.sorted (sorted_ringOfSlots (by simpa using hlen)) fun m => ?_
    rw [mem_ringOfSlots (by simpa using hlen)]
    constructor
    · intro hm
      have hi : m.treeIndex.toNat < digests.length :=
        (List.getElem?_eq_some_iff.mp (h.leaf m hm)).1
      rw [hslots _ hi, slotAt, find?_of_mem h.sorted hm]
      rfl
    · intro hm
      have hi : m.treeIndex.toNat < digests.length := by
        simpa using (List.getElem?_eq_some_iff.mp hm).1
      rw [hslots _ hi, Option.some.injEq] at hm
      obtain ⟨m', hm', hidx, hp, hc⟩ := slotAt_eq_some hm
      have : m' = m := by
        cases m
        cases m'
        simp only [RingMember.mk.injEq] at hp hc ⊢
        exact ⟨hp, hc, UInt64.toNat_inj.mp hidx⟩
      exact this ▸ hm'
  · intro p c hpc
    obtain ⟨i, -, hi⟩ := List.mem_map.mp hpc
    obtain ⟨m, hm, -, rfl, rfl⟩ := slotAt_eq_some hi
    exact h.filled m hm

/-- The ring of legible slots is a ring of their digests. -/
theorem ringOf_ringOfSlots {hash : Bytes → Bytes32} {slots : List Slot}
    (hlen : slots.length ≤ 2 ^ 64) (h : Legible hash slots) :
    RingOf hash (slots.map (slotDigest hash)) (ringOfSlots slots) := by
  refine ⟨sorted_ringOfSlots hlen, fun m hm => ?_, fun m hm => ?_, fun i d hd hne => ?_⟩
  · rw [mem_ringOfSlots hlen] at hm
    rw [List.getElem?_map, hm]
    rfl
  · rw [mem_ringOfSlots hlen] at hm
    exact h _ _ (List.mem_of_getElem? hm)
  · rw [List.getElem?_map, Option.map_eq_some_iff] at hd
    obtain ⟨s, hs, rfl⟩ := hd
    rcases s with _ | ⟨p, c⟩
    · exact absurd rfl hne
    · have hi : i < slots.length := (List.getElem?_eq_some_iff.mp hs).1
      refine ⟨⟨p, c, UInt64.ofNat i⟩, (mem_ringOfSlots hlen).mpr ?_, ?_⟩
      · rw [toNat_ofNat hi hlen]
        exact hs
      · exact toNat_ofNat hi hlen

/-! ## The two groups of checks -/

namespace SpecLemmas

theorem strictlyIncreasing_iff {ring : List RingMember} :
    strictlyIncreasing ring = true ↔ ring.Pairwise fun a b => a.treeIndex < b.treeIndex := by
  rw [strictlyIncreasing, windowsAll_iff_pairwise]
  · simp
  · intro a b c hab hbc
    rw [decide_eq_true_eq] at *
    exact UInt64.lt_trans hab hbc

/-- The indices of the digests other than the placeholder. -/
def filledIndices (hash : Bytes → Bytes32) (digests : List Bytes32) : List ℕ :=
  (digests.zipIdx.filter fun x => decide (x.1 ≠ emptyLeafHash hash)).map Prod.snd

theorem length_filledIndices (hash : Bytes → Bytes32) (digests : List Bytes32) :
    (filledIndices hash digests).length = nonEmptyCount hash digests := by
  rw [filledIndices, List.length_map, ← List.countP_eq_length_filter, nonEmptyCount]
  conv_rhs => rw [← List.zipIdx_map_fst 0 digests, List.countP_map]
  rfl

theorem nodup_filledIndices (hash : Bytes → Bytes32) (digests : List Bytes32) :
    (filledIndices hash digests).Nodup := by
  have h : (digests.zipIdx.map Prod.snd).Nodup := by
    rw [List.zipIdx_map_snd]
    exact List.nodup_range'
  exact h.sublist (List.filter_sublist.map _)

theorem mem_filledIndices {hash : Bytes → Bytes32} {digests : List Bytes32} {i : ℕ} :
    i ∈ filledIndices hash digests ↔ ∃ d, digests[i]? = some d ∧ d ≠ emptyLeafHash hash := by
  simp only [filledIndices, List.mem_map, List.mem_filter, decide_eq_true_eq]
  constructor
  · rintro ⟨⟨d, j⟩, ⟨hd, hne⟩, rfl⟩
    exact ⟨d, List.mem_zipIdx_iff_getElem?.mp hd, hne⟩
  · rintro ⟨d, hd, hne⟩
    exact ⟨(d, i), ⟨List.mem_zipIdx_iff_getElem?.mpr hd, hne⟩, rfl⟩

/-- What the verifier's loop over the members checks, and the set it ends with. -/
theorem checkMembers_eq_some {hash : Bytes → Bytes32} {digests : List Bytes32}
    {ring : List RingMember} {seen out : List UInt64}
    (h : checkMembers hash digests ring seen = some out) :
    (∀ m ∈ ring, digests[m.treeIndex.toNat]? = some (leafHash hash m.oneTimeKey m.commitment) ∧
        leafHash hash m.oneTimeKey m.commitment ≠ emptyLeafHash hash) ∧
      ∀ i, i ∈ out ↔ i ∈ seen ∨ ∃ m ∈ ring, m.treeIndex = i := by
  induction ring generalizing seen with
  | nil =>
    rw [checkMembers, Option.some.injEq] at h
    subst h
    simp
  | cons a ring ih =>
    simp only [checkMembers] at h
    split at h
    · cases h
    split at h
    · cases h
    next hleaf =>
    rw [not_or, not_not] at hleaf
    obtain ⟨hall, hout⟩ := ih h
    refine ⟨fun m hm => ?_, fun i => ?_⟩
    · rcases List.mem_cons.mp hm with rfl | hm
      · exact hleaf
      · exact hall m hm
    · rw [hout, List.mem_cons, List.exists_mem_cons_iff, eq_comm (a := i), or_comm (b := i ∈ seen),
        or_assoc]

/-- The loop over the members of a ring of the digests ends. -/
theorem checkMembers_of_leaf {hash : Bytes → Bytes32} {digests : List Bytes32}
    {ring : List RingMember} {seen : List UInt64}
    (hs : ring.Pairwise fun a b => a.treeIndex < b.treeIndex)
    (hseen : ∀ m ∈ ring, m.treeIndex ∉ seen)
    (hleaf : ∀ m ∈ ring, digests[m.treeIndex.toNat]? =
      some (leafHash hash m.oneTimeKey m.commitment))
    (hfilled : ∀ m ∈ ring, leafHash hash m.oneTimeKey m.commitment ≠ emptyLeafHash hash) :
    ∃ out, checkMembers hash digests ring seen = some out := by
  induction ring generalizing seen with
  | nil => exact ⟨seen, rfl⟩
  | cons a ring ih =>
    rw [List.pairwise_cons] at hs
    have hin : a.treeIndex.toNat < digests.length :=
      (List.getElem?_eq_some_iff.mp (hleaf a List.mem_cons_self)).1
    simp only [checkMembers]
    rw [if_neg (not_or.mpr ⟨by omega, hseen a List.mem_cons_self⟩),
      if_neg (not_or.mpr ⟨not_not.mpr (hleaf a List.mem_cons_self), hfilled a List.mem_cons_self⟩)]
    refine ih hs.2 (fun m hm hmem => ?_) (fun m hm => hleaf m (.tail _ hm))
      fun m hm => hfilled m (.tail _ hm)
    rcases List.mem_cons.mp hmem with heq | hmem
    · exact UInt64.lt_irrefl _ (heq ▸ hs.1 m hm)
    · exact hseen m (.tail _ hm) hmem

theorem coversEveryLeaf_iff {hash : Bytes → Bytes32} {digests : List Bytes32} {seen : List UInt64} :
    coversEveryLeaf hash digests seen = true ↔
      ∀ i d, digests[i]? = some d → d ≠ emptyLeafHash hash → UInt64.ofNat i ∈ seen := by
  simp only [coversEveryLeaf, List.all_eq_true, Bool.or_eq_true, decide_eq_true_eq, Prod.forall,
    List.mk_mem_zipIdx_iff_getElem?]
  constructor
  · intro h i d hd hne
    exact (h d i hd).resolve_left hne
  · intro h d i hd
    exact or_iff_not_imp_left.mpr (h i d hd)

theorem findsEveryLeaf_iff {hash : Bytes → Bytes32} {digests : List Bytes32}
    {ring : List RingMember} :
    findsEveryLeaf hash digests ring = true ↔
      ∀ i d, digests[i]? = some d → d ≠ emptyLeafHash hash →
        ∃ m, ring.find? (fun m => m.treeIndex.toNat == i) = some m ∧
          leafHash hash m.oneTimeKey m.commitment = d := by
  simp only [findsEveryLeaf, List.all_eq_true, Bool.or_eq_true, decide_eq_true_eq, Prod.forall,
    List.mk_mem_zipIdx_iff_getElem?]
  constructor
  · intro h i d hd hne
    have := (h d i hd).resolve_left hne
    split at this
    · cases this
    next m hm => exact ⟨m, hm, of_decide_eq_true this⟩
  · intro h d i hd
    refine or_iff_not_imp_left.mpr fun hne => ?_
    obtain ⟨m, hm, hleaf⟩ := h i d hd hne
    simp only [hm, hleaf, decide_true]

theorem nodup_indices {ring : List RingMember}
    (hs : ring.Pairwise fun a b => a.treeIndex < b.treeIndex) :
    (ring.map fun m => m.treeIndex.toNat).Nodup := by
  rw [List.Nodup, List.pairwise_map]
  exact hs.imp fun h => (UInt64.lt_iff_toNat_lt.mp h).ne

/-- The filled indices of a digest vector are those of its ring, so there are as many. -/
theorem ringOf_count {hash : Bytes → Bytes32} {digests : List Bytes32}
    {ring : List RingMember} (h : RingOf hash digests ring) :
    nonEmptyCount hash digests = ring.length := by
  have hperm : (filledIndices hash digests).Perm (ring.map fun m => m.treeIndex.toNat) := by
    refine (List.perm_ext_iff_of_nodup (nodup_filledIndices hash digests)
      (nodup_indices h.sorted)).mpr fun i => ?_
    rw [mem_filledIndices, List.mem_map]
    constructor
    · rintro ⟨d, hd, hne⟩
      exact h.covers i d hd hne
    · rintro ⟨m, hm, rfl⟩
      exact ⟨_, h.leaf m hm, h.filled m hm⟩
  rw [← length_filledIndices, hperm.length_eq, List.length_map]

end SpecLemmas

/-- The prover's checks decide that the admitted list is the ring of the digests. -/
theorem proveChecks_iff {hash : Bytes → Bytes32} {digests : List Bytes32} {ring : List RingMember} :
    (findsEveryLeaf hash digests ring = true ∧ nonEmptyCount hash digests = ring.length ∧
      strictlyIncreasing ring = true) ↔ RingOf hash digests ring := by
  constructor
  · rintro ⟨hfind, hcount, hs⟩
    rw [findsEveryLeaf_iff] at hfind
    rw [strictlyIncreasing_iff] at hs
    have hcovers : ∀ i d, digests[i]? = some d → d ≠ emptyLeafHash hash →
        ∃ m ∈ ring, m.treeIndex.toNat = i := by
      intro i d hd hne
      obtain ⟨m, hm, -⟩ := hfind i d hd hne
      exact ⟨m, List.mem_of_find?_eq_some hm, by simpa using List.find?_some hm⟩
    -- as many members as filled indices, all of which are found: no member is outside them
    have hperm : (filledIndices hash digests).Perm (ring.map fun m => m.treeIndex.toNat) := by
      refine (List.subperm_of_subset (nodup_filledIndices hash digests) fun i hi => ?_).perm_of_length_le
        (by rw [List.length_map, length_filledIndices, hcount])
      obtain ⟨d, hd, hne⟩ := mem_filledIndices.mp hi
      exact List.mem_map.mpr (hcovers i d hd hne)
    have hmember : ∀ m ∈ ring, ∃ d, digests[m.treeIndex.toNat]? = some d ∧
        d ≠ emptyLeafHash hash ∧ leafHash hash m.oneTimeKey m.commitment = d := by
      intro m hm
      obtain ⟨d, hd, hne⟩ := mem_filledIndices.mp
        (hperm.mem_iff.mpr (List.mem_map.mpr ⟨m, hm, rfl⟩))
      obtain ⟨m', hm', hleaf⟩ := hfind _ d hd hne
      rw [find?_of_mem hs hm, Option.some.injEq] at hm'
      exact ⟨d, hd, hne, hm' ▸ hleaf⟩
    refine ⟨hs, fun m hm => ?_, fun m hm => ?_, hcovers⟩
    · obtain ⟨d, hd, -, hleaf⟩ := hmember m hm
      rw [hd, hleaf]
    · obtain ⟨d, -, hne, hleaf⟩ := hmember m hm
      rw [hleaf]
      exact hne
  · intro h
    refine ⟨findsEveryLeaf_iff.mpr fun i d hd hne => ?_, ringOf_count h, strictlyIncreasing_iff.mpr h.sorted⟩
    obtain ⟨m, hm, rfl⟩ := h.covers i d hd hne
    refine ⟨m, find?_of_mem h.sorted hm, ?_⟩
    have hleaf := h.leaf m hm
    rw [hd, Option.some.injEq] at hleaf
    exact hleaf.symm

/-- The verifier's checks decide that the ring of a proof is the ring of its digests. -/
theorem verifyChecks_iff {hash : Bytes → Bytes32} {digests : List Bytes32}
    {ring : List RingMember} (hlen : digests.length ≤ 2 ^ 64) :
    (nonEmptyCount hash digests = ring.length ∧ ∃ seen,
      checkMembers hash digests ring [] = some seen ∧ strictlyIncreasing ring = true ∧
      coversEveryLeaf hash digests seen = true) ↔ RingOf hash digests ring := by
  have hback : ∀ {i d}, digests[i]? = some d → (UInt64.ofNat i).toNat = i := fun hd =>
    toNat_ofNat (List.getElem?_eq_some_iff.mp hd).1 hlen
  constructor
  · rintro ⟨-, seen, hcheck, hs, hcovers⟩
    obtain ⟨hall, hseen⟩ := checkMembers_eq_some hcheck
    refine ⟨strictlyIncreasing_iff.mp hs, fun m hm => (hall m hm).1, fun m hm => (hall m hm).2,
      fun i d hd hne => ?_⟩
    rcases (hseen _).mp (coversEveryLeaf_iff.mp hcovers i d hd hne) with hnil | ⟨m, hm, hidx⟩
    · exact absurd hnil List.not_mem_nil
    · exact ⟨m, hm, by rw [hidx, hback hd]⟩
  · intro h
    obtain ⟨seen, hcheck⟩ := checkMembers_of_leaf h.sorted
      (fun m _ => List.not_mem_nil (a := m.treeIndex)) h.leaf h.filled
    refine ⟨ringOf_count h, seen, hcheck, strictlyIncreasing_iff.mpr h.sorted,
      coversEveryLeaf_iff.mpr fun i d hd hne => ?_⟩
    obtain ⟨m, hm, hidx⟩ := h.covers i d hd hne
    refine ((checkMembers_eq_some hcheck).2 _).mpr (.inr ⟨m, hm, ?_⟩)
    rw [← hidx, UInt64.ofNat_toNat]

/-! ## The codec and the verifier -/

/-- Decoding inverts encoding. -/
theorem decode_encode {p : FcmpProof} {b : Bytes} (h : p.encode = some b) :
    FcmpProof.decode b = some p := by
  obtain ⟨hfits, rfl, -⟩ := fitsWire_of_encode h
  exact decode_layout hfits

/-- Encoding inverts decoding: it fails on nothing that was decoded. -/
theorem encode_decode {b : Bytes} {p : FcmpProof} (h : FcmpProof.decode b = some p) :
    p.encode = some b := by
  rw [encode_of_fitsWire (fitsWire_of_decode h), layout_of_decode h]

/-- The wire format is a bijection between the proofs that encode and the strings that decode. The
strings are within the cap, two of them never decode alike, and none extends another. -/
theorem wire_bijection :
    (∀ p b, FcmpProof.encode p = some b →
      FcmpProof.decode b = some p ∧ b.length ≤ MAX_FCMP_PROOF_BYTES) ∧
    (∀ b p, FcmpProof.decode b = some p → FcmpProof.encode p = some b) ∧
    (∀ b b' p, FcmpProof.decode b = some p → FcmpProof.decode b' = some p → b = b') ∧
    ∀ b rest p, FcmpProof.decode b = some p → rest ≠ [] → FcmpProof.decode (b ++ rest) = none := by
  refine ⟨?_, ?_, ?_, ?_⟩
  · intro p b h
    exact ⟨decode_encode h, (fitsWire_of_encode h).2.2⟩
  · intro b p h
    exact encode_decode h
  · intro b b' p hb hb'
    have h := encode_decode hb
    rw [encode_decode hb'] at h
    exact (Option.some.inj h).symm
  · intro b rest p hb hne
    rcases hdec : FcmpProof.decode (b ++ rest) with _ | q
    · rfl
    · exact absurd (eq_nil_of_decode_append hb hdec) hne

/-- A proof of one slot with the shortest signature. -/
def oneSlotProof : FcmpProof where
  digests := [⟨List.replicate 32 1, rfl⟩]
  ring := [⟨⟨List.replicate 32 2, rfl⟩, ⟨List.replicate 32 3, rfl⟩, 0⟩]
  clsag := List.replicate 96 4

theorem wire_bijection_oneSlot : oneSlotProof.encode = some oneSlotProof.layout ∧
    FcmpProof.decode oneSlotProof.layout = some oneSlotProof ∧
    FcmpProof.decode (oneSlotProof.layout ++ [0]) = none := by
  have hfits : FitsWire oneSlotProof := ⟨by decide, by decide, by decide, by decide, rfl⟩
  have henc : oneSlotProof.encode = some oneSlotProof.layout := encode_of_fitsWire hfits
  have hdec := (wire_bijection.1 _ _ henc).1
  exact ⟨henc, hdec, wire_bijection.2.2.2 _ [0] _ hdec (List.cons_ne_nil _ _)⟩

/-- A proof with the tag of a transparent path does not decode. -/
theorem not_looksLikeTransparent_of_decode {b : Bytes} {p : FcmpProof}
    (h : FcmpProof.decode b = some p) : looksLikeTransparentPathEncoding b = false := by
  have htag : b.take 8 = PROOF_TAG := by
    unfold FcmpProof.decode at h
    split at h
    · cases h
    split at h
    · cases h
    next htag => exact not_not.mp htag
  rw [looksLikeTransparentPathEncoding, show TRANSPARENT_PATH_DEBUG_TAG.length = 8 from rfl, htag,
    show decide (PROOF_TAG = TRANSPARENT_PATH_DEBUG_TAG) = false from by decide, Bool.and_false]

/-- What an accepted proof has shown: the public inputs are well formed, the digests have the root,
the ring is theirs, and the CLSAG over it verifies. -/
theorem verify_eq_true_iff [DecidableEq Point] {E : CryptoLib l Point}
    {msg membershipRoot pseudoCommitment keyImage proof : Bytes} :
    verify E msg membershipRoot pseudoCommitment keyImage proof = true ↔
      msg.length = 32 ∧ proof.length ≤ MAX_FCMP_PROOF_BYTES ∧
      ∃ ki cprime parsed, Bytes32.ofBytes keyImage = some ki ∧
        Bytes32.ofBytes pseudoCommitment = some cprime ∧ Native.isValidPoint E ki = true ∧
        Native.isValidPoint E cprime = true ∧ FcmpProof.decode proof = some parsed ∧
        membershipRoot = (rootFromLeaves E.blake2_256 parsed.digests).val ∧
        RingOf E.blake2_256 parsed.digests parsed.ring ∧
        Clsag.verifyWithMax E msg (ringBlob parsed.ring) pseudoCommitment keyImage parsed.clsag
          Clsag.MAX_FCMP_RING = true := by
  constructor
  · intro h
    unfold verify at h
    split at h
    · cases h
    next hwf =>
    rw [not_not, publicInputsWellFormed] at hwf
    simp only [Bool.and_eq_true, decide_eq_true_eq] at hwf
    split at h
    · next ki cprime hki hc =>
      split at h
      · cases h
      next hvalid =>
      rw [not_or, not_not, not_not] at hvalid
      split at h
      · cases h
      split at h
      · cases h
      next parsed hparsed =>
      split at h
      · cases h
      next hroot =>
      split at h
      · cases h
      next hcount =>
      rw [not_or, not_not] at hcount
      split at h
      · cases h
      next seen hseen =>
      split at h
      · cases h
      next hs =>
      split at h
      · cases h
      next hcov =>
      have hlen := (fitsWire_of_decode hparsed).slots_le
      exact ⟨hwf.1.1.1.1, hwf.2, ki, cprime, parsed, hki, hc, hvalid.1, hvalid.2, hparsed,
        (not_not.mp hroot).symm, (verifyChecks_iff (by omega)).mp
          ⟨hcount.1, seen, hseen, not_not.mp hs, not_not.mp hcov⟩, h⟩
    · cases h
  · rintro ⟨hmsg, hproof, ki, cprime, parsed, hki, hc, hvki, hvc, hparsed, rfl, hring, hclsag⟩
    have hfits := fitsWire_of_decode hparsed
    obtain ⟨hcount, seen, hseen, hs, hcov⟩ :=
      (verifyChecks_iff (by have := hfits.slots_le; omega)).mpr hring
    have hempty : parsed.ring.isEmpty = false := by
      rw [List.isEmpty_eq_false_iff_exists_mem]
      exact List.exists_mem_of_length_pos hfits.ring_pos
    have hwf : publicInputsWellFormed msg (rootFromLeaves E.blake2_256 parsed.digests).val
        pseudoCommitment keyImage proof = true := by
      simp only [publicInputsWellFormed, Bool.and_eq_true, decide_eq_true_eq]
      refine ⟨⟨⟨⟨hmsg, Bytes32.length_val _⟩, ?_⟩, ?_⟩, hproof⟩
      · rw [← Bytes32.ofBytes_eq_some.mp hc, Bytes32.length_val]
      · rw [← Bytes32.ofBytes_eq_some.mp hki, Bytes32.length_val]
    simp only [verify, hwf, hki, hc, hvki, hvc, not_looksLikeTransparent_of_decode hparsed, hparsed,
      hcount, hempty, hseen, hs, hcov, hclsag, not_true_eq_false, ne_eq, or_self, if_false,
      Bool.false_eq_true]

/-! ## Completeness -/

namespace SpecLemmas

theorem exists_of_any {ε α : Type} {o : Except ε (Option α)} {f : α → Bool}
    (h : o.toOption.join.any f = true) : ∃ r, o = .ok (some r) ∧ f r = true := by
  obtain ⟨r, hr, hf⟩ := (Option.any_eq_true _ _).mp h
  refine ⟨r, ?_, hf⟩
  cases o with
  | error e => cases hr
  | ok o =>
    cases hr
    rfl

/-- What the prover has checked when it returns a proof. -/
theorem prove_eq_some [DecidableEq Point] {E : CryptoLib l Point} {nonces : Clsag.Nonces l}
    {msg : Bytes32} {w : ProveWitness} {r : ProveResult}
    (h : prove E nonces msg w = .ok (some r)) :
    RingOf E.blake2_256 w.digests w.admitted ∧ ∃ clsag,
      Clsag.signWithMax E nonces msg.val (ringBlob w.admitted) w.realIndex w.secretKey
        w.inputBlinding w.pseudoBlinding Clsag.MAX_FCMP_RING = .ok (some clsag) ∧
      FcmpProof.encode ⟨w.digests, w.admitted, clsag.signature⟩ = some r.proof ∧
      r.keyImage = clsag.keyImage ∧ r.pseudoCommitment = clsag.pseudoCommitment := by
  simp only [prove] at h
  split at h
  · cases h
  split at h
  · cases h
  next hfind =>
  split at h
  · cases h
  next hcount =>
  split at h
  · cases h
  next hs =>
  refine ⟨proveChecks_iff.mp ⟨not_not.mp hfind, not_not.mp hcount, not_not.mp hs⟩, ?_⟩
  split at h
  · cases h
  · cases h
  next clsag hclsag =>
  split at h
  · cases h
  next bytes hbytes =>
  rw [Except.ok.injEq, Option.some.injEq] at h
  subst h
  exact ⟨clsag, hclsag, hbytes, rfl, rfl⟩

omit [AddCommGroup Point] [Module (ZMod l) Point] in
/-- The points of a ring blob are those of its members. -/
theorem parseRing_ringBlob {E : CryptoLib l Point} {ring : List RingMember} {maxN : ℕ}
    {keys commitments : List Point} :
    Clsag.parseRing E (ringBlob ring) maxN = some (keys, commitments) ↔
      0 < ring.length ∧ ring.length ≤ maxN ∧
      collect (fun m => E.decompress m.oneTimeKey) ring = some keys ∧
      collect (fun m => E.decompress m.commitment) ring = some commitments := by
  have hlen := length_ringBlob ring
  have hdiv : (ringBlob ring).length / 64 = ring.length := by omega
  have hempty : (ringBlob ring).isEmpty = decide (ring.length = 0) := by
    rw [Bool.eq_iff_iff, List.isEmpty_iff_length_eq_zero, decide_eq_true_eq, hlen]
    omega
  have hchunks : chunksExact 64 (ringBlob ring) =
      ring.map fun m => m.oneTimeKey.val ++ m.commitment.val := by
    rw [ringBlob, List.flatMap_def, chunksExact_flatten (by omega) (by simp)]
  have hpair : (Clsag.parsePair E ∘ fun m : RingMember => m.oneTimeKey.val ++ m.commitment.val) =
      fun m => (E.decompress m.oneTimeKey).bind fun x =>
        (E.decompress m.commitment).map fun y => (x, y) := by
    funext m
    simp [Clsag.parsePair, Clsag.decompress, List.take_left', List.drop_left']
  simp only [Clsag.parseRing, hempty, hdiv, hchunks, collect_map, hpair]
  constructor
  · intro h
    split at h
    · cases h
    split at h
    · cases h
    next hn =>
    exact ⟨by omega, by omega, unzip_collect_eq_some.mp h⟩
  · rintro ⟨hpos, hle, h⟩
    have hmod : (ringBlob ring).length % 64 = 0 := by omega
    rw [if_neg (by simp [hmod, hpos.ne']), if_neg (by omega)]
    exact unzip_collect_eq_some.mpr h

omit [Module (ZMod l) Point] in
/-- The ring behind an FCMP signature: the real member's key and commitment are its points. -/
theorem getD_of_parseRing {E : CryptoLib l Point} {ring : List RingMember} {maxN i : ℕ}
    {keys commitments : List Point} {m : RingMember}
    (h : Clsag.parseRing E (ringBlob ring) maxN = some (keys, commitments))
    (hm : ring[i]? = some m) :
    E.decompress m.oneTimeKey = some (keys.getD i 0) ∧
      E.decompress m.commitment = some (commitments.getD i 0) := by
  obtain ⟨-, -, hk, hc⟩ := parseRing_ringBlob.mp h
  obtain ⟨k, hki, hkm⟩ := getElem?_of_collect hk hm
  obtain ⟨c, hci, hcm⟩ := getElem?_of_collect hc hm
  rw [List.getD_eq_getElem?_getD, List.getD_eq_getElem?_getD, hki, hci]
  exact ⟨hkm, hcm⟩

omit [Module (ZMod l) Point] in
theorem isValidPoint_compress [DecidableEq Point] {E : CryptoLib l Point} (hE : E.Canonical)
    {p : Point} : Native.isValidPoint E (E.compress p) = true ↔ p ≠ 0 := by
  rw [Native.isValidPoint, hE.decompress_compress]
  exact decide_eq_true_iff

/-- The key image of a proof is the one of the secret key. -/
theorem keyImage_of_prove [DecidableEq Point] {E : CryptoLib l Point} (hE : E.Canonical)
    {nonces : Clsag.Nonces l} {msg : Bytes32} {w : ProveWitness} {r : ProveResult}
    (h : prove E nonces msg w = .ok (some r)) :
    Clsag.keyImage E w.secretKey = some r.keyImage := by
  obtain ⟨-, clsag, hsign, -, hki, -⟩ := prove_eq_some h
  obtain ⟨keys, commitments, x, -, -, hparse, hreal, hx, hkey, -, -, hI, -⟩ :=
    Clsag.signWithMax_spec hsign
  rw [Clsag.keyImage, hx, Option.map_some, hki, hI,
    Clsag.ClsagLemmas.keyBytes_of_parseRing hE hparse hreal, hkey]

/-- The pseudo-commitment of a proof commits to the amount of the spent member. -/
theorem pseudoCommitment_of_prove [DecidableEq Point] {E : CryptoLib l Point} (hE : E.Canonical)
    {nonces : Clsag.Nonces l} {msg : Bytes32} {w : ProveWitness} {r : ProveResult}
    (h : prove E nonces msg w = .ok (some r)) {a : UInt64} {m : RingMember}
    (hm : w.admitted[w.realIndex]? = some m)
    (hcommit : Native.commit E a w.inputBlinding = some m.commitment) :
    Native.commit E a w.pseudoBlinding = some r.pseudoCommitment := by
  obtain ⟨-, clsag, hsign, -, -, hpc⟩ := prove_eq_some h
  obtain ⟨keys, commitments, x, xIn, xPseudo, hparse, -, -, -, hIn, hPseudo, -, hC, -⟩ :=
    Clsag.signWithMax_spec hsign
  obtain ⟨-, hdec⟩ := getD_of_parseRing hparse hm
  rw [Native.commit, hIn, Option.map_some, Option.some.injEq] at hcommit
  rw [← hcommit, hE.decompress_compress, Option.some.injEq] at hdec
  rw [Native.commit, hPseudo, Option.map_some, hpc, hC, ← hdec, CryptoLib.pcCommit,
    CryptoLib.pcCommit, sub_smul]
  congr 2
  abel

/-- A proof whose key image and pseudo-commitment are not the identity verifies. -/
theorem verify_of_prove [DecidableEq Point] {E : CryptoLib l Point} (hE : E.Canonical)
    (hS : E.CanonicalScalars) {nonces : Clsag.Nonces l} {msg : Bytes32} {w : ProveWitness}
    {r : ProveResult} (h : prove E nonces msg w = .ok (some r))
    (hki : r.keyImage ≠ E.compress 0) (hpc : r.pseudoCommitment ≠ E.compress 0) :
    verify E msg.val (rootFromLeaves E.blake2_256 w.digests).val r.pseudoCommitment.val
      r.keyImage.val r.proof = true := by
  obtain ⟨hring, clsag, hsign, hencode, hki', hpc'⟩ := prove_eq_some h
  obtain ⟨keys, commitments, x, xIn, xPseudo, -, -, -, -, -, -, hI, hC, -, hverify⟩ :=
    Clsag.signWithMax_spec hsign
  have hfits := fitsWire_of_encode hencode
  rw [hki'] at hki ⊢
  rw [hpc'] at hpc ⊢
  refine verify_eq_true_iff.mpr ⟨Bytes32.length_val _, hfits.2.2, clsag.keyImage,
    clsag.pseudoCommitment, _, Bytes32.ofBytes_val _, Bytes32.ofBytes_val _, ?_, ?_,
    decode_encode hencode, rfl, hring, ?_⟩
  · rw [hI, isValidPoint_compress hE]
    exact fun h0 => hki (by rw [hI, h0])
  · rw [hC, isValidPoint_compress hE]
    exact fun h0 => hpc (by rw [hC, h0])
  · exact hverify hE hS (Bytes32.length_val _) fun h0 => hki (by rw [hI, h0])

end SpecLemmas

/-- The prover always returns: neither the signer's loop nor its `expect` fails. -/
theorem prove_total [DecidableEq Point] (E : CryptoLib l Point) (nonces : Clsag.Nonces l)
    (msg : Bytes32) (w : ProveWitness) : ∃ o, prove E nonces msg w = .ok o := by
  obtain ⟨o, ho⟩ := Clsag.signWithMax_total E nonces msg.val (ringBlob w.admitted) w.realIndex
    w.secretKey w.inputBlinding w.pseudoBlinding Clsag.MAX_FCMP_RING
  simp only [prove, ho]
  repeat' split
  all_goals first
    | exact ⟨_, rfl⟩
    | exact absurd ‹_› (by simp)

/-- The prover succeeds on every ring of the digests whose points decode, for a secret and an input
blinding that belong to the real member. -/
theorem prove_complete [DecidableEq Point] {E : CryptoLib l Point} (nonces : Clsag.Nonces l)
    (msg : Bytes32) {w : ProveWitness} {keys commitments : List Point} {x xIn xPseudo : ZMod l}
    (hring : RingOf E.blake2_256 w.digests w.admitted) (hslots : w.digests.length ≤ 64)
    (hparse : Clsag.parseRing E (ringBlob w.admitted) Clsag.MAX_FCMP_RING = some (keys, commitments))
    (hreal : w.realIndex < w.admitted.length) (hx : E.scalarFromCanonicalBytes w.secretKey = some x)
    (hkey : keys.getD w.realIndex 0 = x • E.G)
    (hIn : E.scalarFromCanonicalBytes w.inputBlinding = some xIn)
    (hPseudo : E.scalarFromCanonicalBytes w.pseudoBlinding = some xPseudo) :
    ∃ r, prove E nonces msg w = .ok (some r) := by
  obtain ⟨hfind, hcount, hs⟩ := proveChecks_iff.mpr hring
  obtain ⟨hpos, hle, hkeys, -⟩ := parseRing_ringBlob.mp hparse
  have hlen : keys.length = w.admitted.length := length_of_collect hkeys
  have hcard : w.admitted.length ≤ w.digests.length := by
    rw [← hcount]
    exact List.countP_le_length
  obtain ⟨clsag, hclsag⟩ := Clsag.signWithMax_complete nonces msg.val hparse (by omega) hx hkey hIn
    hPseudo
  obtain ⟨keys', commitments', -, -, -, hparse', -, -, -, -, -, -, -, hsig, -⟩ :=
    Clsag.signWithMax_spec hclsag
  rw [hparse, Option.some.injEq, Prod.mk.injEq] at hparse'
  rw [← hparse'.1, hlen] at hsig
  obtain ⟨bytes, hencode⟩ : ∃ bytes, FcmpProof.encode ⟨w.digests, w.admitted, clsag.signature⟩ =
      some bytes := ⟨_, encode_of_fitsWire ⟨hpos.trans_le hcard, hslots, hpos, hcard, hsig⟩⟩
  have hanon : MAX_FCMP_ANON_SET = 64 := rfl
  refine ⟨⟨bytes, clsag.keyImage, clsag.pseudoCommitment⟩, ?_⟩
  simp only [prove]
  rw [if_neg (by omega), if_neg (not_not.mpr hfind), if_neg (not_not.mpr hcount),
    if_neg (not_not.mpr hs), hclsag]
  simp only [hencode]

/-- Whatever the prover returns verifies: over any group with canonical encodings and any hashes,
for every tree, ring, real position and random scalars. Its key image is the one of the secret key
alone, and its pseudo-commitment commits to the amount of the spent member. -/
theorem prove_verify [DecidableEq Point] (E : CryptoLib l Point) (hE : E.Canonical)
    (hS : E.CanonicalScalars) (nonces : Clsag.Nonces l) (msg : Bytes32) (w : ProveWitness) :
    (∃ o, prove E nonces msg w = .ok o) ∧ ∀ r, prove E nonces msg w = .ok (some r) →
      Clsag.keyImage E w.secretKey = some r.keyImage ∧
      (∀ a m, w.admitted[w.realIndex]? = some m →
        Native.commit E a w.inputBlinding = some m.commitment →
        Native.commit E a w.pseudoBlinding = some r.pseudoCommitment) ∧
      (r.keyImage ≠ E.compress 0 → r.pseudoCommitment ≠ E.compress 0 →
        verify E msg.val (rootFromLeaves E.blake2_256 w.digests).val r.pseudoCommitment.val
          r.keyImage.val r.proof = true) :=
  ⟨prove_total E nonces msg w, fun _ h => ⟨keyImage_of_prove hE h,
    fun _ _ hm hcommit => pseudoCommitment_of_prove hE h hm hcommit,
    fun hki hpc => verify_of_prove hE hS h hki hpc⟩⟩

/-- A placeholder and the output of the secret five, with value three and blinding seven. -/
def twoSlots : List Slot :=
  [none, some (Cyclic.toBytes (Cyclic.scalarOf 5),
    Cyclic.commitment 3 (Cyclic.scalarOf 7))]

def twoSlotsWitness : ProveWitness where
  digests := twoSlots.map (slotDigest (cyclic ristrettoOrder).blake2_256)
  admitted := ringOfSlots twoSlots
  realIndex := 0
  secretKey := Cyclic.toBytes (Cyclic.scalarOf 5)
  inputBlinding := Cyclic.toBytes (Cyclic.scalarOf 7)
  pseudoBlinding := Cyclic.toBytes (Cyclic.scalarOf 9)

/-- The proof of the spend, for the message of 32 zero bytes. -/
def twoSlotsSpend : Except Clsag.Fault (Option ProveResult) :=
  prove (cyclic ristrettoOrder) ⟨Cyclic.scalarOf 11, fun _ => Cyclic.scalarOf 13⟩ (Cyclic.toBytes (Cyclic.scalarOf 0))
    twoSlotsWitness

/-- The proof is found, and neither the key image nor the pseudo-commitment is the identity. -/
theorem SpecLemmas.exists_twoSlotsSpend : ∃ r, twoSlotsSpend = .ok (some r) ∧
    r.keyImage ≠ (cyclic ristrettoOrder).compress 0 ∧
      r.pseudoCommitment ≠ (cyclic ristrettoOrder).compress 0 := by
  have hcheck : twoSlotsSpend.toOption.join.any (fun r =>
      decide (r.keyImage ≠ (cyclic ristrettoOrder).compress 0) &&
        decide (r.pseudoCommitment ≠ (cyclic ristrettoOrder).compress 0)) = true := by
    decide +kernel
  obtain ⟨r, hr, hne⟩ := exists_of_any hcheck
  rw [Bool.and_eq_true, decide_eq_true_eq, decide_eq_true_eq] at hne
  exact ⟨r, hr, hne⟩

theorem prove_verify_twoSlots : ∃ r, twoSlotsSpend = .ok (some r) ∧
    verify (cyclic ristrettoOrder) (Cyclic.toBytes (Cyclic.scalarOf 0)).val
      (rootFromLeaves (cyclic ristrettoOrder).blake2_256 twoSlotsWitness.digests).val
      r.pseudoCommitment.val r.keyImage.val r.proof = true := by
  obtain ⟨r, hr, hkeyImage, hpseudo⟩ := exists_twoSlotsSpend
  have hl : ristrettoOrder ≤ 2 ^ 256 := by decide
  exact ⟨r, hr, ((prove_verify (cyclic ristrettoOrder) (cyclic_canonical hl)
    (cyclic_canonicalScalars hl) _ _ _).2 r hr).2.2 hkeyImage hpseudo⟩

/-! ## A root is opened in one way only -/

/-- The tree preimages the verifier hashes for a proof. -/
def proofPreimages (hash : Bytes → Bytes32) (proof : Bytes) : List Bytes :=
  match FcmpProof.decode proof with
  | none => []
  | some parsed =>
    FCMP_EMPTY_LEAF_DOM :: FCMP_MERKLE_EMPTY_DOM ::
      parsed.ring.map (fun m => leafPreimage m.oneTimeKey m.commitment) ++
      (Merkle.pairs (merkleNodeHash hash) (merkleEmptyChild hash) parsed.digests).map
        fun p => nodePreimage p.1 p.2

namespace SpecLemmas

theorem treePreimages_subset {hash : Bytes → Bytes32} {proof : Bytes} {parsed : FcmpProof}
    {slots : List Slot} (hparsed : FcmpProof.decode proof = some parsed)
    (hd : parsed.digests = slots.map (slotDigest hash)) (hr : parsed.ring = ringOfSlots slots)
    (hlen : slots.length ≤ 2 ^ 64) : treePreimages hash slots ⊆ proofPreimages hash proof := by
  intro x hx
  simp only [treePreimages, List.mem_cons, List.mem_append, List.cons_append, List.mem_map] at hx
  simp only [proofPreimages, hparsed, List.mem_cons, List.mem_append, List.cons_append,
    List.mem_map, hd]
  rcases hx with hx | hx | ⟨s, hs, rfl⟩ | hx
  · exact .inl hx
  · exact .inr (.inl hx)
  · rcases s with _ | ⟨p, c⟩
    · exact .inl rfl
    · obtain ⟨i, hi⟩ := List.mem_iff_getElem?.mp hs
      refine .inr (.inr (.inl ⟨⟨p, c, UInt64.ofNat i⟩, ?_, rfl⟩))
      rw [hr, mem_ringOfSlots hlen, toNat_ofNat (List.getElem?_eq_some_iff.mp hi).1 hlen]
      exact hi
  · exact .inr (.inr (.inr hx))

/-- What is hashed for a proof that was made over `slots` is hashed for their tree. -/
theorem proofPreimages_subset [DecidableEq Point] {E : CryptoLib l Point} {nonces : Clsag.Nonces l}
    {msg : Bytes32} {w : ProveWitness} {r : ProveResult} {slots : List Slot}
    (h : prove E nonces msg w = .ok (some r)) (hd : w.digests = slots.map (slotDigest E.blake2_256))
    (hr : w.admitted = ringOfSlots slots) (hlen : slots.length ≤ 2 ^ 64) :
    proofPreimages E.blake2_256 r.proof ⊆ treePreimages E.blake2_256 slots := by
  obtain ⟨-, clsag, -, hencode, -, -⟩ := prove_eq_some h
  intro x hx
  simp only [proofPreimages, decode_encode hencode, List.mem_cons, List.mem_append, List.cons_append,
    List.mem_map, hd] at hx
  simp only [treePreimages, List.mem_cons, List.mem_append, List.cons_append, List.mem_map]
  rcases hx with hx | hx | ⟨m, hm, rfl⟩ | hx
  · exact .inl hx
  · exact .inr (.inl hx)
  · rw [hr, mem_ringOfSlots hlen] at hm
    exact .inr (.inr (.inl ⟨some (m.oneTimeKey, m.commitment), List.mem_of_getElem? hm, rfl⟩))
  · exact .inr (.inr (.inr hx))

/-- A proof accepted under the root of `slots` carries their digests and their ring. -/
theorem slots_of_verify [DecidableEq Point] {E : CryptoLib l Point} {slots : List Slot}
    {msg pseudoCommitment keyImage proof : Bytes}
    (hfree : CollisionFree E.blake2_256
      (treePreimages E.blake2_256 slots ++ proofPreimages E.blake2_256 proof))
    (h : verify E msg (rootFromLeaves E.blake2_256 (slots.map (slotDigest E.blake2_256))).val
      pseudoCommitment keyImage proof = true) :
    ∃ clsag, FcmpProof.decode proof =
        some ⟨slots.map (slotDigest E.blake2_256), ringOfSlots slots, clsag⟩ ∧
      slots.length ≤ 64 ∧
      Clsag.verifyWithMax E msg (ringBlob (ringOfSlots slots)) pseudoCommitment keyImage clsag
        Clsag.MAX_FCMP_RING = true := by
  obtain ⟨-, -, ki, cprime, parsed, -, -, -, -, hparsed, hroot, hring, hclsag⟩ :=
    verify_eq_true_iff.mp h
  have hlen := (fitsWire_of_decode hparsed).slots_le
  obtain ⟨slots', hlen', hd, hr, -⟩ := hring.exists_slots (by omega)
  rw [hd] at hroot
  have hslots : slots = slots' := by
    refine slots_unique (hfree.mono (List.append_subset.mpr ⟨List.subset_append_left _ _, ?_⟩))
      (Subtype.ext hroot)
    exact fun x hx => List.mem_append_right _ (treePreimages_subset hparsed hd hr (by omega) hx)
  subst hslots
  refine ⟨parsed.clsag, ?_, by omega, ?_⟩
  · rw [hparsed, ← hd, ← hr]
  · rw [← hr]
    exact hclsag

end SpecLemmas

/-- A membership root is opened in one way only: without a hash collision among the preimages of the
tree and of the proof, an accepted proof carries the digests of the tree, as many and in the same
order, and its ring lists the filled slots, each once and in increasing order. -/
theorem verify_opens_uniquely [DecidableEq Point] (E : CryptoLib l Point) (slots : List Slot)
    (msg pseudoCommitment keyImage proof : Bytes)
    (hfree : CollisionFree E.blake2_256
      (treePreimages E.blake2_256 slots ++ proofPreimages E.blake2_256 proof))
    (h : verify E msg (rootFromLeaves E.blake2_256 (slots.map (slotDigest E.blake2_256))).val
      pseudoCommitment keyImage proof = true) :
    ∃ parsed, FcmpProof.decode proof = some parsed ∧
      parsed.digests = slots.map (slotDigest E.blake2_256) ∧
      parsed.ring.Pairwise (fun a b => a.treeIndex < b.treeIndex) ∧
      ∀ m, m ∈ parsed.ring ↔
        slots[m.treeIndex.toNat]? = some (some (m.oneTimeKey, m.commitment)) := by
  obtain ⟨clsag, hparsed, hlen, -⟩ := slots_of_verify hfree h
  exact ⟨_, hparsed, rfl, sorted_ringOfSlots (by omega), fun m => mem_ringOfSlots (by omega)⟩

theorem verify_opens_uniquely_twoSlots : ∃ r parsed, twoSlotsSpend = .ok (some r) ∧
    FcmpProof.decode r.proof = some parsed ∧
    parsed.digests = twoSlots.map (slotDigest (cyclic ristrettoOrder).blake2_256) := by
  obtain ⟨r, hr, hkeyImage, hpseudo⟩ := exists_twoSlotsSpend
  have hl : ristrettoOrder ≤ 2 ^ 256 := by decide
  have htree : CollisionFree (cyclic ristrettoOrder).blake2_256
      (treePreimages (cyclic ristrettoOrder).blake2_256 twoSlots) := by
    decide +kernel
  have hfree := htree.mono (List.append_subset.mpr ⟨List.Subset.refl _,
    proofPreimages_subset hr rfl rfl (by decide)⟩)
  obtain ⟨parsed, hparsed, hdigests, -⟩ := verify_opens_uniquely (cyclic ristrettoOrder) twoSlots
    _ _ _ _ hfree (verify_of_prove (cyclic_canonical hl) (cyclic_canonicalScalars hl) hr hkeyImage hpseudo)
  exact ⟨r, parsed, hr, hparsed, hdigests⟩

end Kohl.Fcmp
