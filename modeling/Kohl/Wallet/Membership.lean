import Kohl.Crypto.FcmpSpec
import Kohl.Pallet.Types

/-!
# The wallet's view of the membership tree

`wallet/src/membership.rs`: the snapshot a transfer is proved under, the cache that holds it with
the tip it was built at, and `snapshot_from_frontier`. A failed `rebuild` leaves the cache as it was.

* `rebuildLoop_slots`: the digests of legible slots and their outputs give the ring of the slots.
* `snapshotFromFrontier_slots`: so the snapshot of a tree and its outputs is built.
-/

namespace Kohl.Wallet

open ByteLib MembershipTree Fcmp Pallet

inductive WalletError
  | notEnoughFunds (needed available : UInt64)
  | membershipIncomplete
  | membershipStale
  | treeTooLarge
  | crypto (what : String)
  | bounds
deriving DecidableEq, Repr

/-- The tree a spend is proved in: the root, the digests of all slots, and the admitted members. -/
structure MembershipSnapshot where
  root : Bytes32
  digests : List Bytes32
  admitted : List RingMember
deriving DecidableEq

/-- The last snapshot with the tip it was built at. -/
structure MembershipCache where
  tipHeight : ℕ
  snapshot : Option MembershipSnapshot
deriving DecidableEq

namespace MembershipCache

def new : MembershipCache := ⟨0, none⟩

def clear (_ : MembershipCache) : MembershipCache := ⟨0, none⟩

def root (cache : MembershipCache) : Option Bytes32 := cache.snapshot.map MembershipSnapshot.root

/-- The loop over the digests: a filled slot needs its output. -/
def rebuildLoop (hash : Bytes → Bytes32) (byIndex : StorageMap UInt64 StoredOutput) :
    List (Bytes32 × ℕ) → Except WalletError (List RingMember)
  | [] => .ok []
  | (d, i) :: rest =>
    if d = emptyLeafHash hash then rebuildLoop hash byIndex rest
    else
      match byIndex.get (UInt64.ofNat i) with
      | none => .error .membershipIncomplete
      | some out =>
        if leafHash hash out.oneTimeKey out.commitment ≠ d then .error .membershipIncomplete
        else (rebuildLoop hash byIndex rest).map
          (⟨out.oneTimeKey, out.commitment, UInt64.ofNat i⟩ :: ·)

/-- Replace the snapshot by the one of the digests; the outcome and the cache afterwards. -/
def rebuild (hash : Bytes → Bytes32) (cache : MembershipCache) (tipHeight : ℕ)
    (expectedRoot : Bytes32) (digests : List Bytes32) (byIndex : StorageMap UInt64 StoredOutput) :
    Except WalletError MembershipSnapshot × MembershipCache :=
  if MAX_FCMP_ANON_SET < digests.length then (.error .treeTooLarge, cache)
  else if rootFromLeaves hash digests ≠ expectedRoot then (.error .membershipStale, cache)
  else
    match rebuildLoop hash byIndex digests.zipIdx with
    | .error e => (.error e, cache)
    | .ok admitted =>
      let snapshot := ⟨expectedRoot, digests, admitted⟩
      (.ok snapshot, ⟨tipHeight, some snapshot⟩)

/-- Whether the tip went back, or the root or the number of slots moved. -/
def needsResync (cache : MembershipCache) (chainTip : ℕ) (chainRoot : Bytes32) (chainSlots : ℕ) :
    Bool :=
  match cache.snapshot with
  | none => true
  | some snap =>
    if chainTip < cache.tipHeight then true
    else if snap.root ≠ chainRoot then true
    else if snap.digests.length ≠ chainSlots then true
    else false

def resyncIfReorged (cache : MembershipCache) (chainTip : ℕ) (chainRoot : Bytes32)
    (chainSlots : ℕ) : Bool × MembershipCache :=
  if cache.needsResync chainTip chainRoot chainSlots then (true, cache.clear) else (false, cache)

/-- Every index is admitted. -/
def ensureSpendsAdmitted (cache : MembershipCache) (indices : List UInt64) :
    Except WalletError Unit :=
  match cache.snapshot with
  | none => .error .membershipIncomplete
  | some snap =>
    if indices.all fun idx => snap.admitted.any fun m => m.treeIndex == idx then .ok ()
    else .error .membershipIncomplete

end MembershipCache

/-- The outputs as a map; a later entry of an index replaces an earlier one. -/
def byIndex (outputs : List (UInt64 × StoredOutput)) : StorageMap UInt64 StoredOutput :=
  outputs.foldl (fun m x => m.insert x.1 x.2) .empty

def snapshotFromFrontier (hash : Bytes → Bytes32) (root : Bytes32) (digests : List Bytes32)
    (outputs : List (UInt64 × StoredOutput)) : Except WalletError MembershipSnapshot :=
  (MembershipCache.new.rebuild hash 0 root digests (byIndex outputs)).1

/-! ## Snapshots of a tree -/

namespace MembershipLemmas

theorem get_foldl_insert {outputs : List (UInt64 × StoredOutput)}
    {m : StorageMap UInt64 StoredOutput} {i : UInt64} {out : StoredOutput}
    (hmem : (i, out) ∈ outputs ∨ m.get i = some out)
    (huniq : ∀ out', (i, out') ∈ outputs → out' = out) :
    (outputs.foldl (fun m x => m.insert x.1 x.2) m).get i = some out := by
  induction outputs generalizing m with
  | nil => exact hmem.resolve_left List.not_mem_nil
  | cons x outputs ih =>
    refine ih ?_ fun out' hout' => huniq out' (List.mem_cons_of_mem _ hout')
    by_cases hx : x.1 = i
    · right
      have hout : x.2 = out := huniq x.2 (by rw [← hx]; exact List.mem_cons_self)
      rw [← hx, StorageMap.get_insert_self, hout]
    · rcases hmem with hmem | hmem
      · rcases List.mem_cons.mp hmem with rfl | hmem
        · exact absurd rfl hx
        · exact .inl hmem
      · right
        rw [StorageMap.get_insert_ne (Ne.symm hx), hmem]

/-- An index with one output is found under it. -/
theorem get_byIndex {outputs : List (UInt64 × StoredOutput)} {i : UInt64} {out : StoredOutput}
    (hmem : (i, out) ∈ outputs) (huniq : ∀ out', (i, out') ∈ outputs → out' = out) :
    (byIndex outputs).get i = some out :=
  get_foldl_insert (.inl hmem) huniq

/-- The loop over the digests of legible slots returns their ring, from any first index. -/
theorem rebuildLoop_zipIdx {hash : Bytes → Bytes32} {m : StorageMap UInt64 StoredOutput}
    {slots : List Slot} (hlegible : Legible hash slots) {k : ℕ}
    (hget : ∀ i p c, slots[i]? = some (some (p, c)) → ∃ out,
      m.get (UInt64.ofNat (k + i)) = some out ∧ out.oneTimeKey = p ∧ out.commitment = c) :
    MembershipCache.rebuildLoop hash m ((slots.map (slotDigest hash)).zipIdx k) =
      .ok ((slots.zipIdx k).filterMap fun x =>
        x.1.map fun pc => ⟨pc.1, pc.2, UInt64.ofNat x.2⟩) := by
  induction slots generalizing k with
  | nil => rfl
  | cons slot slots ih =>
    have hrest := ih (k := k + 1) (fun p c hpc => hlegible p c (List.mem_cons_of_mem _ hpc))
      fun i p c hi => by
        obtain ⟨out, hout, hpc⟩ := hget (i + 1) p c hi
        exact ⟨out, by rw [Nat.add_assoc, Nat.add_comm 1 i]; exact hout, hpc⟩
    rw [List.map_cons, List.zipIdx_cons, List.zipIdx_cons, MembershipCache.rebuildLoop]
    rcases slot with _ | ⟨p, c⟩
    · rw [if_pos (slotDigest_none hash), hrest]
      rfl
    · obtain ⟨out, hout, rfl, rfl⟩ := hget 0 p c rfl
      rw [Nat.add_zero] at hout
      rw [slotDigest_some, if_neg (hlegible _ _ List.mem_cons_self), hout]
      simp only [ne_eq, not_true_eq_false, if_false, hrest]
      rfl

end MembershipLemmas

open MembershipLemmas

/-- The root and the digests of a tree of at most 64 legible slots, with the outputs of its filled
slots, give the snapshot with the ring of the slots. -/
theorem snapshotFromFrontier_slots {hash : Bytes → Bytes32} {slots : List Slot}
    (hlegible : Legible hash slots) (hlen : slots.length ≤ MAX_FCMP_ANON_SET)
    {outputs : List (UInt64 × StoredOutput)}
    (hget : ∀ i p c, slots[i]? = some (some (p, c)) → ∃ out,
      (byIndex outputs).get (UInt64.ofNat i) = some out ∧ out.oneTimeKey = p ∧ out.commitment = c) :
    snapshotFromFrontier hash (rootFromLeaves hash (slots.map (slotDigest hash)))
        (slots.map (slotDigest hash)) outputs =
      .ok ⟨rootFromLeaves hash (slots.map (slotDigest hash)), slots.map (slotDigest hash),
        ringOfSlots slots⟩ := by
  have hloop := rebuildLoop_zipIdx (k := 0) hlegible
    fun i p c hi => by rw [Nat.zero_add]; exact hget i p c hi
  rw [snapshotFromFrontier, MembershipCache.rebuild, if_neg (by rw [List.length_map]; omega),
    if_neg (not_not.mpr rfl), hloop]
  rfl

end Kohl.Wallet
