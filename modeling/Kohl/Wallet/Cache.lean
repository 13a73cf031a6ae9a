import Kohl.Pallet.Calls
import Kohl.Wallet.Membership

/-!
# The membership cache

`wallet/src/rpc.rs` fetches the root, the number of slots, the digests and the outputs in separate
calls, between which the chain may move; each answer is arbitrary here, and each call may fail. What a
snapshot is built from is checked against the root it was fetched with, whatever it was mixed from.

* `rebuild_eq_ok`: what a rebuilt snapshot looks like.
* `ring_unique`, `Valid.digests_unique`: a root and a number of slots determine the digests, and the
  digests the ring, as far as the hash has no collisions.
* `ensureSpendsAdmitted_iff`: what the check before a spend says about the tree.
* `membership_cache_never_wrong`: the results of the cache and of the calls that fill it.
-/

namespace Kohl.Wallet

open ByteLib Run MembershipTree Fcmp Pallet CallLemmas MembershipCache

/-! ## The calls that fill the cache -/

/-- The answers of a node to the calls of `membership_snapshot`. -/
structure SnapshotAnswers where
  membershipRoot : Except String Bytes32
  treeSlots : Except String UInt64
  membershipFrontier : Except String (List Bytes32)
  membershipLeafDigest : UInt64 → Except String (Option Bytes32)

/-- The answers to the calls of `refresh_membership_cache` before it asks for a snapshot. -/
structure TipAnswers where
  bestNumber : Except String ℕ
  membershipRoot : Except String Bytes32
  treeSlots : Except String UInt64

/-- How a call of the client ends without a result: the node, the wallet's own error, or an `expect`
that fires. -/
inductive RpcFailure
  | rpc (text : String)
  | wallet (e : WalletError)
  | panicked (text : String)

/-- An answer, or the failure of the call. -/
def answered {α : Type} : Except String α → Except RpcFailure α
  | .ok a => .ok a
  | .error text => .error (.rpc text)

/-- The fallback: one digest call per slot. -/
def slotBySlot (hash : Bytes → Bytes32) (answers : SnapshotAnswers) (slots : UInt64) :
    Except RpcFailure (List Bytes32) :=
  tryMap (fun i => (answered (answers.membershipLeafDigest (UInt64.ofNat i))).map
    fun digest => digest.getD (emptyLeafHash hash)) (List.range slots.toNat)

/-- The digests: the frontier if it has as many as there are slots. -/
def fetchDigests (hash : Bytes → Bytes32) (answers : SnapshotAnswers) (slots : UInt64) :
    Except RpcFailure (List Bytes32) :=
  match answers.membershipFrontier with
  | .ok digests =>
    if UInt64.ofNat digests.length = slots then .ok digests else slotBySlot hash answers slots
  | .error _ => slotBySlot hash answers slots

def membershipSnapshot (hash : Bytes → Bytes32) (answers : SnapshotAnswers)
    (allOutputs : List (UInt64 × StoredOutput)) : Except RpcFailure MembershipSnapshot := do
  let root ← answered answers.membershipRoot
  let slots ← answered answers.treeSlots
  let digests ← fetchDigests hash answers slots
  (snapshotFromFrontier hash root digests allOutputs).mapError .wallet

/-- `refresh_membership_cache` behind its first three calls. -/
def refreshAt (hash : Bytes → Bytes32) (answers : SnapshotAnswers)
    (allOutputs : List (UInt64 × StoredOutput)) (cache : MembershipCache) (tip : ℕ) (root : Bytes32)
    (slots : UInt64) : Except RpcFailure MembershipSnapshot × MembershipCache :=
  let resync := cache.resyncIfReorged tip root slots.toNat
  if resync.1 || resync.2.snapshot.isNone then
    match membershipSnapshot hash answers allOutputs with
    | .error e => (.error e, resync.2)
    | .ok snap =>
      let rebuilt := resync.2.rebuild hash tip snap.root snap.digests (byIndex allOutputs)
      match rebuilt.1 with
      | .error e => (.error (.wallet e), rebuilt.2)
      | .ok _ => (populated rebuilt.2, rebuilt.2)
  else (populated resync.2, resync.2)
where
  /-- `cache.snapshot().expect("populated").clone()`. -/
  populated (cache : MembershipCache) : Except RpcFailure MembershipSnapshot :=
    match cache.snapshot with
    | some snap => .ok snap
    | none => .error (.panicked "populated")

def refreshMembershipCache (hash : Bytes → Bytes32) (tipAnswers : TipAnswers)
    (answers : SnapshotAnswers) (allOutputs : List (UInt64 × StoredOutput)) (cache : MembershipCache) :
    Except RpcFailure MembershipSnapshot × MembershipCache :=
  match tipAnswers.bestNumber, tipAnswers.membershipRoot, tipAnswers.treeSlots with
  | .ok tip, .ok root, .ok slots => refreshAt hash answers allOutputs cache tip root slots
  | .error text, _, _ => (.error (.rpc text), cache)
  | _, .error text, _ => (.error (.rpc text), cache)
  | _, _, .error text => (.error (.rpc text), cache)

/-! ## Valid snapshots -/

/-- A snapshot that a spend can be proved in: its digests have its root, and it lists the filled slots
in the order of their indices with the key and the commitment of each. -/
structure Valid (hash : Bytes → Bytes32) (snap : MembershipSnapshot) : Prop where
  fits : snap.digests.length ≤ MAX_FCMP_ANON_SET
  root : rootFromLeaves hash snap.digests = snap.root
  ring : RingOf hash snap.digests snap.admitted

/-- A cache is absent or valid. -/
def MembershipCache.Sound (hash : Bytes → Bytes32) (cache : MembershipCache) : Prop :=
  ∀ snap, cache.snapshot = some snap → Valid hash snap

/-- What is hashed above the leaves. -/
def nodePreimages (hash : Bytes → Bytes32) (digests : List Bytes32) : List Bytes :=
  (Merkle.pairs (merkleNodeHash hash) (merkleEmptyChild hash) digests).map fun p =>
    nodePreimage p.1 p.2

/-- What is hashed for the members of a ring. -/
def leafPreimages (ring : List RingMember) : List Bytes :=
  ring.map fun m => leafPreimage m.oneTimeKey m.commitment

namespace CacheLemmas

variable {hash : Bytes → Bytes32}

/-- The loop over the digests returns the ring of slots that have these digests. -/
theorem rebuildLoop_eq_ok {m : StorageMap UInt64 StoredOutput} {digests : List Bytes32} {k : ℕ}
    {ring : List RingMember} (h : rebuildLoop hash m (digests.zipIdx k) = .ok ring) :
    ∃ slots : List Slot, digests = slots.map (slotDigest hash) ∧ Legible hash slots ∧
      ring = (slots.zipIdx k).filterMap fun x =>
        x.1.map fun pc => ⟨pc.1, pc.2, UInt64.ofNat x.2⟩ := by
  induction digests generalizing k ring with
  | nil =>
    cases h
    exact ⟨[], rfl, fun p c hpc => absurd hpc List.not_mem_nil, rfl⟩
  | cons d digests ih =>
    rw [List.zipIdx_cons, rebuildLoop] at h
    split at h
    · next hempty =>
      obtain ⟨slots, hdigests, hlegible, hring⟩ := ih h
      refine ⟨none :: slots, by rw [List.map_cons, slotDigest_none, hempty, ← hdigests], ?_, ?_⟩
      · intro p c hpc
        rcases List.mem_cons.mp hpc with hnone | hpc
        · cases hnone
        · exact hlegible p c hpc
      · rw [hring]
        rfl
    next hfilled =>
    split at h
    · cases h
    next out hout =>
    split at h
    · cases h
    next hleaf =>
    cases hrest : rebuildLoop hash m (digests.zipIdx (k + 1)) with
    | error e =>
      rw [hrest] at h
      cases h
    | ok rest =>
      rw [hrest] at h
      cases h
      obtain ⟨slots, hdigests, hlegible, hring⟩ := ih hrest
      refine ⟨some (out.oneTimeKey, out.commitment) :: slots, ?_, ?_, ?_⟩
      · rw [List.map_cons, slotDigest_some, not_not.mp hleaf, ← hdigests]
      · intro p c hpc
        rcases List.mem_cons.mp hpc with hhead | hpc
        · cases hhead
          rw [not_not.mp hleaf]
          exact hfilled
        · exact hlegible p c hpc
      · rw [hring]
        rfl

variable {cache : MembershipCache} {tip : ℕ} {root : Bytes32} {digests : List Bytes32}
  {m : StorageMap UInt64 StoredOutput} {snap : MembershipSnapshot}

/-- A rebuilt snapshot is stored with the tip, has the root and the digests it was built from, and is
valid. -/
theorem rebuild_eq_ok (h : (cache.rebuild hash tip root digests m).1 = .ok snap) :
    (cache.rebuild hash tip root digests m).2 = ⟨tip, some snap⟩ ∧ snap.root = root ∧
      snap.digests = digests ∧ Valid hash snap := by
  unfold rebuild at h ⊢
  split at h
  · cases h
  next hfits =>
  rw [if_neg hfits]
  split at h
  · cases h
  next hroot =>
  rw [if_neg hroot]
  split at h
  · cases h
  next admitted hloop =>
  cases h
  obtain ⟨slots, hdigests, hlegible, hring⟩ := rebuildLoop_eq_ok hloop
  have hlen : slots.length = digests.length := by rw [hdigests, List.length_map]
  have hslots : slots.length ≤ 2 ^ 64 := by
    rw [hlen]
    exact Nat.le_trans (Nat.not_lt.mp hfits) (by decide)
  refine ⟨rfl, rfl, rfl, Nat.not_lt.mp hfits, not_not.mp hroot, ?_⟩
  show RingOf hash digests admitted
  rw [hdigests, hring]
  exact ringOf_ringOfSlots hslots hlegible

/-- A failed rebuild leaves the cache as it was. -/
theorem rebuild_eq_error {e : WalletError}
    (h : (cache.rebuild hash tip root digests m).1 = .error e) :
    (cache.rebuild hash tip root digests m).2 = cache := by
  unfold rebuild at h ⊢
  split
  · rfl
  next hfits =>
  split
  · rfl
  next hroot =>
  split
  · rfl
  next admitted hloop =>
  rw [if_neg hfits, if_neg hroot, hloop] at h
  cases h

/-- The outcome of a rebuild does not depend on the cache or the tip. -/
theorem rebuild_fst (cache' : MembershipCache) (tip' : ℕ) :
    (cache'.rebuild hash tip' root digests m).1 = (cache.rebuild hash tip root digests m).1 := by
  unfold rebuild
  split
  · rfl
  split
  · rfl
  split
  · rfl
  · rfl

/-! ## The calls -/

theorem membershipSnapshot_eq_ok {answers : SnapshotAnswers}
    {outputs : List (UInt64 × StoredOutput)} (h : membershipSnapshot hash answers outputs = .ok snap) :
    answers.membershipRoot = .ok snap.root ∧ Valid hash snap ∧
      snapshotFromFrontier hash snap.root snap.digests outputs = .ok snap := by
  unfold membershipSnapshot at h
  obtain ⟨root, hroot, h⟩ := CallLemmas.bind_eq_ok.mp h
  obtain ⟨slots, -, h⟩ := CallLemmas.bind_eq_ok.mp h
  obtain ⟨digests, -, h⟩ := CallLemmas.bind_eq_ok.mp h
  have hok : snapshotFromFrontier hash root digests outputs = .ok snap := by
    cases hs : snapshotFromFrontier hash root digests outputs with
    | error e =>
      rw [hs] at h
      cases h
    | ok snap' =>
      rw [hs] at h
      cases h
      rfl
  obtain ⟨-, hsnap, hdigests, hvalid⟩ := rebuild_eq_ok hok
  rw [hsnap, hdigests]
  refine ⟨?_, hvalid, hok⟩
  unfold answered at hroot
  split at hroot
  · next heq =>
    cases hroot
    exact heq
  · cases hroot

theorem answered_ne_panicked {α : Type} {answer : Except String α} {e : RpcFailure}
    (h : answered answer = .error e) (text : String) : e ≠ .panicked text := by
  cases answer with
  | ok a => cases h
  | error text' =>
    cases h
    intro heq
    cases heq

theorem slotBySlot_ne_panicked {answers : SnapshotAnswers} {slots : UInt64} {e : RpcFailure}
    (h : slotBySlot hash answers slots = .error e) (text : String) : e ≠ .panicked text := by
  obtain ⟨i, -, hi⟩ := exists_of_tryMap_error h
  cases hd : answered (answers.membershipLeafDigest (UInt64.ofNat i)) with
  | ok d =>
    rw [hd] at hi
    cases hi
  | error e' =>
    rw [hd] at hi
    cases hi
    exact answered_ne_panicked hd text

/-- Fetching a snapshot does not panic. -/
theorem membershipSnapshot_ne_panicked {answers : SnapshotAnswers}
    {outputs : List (UInt64 × StoredOutput)} {e : RpcFailure}
    (h : membershipSnapshot hash answers outputs = .error e) (text : String) : e ≠ .panicked text := by
  unfold membershipSnapshot at h
  rcases bind_eq_error h with hroot | ⟨root, -, h⟩
  · exact answered_ne_panicked hroot text
  rcases bind_eq_error h with hslots | ⟨slots, -, h⟩
  · exact answered_ne_panicked hslots text
  rcases bind_eq_error h with hdigests | ⟨digests, -, h⟩
  · unfold fetchDigests at hdigests
    split at hdigests
    · split at hdigests
      · cases hdigests
      · exact slotBySlot_ne_panicked hdigests text
    · exact slotBySlot_ne_panicked hdigests text
  · cases hs : snapshotFromFrontier hash root digests outputs with
    | ok snap =>
      rw [hs] at h
      cases h
    | error e' =>
      rw [hs] at h
      cases h
      intro heq
      cases heq

theorem sound_rebuild (h : cache.Sound hash) : (cache.rebuild hash tip root digests m).2.Sound hash := by
  cases hr : (cache.rebuild hash tip root digests m).1 with
  | error e =>
    rw [rebuild_eq_error hr]
    exact h
  | ok snap =>
    obtain ⟨hcache, -, -, hvalid⟩ := rebuild_eq_ok hr
    rw [hcache]
    intro snap' hsnap'
    cases hsnap'
    exact hvalid

theorem sound_clear (cache : MembershipCache) : cache.clear.Sound hash := by
  intro snap h
  cases h

theorem needsResync_eq_false {slots : ℕ} (h : cache.needsResync tip root slots = false) :
    ∃ snap, cache.snapshot = some snap ∧ cache.tipHeight ≤ tip ∧ snap.root = root ∧
      snap.digests.length = slots := by
  unfold needsResync at h
  split at h
  · cases h
  next snap hsnap =>
  split at h
  · cases h
  next htip =>
  split at h
  · cases h
  next hroot =>
  split at h
  · cases h
  next hslots => exact ⟨snap, hsnap, Nat.not_lt.mp htip, not_not.mp hroot, not_not.mp hslots⟩

/-- The part of a refresh behind a resync that is needed. -/
theorem refetch_cases (answers : SnapshotAnswers) (outputs : List (UInt64 × StoredOutput))
    (cache : MembershipCache) (tip : ℕ) (root : Bytes32) (slots : UInt64)
    (h : cache.needsResync tip root slots.toNat = true) :
    let r := refreshAt hash answers outputs cache tip root slots
    (∃ snap, r = (.ok snap, ⟨tip, some snap⟩) ∧ Valid hash snap) ∨
      ∃ e, r = (.error e, cache.clear) ∧ ∀ text, e ≠ .panicked text := by
  intro r
  have hresync : cache.resyncIfReorged tip root slots.toNat = (true, cache.clear) := if_pos h
  have hr : r = refreshAt hash answers outputs cache tip root slots := rfl
  unfold refreshAt at hr
  simp only [hresync, Bool.true_or, if_true] at hr
  cases hfetch : membershipSnapshot hash answers outputs with
  | error e =>
    rw [hfetch] at hr
    exact .inr ⟨e, hr, membershipSnapshot_ne_panicked hfetch⟩
  | ok snap =>
    obtain ⟨-, -, hsnap⟩ := membershipSnapshot_eq_ok hfetch
    have hagain : (cache.clear.rebuild hash tip snap.root snap.digests (byIndex outputs)).1 = .ok snap :=
      (rebuild_fst _ _).trans hsnap
    obtain ⟨hcache, -, -, hvalid⟩ := rebuild_eq_ok hagain
    simp only [hfetch, hagain, hcache] at hr
    exact .inl ⟨snap, hr, hvalid⟩

/-- A refresh rebuilds the cache from what it fetches, clears it when that fails, or finds that it
needs no resync and leaves it. -/
theorem refreshAt_cases (answers : SnapshotAnswers) (outputs : List (UInt64 × StoredOutput))
    (cache : MembershipCache) (tip : ℕ) (root : Bytes32) (slots : UInt64) :
    let r := refreshAt hash answers outputs cache tip root slots
    (∃ snap, r = (.ok snap, ⟨tip, some snap⟩) ∧ Valid hash snap) ∨
    (∃ snap, r = (.ok snap, cache) ∧ cache.snapshot = some snap ∧
      cache.needsResync tip root slots.toNat = false) ∨
    ∃ e, r = (.error e, cache.clear) ∧ ∀ text, e ≠ .panicked text := by
  intro r
  cases hneeds : cache.needsResync tip root slots.toNat with
  | true =>
    rcases refetch_cases answers outputs cache tip root slots hneeds with hok | herror
    · exact .inl hok
    · exact .inr (.inr herror)
  | false =>
    obtain ⟨snap, hsnap, -⟩ := needsResync_eq_false hneeds
    have hresync : cache.resyncIfReorged tip root slots.toNat = (false, cache) :=
      if_neg (ne_true_of_eq_false hneeds)
    have hr : r = refreshAt hash answers outputs cache tip root slots := rfl
    unfold refreshAt at hr
    simp only [hresync, hsnap, Bool.false_or, Option.isNone_some, Bool.false_eq_true, if_false,
      refreshAt.populated] at hr
    exact .inr (.inl ⟨snap, hr, hsnap, rfl⟩)

/-! ## What a root determines -/

/-- Digest vectors of one length under one root are equal. -/
theorem digests_unique {ds ds' : List Bytes32} (hlen : ds.length = ds'.length)
    (hfree : CollisionFree hash (nodePreimages hash ds ++ nodePreimages hash ds'))
    (hroot : rootFromLeaves hash ds = rootFromLeaves hash ds') : ds = ds' := by
  refine Merkle.root_inj hlen ?_ hroot
  intro p hp q hq h
  have hmem : ∀ r, r ∈ Merkle.pairs (merkleNodeHash hash) (merkleEmptyChild hash) ds ++
        Merkle.pairs (merkleNodeHash hash) (merkleEmptyChild hash) ds' →
      nodePreimage r.1 r.2 ∈ nodePreimages hash ds ++ nodePreimages hash ds' := by
    intro r hr
    rcases List.mem_append.mp hr with hr | hr
    · exact List.mem_append_left _ (List.mem_map_of_mem hr)
    · exact List.mem_append_right _ (List.mem_map_of_mem hr)
  obtain ⟨h1, h2⟩ := TreeLemmas.nodePreimage_inj (hfree _ (hmem p hp) _ (hmem q hq) h)
  exact Prod.ext h1 h2

theorem mem_of_ringOf {ds : List Bytes32} {ring ring' : List RingMember} (h : RingOf hash ds ring)
    (h' : RingOf hash ds ring') (hfree : CollisionFree hash (leafPreimages ring ++ leafPreimages ring'))
    {x : RingMember} (hx : x ∈ ring) : x ∈ ring' := by
  obtain ⟨y, hy, hindex⟩ := h'.covers _ _ (h.leaf x hx) (h.filled x hx)
  have hleaf := h'.leaf y hy
  rw [hindex, h.leaf x hx, Option.some.injEq] at hleaf
  have hpre := hfree _ (List.mem_append_left _ (List.mem_map_of_mem hx)) _
    (List.mem_append_right _ (List.mem_map_of_mem hy)) hleaf
  obtain ⟨hkey, hcommitment⟩ := TreeLemmas.leafPreimage_inj hpre
  have hxy : x = y := by
    cases x
    cases y
    cases hkey
    cases hcommitment
    cases UInt64.toNat_inj.mp hindex
    rfl
  rw [hxy]
  exact hy

/-- One digest vector has one ring. -/
theorem ring_unique {ds : List Bytes32} {ring ring' : List RingMember} (h : RingOf hash ds ring)
    (h' : RingOf hash ds ring') (hfree : CollisionFree hash (leafPreimages ring ++ leafPreimages ring')) :
    ring = ring' := by
  have hfree' : CollisionFree hash (leafPreimages ring' ++ leafPreimages ring) :=
    hfree.mono fun x hx => List.mem_append.mpr (List.mem_append.mp hx).symm
  refine List.Pairwise.eq_of_mem_iff h.sorted h'.sorted fun x => ?_
  exact ⟨mem_of_ringOf h h' hfree, mem_of_ringOf h' h hfree'⟩

end CacheLemmas

open CacheLemmas

/-- An index is admitted exactly where its slot is filled. -/
theorem Valid.listed_iff {hash : Bytes → Bytes32} {snap : MembershipSnapshot} (h : Valid hash snap)
    (i : UInt64) : (snap.admitted.any fun m => m.treeIndex == i) = true ↔
      ∃ d, snap.digests[i.toNat]? = some d ∧ d ≠ emptyLeafHash hash := by
  rw [List.any_eq_true]
  constructor
  · rintro ⟨m, hm, hindex⟩
    rw [← beq_iff_eq.mp hindex]
    exact ⟨_, h.ring.leaf m hm, h.ring.filled m hm⟩
  · rintro ⟨d, hd, hne⟩
    obtain ⟨m, hm, hindex⟩ := h.ring.covers _ d hd hne
    exact ⟨m, hm, beq_iff_eq.mpr (UInt64.toNat_inj.mp hindex)⟩

/-- The check before a spend: there is a snapshot, and the slot of every index is filled in its tree. -/
theorem ensureSpendsAdmitted_iff {hash : Bytes → Bytes32} {cache : MembershipCache}
    (h : cache.Sound hash) (indices : List UInt64) :
    cache.ensureSpendsAdmitted indices = .ok () ↔ ∃ snap, cache.snapshot = some snap ∧
      ∀ i ∈ indices, ∃ d, snap.digests[i.toNat]? = some d ∧ d ≠ emptyLeafHash hash := by
  unfold ensureSpendsAdmitted
  split
  · next hnone =>
    constructor
    · intro hok
      cases hok
    · rintro ⟨snap, hsome, -⟩
      rw [hnone] at hsome
      cases hsome
  next snap hsnap =>
  have hlisted : (indices.all fun idx => snap.admitted.any fun m => m.treeIndex == idx) = true ↔
      ∀ i ∈ indices, ∃ d, snap.digests[i.toNat]? = some d ∧ d ≠ emptyLeafHash hash := by
    rw [List.all_eq_true]
    exact forall₂_congr fun i _ => (h snap hsnap).listed_iff i
  split
  · next hall => exact iff_of_true rfl ⟨snap, hsnap, hlisted.mp hall⟩
  · next hnot =>
    constructor
    · intro hok
      cases hok
    · rintro ⟨snap', hsome, hfilled⟩
      rw [hsnap, Option.some.injEq] at hsome
      subst hsome
      exact absurd (hlisted.mpr hfilled) hnot

/-! ## Proving under a valid snapshot -/

variable {l : ℕ} {Point : Type} [AddCommGroup Point] [Module (ZMod l) Point] [DecidableEq Point]

/-- `prove` behind its structural checks: sign, and write the proof. -/
def proveChecked (E : CryptoLib l Point) (nonces : Clsag.Nonces l) (msg : Bytes32)
    (witness : ProveWitness) : Except Clsag.Fault (Option ProveResult) :=
  match Clsag.signWithMax E nonces msg.val (ringBlob witness.admitted) witness.realIndex
      witness.secretKey witness.inputBlinding witness.pseudoBlinding Clsag.MAX_FCMP_RING with
  | .error fault => .error fault
  | .ok none => .ok none
  | .ok (some clsag) =>
    match FcmpProof.encode ⟨witness.digests, witness.admitted, clsag.signature⟩ with
    | none => .ok none
    | some bytes => .ok (some ⟨bytes, clsag.keyImage, clsag.pseudoCommitment⟩)

/-- For a member of a valid snapshot every structural check of `prove` passes. -/
theorem Valid.prove_eq {E : CryptoLib l Point} {snap : MembershipSnapshot}
    (h : Valid E.blake2_256 snap) (nonces : Clsag.Nonces l) (msg : Bytes32) {witness : ProveWitness}
    (hdigests : witness.digests = snap.digests) (hadmitted : witness.admitted = snap.admitted)
    (hindex : witness.realIndex < snap.admitted.length) :
    prove E nonces msg witness = proveChecked E nonces msg witness := by
  obtain ⟨hfind, hcount, hsorted⟩ := proveChecks_iff.mpr h.ring
  have hle : snap.admitted.length ≤ snap.digests.length := by
    rw [← hcount]
    exact List.countP_le_length
  have hfits := h.fits
  have hring : ¬ (snap.digests.length = 0 ∨ MAX_FCMP_ANON_SET < snap.digests.length ∨
      snap.admitted.length = 0 ∨ Clsag.MAX_FCMP_RING < snap.admitted.length ∨
      snap.admitted.length ≤ witness.realIndex) := by
    unfold Clsag.MAX_FCMP_RING
    omega
  unfold prove
  dsimp only
  rw [hdigests, hadmitted, if_neg hring, if_neg (not_not.mpr hfind), if_neg (not_not.mpr hcount),
    if_neg (not_not.mpr hsorted)]
  unfold proveChecked
  rewrite [hdigests, hadmitted]
  rfl

/-! ## Runs -/

/-- What is done to a cache. -/
inductive CacheOp
  | clear
  | rebuild (tip : ℕ) (root : Bytes32) (digests : List Bytes32) (outputs : StorageMap UInt64 StoredOutput)
  | resyncIfReorged (tip : ℕ) (root : Bytes32) (slots : ℕ)
  | refresh (tipAnswers : TipAnswers) (answers : SnapshotAnswers)
      (outputs : List (UInt64 × StoredOutput))

def CacheOp.apply (hash : Bytes → Bytes32) (cache : MembershipCache) : CacheOp → MembershipCache
  | .clear => cache.clear
  | .rebuild tip root digests outputs => (cache.rebuild hash tip root digests outputs).2
  | .resyncIfReorged tip root slots => (cache.resyncIfReorged tip root slots).2
  | .refresh tipAnswers answers outputs =>
    (refreshMembershipCache hash tipAnswers answers outputs cache).2

namespace CacheLemmas

variable {hash : Bytes → Bytes32} {cache : MembershipCache}

/-- What a refresh can do: rebuild the cache and return the snapshot, find that the answers are in
line with the cache and return its snapshot, or fail with the cache as it was or cleared. -/
theorem refresh_cases (hash : Bytes → Bytes32) (tipAnswers : TipAnswers) (answers : SnapshotAnswers)
    (outputs : List (UInt64 × StoredOutput)) (cache : MembershipCache) :
    let r := refreshMembershipCache hash tipAnswers answers outputs cache
    (∃ tip snap, r = (.ok snap, ⟨tip, some snap⟩) ∧ Valid hash snap) ∨
    (∃ snap, r = (.ok snap, cache) ∧ cache.snapshot = some snap) ∨
    ∃ e, (r = (.error e, cache) ∨ r = (.error e, cache.clear)) ∧ ∀ text, e ≠ .panicked text := by
  have hfailed (text : String) : ∀ text', RpcFailure.rpc text ≠ .panicked text' := by
    intro text' heq
    cases heq
  obtain ⟨bestNumber, membershipRoot, treeSlots⟩ := tipAnswers
  cases bestNumber with
  | error text => exact .inr (.inr ⟨_, .inl rfl, hfailed text⟩)
  | ok tip =>
  cases membershipRoot with
  | error text => exact .inr (.inr ⟨_, .inl rfl, hfailed text⟩)
  | ok root =>
  cases treeSlots with
  | error text => exact .inr (.inr ⟨_, .inl rfl, hfailed text⟩)
  | ok slots =>
  obtain ⟨snap, heq, hvalid⟩ | ⟨snap, heq, hsnap, -⟩ | ⟨e, heq, hne⟩ :=
    @refreshAt_cases hash answers outputs cache tip root slots
  · exact .inl ⟨tip, snap, heq, hvalid⟩
  · exact .inr (.inl ⟨snap, heq, hsnap⟩)
  · exact .inr (.inr ⟨e, .inr heq, hne⟩)

/-- A refresh that returns a snapshot has stored it, and it is valid or the one that was there. -/
theorem refresh_stored {tipAnswers : TipAnswers} {answers : SnapshotAnswers}
    {outputs : List (UInt64 × StoredOutput)} {snap : MembershipSnapshot}
    (h : (refreshMembershipCache hash tipAnswers answers outputs cache).1 = .ok snap) :
    (refreshMembershipCache hash tipAnswers answers outputs cache).2.snapshot = some snap ∧
      (Valid hash snap ∨ (refreshMembershipCache hash tipAnswers answers outputs cache).2 = cache) := by
  obtain ⟨tip, snap', heq, hvalid⟩ | ⟨snap', heq, hsnap⟩ | ⟨e, heq | heq, -⟩ :=
    refresh_cases hash tipAnswers answers outputs cache
  · rw [heq] at h ⊢
    cases h
    exact ⟨rfl, .inl hvalid⟩
  · rw [heq] at h ⊢
    cases h
    exact ⟨hsnap, .inr rfl⟩
  · rw [heq] at h
    cases h
  · rw [heq] at h
    cases h

theorem refresh_ne_panicked {tipAnswers : TipAnswers} {answers : SnapshotAnswers}
    {outputs : List (UInt64 × StoredOutput)} (text : String) :
    (refreshMembershipCache hash tipAnswers answers outputs cache).1 ≠ .error (.panicked text) := by
  intro h
  obtain ⟨tip, snap, heq, -⟩ | ⟨snap, heq, -⟩ | ⟨e, heq | heq, hne⟩ :=
    refresh_cases hash tipAnswers answers outputs cache
  · rw [heq] at h
    cases h
  · rw [heq] at h
    cases h
  · rw [heq] at h
    exact hne text (Except.error.inj h)
  · rw [heq] at h
    exact hne text (Except.error.inj h)

theorem sound_refresh (h : cache.Sound hash) (tipAnswers : TipAnswers) (answers : SnapshotAnswers)
    (outputs : List (UInt64 × StoredOutput)) :
    (refreshMembershipCache hash tipAnswers answers outputs cache).2.Sound hash := by
  obtain ⟨tip, snap, heq, hvalid⟩ | ⟨snap, heq, -⟩ | ⟨e, heq | heq, -⟩ :=
    refresh_cases hash tipAnswers answers outputs cache
  · rw [heq]
    intro snap' hsnap'
    cases hsnap'
    exact hvalid
  · rw [heq]
    exact h
  · rw [heq]
    exact h
  · rw [heq]
    exact sound_clear cache

theorem sound_apply (h : cache.Sound hash) (op : CacheOp) : (op.apply hash cache).Sound hash := by
  cases op with
  | clear => exact sound_clear cache
  | rebuild tip root digests outputs => exact sound_rebuild h
  | resyncIfReorged tip root slots =>
    show (cache.resyncIfReorged tip root slots).2.Sound hash
    unfold resyncIfReorged
    split
    · exact sound_clear cache
    · exact h
  | refresh tipAnswers answers outputs => exact sound_refresh h tipAnswers answers outputs

theorem sound_run (ops : List CacheOp) : (run (CacheOp.apply hash) new ops).Sound hash := by
  have hnew : (new : MembershipCache).Sound hash := by
    intro snap h
    cases h
  exact run_invariant (P := fun cache : MembershipCache => cache.Sound hash) hnew
    (fun _ op h => sound_apply h op) ops

end CacheLemmas

/-- The membership cache is valid, stale or absent.

A rebuild that succeeds stores a valid snapshot with the root and the digests it was given, and one
that fails leaves the cache. Under a valid snapshot `prove` passes its structural checks for every
member. What `membership_snapshot` returns is valid under the root that was answered; a refresh
returns what it has stored, which is valid or the snapshot of the cache it left alone, and does not
panic. So a cache that began empty is never wrong, whatever was done to it. A rebuilt snapshot that
needs no resync has the digests of every vector with as many slots and the same root, and the members
that a rebuild from it finds. -/
theorem membership_cache_never_wrong (E : CryptoLib l Point) :
    (∀ (cache : MembershipCache) (tip : ℕ) (root : Bytes32) (digests : List Bytes32)
        (outputs : StorageMap UInt64 StoredOutput),
      (∀ snap, (cache.rebuild E.blake2_256 tip root digests outputs).1 = .ok snap →
        (cache.rebuild E.blake2_256 tip root digests outputs).2 = ⟨tip, some snap⟩ ∧
          snap.root = root ∧ snap.digests = digests ∧ Valid E.blake2_256 snap) ∧
      ∀ e, (cache.rebuild E.blake2_256 tip root digests outputs).1 = .error e →
        (cache.rebuild E.blake2_256 tip root digests outputs).2 = cache) ∧
    (∀ (snap : MembershipSnapshot) (nonces : Clsag.Nonces l) (msg : Bytes32) (witness : ProveWitness),
      Valid E.blake2_256 snap → witness.digests = snap.digests → witness.admitted = snap.admitted →
      witness.realIndex < snap.admitted.length →
      prove E nonces msg witness = proveChecked E nonces msg witness) ∧
    (∀ (answers : SnapshotAnswers) (outputs : List (UInt64 × StoredOutput)) (snap : MembershipSnapshot),
      membershipSnapshot E.blake2_256 answers outputs = .ok snap →
      answers.membershipRoot = .ok snap.root ∧ Valid E.blake2_256 snap) ∧
    (∀ (cache : MembershipCache) (tipAnswers : TipAnswers) (answers : SnapshotAnswers)
        (outputs : List (UInt64 × StoredOutput)),
      let refreshed := refreshMembershipCache E.blake2_256 tipAnswers answers outputs cache
      (∀ snap, refreshed.1 = .ok snap →
        refreshed.2.snapshot = some snap ∧ (Valid E.blake2_256 snap ∨ refreshed.2 = cache)) ∧
      ∀ text, refreshed.1 ≠ .error (.panicked text)) ∧
    (∀ (ops : List CacheOp) (snap : MembershipSnapshot),
      (run (CacheOp.apply E.blake2_256) new ops).snapshot = some snap → Valid E.blake2_256 snap) ∧
    ∀ (before cache : MembershipCache) (tip₀ tip : ℕ) (root₀ root : Bytes32) (digests₀ : List Bytes32)
        (outputs₀ : StorageMap UInt64 StoredOutput) (snap : MembershipSnapshot) (slots : ℕ),
      before.rebuild E.blake2_256 tip₀ root₀ digests₀ outputs₀ = (.ok snap, cache) →
      cache.needsResync tip root slots = false →
      ∀ digests : List Bytes32, digests.length = slots → rootFromLeaves E.blake2_256 digests = root →
      CollisionFree E.blake2_256
        (nodePreimages E.blake2_256 digests ++ nodePreimages E.blake2_256 snap.digests) →
      digests = snap.digests ∧
      ∀ (other : MembershipCache) (tip' : ℕ),
        (other.rebuild E.blake2_256 tip' root digests outputs₀).1 = .ok snap ∧
        ∀ (outputs : StorageMap UInt64 StoredOutput) (snap' : MembershipSnapshot),
          (other.rebuild E.blake2_256 tip' root digests outputs).1 = .ok snap' →
          CollisionFree E.blake2_256 (leafPreimages snap'.admitted ++ leafPreimages snap.admitted) →
          snap'.admitted = snap.admitted := by
  refine ⟨?_, ?_, ?_, ?_, sound_run, ?_⟩
  · intro cache tip root digests outputs
    exact ⟨fun snap h => rebuild_eq_ok h, fun e h => rebuild_eq_error h⟩
  · intro snap nonces msg witness hvalid hdigests hadmitted hindex
    exact hvalid.prove_eq nonces msg hdigests hadmitted hindex
  · intro answers outputs snap h
    obtain ⟨hroot, hvalid, -⟩ := membershipSnapshot_eq_ok h
    exact ⟨hroot, hvalid⟩
  · intro cache tipAnswers answers outputs refreshed
    exact ⟨fun snap h => refresh_stored h, refresh_ne_panicked⟩
  · intro before cache tip₀ tip root₀ root digests₀ outputs₀ snap slots hrebuild hneeds digests hlen
      hroot hfree
    have hfst : (before.rebuild E.blake2_256 tip₀ root₀ digests₀ outputs₀).1 = .ok snap :=
      congrArg Prod.fst hrebuild
    obtain ⟨hcache, hroot₀, hdigests₀, hvalid⟩ := rebuild_eq_ok hfst
    have hstored : cache.snapshot = some snap := by
      rw [hrebuild] at hcache
      rw [show cache = ⟨tip₀, some snap⟩ from hcache]
    obtain ⟨snap', hsnap', -, hroot', hslots⟩ := needsResync_eq_false hneeds
    rw [hstored, Option.some.injEq] at hsnap'
    rw [← hsnap'] at hroot' hslots
    have hdigests : digests = snap.digests :=
      digests_unique (hlen.trans hslots.symm) hfree (hroot.trans (hroot'.symm.trans hvalid.root.symm))
    refine ⟨hdigests, fun other tip' => ⟨?_, ?_⟩⟩
    · rw [hdigests, hdigests₀, ← hroot', hroot₀]
      exact (rebuild_fst other tip').trans hfst
    · intro outputs snap'' hsnap'' hleaves
      obtain ⟨-, -, hdigests'', hvalid''⟩ := rebuild_eq_ok hsnap''
      have hring := hvalid''.ring
      rw [hdigests'', hdigests] at hring
      exact ring_unique hring hvalid.ring hleaves

/-! ## Two slots -/

/-- The output in the second of the two slots. -/
def twoSlotsOutputs : List (UInt64 × StoredOutput) :=
  [(1, ⟨Cyclic.toBytes (Cyclic.scalarOf 5), Cyclic.commitment 3 (Cyclic.scalarOf 7),
    Cyclic.toBytes (Cyclic.scalarOf 8), 0, ⟨[], Nat.zero_le _⟩, some 3, 4, true⟩)]

theorem twoSlots_legible : Legible (cyclic ristrettoOrder).blake2_256 twoSlots := by
  intro p c hpc
  have hleaf : leafHash (cyclic ristrettoOrder).blake2_256 (Cyclic.toBytes (Cyclic.scalarOf 5))
      (Cyclic.commitment 3 (Cyclic.scalarOf 7)) ≠ emptyLeafHash (cyclic ristrettoOrder).blake2_256 := by
    decide +kernel
  rcases List.mem_cons.mp hpc with hnone | hpc
  · cases hnone
  · cases List.mem_singleton.mp hpc
    exact hleaf

/-- The snapshot of the two slots, built at height 7: at height 9 it needs no resync and the spend of
its member passes the checks. -/
theorem membership_cache_never_wrong_twoSlots :
    let E := cyclic ristrettoOrder
    let root := rootFromLeaves E.blake2_256 twoSlotsWitness.digests
    ∃ snap cache,
      new.rebuild E.blake2_256 7 root twoSlotsWitness.digests (byIndex twoSlotsOutputs) =
        (.ok snap, cache) ∧
      Valid E.blake2_256 snap ∧ cache.needsResync 9 root 2 = false ∧
      (new.rebuild E.blake2_256 9 root twoSlotsWitness.digests (byIndex twoSlotsOutputs)).1 = .ok snap ∧
      twoSlotsSpend = proveChecked E ⟨Cyclic.scalarOf 11, fun _ => Cyclic.scalarOf 13⟩
        (Cyclic.toBytes (Cyclic.scalarOf 0)) twoSlotsWitness := by
  intro E root
  obtain ⟨hrebuild, hprove, -, -, -, hunique⟩ := membership_cache_never_wrong E
  have hget : ∀ i p c, twoSlots[i]? = some (some (p, c)) → ∃ out,
      (byIndex twoSlotsOutputs).get (UInt64.ofNat i) = some out ∧ out.oneTimeKey = p ∧
        out.commitment = c := by
    intro i p c hi
    match i, hi with
    | 1, hi =>
      cases hi
      exact ⟨_, rfl, rfl, rfl⟩
  have hsnap := snapshotFromFrontier_slots twoSlots_legible (by decide) hget
  have hfst : (new.rebuild E.blake2_256 7 root twoSlotsWitness.digests (byIndex twoSlotsOutputs)).1 =
      .ok ⟨root, twoSlotsWitness.digests, ringOfSlots twoSlots⟩ := (rebuild_fst _ _).trans hsnap
  obtain ⟨hcache, -, -, hvalid⟩ := (hrebuild new 7 root _ _).1 _ hfst
  have hneeds : (⟨7, some ⟨root, twoSlotsWitness.digests, ringOfSlots twoSlots⟩⟩ :
      MembershipCache).needsResync 9 root 2 = false := by
    have hlen : twoSlotsWitness.digests.length = 2 := rfl
    unfold needsResync
    dsimp only
    rw [if_neg (by decide), if_neg (not_not.mpr rfl), if_neg (not_not.mpr hlen)]
  have hnodes (a b : Bytes32) : nodePreimages E.blake2_256 [a, b] = [nodePreimage a b] := rfl
  have hfree : CollisionFree E.blake2_256 (nodePreimages E.blake2_256 twoSlotsWitness.digests ++
      nodePreimages E.blake2_256 twoSlotsWitness.digests) := by
    show CollisionFree E.blake2_256 (nodePreimages E.blake2_256 [_, _] ++
      nodePreimages E.blake2_256 [_, _])
    intro x hx y hy _
    rw [hnodes, List.mem_append, or_self, List.mem_singleton] at hx hy
    rw [hx, hy]
  refine ⟨_, _, Prod.ext hfst hcache, hvalid, hneeds, ?_, ?_⟩
  · exact ((hunique new _ 7 9 root root _ _ _ 2 (Prod.ext hfst hcache) hneeds _ rfl rfl hfree).2 new
      9).1
  · exact hprove _ _ _ twoSlotsWitness hvalid rfl rfl (by decide)

end Kohl.Wallet
