import Kohl.Crypto.FcmpSpec
import Kohl.Pallet.Ledger
import Kohl.Pallet.TreeInvariant

/-!
# Roots and anchors

A transfer names a root. Every accepted root was the live root of some state of the run, and a proof
under it is signed over the outputs admitted there.

* `rootAt_afterBlocks`: the recorded roots are those of the last 64 blocks.
* `root_window_exact`: which roots are recorded and accepted while a block executes; the probing loop
  terminates.
* `exists_prefix_of_rootAccepted`: every accepted root was the live root of a state of the run.
* `ring_of_rootAccepted`: a proof under such a root is signed over the outputs admitted there.
* `mature_of_mem_ring`: every member of such a ring is a stored output that was mature there.
-/

namespace Kohl.Pallet

open ByteLib Run MembershipTree Fcmp SpecLemmas

section Window

variable {H : Host} {cfg : Config}

namespace WindowLemmas

theorem rootAt_dispatch (c : Chain) (origin : Origin) (call : Call) :
    (step H cfg c (.dispatch origin call)).store.membershipRootAt = c.store.membershipRootAt := by
  have hspec := @step_spec H cfg c (.dispatch origin call)
  generalize (step H cfg c (.dispatch origin call)).store = s' at hspec ⊢
  generalize acceptedCall H cfg c (.dispatch origin call) = a at hspec
  cases hspec with
  | rejected origin call e he => rfl
  | transfer tx fees hvalid hfees =>
    obtain ⟨_, _, _, _, hstore⟩ := @exists_transferred H c.number c.store tx fees
    rw [hstore]
  | coinbase outputs txPubkey emitted hvalid hemitted =>
    obtain ⟨_, _, _, _, hstore⟩ := @exists_minted H c.number c.store outputs.val txPubkey emitted
    rw [hstore]

/-- The end of block `n` records its root and drops the one of block `n − 64`. -/
theorem get_rootAt_onFinalize (n : ℕ) (s : Storage) (h : ℕ) :
    (onFinalize H cfg n s).1.membershipRootAt.get h =
      if 64 < n ∧ h = n - 64 then none
      else if h = n then some (onFinalize H cfg n s).1.membershipRoot
      else s.membershipRootAt.get h := by
  obtain ⟨d, a, i, hfilled⟩ := @MembershipLemmas.exists_admitMature H cfg n s
  obtain ⟨t, d', hgrow⟩ :=
    @MembershipLemmas.exists_catchup H (admitMatureLeavesBudgeted H cfg n s).1
  have hold : (catchupGrowBudgeted H (admitMatureLeavesBudgeted H cfg n s).1).1.membershipRootAt =
      s.membershipRootAt := by
    rw [hgrow, hfilled]
  rw [onFinalize_fst]
  simp only [refreshMembershipRoot, hold, FCMP_ROOT_MAX_AGE_BLOCKS]
  by_cases hn : 64 < n
  · rw [if_pos hn, StorageMap.get_remove, StorageMap.get_insert]
    by_cases hh : h = n - 64
    · rw [if_pos hh, if_pos ⟨hn, hh⟩]
    · have hcond : ¬(64 < n ∧ h = n - 64) := fun hand => hh hand.2
      rw [if_neg hh, if_neg hcond]
  · have hcond : ¬(64 < n ∧ h = n - 64) := fun hand => hn hand.1
    rw [if_neg hn, StorageMap.get_insert, if_neg hcond]

theorem run_dispatches (c : Chain) (calls : List (Origin × Call)) :
    (run (step H cfg) c (calls.map fun x => .dispatch x.1 x.2)).number = c.number ∧
      (run (step H cfg) c (calls.map fun x => .dispatch x.1 x.2)).finalized = c.finalized ∧
      (run (step H cfg) c (calls.map fun x => .dispatch x.1 x.2)).store.membershipRootAt =
        c.store.membershipRootAt := by
  induction calls generalizing c with
  | nil => exact ⟨rfl, rfl, rfl⟩
  | cons call calls ih =>
    rw [List.map_cons, run_cons]
    obtain ⟨h1, h2, h3⟩ := ih (step H cfg c (.dispatch call.1 call.2))
    exact ⟨h1, h2, h3.trans (rootAt_dispatch c call.1 call.2)⟩

theorem insideBlock_eq (blocks : List (List (Origin × Call))) (calls : List (Origin × Call)) :
    insideBlock H cfg blocks calls = run (step H cfg) (step H cfg (afterBlocks H cfg blocks)
      .onInitialize) (calls.map fun x => .dispatch x.1 x.2) := by
  rw [insideBlock, run_append, run_cons]
  rfl

theorem afterBlocks_concat (blocks : List (List (Origin × Call))) (calls : List (Origin × Call)) :
    afterBlocks H cfg (blocks ++ [calls]) =
      step H cfg (insideBlock H cfg blocks calls) .onFinalize := by
  rw [afterBlocks, List.flatMap_append, List.flatMap_cons, List.flatMap_nil, List.append_nil,
    blockOps, ← List.append_assoc, run_concat]
  rfl

end WindowLemmas

open WindowLemmas

/-- Block numbers count the blocks; the last finalized block is the last one. -/
theorem number_afterBlocks (blocks : List (List (Origin × Call))) :
    (afterBlocks H cfg blocks).number = blocks.length ∧
      (afterBlocks H cfg blocks).finalized = blocks.length := by
  induction blocks using List.reverseRecOn with
  | nil => exact ⟨rfl, rfl⟩
  | append_singleton blocks calls ih =>
    have hnumber : (insideBlock H cfg blocks calls).number = blocks.length + 1 := by
      rw [insideBlock_eq, (run_dispatches _ calls).1]
      exact congrArg (· + 1) ih.1
    rw [afterBlocks_concat, List.length_append]
    exact ⟨hnumber, hnumber⟩

theorem insideBlock_spec (blocks : List (List (Origin × Call))) (calls : List (Origin × Call)) :
    (insideBlock H cfg blocks calls).number = blocks.length + 1 ∧
      (insideBlock H cfg blocks calls).finalized = blocks.length ∧
      (insideBlock H cfg blocks calls).store.membershipRootAt =
        (afterBlocks H cfg blocks).store.membershipRootAt := by
  obtain ⟨hnumber, hfinalized⟩ := @number_afterBlocks H cfg blocks
  obtain ⟨h1, h2, h3⟩ := @run_dispatches H cfg (step H cfg (afterBlocks H cfg blocks) .onInitialize)
    calls
  rw [insideBlock_eq]
  exact ⟨h1.trans (congrArg (· + 1) hnumber), h2.trans hfinalized, h3⟩

/-- After `n` blocks the recorded roots are those at the ends of the last 64 blocks. -/
theorem rootAt_afterBlocks (blocks : List (List (Origin × Call))) (h : ℕ) :
    (afterBlocks H cfg blocks).store.membershipRootAt.get h =
      if 1 ≤ h ∧ h ≤ blocks.length ∧ blocks.length < h + 64 then
        some (afterBlocks H cfg (blocks.take h)).store.membershipRoot
      else none := by
  induction blocks using List.reverseRecOn with
  | nil =>
    rw [if_neg (by simp only [List.length_nil]; omega)]
    rfl
  | append_singleton blocks calls ih =>
    obtain ⟨hnumber, -, hroots⟩ := @insideBlock_spec H cfg blocks calls
    have hget : (afterBlocks H cfg (blocks ++ [calls])).store.membershipRootAt.get h =
        if 64 < blocks.length + 1 ∧ h = blocks.length + 1 - 64 then none
        else if h = blocks.length + 1 then
          some (afterBlocks H cfg (blocks ++ [calls])).store.membershipRoot
        else (afterBlocks H cfg blocks).store.membershipRootAt.get h := by
      rw [afterBlocks_concat, ← hroots, ← hnumber]
      exact get_rootAt_onFinalize _ _ h
    rw [hget, ih, List.length_append, List.length_singleton]
    by_cases hlast : h = blocks.length + 1
    · subst hlast
      rw [if_neg (by omega), if_pos rfl, if_pos (by omega), List.take_of_length_le (by simp)]
    · by_cases hin : 1 ≤ h ∧ h ≤ blocks.length ∧ blocks.length + 1 < h + 64
      · rw [if_neg (by omega), if_neg hlast, if_pos (by omega), if_pos (by omega),
          List.take_append_of_le_length hin.2.1]
      · rw [if_neg (c := 1 ≤ h ∧ h ≤ blocks.length + 1 ∧ blocks.length + 1 < h + 64) (by omega)]
        by_cases hdrop : 64 < blocks.length + 1 ∧ h = blocks.length + 1 - 64
        · rw [if_pos hdrop]
        · rw [if_neg hdrop, if_neg hlast, if_neg (by omega)]

/-! ## The probing loop -/

/-- `u32::saturating_sub`. -/
def saturatingSub32 (a b : UInt32) : UInt32 := UInt32.ofNat (a.toNat - b.toNat)

/-- `u32::saturating_add`. -/
def saturatingAdd32 (a b : UInt32) : UInt32 := UInt32.ofNat (min (a.toNat + b.toNat) (2 ^ 32 - 1))

/-- The loop over the recorded roots as the runtime runs it, on 32-bit block numbers; `none` when
`rounds` are not enough. -/
def probeLoop (s : Storage) (root : Bytes32) (tip : UInt32) : ℕ → UInt32 → Option Bool
  | 0, _ => none
  | rounds + 1, h =>
    if s.membershipRootAt.get h.toNat = some root then some true
    else if tip ≤ h then some false
    else probeLoop s root tip rounds (saturatingAdd32 h 1)

/-- `membership_root_accepted` with the loop cut off after `rounds`. -/
def probeRoots (rounds : ℕ) (tip : UInt32) (s : Storage) (root : Bytes32) : Option Bool :=
  if s.membershipRoot = root then some true
  else probeLoop s root tip rounds (saturatingSub32 tip (UInt32.ofNat FCMP_ROOT_MAX_AGE_BLOCKS))

namespace WindowLemmas

theorem probeLoop_eq {s : Storage} {root : Bytes32} {tip : UInt32} {rounds : ℕ} {h : UInt32}
    (hle : h ≤ tip) (hrounds : tip.toNat - h.toNat < rounds) :
    probeLoop s root tip rounds h = some (rootLoop s root (tip.toNat - h.toNat) h.toNat) := by
  induction rounds generalizing h with
  | zero => exact absurd hrounds (Nat.not_lt_zero _)
  | succ rounds ih =>
    rw [UInt32.le_iff_toNat_le] at hle
    rw [probeLoop]
    rcases hleft : tip.toNat - h.toNat with _ | left
    · -- the loop has reached the tip
      rw [rootLoop, if_pos (UInt32.le_iff_toNat_le.mpr (by omega))]
      split
      · next hfound => rw [decide_eq_true hfound]
      · next hfound => rw [decide_eq_false hfound]
    · have htip := tip.toNat_lt
      have hnext : (saturatingAdd32 h 1).toNat = h.toNat + 1 := by
        rw [saturatingAdd32, UInt32.toNat_one, min_eq_left (by omega), UInt32.toNat_ofNat',
          Nat.mod_eq_of_lt (by omega)]
      have hmore : ¬tip ≤ h := by
        rw [UInt32.le_iff_toNat_le]
        omega
      rw [rootLoop, if_neg hmore]
      split
      · rfl
      · rw [ih (UInt32.le_iff_toNat_le.mpr (by omega)) (by omega), hnext,
          show tip.toNat - (h.toNat + 1) = left from by omega]

end WindowLemmas

/-- The loop leaves after at most 65 rounds, whatever the tip, with the answer of
`membershipRootAccepted`. -/
theorem probeRoots_eq {rounds : ℕ} (hrounds : FCMP_ROOT_MAX_AGE_BLOCKS < rounds) (tip : UInt32)
    (s : Storage) (root : Bytes32) :
    probeRoots rounds tip s root = some (membershipRootAccepted tip.toNat s root) := by
  have htip := tip.toNat_lt
  have hage : FCMP_ROOT_MAX_AGE_BLOCKS = 64 := rfl
  have hstart : (saturatingSub32 tip (UInt32.ofNat FCMP_ROOT_MAX_AGE_BLOCKS)).toNat =
      tip.toNat - FCMP_ROOT_MAX_AGE_BLOCKS := by
    rw [saturatingSub32, UInt32.toNat_ofNat', UInt32.toNat_ofNat',
      Nat.mod_eq_of_lt (b := 2 ^ 32) (a := FCMP_ROOT_MAX_AGE_BLOCKS) (by omega),
      Nat.mod_eq_of_lt (by omega)]
  rw [probeRoots, membershipRootAccepted]
  split
  · rfl
  · rw [probeLoop_eq (UInt32.le_iff_toNat_le.mpr (by omega)) (by omega), hstart]

/-- The roots recorded while block `n` executes. -/
theorem rootAt_insideBlock (blocks : List (List (Origin × Call))) (calls : List (Origin × Call))
    (h : ℕ) :
    (insideBlock H cfg blocks calls).store.membershipRootAt.get h =
      if max 1 (blocks.length + 1 - FCMP_ROOT_MAX_AGE_BLOCKS) ≤ h ∧ h ≤ blocks.length + 1 - 1 then
        some (afterBlocks H cfg (blocks.take h)).store.membershipRoot
      else none := by
  have hage : FCMP_ROOT_MAX_AGE_BLOCKS = 64 := rfl
  rw [(insideBlock_spec blocks calls).2.2, rootAt_afterBlocks]
  exact if_congr (by omega) rfl rfl

/-- The roots accepted while block `n` executes. -/
theorem rootAccepted_insideBlock {blocks : List (List (Origin × Call))}
    {calls : List (Origin × Call)} {root : Bytes32} :
    membershipRootAccepted (blocks.length + 1) (insideBlock H cfg blocks calls).store root = true ↔
      root = (insideBlock H cfg blocks calls).store.membershipRoot ∨
      ∃ h, max 1 (blocks.length + 1 - FCMP_ROOT_MAX_AGE_BLOCKS) ≤ h ∧ h ≤ blocks.length + 1 - 1 ∧
        root = (afterBlocks H cfg (blocks.take h)).store.membershipRoot := by
  rw [membershipRootAccepted_iff, eq_comm]
  refine or_congr_right ⟨?_, ?_⟩
  · rintro ⟨h, -, -, hk⟩
    rw [rootAt_insideBlock] at hk
    split at hk
    · next hwin => exact ⟨h, hwin.1, hwin.2, (Option.some.inj hk).symm⟩
    · cases hk
  · rintro ⟨h, hlow, hhigh, hk⟩
    refine ⟨h, by omega, by omega, ?_⟩
    rw [rootAt_insideBlock, if_pos ⟨hlow, hhigh⟩, hk]

/-- The root window is exact. While block `n` executes, behind any of its dispatches, the recorded
roots are those at the ends of the blocks `max 1 (n − 64), ..., n − 1`, and a root is accepted exactly
when it is the live one or one of those. The probing loop leaves after at most 65 rounds for every
tip. -/
theorem root_window_exact (H : Host) (cfg : Config) (blocks : List (List (Origin × Call)))
    (calls : List (Origin × Call)) :
    let n := blocks.length + 1
    let c := insideBlock H cfg blocks calls
    c.number = n ∧
    (∀ h, c.store.membershipRootAt.get h =
      if max 1 (n - FCMP_ROOT_MAX_AGE_BLOCKS) ≤ h ∧ h ≤ n - 1 then
        some (afterBlocks H cfg (blocks.take h)).store.membershipRoot
      else none) ∧
    (∀ root, membershipRootAccepted n c.store root = true ↔ root = c.store.membershipRoot ∨
      ∃ h, max 1 (n - FCMP_ROOT_MAX_AGE_BLOCKS) ≤ h ∧ h ≤ n - 1 ∧
        root = (afterBlocks H cfg (blocks.take h)).store.membershipRoot) ∧
    ∀ (tip : UInt32) (s : Storage) (root : Bytes32),
      probeRoots (FCMP_ROOT_MAX_AGE_BLOCKS + 1) tip s root =
        some (membershipRootAccepted tip.toNat s root) := by
  intro n c
  refine ⟨(insideBlock_spec blocks calls).1, rootAt_insideBlock blocks calls,
    fun _ => rootAccepted_insideBlock, ?_⟩
  intro tip s root
  exact probeRoots_eq (Nat.lt_succ_self _) tip s root

/-! ## Every recorded root was a live root -/

/-- The roots recorded in a state were live roots of states of the run. -/
theorem exists_prefix_of_rootAt (ops : List Op) :
    ∀ h r, (run (step H cfg) (.genesis H) ops).store.membershipRootAt.get h = some r →
      ∃ pre, pre <+: ops ∧ (run (step H cfg) (.genesis H) pre).store.membershipRoot = r := by
  refine run_history_invariant (P := fun ops (c : Chain) => ∀ h r,
    c.store.membershipRootAt.get h = some r → ∃ pre, pre <+: ops ∧
      (run (step H cfg) (.genesis H) pre).store.membershipRoot = r) ?_ ?_ ops
  · intro h r hget
    cases hget
  · intro ops op ih h r hget
    have hprev : ∀ {r}, (run (step H cfg) (.genesis H) ops).store.membershipRootAt.get h = some r →
        ∃ pre, pre <+: ops ++ [op] ∧
          (run (step H cfg) (.genesis H) pre).store.membershipRoot = r := by
      intro r hget
      obtain ⟨pre, hpre, hroot⟩ := ih h r hget
      exact ⟨pre, hpre.trans (List.prefix_append _ _), hroot⟩
    cases op with
    | onInitialize => exact hprev hget
    | dispatch origin call =>
      rw [rootAt_dispatch] at hget
      exact hprev hget
    | onFinalize =>
      have hlive : (run (step H cfg) (.genesis H) (ops ++ [.onFinalize])).store.membershipRoot =
          (onFinalize H cfg (run (step H cfg) (.genesis H) ops).number
            (run (step H cfg) (.genesis H) ops).store).1.membershipRoot := by
        rw [run_concat]
        rfl
      rw [step, get_rootAt_onFinalize] at hget
      split at hget
      · cases hget
      split at hget
      · cases hget
        exact ⟨_, List.prefix_refl _, hlive⟩
      · exact hprev hget

/-- Every accepted root was the live root of a state of the run. -/
theorem exists_prefix_of_rootAccepted {ops : List Op} {tip : ℕ} {root : Bytes32}
    (h : membershipRootAccepted tip (run (step H cfg) (.genesis H) ops).store root = true) :
    ∃ pre, pre <+: ops ∧ (run (step H cfg) (.genesis H) pre).store.membershipRoot = root := by
  rcases membershipRootAccepted_iff.mp h with hlive | ⟨k, -, -, hk⟩
  · exact ⟨ops, List.prefix_refl _, hlive⟩
  · exact exists_prefix_of_rootAt ops k root hk

/-! ## Preimages of a run -/

/-- The preimages of the trees of all states of a run. -/
def runPreimages (H : Host) (cfg : Config) (ops : List Op) : List Bytes :=
  ops.inits.flatMap fun pre =>
    treePreimages H.blake2_256 (slotsOf (run (step H cfg) (.genesis H) pre).store)

theorem runPreimages_mono {pre ops : List Op} (hpre : pre <+: ops) :
    runPreimages H cfg pre ⊆ runPreimages H cfg ops := by
  intro x hx
  obtain ⟨src, hsrc, hx⟩ := List.mem_flatMap.mp hx
  exact List.mem_flatMap.mpr
    ⟨src, (List.mem_inits _ _).mpr (((List.mem_inits _ _).mp hsrc).trans hpre), hx⟩

theorem treePreimages_subset_run {pre ops : List Op} (hpre : pre <+: ops) :
    treePreimages H.blake2_256 (slotsOf (run (step H cfg) (.genesis H) pre).store) ⊆
      runPreimages H cfg ops := by
  intro x hx
  exact List.mem_flatMap.mpr ⟨pre, List.mem_inits _ _ |>.mpr hpre, hx⟩

/-- The root of a reachable state is the one of its slots. -/
theorem membershipRoot_eq_slotsOf (ops : List Op) :
    (run (step H cfg) (.genesis H) ops).store.membershipRoot = rootFromLeaves H.blake2_256
      ((slotsOf (run (step H cfg) (.genesis H) ops).store).map (slotDigest H.blake2_256)) := by
  have hinv := (@treeInv_run_genesis H cfg ops).1
  rw [← SlotInv.digestsOf_eq hinv.slots]
  exact hinv.root

end Window

/-! ## Rings under a root -/

section Native

variable {l : ℕ} {Point : Type} [AddCommGroup Point] [Module (ZMod l) Point] [DecidableEq Point]
variable {E : CryptoLib l Point} {cfg : Config}

/-- A proof under the live root of a state of the run is signed over the outputs admitted there. -/
theorem ring_of_rootAccepted {pre ops : List Op} (hpre : pre <+: ops) {s : Storage}
    (hs : s = (run (step (nativeHost E) cfg) (.genesis (nativeHost E)) pre).store)
    {msg pseudoCommitment keyImage proof : Bytes}
    (hfree : CollisionFree E.blake2_256
      (runPreimages (nativeHost E) cfg ops ++ proofPreimages E.blake2_256 proof))
    (hverify : verify E msg s.membershipRoot.val pseudoCommitment keyImage proof = true) :
    ∃ clsag, FcmpProof.decode proof = some ⟨(slotsOf s).map (slotDigest E.blake2_256),
        ringOfSlots (slotsOf s), clsag⟩ ∧
      s.treeSlots ≤ 64 ∧
      Clsag.verifyWithMax E msg (ringBlob (ringOfSlots (slotsOf s))) pseudoCommitment keyImage clsag
        Clsag.MAX_FCMP_RING = true := by
  have hroot : s.membershipRoot = rootFromLeaves E.blake2_256
      ((slotsOf s).map (slotDigest E.blake2_256)) := hs ▸ membershipRoot_eq_slotsOf pre
  have hsub : treePreimages E.blake2_256 (slotsOf s) ⊆ runPreimages (nativeHost E) cfg ops :=
    hs ▸ treePreimages_subset_run hpre
  rw [hroot] at hverify
  obtain ⟨clsag, hdecode, hlen, hclsag⟩ := slots_of_verify (hfree.mono (List.append_subset.mpr
    ⟨fun x hx => List.mem_append_left _ (hsub hx), List.subset_append_right _ _⟩)) hverify
  exact ⟨clsag, hdecode, (length_slotsOf s).symm.trans_le hlen, hclsag⟩

/-- The ring of a storage lists its admitted outputs. -/
theorem mem_ringOfSlots_slotsOf {fin : ℕ} {H : Host} {s : Storage} (hinv : SlotInv H cfg fin s)
    (hlen : s.treeSlots ≤ 64) {m : RingMember} :
    m ∈ ringOfSlots (slotsOf s) ↔ s.admitted.containsKey m.treeIndex.toNat = true ∧
      ∃ out, s.outputs.get m.treeIndex.toNat = some out ∧ out.oneTimeKey = m.oneTimeKey ∧
        out.commitment = m.commitment := by
  rw [mem_ringOfSlots (by rw [length_slotsOf]; omega), getElem?_slotsOf_eq_some]
  constructor
  · rintro ⟨-, h⟩
    exact h
  · intro h
    exact ⟨TreeInvLemmas.SlotInv.lt_of_admitted hinv h.1, h⟩

/-- A member of the ring of a state of the run is a stored output, mature in the block that was
finalized last there. -/
theorem mature_of_mem_ring {pre ops : List Op} (hpre : pre <+: ops) {c : Chain}
    (hc : c = run (step (nativeHost E) cfg) (.genesis (nativeHost E)) pre)
    (hlen : c.store.treeSlots ≤ 64) {m : RingMember} (hm : m ∈ ringOfSlots (slotsOf c.store)) :
    ∃ out, (run (step (nativeHost E) cfg) (.genesis (nativeHost E)) ops).store.outputs.get
        m.treeIndex.toNat = some out ∧ out.oneTimeKey = m.oneTimeKey ∧
      out.commitment = m.commitment ∧ out.height + maturityAge cfg out ≤ c.finalized := by
  subst hc
  have hinv := (@treeInv_run_genesis (nativeHost E) cfg pre).1
  obtain ⟨hadmitted, out, hout, hp, hcm⟩ := (mem_ringOfSlots_slotsOf hinv.slots hlen).mp hm
  obtain ⟨out', hout', hmature⟩ := hinv.slots.mature _ hadmitted
  rw [hout, Option.some.injEq] at hout'
  subst hout'
  exact ⟨out, get_outputs_prefix hpre hout, hp, hcm, hmature⟩

end Native

end Kohl.Pallet
