import Kohl.Lib.Iteration
import Kohl.Lib.Ranges
import Kohl.Wallet.Accepted

/-!
# The runtime API

`runtime/src/lib.rs`: what a node reads off the storage for wallets. The map of outputs is iterated in the
order of hashed keys, which is left open here (`Iteration`).

* `within_ledger_perm`: the outputs of a range of blocks are the outputs of a stretch of the ledger, in
  some order.
* `output_feed_exact`: ranges that follow each other make up one, the full range is the whole ledger, and
  what a range holds does not change once its blocks are over.
* `output_distribution_exact`: for which ranges the distribution counts the same outputs, block by block, and
  for which it traps.
* `membershipBackfillStatus_of_run`: the status of a chain is never that of one that lags.
* `incremental_scan`: a wallet that scans every block once owns what a full scan finds.
-/

namespace Kohl.RuntimeApi

open ByteLib Run Pallet LedgerLemmas WindowLemmas Wallet Ranges MembershipTree

/-- An entry of the feed of outputs: the index of an output, and the output. -/
abbrev Entry := UInt64 × StoredOutput

/-- The block of an entry. -/
def heightOf (x : Entry) : ℕ := x.2.height

variable (it : Iteration Entry) (s : Storage)

/-! ## The calls -/

def outputsInRange (first last : ℕ) : List Entry :=
  (it.order (storedOutputs s)).filter fun x => decide (first ≤ x.2.height ∧ x.2.height ≤ last)

/-- `u32::saturating_sub`. -/
def saturatingSub (a b : UInt32) : UInt32 := if b ≤ a then a - b else 0

/-- `vec![0u64; len]` where `usize` has 32 bits, as far as the allocator has the memory; more than `isize::MAX`
bytes trap. -/
def zeroBuckets (len : UInt32) : Option (List ℕ) :=
  if 8 * len.toNat < 2 ^ 31 then some (List.replicate len.toNat 0) else none

/-- The number of outputs of every block from `first` to `last`; an index behind the last bucket traps. -/
def outputDistribution (first last : UInt32) : Option (List ℕ) :=
  -- the addition is one of `usize`, and wraps
  let span := saturatingSub last first + 1
  (zeroBuckets span).bind (tally heightOf first.toNat last.toNat (it.order (storedOutputs s)))

def outputCount : ℕ := s.nextOutputIndex

def isKeyImageSpent (keyImage : Bytes32) : Bool := s.keyImages.containsKey keyImage

def membershipLeafDigest (index : UInt64) : Option Bytes32 := s.membershipLeafDigest.get index.toNat

def isAdmitted (index : UInt64) : Bool := s.admitted.containsKey index.toNat

/-- Lag and catch-up, for operators and provers. -/
structure MembershipBackfillStatus where
  treeSlots : ℕ
  nextOutputIndex : ℕ
  lagging : Bool
  admitScanCursor : ℕ
  membershipRoot : Bytes32
deriving DecidableEq

def membershipBackfillStatus : MembershipBackfillStatus where
  treeSlots := s.treeSlots
  nextOutputIndex := s.nextOutputIndex
  lagging := isMembershipLagging s
  admitScanCursor := s.admitScanCursor
  membershipRoot := s.membershipRoot

/-! ## The feed of a chain of blocks -/

/-- The ledger with its indices. -/
def indexed (outs : List StoredOutput) : List Entry :=
  outs.zipIdx.map fun x => (UInt64.ofNat x.2, x.1)

namespace ApiLemmas

variable {H : Host} {cfg : Config} {ops : List Op} {s : Storage}

theorem outputsInRange_eq (first last : ℕ) :
    outputsInRange it s first last = within heightOf first last (it.order (storedOutputs s)) := rfl

/-- The stored outputs of a reachable state are the ledger. -/
theorem storedOutputs_eq (hs : s = (run (step H cfg) (.genesis H) ops).store) :
    storedOutputs s = indexed (ledger H cfg (.genesis H) ops) := by
  obtain ⟨hget, hnext⟩ := @ledger_spec H cfg ops
  rw [← hs] at hget hnext
  have hgetFn : ∀ i, s.outputs.get i = (ledger H cfg (.genesis H) ops)[i]? := hget
  rw [storedOutputs, hnext, indexed]
  simp only [hgetFn]
  generalize ledger H cfg (.genesis H) ops = outs
  induction outs using List.reverseRecOn with
  | nil => rfl
  | append_singleton outs out ih =>
    rw [List.length_append, List.length_singleton, List.range_succ, List.filterMap_append,
      List.zipIdx_append, List.map_append, ← ih]
    congr 1
    · refine List.filterMap_congr fun i hi => ?_
      rw [List.getElem?_append_left (List.mem_range.mp hi)]
    · rw [List.filterMap_cons, List.getElem?_append_right (Nat.le_refl _), Nat.sub_self, Nat.zero_add]
      rfl

theorem heights_indexed (outs : List StoredOutput) : (indexed outs).map heightOf =
    outs.map StoredOutput.height := by
  rw [indexed, List.map_map]
  show outs.zipIdx.map (StoredOutput.height ∘ Prod.fst) = _
  rw [← List.map_map, List.zipIdx_map_fst]

theorem sorted_indexed {outs : List StoredOutput}
    (h : outs.Pairwise fun a b => a.height ≤ b.height) :
    (indexed outs).Pairwise fun a b => heightOf a ≤ heightOf b := by
  have hmap : (outs.map StoredOutput.height).Pairwise (· ≤ ·) := List.pairwise_map.mpr h
  rw [← heights_indexed] at hmap
  exact List.pairwise_map.mp hmap

theorem snd_mem_of_indexed {outs : List StoredOutput} {x : Entry} (h : x ∈ indexed outs) :
    x.2 ∈ outs := by
  obtain ⟨y, hy, rfl⟩ := List.mem_map.mp h
  exact List.fst_mem_of_mem_zipIdx hy

/-- No output is older than the chain it is stored by. -/
theorem number_le_ledger (c : Chain) (ops : List Op) :
    ∀ out ∈ ledger H cfg c ops, c.number ≤ out.height := by
  induction ops generalizing c with
  | nil => exact fun _ hout => absurd hout List.not_mem_nil
  | cons op ops ih =>
    intro out hout
    rcases List.mem_append.mp hout with hout | hout
    · exact (height_of_mem_stepOutputs hout).ge
    · exact (number_le_step c op).trans (ih _ out hout)

/-- Later blocks append outputs that are younger than every earlier block. -/
theorem ledger_blocks (H : Host) (cfg : Config) (blocks later : List (List (Origin × Call))) :
    ∃ newer, ledger H cfg (.genesis H) ((blocks ++ later).flatMap blockOps) =
        ledger H cfg (.genesis H) (blocks.flatMap blockOps) ++ newer ∧
      ∀ out ∈ newer, blocks.length < out.height := by
  have hnumber := (@number_afterBlocks H cfg blocks).1
  rw [afterBlocks] at hnumber
  rw [List.flatMap_append, ledger_append]
  refine ⟨_, rfl, ?_⟩
  cases later with
  | nil => exact fun _ hout => absurd hout List.not_mem_nil
  | cons calls later =>
    intro out hout
    have hle := number_le_ledger _ _ out hout
    rw [List.flatMap_cons, blockOps, List.append_assoc, List.cons_append, ledger] at hout
    rcases List.mem_append.mp hout with hout | hout
    · exact absurd hout List.not_mem_nil
    · have hlt := number_le_ledger _ _ out hout
      exact Nat.lt_of_lt_of_le (Nat.lt_succ_of_le hnumber.ge) hlt

variable {it : Iteration Entry} {first mid last : ℕ}

/-- The outputs of a range of blocks are those of the ledger, in some order. -/
theorem within_ledger_perm (hs : s = (run (step H cfg) (.genesis H) ops).store) (first last : ℕ) :
    (outputsInRange it s first last).Perm
      (within heightOf first last (indexed (ledger H cfg (.genesis H) ops))) := by
  rw [outputsInRange_eq, ← storedOutputs_eq hs]
  exact within_perm (it.perm _) first last

theorem length_indexed (outs : List StoredOutput) : (indexed outs).length = outs.length := by
  rw [indexed, List.length_map, List.length_zipIdx]

theorem indexed_append (outs newer : List StoredOutput) : ∃ rest,
    indexed (outs ++ newer) = indexed outs ++ rest ∧ ∀ x ∈ rest, x.2 ∈ newer := by
  rw [indexed, List.zipIdx_append, List.map_append]
  refine ⟨_, rfl, fun x hx => ?_⟩
  obtain ⟨y, hy, rfl⟩ := List.mem_map.mp hx
  exact List.fst_mem_of_mem_zipIdx hy

/-- The first blocks hold all of the ledger they leave behind. -/
theorem within_all (blocks : List (List (Origin × Call))) :
    within heightOf 0 blocks.length
        (indexed (ledger H cfg (.genesis H) (blocks.flatMap blockOps))) =
      indexed (ledger H cfg (.genesis H) (blocks.flatMap blockOps)) := by
  have hnumber := (@number_afterBlocks H cfg blocks).1
  rw [afterBlocks] at hnumber
  refine within_eq_self fun x hx => ⟨Nat.zero_le _, ?_⟩
  have hle := (@heights_ledger H cfg (blocks.flatMap blockOps)).2 x.2 (snd_mem_of_indexed hx)
  rw [hnumber] at hle
  exact hle

/-- What the ledger holds for past blocks does not change. -/
theorem within_past (blocks later : List (List (Origin × Call))) (hlast : last ≤ blocks.length) :
    within heightOf first last
        (indexed (ledger H cfg (.genesis H) ((blocks ++ later).flatMap blockOps))) =
      within heightOf first last
        (indexed (ledger H cfg (.genesis H) (blocks.flatMap blockOps))) := by
  obtain ⟨newer, hledger, hnewer⟩ := ledger_blocks H cfg blocks later
  obtain ⟨rest, hindexed, hrest⟩ := indexed_append
    (ledger H cfg (.genesis H) (blocks.flatMap blockOps)) newer
  rw [hledger, hindexed, within_append]
  have hnil : within heightOf first last rest = [] :=
    within_eq_nil fun x hx => .inr (Nat.lt_of_le_of_lt hlast (hnewer _ (hrest x hx)))
  rw [hnil, List.append_nil]

/-- The range of all blocks is the whole ledger. -/
theorem all_perm (it : Iteration Entry) (blocks : List (List (Origin × Call))) :
    (outputsInRange it (afterBlocks H cfg blocks).store 0 blocks.length).Perm
      (indexed (ledger H cfg (.genesis H) (blocks.flatMap blockOps))) := by
  have hperm := @within_ledger_perm H cfg (blocks.flatMap blockOps) _ it rfl 0 blocks.length
  rw [within_all] at hperm
  exact hperm

theorem length_all (it : Iteration Entry) (blocks : List (List (Origin × Call))) :
    (outputsInRange it (afterBlocks H cfg blocks).store 0 blocks.length).length =
      outputCount (afterBlocks H cfg blocks).store := by
  rw [(all_perm it blocks).length_eq, length_indexed]
  exact (@ledger_spec H cfg (blocks.flatMap blockOps)).2.symm

/-- The order of the iteration does not matter for a range. -/
theorem range_perm (it it' : Iteration Entry) (s : Storage) (first last : ℕ) :
    (outputsInRange it s first last).Perm (outputsInRange it' s first last) :=
  within_perm ((it.perm _).trans (it'.perm _).symm) first last

/-- There is a bucket for every block of a range, unless there are as many as block numbers. -/
theorem toNat_span {first last : UInt32} (hle : first ≤ last)
    (hlt : last.toNat - first.toNat < 2 ^ 32 - 1) :
    (saturatingSub last first + 1).toNat = last.toNat - first.toNat + 1 := by
  rw [saturatingSub, if_pos hle, UInt32.toNat_add, UInt32.toNat_sub_of_le _ _ hle]
  exact Nat.mod_eq_of_lt (Nat.add_lt_of_lt_sub hlt)

/-- The buckets of a range of fewer than `2 ^ 28` blocks. -/
theorem outputDistribution_eq (it it' : Iteration Entry) (s : Storage) {first last : UInt32}
    (hle : first ≤ last) (hlt : last.toNat - first.toNat < 2 ^ 28 - 1) :
    outputDistribution it s first last =
      some ((List.range (last.toNat - first.toNat + 1)).map fun k =>
        (outputsInRange it' s (first.toNat + k) (first.toNat + k)).length) := by
  have hzero : List.replicate (last.toNat - first.toNat + 1) 0 =
      (List.range (last.toNat - first.toNat + 1)).map fun _ => 0 := by
    rw [List.map_const', List.length_range]
  show (zeroBuckets (saturatingSub last first + 1)).bind
    (tally heightOf first.toNat last.toNat (it.order (storedOutputs s))) = _
  rw [zeroBuckets, toNat_span hle (by omega), if_pos (by omega), Option.bind_some, hzero,
    tally_eq (UInt32.le_iff_toNat_le.mp hle), Option.some.injEq]
  refine List.map_congr_left fun k _ => ?_
  rw [Nat.zero_add]
  exact (range_perm it it' s (first.toNat + k) (first.toNat + k)).length_eq

/-- A range that ends before it begins has one bucket. -/
theorem outputDistribution_of_lt (it : Iteration Entry) (s : Storage) {first last : UInt32}
    (hlt : last < first) : outputDistribution it s first last = some [0] := by
  have hspan : saturatingSub last first + 1 = 1 := by
    rw [saturatingSub, if_neg (UInt32.not_le.mpr hlt)]
    rfl
  unfold outputDistribution
  rw [hspan]
  show (some [0]).bind (tally heightOf first.toNat last.toNat (it.order (storedOutputs s))) = _
  rw [Option.bind_some, tally_of_lt (UInt32.lt_iff_toNat_lt.mp hlt)]

/-- The buckets of a longer range cannot be allocated. -/
theorem outputDistribution_eq_none (it : Iteration Entry) (s : Storage) {first last : UInt32}
    (hle : first ≤ last) (hge : 2 ^ 28 - 1 ≤ last.toNat - first.toNat)
    (hlt : last.toNat - first.toNat < 2 ^ 32 - 1) : outputDistribution it s first last = none := by
  show (zeroBuckets (saturatingSub last first + 1)).bind
    (tally heightOf first.toNat last.toNat (it.order (storedOutputs s))) = _
  rw [zeroBuckets, toNat_span hle hlt, if_neg (by omega), Option.bind_none]

/-- The counts of a range add up to its outputs. -/
theorem sum_outputDistribution (it' : Iteration Entry) (s : Storage) (hle : first ≤ last) :
    ((List.range (last - first + 1)).map fun k =>
      (outputsInRange it' s (first + k) (first + k)).length).sum =
      (outputsInRange it' s first last).length :=
  sum_countAt hle (it'.order (storedOutputs s))

end ApiLemmas

open ApiLemmas

/-- What a node hands out for ranges of blocks, in whatever order it iterates. Two ranges that follow each
other make up the range of both; the range of all blocks is the whole output set, as many outputs as
`output_count` says; and what a range holds does not change with later blocks, once its own are over. -/
theorem output_feed_exact (H : Host) (cfg : Config) (blocks later : List (List (Origin × Call)))
    (it it' : Iteration Entry) :
    let s := (afterBlocks H cfg blocks).store
    let s' := (afterBlocks H cfg (blocks ++ later)).store
    (∀ first mid last, first ≤ mid + 1 → mid ≤ last →
      (outputsInRange it s first mid ++ outputsInRange it' s (mid + 1) last).Perm
        (outputsInRange it s first last)) ∧
    (outputsInRange it s 0 blocks.length).Perm (storedOutputs s) ∧
    (outputsInRange it s 0 blocks.length).length = outputCount s ∧
    ∀ first last, last ≤ blocks.length →
      (outputsInRange it' s' first last).Perm (outputsInRange it s first last) := by
  dsimp only
  have hs : (afterBlocks H cfg blocks).store =
      (run (step H cfg) (.genesis H) (blocks.flatMap blockOps)).store := rfl
  have hs' : (afterBlocks H cfg (blocks ++ later)).store =
      (run (step H cfg) (.genesis H) ((blocks ++ later).flatMap blockOps)).store := rfl
  refine ⟨fun first mid last hfirst hlast => ?_, ?_, ?_, fun first last hlast => ?_⟩
  · have hsorted := sorted_indexed (@heights_ledger H cfg (blocks.flatMap blockOps)).1
    refine ((within_ledger_perm hs first mid).append (within_ledger_perm hs (mid + 1) last)).trans ?_
    rw [within_append_within hsorted hfirst hlast]
    exact (within_ledger_perm hs first last).symm
  · rw [storedOutputs_eq hs]
    exact all_perm it blocks
  · exact length_all it blocks
  · refine (within_ledger_perm hs' first last).trans ?_
    rw [within_past blocks later hlast]
    exact (within_ledger_perm hs first last).symm

/-- The distribution over a range of blocks. Over fewer than `2 ^ 28` blocks it never runs out of its buckets,
and counts the outputs of each block; the counts add up to the outputs of the range, and over all blocks to
`output_count`. A range that ends before it begins has one bucket, which stays empty. Over `2 ^ 28` blocks or
more it traps, since the buckets cannot be allocated. Over all `2 ^ 32` block numbers, more than the chain has
blocks, their number wraps to zero: nothing is counted, and the first output finds no bucket. -/
theorem output_distribution_exact (H : Host) (cfg : Config) (blocks : List (List (Origin × Call)))
    (it it' : Iteration Entry) :
    let s := (afterBlocks H cfg blocks).store
    (∀ first last : UInt32, first ≤ last → last.toNat - first.toNat < 2 ^ 28 - 1 →
      ∃ counts, outputDistribution it s first last = some counts ∧
        counts.length = last.toNat - first.toNat + 1 ∧
        (∀ k, first.toNat + k ≤ last.toNat →
          counts[k]? = some (outputsInRange it' s (first.toNat + k) (first.toNat + k)).length) ∧
        counts.sum = (outputsInRange it' s first.toNat last.toNat).length) ∧
    (blocks.length < 2 ^ 28 - 1 → ∃ counts,
      outputDistribution it s 0 (UInt32.ofNat blocks.length) = some counts ∧
        counts.sum = outputCount s) ∧
    (∀ first last : UInt32, last < first → outputDistribution it s first last = some [0]) ∧
    (∀ first last : UInt32, first ≤ last → 2 ^ 28 - 1 ≤ last.toNat - first.toNat →
      last.toNat - first.toNat < 2 ^ 32 - 1 → outputDistribution it s first last = none) ∧
    (blocks.length < 2 ^ 32 → outputDistribution it s 0 0xFFFFFFFF =
      if outputCount s = 0 then some [] else none) := by
  dsimp only
  refine ⟨fun first last hle hlt => ⟨_, outputDistribution_eq it it' _ hle hlt, ?_, fun k hk => ?_, ?_⟩,
    fun hlen => ?_, fun first last hlt => outputDistribution_of_lt it _ hlt,
    fun first last hle hge hlt => outputDistribution_eq_none it _ hle hge hlt, fun hlen => ?_⟩
  · rw [List.length_map, List.length_range]
  · rw [List.getElem?_map, List.getElem?_range (by omega), Option.map_some]
  · exact sum_outputDistribution it' _ (UInt32.le_iff_toNat_le.mp hle)
  · have hlast : (UInt32.ofNat blocks.length).toNat = blocks.length := by
      rw [UInt32.toNat_ofNat']
      exact Nat.mod_eq_of_lt (hlen.trans (by decide))
    refine ⟨_, outputDistribution_eq it it' _ UInt32.zero_le (by rw [hlast]; exact hlen), ?_⟩
    rw [hlast, UInt32.toNat_zero, sum_outputDistribution it' _ (Nat.zero_le _)]
    exact length_all it' blocks
  · -- every output is in the range, and there is no bucket for it
    show tally heightOf 0 (2 ^ 32 - 1) (it.order (storedOutputs (afterBlocks H cfg blocks).store)) [] = _
    have hlength := @length_all H cfg it blocks
    rw [(all_perm it blocks).length_eq] at hlength
    have hstored : storedOutputs (afterBlocks H cfg blocks).store =
        indexed (ledger H cfg (.genesis H) (blocks.flatMap blockOps)) := storedOutputs_eq rfl
    have hperm := it.perm (storedOutputs (afterBlocks H cfg blocks).store)
    split
    · next hnone =>
      rw [hnone, List.length_eq_zero_iff, ← hstored] at hlength
      rw [hlength] at hperm ⊢
      rw [List.perm_nil.mp hperm]
      rfl
    · next hsome =>
      rw [← hlength, List.length_eq_zero_iff, ← hstored] at hsome
      obtain ⟨x, hx⟩ := List.exists_mem_of_ne_nil _ hsome
      refine tally_nil_eq_none ⟨x, hperm.mem_iff.mpr hx, Nat.zero_le _, ?_⟩
      rw [hstored, ← within_all, within, List.mem_filter, decide_eq_true_iff] at hx
      exact Nat.le_sub_one_of_lt (hx.2.2.trans_lt hlen)

/-- The status of a chain: as many slots as outputs, no lag, and the root of the slots. -/
theorem membershipBackfillStatus_of_run (H : Host) (cfg : Config) (ops : List Op) :
    let s := (run (step H cfg) (.genesis H) ops).store
    let outputs := (ledger H cfg (.genesis H) ops).length
    membershipBackfillStatus s = ⟨outputs, outputs, false, s.admitScanCursor,
      rootFromLeaves H.blake2_256 ((slotsOf s).map (slotDigest H.blake2_256))⟩ := by
  intro s outputs
  have hnext : s.nextOutputIndex = outputs := (@ledger_spec H cfg ops).2
  have hslots : s.treeSlots = s.nextOutputIndex := (@treeInv_run_genesis H cfg ops).2
  have hroot := @membershipRoot_eq_slotsOf H cfg ops
  have hlag : isMembershipLagging s = false := by
    rw [isMembershipLagging, hslots]
    exact decide_eq_false (Nat.lt_irrefl _)
  rw [membershipBackfillStatus, hlag, hslots, hnext, hroot]

/-! ## Scanning as the chain grows -/

/-- The answers a client gets that asks, each time some blocks have been added, for the blocks since it
last asked; `done` are the blocks it has asked for, and `its` the orders of the answers. -/
def pulls (H : Host) (cfg : Config) (its : ℕ → Iteration Entry) (done : List (List (Origin × Call))) :
    List (List (List (Origin × Call))) → List Entry
  | [] => []
  | added :: rest =>
    outputsInRange (its rest.length) (afterBlocks H cfg (done ++ added)).store (done.length + 1)
        (done ++ added).length ++
      pulls H cfg its (done ++ added) rest

/-- What the pulls add to the outputs of the first blocks makes up the outputs of all blocks. -/
theorem pulls_perm {H : Host} {cfg : Config} (it : Iteration Entry) (its : ℕ → Iteration Entry)
    (done : List (List (Origin × Call))) (adding : List (List (List (Origin × Call)))) :
    (outputsInRange it (afterBlocks H cfg done).store 0 done.length ++
        pulls H cfg its done adding).Perm
      (outputsInRange it (afterBlocks H cfg (done ++ adding.flatten)).store 0
        (done ++ adding.flatten).length) := by
  induction adding generalizing done with
  | nil =>
    rw [pulls, List.append_nil, List.flatten_nil, List.append_nil]
  | cons added rest ih =>
    have hledger : (afterBlocks H cfg (done ++ added)).store =
        (run (step H cfg) (.genesis H) ((done ++ added).flatMap blockOps)).store := rfl
    -- the outputs of the first blocks are still the same when the next answer comes
    have hpast : (outputsInRange it (afterBlocks H cfg done).store 0 done.length).Perm
        (outputsInRange it (afterBlocks H cfg (done ++ added)).store 0 done.length) := by
      refine (within_ledger_perm rfl 0 done.length).trans ?_
      rw [← @within_past H cfg 0 done.length done added (Nat.le_refl _)]
      exact (within_ledger_perm hledger 0 done.length).symm
    have hjoin : (outputsInRange it (afterBlocks H cfg done).store 0 done.length ++
        outputsInRange (its rest.length) (afterBlocks H cfg (done ++ added)).store (done.length + 1)
          (done ++ added).length).Perm
        (outputsInRange it (afterBlocks H cfg (done ++ added)).store 0 (done ++ added).length) := by
      have hsorted := sorted_indexed
        (@heights_ledger H cfg ((done ++ added).flatMap blockOps)).1
      have hle : done.length ≤ (done ++ added).length := by
        rw [List.length_append]
        exact Nat.le_add_right _ _
      refine (hpast.append (List.Perm.refl _)).trans ?_
      refine ((within_ledger_perm hledger 0 done.length).append
        (within_ledger_perm hledger (done.length + 1) _)).trans ?_
      rw [within_append_within hsorted (Nat.zero_le _) hle]
      exact (within_ledger_perm hledger 0 _).symm
    rw [pulls, List.flatten_cons, ← List.append_assoc, ← List.append_assoc]
    exact (hjoin.append_right _).trans (ih (done ++ added))

/-- A client that asks for every block once, at whatever tips, ends up with the outputs of all blocks, each
once; so a wallet that scans the answers as they come owns what it finds by scanning the whole chain at the
end, however the answers are ordered. -/
theorem incremental_scan {l : ℕ} {Point : Type} [AddCommGroup Point] [Module (ZMod l) Point]
    (E : CryptoLib l Point) (w : Wallet E) (H : Host) (cfg : Config) (it : Iteration Entry)
    (its : ℕ → Iteration Entry) (adding : List (List (List (Origin × Call)))) :
    let s := (afterBlocks H cfg adding.flatten).store
    (pulls H cfg its [] adding).Perm (storedOutputs s) ∧
    (scan E w (pulls H cfg its [] adding)).Perm
      (scan E w (outputsInRange it s 0 adding.flatten.length)) := by
  dsimp only
  have hperm := @pulls_perm H cfg it its [] adding
  have hnone : outputsInRange it (afterBlocks H cfg []).store 0 0 = [] := by
    have hempty := @all_perm H cfg it []
    exact List.perm_nil.mp hempty
  rw [List.nil_append, List.length_nil, hnone, List.nil_append] at hperm
  refine ⟨hperm.trans ?_, hperm.filterMap _⟩
  have hs : (afterBlocks H cfg adding.flatten).store =
      (run (step H cfg) (.genesis H) (adding.flatten.flatMap blockOps)).store := rfl
  rw [storedOutputs_eq hs]
  exact all_perm it adding.flatten

end Kohl.RuntimeApi
