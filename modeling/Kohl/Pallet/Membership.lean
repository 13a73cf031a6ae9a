import Kohl.Pallet.Types

/-!
# Maintenance of the membership tree

The slots of the tree follow the outputs: a slot is grown with the placeholder when its output is
created, filled with the leaf of the output when it is mature, and the root is recomputed.

The results are frame facts, what an operation does not touch, and the outputs and indices after
storing:

* `get_outputs_storeOutputs`, `nextOutputIndex_storeOutputs`: outputs are appended in order.
* `exists_storeOutputs`, `exists_onFinalize`: the items an operation may change.
* `membershipRootAccepted_iff`: the accepted roots are the live one and those of the window.
-/

namespace Kohl.Pallet

open ByteLib MembershipTree

variable (H : Host) (cfg : Config)

/-! ## Growing -/

def growEmptySlot (s : Storage) : Storage :=
  { s with
    membershipLeafDigest := s.membershipLeafDigest.insert s.treeSlots (emptyLeafHash H.blake2_256)
    treeSlots := s.treeSlots + 1 }

/-- The leaf digests of the slots `0..TreeSlots`; an absent digest reads as the placeholder. -/
def digestsOf (s : Storage) : List Bytes32 :=
  (List.range s.treeSlots).map fun i =>
    (s.membershipLeafDigest.get i).getD (emptyLeafHash H.blake2_256)

def refreshMembershipRoot (s : Storage) : Storage :=
  { s with membershipRoot := rootFromLeaves H.blake2_256 (digestsOf H s) }

/-- Grow a slot for the output at `index` unless the tree lags behind. -/
def maybeGrowEmptyOnCreate (s : Storage) (index : ℕ) : Storage :=
  if s.treeSlots ≠ index then s else refreshMembershipRoot H (growEmptySlot H s)

/-- The loop that stores the outputs of a transfer or a coinbase from index `next` on. -/
def storeLoop (s : Storage) (next : ℕ) : List StoredOutput → Storage × ℕ
  | [] => (s, next)
  | out :: outs =>
    storeLoop (maybeGrowEmptyOnCreate H { s with outputs := s.outputs.insert next out } next)
      (next + 1) outs

/-- Store outputs and put the next index. -/
def storeOutputs (s : Storage) (outs : List StoredOutput) : Storage :=
  let r := storeLoop H s s.nextOutputIndex outs
  { r.1 with nextOutputIndex := r.2 }

/-! ## Filling -/

/-- The blocks an output has to wait before it is admitted. -/
def maturityAge (out : StoredOutput) : ℕ :=
  if out.coinbase then cfg.coinbaseMaturity else cfg.spendableAge

/-- The sum of the height and the age is one of `u32` in the runtime, and taken not to wrap. -/
def outputIsMature (out : StoredOutput) (now : ℕ) : Bool :=
  decide (out.height + maturityAge cfg out ≤ now)

/-- Fill slot `i` with the leaf of its output. -/
def fillSlot (s : Storage) (i : ℕ) (out : StoredOutput) : Storage :=
  { s with
    membershipLeafDigest := s.membershipLeafDigest.insert i
      (leafHash H.blake2_256 out.oneTimeKey out.commitment)
    admitted := s.admitted.insert i () }

/-- What one turn of the scan does at slot `i`: the storage, and whether the slot was filled. -/
def tryAdmit (now : ℕ) (s : Storage) (i : ℕ) : Storage × Bool :=
  if s.admitted.containsKey i then (s, false)
  else
    match s.outputs.get i with
    | none => (s, false)
    | some out =>
      if outputIsMature cfg out now then (fillSlot H s i out, true) else (s, false)

/-- The scan from slot `i`, at most `left` slots and `FCMP_ADMIT_MAX_LEAVES_PER_BLOCK` admissions:
the storage, the slot behind the last one looked at, and the number of admissions. -/
def admitLoop (now slots : ℕ) : ℕ → ℕ → ℕ → Storage → Storage × ℕ × ℕ
  | 0, i, admitted, s => (s, i, admitted)
  | left + 1, i, admitted, s =>
    if admitted < FCMP_ADMIT_MAX_LEAVES_PER_BLOCK then
      let r := tryAdmit H cfg now s i
      let i' := if slots ≤ i + 1 then 0 else i + 1
      admitLoop now slots left i' (if r.2 then admitted + 1 else admitted) r.1
    else (s, i, admitted)

def admitMatureLeavesBudgeted (now : ℕ) (s : Storage) : Storage × ℕ :=
  if s.treeSlots = 0 then ({ s with admitScanCursor := 0 }, 0)
  else
    let (s', i, admitted) :=
      admitLoop H cfg now s.treeSlots s.treeSlots (s.admitScanCursor % s.treeSlots) 0 s
    ({ s' with admitScanCursor := i }, admitted)

/-! ## Catching up and the end of a block -/

/-- Grow slots while the tree lags behind the outputs, at most `left` of them. -/
def catchupLoop (nextOut : ℕ) : ℕ → ℕ → Storage → Storage × ℕ
  | 0, grown, s => (s, grown)
  | left + 1, grown, s =>
    if nextOut ≤ s.treeSlots then (s, grown)
    else catchupLoop nextOut left (grown + 1) (growEmptySlot H s)

def catchupGrowBudgeted (s : Storage) : Storage × ℕ :=
  catchupLoop H s.nextOutputIndex FCMP_GROW_CATCHUP_MAX_PER_BLOCK 0 s

/-- Fill, then catch up, then refresh the root; the numbers of filled and grown slots. -/
def maintainMembershipTree (now : ℕ) (s : Storage) : Storage × ℕ × ℕ :=
  let (s, admitted) := admitMatureLeavesBudgeted H cfg now s
  let (s, grown) := catchupGrowBudgeted H s
  (refreshMembershipRoot H s, admitted, grown)

/-- `TreeSlots < NextOutputIndex`. -/
def isMembershipLagging (s : Storage) : Bool := decide (s.treeSlots < s.nextOutputIndex)

def onInitialize (s : Storage) : Storage := { s with coinbaseDone := false }

/-- Maintain the tree, record the root under the block number and prune the root that leaves the
window. -/
def onFinalize (n : ℕ) (s : Storage) : Storage × Event :=
  let (s, admitted, grown) := maintainMembershipTree H cfg n s
  let rootAt := s.membershipRootAt.insert n s.membershipRoot
  let rootAt := if FCMP_ROOT_MAX_AGE_BLOCKS < n then rootAt.remove (n - FCMP_ROOT_MAX_AGE_BLOCKS)
    else rootAt
  let s := { s with membershipRootAt := rootAt }
  (s, .membershipTreeUpdated s.treeSlots s.nextOutputIndex s.membershipRoot admitted grown
    (isMembershipLagging s) s.admitScanCursor)

/-! ## Anchors and the frontier -/

/-- Probe the recorded roots from `h` on, `left` more after it. -/
def rootLoop (s : Storage) (root : Bytes32) : ℕ → ℕ → Bool
  | 0, h => decide (s.membershipRootAt.get h = some root)
  | left + 1, h =>
    if s.membershipRootAt.get h = some root then true else rootLoop s root left (h + 1)

/-- Whether `root` is the live root or a recorded one of the window `tip − 64 ..= tip`. -/
def membershipRootAccepted (tip : ℕ) (s : Storage) (root : Bytes32) : Bool :=
  if s.membershipRoot = root then true
  else
    let h := tip - FCMP_ROOT_MAX_AGE_BLOCKS
    -- the loop leaves when `h` reaches the tip
    rootLoop s root (tip - h) h

/-- The SCALE vector of the leaf digests, for provers. -/
def membershipFrontier (s : Storage) : Bytes := Scale.vec Subtype.val (digestsOf H s)

/-! ## What the operations leave unchanged -/

variable {H cfg}

namespace MembershipLemmas

theorem exists_maybeGrow (s : Storage) (index : ℕ) : ∃ t d r,
    maybeGrowEmptyOnCreate H s index =
      { s with treeSlots := t, membershipLeafDigest := d, membershipRoot := r } := by
  unfold maybeGrowEmptyOnCreate
  split
  · exact ⟨_, _, _, rfl⟩
  · exact ⟨_, _, _, rfl⟩

theorem exists_storeLoop (s : Storage) (next : ℕ) (outs : List StoredOutput) : ∃ o t d r,
    (storeLoop H s next outs).1 =
      { s with outputs := o, treeSlots := t, membershipLeafDigest := d, membershipRoot := r } := by
  induction outs generalizing s next with
  | nil => exact ⟨_, _, _, _, rfl⟩
  | cons out outs ih =>
    rw [storeLoop]
    obtain ⟨t, d, r, hgrow⟩ := exists_maybeGrow (H := H)
      { s with outputs := s.outputs.insert next out } next
    obtain ⟨o', t', d', r', hloop⟩ := ih _ (next + 1)
    rw [hloop, hgrow]
    exact ⟨_, _, _, _, rfl⟩

theorem storeLoop_snd (s : Storage) (next : ℕ) (outs : List StoredOutput) :
    (storeLoop H s next outs).2 = next + outs.length := by
  induction outs generalizing s next with
  | nil => rfl
  | cons out outs ih =>
    rw [storeLoop, ih, List.length_cons]
    omega

/-- The loop appends its outputs from `next` on. -/
theorem get_outputs_storeLoop (s : Storage) (next : ℕ) (outs : List StoredOutput) (j : ℕ) :
    (storeLoop H s next outs).1.outputs.get j =
      if next ≤ j ∧ j < next + outs.length then outs[j - next]? else s.outputs.get j := by
  induction outs generalizing s next with
  | nil =>
    rw [if_neg (by simp only [List.length_nil]; omega)]
    rfl
  | cons out outs ih =>
    obtain ⟨t, d, r, hgrow⟩ := exists_maybeGrow (H := H)
      { s with outputs := s.outputs.insert next out } next
    rw [storeLoop, ih, hgrow, StorageMap.get_insert, List.length_cons]
    rcases lt_trichotomy j next with hj | rfl | hj
    · rw [if_neg (by omega), if_neg (by omega), if_neg (by omega)]
    · rw [if_neg (by omega), if_pos rfl, if_pos (by omega), Nat.sub_self]
      rfl
    · have hsub : j - next = j - (next + 1) + 1 := by omega
      rw [hsub, List.getElem?_cons_succ]
      by_cases hlt : j < next + 1 + outs.length
      · rw [if_pos ⟨hj, hlt⟩, if_pos (by omega)]
      · rw [if_neg (by omega), if_neg (by omega), if_neg (by omega)]

theorem exists_tryAdmit (now : ℕ) (s : Storage) (i : ℕ) : ∃ d a,
    (tryAdmit H cfg now s i).1 = { s with membershipLeafDigest := d, admitted := a } := by
  unfold tryAdmit
  split
  · exact ⟨_, _, rfl⟩
  split
  · exact ⟨_, _, rfl⟩
  split
  · exact ⟨_, _, rfl⟩
  · exact ⟨_, _, rfl⟩

theorem exists_admitLoop (now slots left i n : ℕ) (s : Storage) : ∃ d a,
    (admitLoop H cfg now slots left i n s).1 =
      { s with membershipLeafDigest := d, admitted := a } := by
  induction left generalizing i n s with
  | zero => exact ⟨_, _, rfl⟩
  | succ left ih =>
    rw [admitLoop]
    split
    · obtain ⟨d, a, hfilled⟩ := @exists_tryAdmit H cfg now s i
      obtain ⟨d', a', hloop⟩ := ih (if slots ≤ i + 1 then 0 else i + 1)
        (if (tryAdmit H cfg now s i).2 then n + 1 else n) (tryAdmit H cfg now s i).1
      rw [hloop, hfilled]
      exact ⟨_, _, rfl⟩
    · exact ⟨_, _, rfl⟩

theorem exists_admitMature (now : ℕ) (s : Storage) : ∃ d a i,
    (admitMatureLeavesBudgeted H cfg now s).1 =
      { s with membershipLeafDigest := d, admitted := a, admitScanCursor := i } := by
  unfold admitMatureLeavesBudgeted
  split
  · exact ⟨_, _, _, rfl⟩
  · obtain ⟨d, a, hloop⟩ := @exists_admitLoop H cfg now s.treeSlots s.treeSlots
      (s.admitScanCursor % s.treeSlots) 0 s
    simp only [hloop]
    exact ⟨_, _, _, rfl⟩

theorem exists_catchupLoop (nextOut left grown : ℕ) (s : Storage) : ∃ t d,
    (catchupLoop H nextOut left grown s).1 = { s with treeSlots := t, membershipLeafDigest := d } := by
  induction left generalizing grown s with
  | zero => exact ⟨_, _, rfl⟩
  | succ left ih =>
    rw [catchupLoop]
    split
    · exact ⟨_, _, rfl⟩
    · obtain ⟨t, d, hloop⟩ := ih (grown + 1) (growEmptySlot H s)
      rw [hloop]
      exact ⟨_, _, rfl⟩

theorem exists_catchup (s : Storage) : ∃ t d,
    (catchupGrowBudgeted H s).1 = { s with treeSlots := t, membershipLeafDigest := d } :=
  exists_catchupLoop _ _ _ s

end MembershipLemmas

open MembershipLemmas

/-- Storing outputs changes the outputs, the next index and the tree only. -/
theorem exists_storeOutputs (s : Storage) (outs : List StoredOutput) : ∃ o t d r,
    storeOutputs H s outs =
      { s with
        outputs := o
        treeSlots := t
        membershipLeafDigest := d
        membershipRoot := r
        nextOutputIndex := s.nextOutputIndex + outs.length } := by
  obtain ⟨o, t, d, r, hloop⟩ := exists_storeLoop (H := H) s s.nextOutputIndex outs
  refine ⟨o, t, d, r, ?_⟩
  simp only [storeOutputs, hloop, storeLoop_snd]

/-- The end of a block in its parts. -/
theorem onFinalize_fst (n : ℕ) (s : Storage) :
    let s' := refreshMembershipRoot H
      (catchupGrowBudgeted H (admitMatureLeavesBudgeted H cfg n s).1).1
    (onFinalize H cfg n s).1 =
      { s' with
        membershipRootAt :=
          if FCMP_ROOT_MAX_AGE_BLOCKS < n then
            (s'.membershipRootAt.insert n s'.membershipRoot).remove (n - FCMP_ROOT_MAX_AGE_BLOCKS)
          else s'.membershipRootAt.insert n s'.membershipRoot } := rfl

/-- The end of a block changes the tree and its roots only. -/
theorem exists_onFinalize (n : ℕ) (s : Storage) : ∃ t d a i r m,
    (onFinalize H cfg n s).1 =
      { s with
        treeSlots := t
        membershipLeafDigest := d
        admitted := a
        admitScanCursor := i
        membershipRoot := r
        membershipRootAt := m } := by
  obtain ⟨d, a, i, hfilled⟩ := @exists_admitMature H cfg n s
  obtain ⟨t, d', hgrow⟩ := @exists_catchup H (admitMatureLeavesBudgeted H cfg n s).1
  rw [onFinalize_fst]
  simp only [hgrow, refreshMembershipRoot]
  rw [hfilled]
  exact ⟨_, _, _, _, _, _, rfl⟩

/-- The end of a block admits what the scan admits. -/
theorem admitted_onFinalize (n : ℕ) (s : Storage) :
    (onFinalize H cfg n s).1.admitted = (admitMatureLeavesBudgeted H cfg n s).1.admitted := by
  obtain ⟨t, d, hgrow⟩ := @exists_catchup H (admitMatureLeavesBudgeted H cfg n s).1
  rw [onFinalize_fst]
  simp only [hgrow, refreshMembershipRoot]

@[simp] theorem nextOutputIndex_storeOutputs (s : Storage) (outs : List StoredOutput) :
    (storeOutputs H s outs).nextOutputIndex = s.nextOutputIndex + outs.length := by
  obtain ⟨_, _, _, _, h⟩ := exists_storeOutputs (H := H) s outs
  rw [h]

theorem get_outputs_storeOutputs (s : Storage) (outs : List StoredOutput) (j : ℕ) :
    (storeOutputs H s outs).outputs.get j =
      if s.nextOutputIndex ≤ j ∧ j < s.nextOutputIndex + outs.length then
        outs[j - s.nextOutputIndex]? else s.outputs.get j :=
  get_outputs_storeLoop s s.nextOutputIndex outs j

/-! ## The accepted roots -/

namespace MembershipLemmas

theorem rootLoop_iff {s : Storage} {root : Bytes32} {left h : ℕ} :
    rootLoop s root left h = true ↔
      ∃ k, h ≤ k ∧ k ≤ h + left ∧ s.membershipRootAt.get k = some root := by
  induction left generalizing h with
  | zero =>
    rw [rootLoop, decide_eq_true_eq]
    constructor
    · exact fun hk => ⟨h, le_rfl, le_rfl, hk⟩
    · rintro ⟨k, h1, h2, hk⟩
      rwa [le_antisymm h2 h1] at hk
  | succ left ih =>
    rw [rootLoop]
    split
    · next hk => exact ⟨fun _ => ⟨h, le_rfl, by omega, hk⟩, fun _ => rfl⟩
    · next hne =>
      rw [ih]
      constructor
      · rintro ⟨k, h1, h2, hk⟩
        exact ⟨k, by omega, by omega, hk⟩
      · rintro ⟨k, h1, h2, hk⟩
        have : k ≠ h := fun heq => hne (heq ▸ hk)
        exact ⟨k, by omega, by omega, hk⟩

end MembershipLemmas

/-- A root is accepted exactly when it is the live one or recorded for one of the last 64 blocks or
the current one. -/
theorem membershipRootAccepted_iff {tip : ℕ} {s : Storage} {root : Bytes32} :
    membershipRootAccepted tip s root = true ↔ s.membershipRoot = root ∨
      ∃ h, tip - FCMP_ROOT_MAX_AGE_BLOCKS ≤ h ∧ h ≤ tip ∧ s.membershipRootAt.get h = some root := by
  unfold membershipRootAccepted
  split
  · next h => exact ⟨fun _ => .inl h, fun _ => rfl⟩
  · next h =>
    rw [rootLoop_iff, or_iff_right h]
    have hsub : tip - FCMP_ROOT_MAX_AGE_BLOCKS + (tip - (tip - FCMP_ROOT_MAX_AGE_BLOCKS)) = tip := by
      omega
    rw [hsub]

end Kohl.Pallet
