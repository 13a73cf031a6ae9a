import Kohl.Pallet.Chain

/-!
# The invariant of the membership tree

`slotsOf` reads the slots of the tree off the storage: an admitted slot holds the key and commitment
of its output, every other slot the placeholder. The invariant says that the stored digests are
those of the slots, that nothing is stored beyond them, that admitted outputs are mature, and that
the root is up to date. It is kept by growing, filling and refreshing, hence by every step.

* `digestsOf_eq`: the digests a root is computed from are those of the slots.
* `treeInv_step`: one step keeps the invariant and the bound on the slots.
* `tree_invariant`: it holds in every state of every run.
-/

namespace Kohl.Pallet

open ByteLib MembershipTree Run

/-- The slot at index `i`: the output's key and commitment once it is admitted. -/
def slotOf (s : Storage) (i : ℕ) : Slot :=
  if s.admitted.containsKey i then
    (s.outputs.get i).map fun out => (out.oneTimeKey, out.commitment)
  else none

/-- The slots `0..TreeSlots`. -/
def slotsOf (s : Storage) : List Slot := (List.range s.treeSlots).map (slotOf s)

variable (H : Host) (cfg : Config)

/-- The digests are those of the slots, there are none beyond them, and every admitted output is
mature in block `fin`. -/
structure SlotInv (fin : ℕ) (s : Storage) : Prop where
  digest : ∀ i, i < s.treeSlots →
    s.membershipLeafDigest.get i = some (slotDigest H.blake2_256 (slotOf s i))
  above : ∀ i, s.treeSlots ≤ i →
    s.membershipLeafDigest.get i = none ∧ s.admitted.containsKey i = false
  mature : ∀ i, s.admitted.containsKey i = true →
    ∃ out, s.outputs.get i = some out ∧ out.height + maturityAge cfg out ≤ fin

/-- The live root is the root of the digests. -/
def RootInv (s : Storage) : Prop :=
  s.membershipRoot = rootFromLeaves H.blake2_256 (digestsOf H s)

/-- The invariant of the tree, with the maturity measured by the last finalized block. -/
structure TreeInv (c : Chain) : Prop where
  slots : SlotInv H cfg c.finalized c.store
  root : RootInv H c.store

variable {H cfg}

namespace TreeInvLemmas

theorem SlotInv.mono {fin fin' : ℕ} {s : Storage} (h : SlotInv H cfg fin s) (hle : fin ≤ fin') :
    SlotInv H cfg fin' s := by
  refine ⟨h.digest, h.above, fun i hi => ?_⟩
  obtain ⟨out, hout, hmature⟩ := h.mature i hi
  exact ⟨out, hout, hmature.trans hle⟩

theorem SlotInv.lt_of_admitted {fin : ℕ} {s : Storage} (h : SlotInv H cfg fin s) {i : ℕ}
    (hi : s.admitted.containsKey i = true) : i < s.treeSlots := by
  by_contra hge
  rw [(h.above i (not_lt.mp hge)).2] at hi
  cases hi

/-- An output stored beyond the slots changes none of them. -/
theorem SlotInv.insertOutput {fin : ℕ} {s : Storage} (h : SlotInv H cfg fin s) {next : ℕ}
    (hle : s.treeSlots ≤ next) (out : StoredOutput) :
    SlotInv H cfg fin { s with outputs := s.outputs.insert next out } := by
  have hget : ∀ i, i < s.treeSlots → (s.outputs.insert next out).get i = s.outputs.get i :=
    fun i hi => StorageMap.get_insert_ne (by omega)
  refine ⟨fun i hi => ?_, h.above, fun i hi => ?_⟩
  · rw [h.digest i hi]
    simp only [slotOf, hget i hi]
  · obtain ⟨o, ho, hmature⟩ := h.mature i hi
    exact ⟨o, (hget i (SlotInv.lt_of_admitted h hi)).trans ho, hmature⟩

/-- A new slot holds the placeholder: its output is not admitted yet. -/
theorem SlotInv.grow {fin : ℕ} {s : Storage} (h : SlotInv H cfg fin s) :
    SlotInv H cfg fin (growEmptySlot H s) := by
  refine ⟨fun i hi => ?_, fun i hi => ?_, h.mature⟩
  · rcases Nat.lt_succ_iff_lt_or_eq.mp hi with hi | rfl
    · exact (StorageMap.get_insert_ne hi.ne).trans (h.digest i hi)
    · have hslot : slotOf s s.treeSlots = none := by
        rw [slotOf, (h.above _ le_rfl).2]
        rfl
      show (s.membershipLeafDigest.insert _ _).get _ = some (slotDigest H.blake2_256 (slotOf s _))
      rw [StorageMap.get_insert_self, hslot, slotDigest_none]
  · have hlt : s.treeSlots < i := hi
    exact ⟨(StorageMap.get_insert_ne hlt.ne').trans (h.above i hlt.le).1, (h.above i hlt.le).2⟩

/-- Storing outputs keeps the invariant; the slots stay behind the outputs, and level with them if
they were. -/
theorem storeLoop_inv {fin : ℕ} {s : Storage} {next : ℕ} (h : SlotInv H cfg fin s)
    (hroot : RootInv H s) (hle : s.treeSlots ≤ next) (outs : List StoredOutput) :
    SlotInv H cfg fin (storeLoop H s next outs).1 ∧ RootInv H (storeLoop H s next outs).1 ∧
      (storeLoop H s next outs).1.treeSlots ≤ next + outs.length ∧
      (s.treeSlots = next → (storeLoop H s next outs).1.treeSlots = next + outs.length) := by
  induction outs generalizing s next with
  | nil => exact ⟨h, hroot, hle, id⟩
  | cons out outs ih =>
    have hins := SlotInv.insertOutput h hle out
    rw [storeLoop, List.length_cons]
    by_cases heq : s.treeSlots = next
    · have hgrow : maybeGrowEmptyOnCreate H { s with outputs := s.outputs.insert next out } next =
          refreshMembershipRoot H (growEmptySlot H { s with outputs := s.outputs.insert next out }) :=
        if_neg (not_not.mpr heq)
      have hslots : (growEmptySlot H { s with outputs := s.outputs.insert next out }).treeSlots =
          next + 1 := congrArg (· + 1) heq
      have hinv := SlotInv.grow hins
      rw [hgrow]
      obtain ⟨h1, h2, h3, h4⟩ := ih (s := refreshMembershipRoot H (growEmptySlot H
        { s with outputs := s.outputs.insert next out })) ⟨hinv.digest, hinv.above, hinv.mature⟩ rfl
        hslots.le
      exact ⟨h1, h2, by omega, fun _ => by rw [h4 hslots]; omega⟩
    · have hkeep : maybeGrowEmptyOnCreate H { s with outputs := s.outputs.insert next out } next =
          { s with outputs := s.outputs.insert next out } := if_pos heq
      rw [hkeep]
      have hle' : s.treeSlots ≤ next + 1 := Nat.le_succ_of_le hle
      obtain ⟨h1, h2, h3, -⟩ := ih (s := { s with outputs := s.outputs.insert next out }) hins hroot
        hle'
      exact ⟨h1, h2, by omega, fun h => absurd h heq⟩

theorem storeOutputs_inv {fin : ℕ} {s : Storage} (h : SlotInv H cfg fin s) (hroot : RootInv H s)
    (hle : s.treeSlots ≤ s.nextOutputIndex) (outs : List StoredOutput) :
    SlotInv H cfg fin (storeOutputs H s outs) ∧ RootInv H (storeOutputs H s outs) ∧
      (storeOutputs H s outs).treeSlots ≤ (storeOutputs H s outs).nextOutputIndex ∧
      (s.treeSlots = s.nextOutputIndex →
        (storeOutputs H s outs).treeSlots = (storeOutputs H s outs).nextOutputIndex) := by
  obtain ⟨h1, h2, h3, h4⟩ := storeLoop_inv h hroot hle outs
  rw [nextOutputIndex_storeOutputs]
  exact ⟨⟨h1.digest, h1.above, h1.mature⟩, h2, h3, h4⟩

theorem slotOf_fillSlot {s : Storage} {i : ℕ} {out : StoredOutput} (hout : s.outputs.get i = some out)
    (j : ℕ) : slotOf (fillSlot H s i out) j =
      if j = i then some (out.oneTimeKey, out.commitment) else slotOf s j := by
  by_cases hji : j = i
  · subst hji
    simp [slotOf, fillSlot, StorageMap.containsKey_insert, hout]
  · simp [slotOf, fillSlot, StorageMap.containsKey_insert, hji]

/-- Filling a slot writes the leaf of its mature output. -/
theorem SlotInv.fill {now : ℕ} {s : Storage} (h : SlotInv H cfg now s) {i : ℕ}
    (hi : i < s.treeSlots) {out : StoredOutput} (hout : s.outputs.get i = some out)
    (hmature : out.height + maturityAge cfg out ≤ now) : SlotInv H cfg now (fillSlot H s i out) := by
  have hadmitted : ∀ j, j ≠ i →
      (fillSlot H s i out).admitted.containsKey j = s.admitted.containsKey j := by
    intro j hji
    simp [fillSlot, StorageMap.containsKey_insert, hji]
  have hget : ∀ j, j ≠ i →
      (fillSlot H s i out).membershipLeafDigest.get j = s.membershipLeafDigest.get j :=
    fun j hji => StorageMap.get_insert_ne hji
  refine ⟨fun j hj => ?_, fun j hj => ?_, fun j hj => ?_⟩
  · rw [slotOf_fillSlot hout]
    split
    · next hji =>
      subst hji
      exact StorageMap.get_insert_self _ _ _
    · next hji => rw [hget j hji, h.digest j hj]
  · have hle : s.treeSlots ≤ j := hj
    rw [hget j (by omega), hadmitted j (by omega)]
    exact h.above j hle
  · by_cases hji : j = i
    · subst hji
      exact ⟨out, hout, hmature⟩
    · exact h.mature j (hadmitted j hji ▸ hj)

theorem tryAdmit_inv {now : ℕ} {s : Storage} (h : SlotInv H cfg now s) {i : ℕ}
    (hi : i < s.treeSlots) : SlotInv H cfg now (tryAdmit H cfg now s i).1 := by
  unfold tryAdmit
  split
  · exact h
  split
  · exact h
  next out hout =>
  split
  · next hmature => exact SlotInv.fill h hi hout (of_decide_eq_true hmature)
  · exact h

theorem admitLoop_inv {now slots : ℕ} {s : Storage} (h : SlotInv H cfg now s)
    (hslots : s.treeSlots = slots) (left n : ℕ) {i : ℕ} (hi : i < slots) :
    SlotInv H cfg now (admitLoop H cfg now slots left i n s).1 := by
  induction left generalizing i n s with
  | zero => exact h
  | succ left ih =>
    rw [admitLoop]
    split
    · obtain ⟨d, a, hfilled⟩ := @MembershipLemmas.exists_tryAdmit H cfg now s i
      refine ih (tryAdmit_inv h (hslots ▸ hi)) ?_ _ ?_
      · rw [hfilled]
        exact hslots
      · split <;> omega
    · exact h

theorem admitMature_inv {now : ℕ} {s : Storage} (h : SlotInv H cfg now s) :
    SlotInv H cfg now (admitMatureLeavesBudgeted H cfg now s).1 := by
  unfold admitMatureLeavesBudgeted
  split
  · exact ⟨h.digest, h.above, h.mature⟩
  · next hpos =>
    have hinv := admitLoop_inv h rfl s.treeSlots 0
      (Nat.mod_lt s.admitScanCursor (Nat.pos_of_ne_zero hpos))
    exact ⟨hinv.digest, hinv.above, hinv.mature⟩

/-- Catching up keeps the invariant and does not pass the outputs. -/
theorem catchupLoop_inv {fin nextOut : ℕ} {s : Storage} (h : SlotInv H cfg fin s)
    (hle : s.treeSlots ≤ nextOut) (left grown : ℕ) :
    SlotInv H cfg fin (catchupLoop H nextOut left grown s).1 ∧
      (catchupLoop H nextOut left grown s).1.treeSlots ≤ nextOut ∧
      s.treeSlots ≤ (catchupLoop H nextOut left grown s).1.treeSlots := by
  induction left generalizing grown s with
  | zero => exact ⟨h, hle, le_rfl⟩
  | succ left ih =>
    rw [catchupLoop]
    split
    · exact ⟨h, hle, le_rfl⟩
    · next hlt =>
      have hgrow : (growEmptySlot H s).treeSlots = s.treeSlots + 1 := rfl
      obtain ⟨h1, h2, h3⟩ := ih (SlotInv.grow h) (by omega) (grown + 1)
      exact ⟨h1, h2, by omega⟩

/-- The end of a block keeps the invariant. -/
theorem onFinalize_inv {n : ℕ} {s : Storage} (h : SlotInv H cfg n s)
    (hle : s.treeSlots ≤ s.nextOutputIndex) :
    SlotInv H cfg n (onFinalize H cfg n s).1 ∧ RootInv H (onFinalize H cfg n s).1 ∧
      (onFinalize H cfg n s).1.treeSlots ≤ s.nextOutputIndex ∧
      s.treeSlots ≤ (onFinalize H cfg n s).1.treeSlots := by
  obtain ⟨d, a, i, hfilled⟩ := @MembershipLemmas.exists_admitMature H cfg n s
  have hinv := admitMature_inv h
  have hslots : (admitMatureLeavesBudgeted H cfg n s).1.treeSlots = s.treeSlots := by rw [hfilled]
  have hnext : (admitMatureLeavesBudgeted H cfg n s).1.nextOutputIndex = s.nextOutputIndex := by
    rw [hfilled]
  obtain ⟨h1, h2, h3⟩ := catchupLoop_inv hinv (hslots.trans_le (hle.trans hnext.ge))
    FCMP_GROW_CATCHUP_MAX_PER_BLOCK 0
  rw [onFinalize_fst]
  exact ⟨⟨h1.digest, h1.above, h1.mature⟩, rfl, h2.trans hnext.le, hslots.ge.trans h3⟩

end TreeInvLemmas

open TreeInvLemmas

theorem slotOf_eq_some {s : Storage} {i : ℕ} {p c : Bytes32} :
    slotOf s i = some (p, c) ↔ s.admitted.containsKey i = true ∧
      ∃ out, s.outputs.get i = some out ∧ out.oneTimeKey = p ∧ out.commitment = c := by
  unfold slotOf
  split
  · next h => simp only [h, true_and, Option.map_eq_some_iff, Prod.mk.injEq]
  · next h => simp only [h, Bool.false_eq_true, false_and, reduceCtorEq]

theorem length_slotsOf (s : Storage) : (slotsOf s).length = s.treeSlots := by
  rw [slotsOf, List.length_map, List.length_range]

theorem getElem?_slotsOf {s : Storage} {i : ℕ} (hi : i < s.treeSlots) :
    (slotsOf s)[i]? = some (slotOf s i) := by
  rw [slotsOf, List.getElem?_map, List.getElem?_range hi, Option.map_some]

/-- The filled slots are the admitted outputs. -/
theorem getElem?_slotsOf_eq_some {s : Storage} {i : ℕ} {p c : Bytes32} :
    (slotsOf s)[i]? = some (some (p, c)) ↔ i < s.treeSlots ∧ s.admitted.containsKey i = true ∧
      ∃ out, s.outputs.get i = some out ∧ out.oneTimeKey = p ∧ out.commitment = c := by
  rw [← slotOf_eq_some]
  constructor
  · intro h
    have hi : i < s.treeSlots := by
      rw [← length_slotsOf]
      exact (List.getElem?_eq_some_iff.mp h).1
    rw [getElem?_slotsOf hi, Option.some.injEq] at h
    exact ⟨hi, h⟩
  · rintro ⟨hi, h⟩
    rw [getElem?_slotsOf hi, h]

/-- The digests a root is computed from are those of the slots. -/
theorem SlotInv.digestsOf_eq {fin : ℕ} {s : Storage} (h : SlotInv H cfg fin s) :
    digestsOf H s = (slotsOf s).map (slotDigest H.blake2_256) := by
  rw [digestsOf, slotsOf, List.map_map]
  refine List.map_congr_left fun i hi => ?_
  rw [h.digest i (List.mem_range.mp hi)]
  rfl

/-- One step keeps the invariant while the slots are behind the outputs or level with them. -/
theorem treeInv_step {c : Chain} (h : TreeInv H cfg c)
    (hle : c.store.treeSlots ≤ c.store.nextOutputIndex) (op : Op) :
    TreeInv H cfg (step H cfg c op) ∧
      (step H cfg c op).store.treeSlots ≤ (step H cfg c op).store.nextOutputIndex ∧
      (c.store.treeSlots = c.store.nextOutputIndex →
        (step H cfg c op).store.treeSlots = (step H cfg c op).store.nextOutputIndex) := by
  have hspec := @step_spec H cfg c op
  have hfin : ∀ op, op ≠ .onFinalize → (step H cfg c op).finalized = c.finalized := by
    intro op hop
    cases op with
    | onInitialize => rfl
    | dispatch origin call => rfl
    | onFinalize => exact absurd rfl hop
  generalize hs : (step H cfg c op).store = s' at hspec ⊢
  generalize acceptedCall H cfg c op = a at hspec
  cases hspec with
  | onInitialize =>
    refine ⟨⟨?_, ?_⟩, hle, id⟩
    · rw [hs, hfin _ (by simp)]
      exact ⟨h.slots.digest, h.slots.above, h.slots.mature⟩
    · rw [hs]
      exact h.root
  | rejected origin call e he =>
    refine ⟨⟨?_, ?_⟩, hle, id⟩
    · rw [hs, hfin _ (by simp)]
      exact h.slots
    · rw [hs]
      exact h.root
  | transfer tx fees hvalid hfees =>
    obtain ⟨h1, h2, h3, h4⟩ := storeOutputs_inv
      (s := { c.store with
        keyImages := (tx.inputs.val.map FcmpInput.keyImage).foldl (fun m ki => m.insert ki ())
          c.store.keyImages
        blockFees := fees })
      ⟨h.slots.digest, h.slots.above, h.slots.mature⟩ h.root hle
      (tx.outputs.val.map (storedOfTransfer c.number tx))
    refine ⟨⟨?_, ?_⟩, h3, h4⟩
    · rw [hs, hfin _ (by simp)]
      exact h1
    · rw [hs]
      exact h2
  | coinbase outputs txPubkey emitted hvalid hemitted =>
    obtain ⟨h1, h2, h3, h4⟩ := storeOutputs_inv
      (s := { c.store with blockFees := 0, emitted := emitted, coinbaseDone := true })
      ⟨h.slots.digest, h.slots.above, h.slots.mature⟩ h.root hle
      (outputs.val.map (storedOfCoinbase H c.number txPubkey))
    refine ⟨⟨?_, ?_⟩, h3, h4⟩
    · rw [hs, hfin _ (by simp)]
      exact h1
    · rw [hs]
      exact h2
  | onFinalize =>
    obtain ⟨h1, h2, h3, h4⟩ := onFinalize_inv (SlotInv.mono h.slots c.finalized_le) hle
    obtain ⟨_, _, _, _, _, _, hkeep⟩ := @exists_onFinalize H cfg c.number c.store
    have hnext : (onFinalize H cfg c.number c.store).1.nextOutputIndex = c.store.nextOutputIndex := by
      rw [hkeep]
    refine ⟨⟨?_, ?_⟩, ?_, fun heq => ?_⟩
    · rw [hs]
      exact h1
    · rw [hs]
      exact h2
    · rw [hnext]
      exact h3
    · rw [hnext]
      exact le_antisymm h3 (heq ▸ h4)

/-- Before the first block there are no slots and the root is the one of the empty tree. -/
theorem treeInv_genesis : TreeInv H cfg (.genesis H) :=
  ⟨⟨fun _ hi => absurd hi (Nat.not_lt_zero _), fun _ _ => ⟨rfl, rfl⟩, fun _ hi => by cases hi⟩, rfl⟩

/-- Every run from a state with the invariant keeps it, however far the slots lag behind. -/
theorem treeInv_run {c : Chain} (h : TreeInv H cfg c)
    (hle : c.store.treeSlots ≤ c.store.nextOutputIndex) (ops : List Op) :
    TreeInv H cfg (run (step H cfg) c ops) ∧
      (run (step H cfg) c ops).store.treeSlots ≤ (run (step H cfg) c ops).store.nextOutputIndex :=
  run_invariant (P := fun c => TreeInv H cfg c ∧ c.store.treeSlots ≤ c.store.nextOutputIndex)
    ⟨h, hle⟩ (fun _ op h => ⟨(treeInv_step h.1 h.2 op).1, (treeInv_step h.1 h.2 op).2.1⟩) ops

/-- From genesis on the slots are level with the outputs. -/
theorem treeInv_run_genesis (ops : List Op) :
    TreeInv H cfg (run (step H cfg) (.genesis H) ops) ∧
      (run (step H cfg) (.genesis H) ops).store.treeSlots =
        (run (step H cfg) (.genesis H) ops).store.nextOutputIndex :=
  run_invariant (P := fun c => TreeInv H cfg c ∧ c.store.treeSlots = c.store.nextOutputIndex)
    ⟨treeInv_genesis, rfl⟩
    (fun _ op h => ⟨(treeInv_step h.1 h.2.le op).1, (treeInv_step h.1 h.2.le op).2.2 h.2⟩) ops

/-- The invariant of the tree holds in every state reachable from genesis by hooks and dispatches in
any order, with as many slots as outputs; and every run from a lagging state that satisfies it keeps
it, with at most as many slots as outputs. -/
theorem tree_invariant (H : Host) (cfg : Config) :
    (∀ ops, (run (step H cfg) (.genesis H) ops).store.treeSlots =
        (run (step H cfg) (.genesis H) ops).store.nextOutputIndex ∧
      TreeInv H cfg (run (step H cfg) (.genesis H) ops)) ∧
    ∀ c, c.store.treeSlots ≤ c.store.nextOutputIndex → TreeInv H cfg c →
      ∀ ops, (run (step H cfg) c ops).store.treeSlots ≤
          (run (step H cfg) c ops).store.nextOutputIndex ∧
        TreeInv H cfg (run (step H cfg) c ops) :=
  ⟨fun ops => (treeInv_run_genesis ops).symm, fun _ hle h ops => (treeInv_run h hle ops).symm⟩

end Kohl.Pallet
