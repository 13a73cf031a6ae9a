import Mathlib.Data.List.Range
import Kohl.Crypto.SparseTree
import Kohl.Pallet.Backlog

/-!
# The pallet and the sparse tree of the spike

The pallet keeps digests and admissions in storage maps; the spike keeps a vector and offers calls. Every step
of the pallet is a list of these calls: an output that is stored offers its slot, the end of a block admits the
slots of the scan and catches up.

* `slotCalls_step`: the calls of a step take the slots before it to the slots behind it.
* `sparse_tree_refined`: along every run the tree that takes the calls has the digests, the admissions and the
  root of the pallet, and gives a path against the stored root for every slot.
-/

namespace Kohl.Pallet

open ByteLib MembershipTree Run FcmpSpike

variable (H : Host) (cfg : Config)

/-- The call that admits slot `i`. -/
def admitCall (outputs : StorageMap ℕ StoredOutput) (i : ℕ) : Option TreeCall :=
  (outputs.get i).map fun out => .admitLeaf i out.oneTimeKey out.commitment

/-- The calls of a step. -/
def stepTreeCalls (c : Chain) (op : Op) : List TreeCall :=
  match op with
  | .onInitialize => []
  | .dispatch _ _ =>
    (List.range' c.store.nextOutputIndex (stepOutputs H cfg c op).length).map
      .maybeGrowEmptyOnCreate
  | .onFinalize =>
    ((waiting cfg c.number c.store).take FCMP_ADMIT_MAX_LEAVES_PER_BLOCK).filterMap
        (admitCall c.store.outputs) ++
      [.catchupGrowEmpty
        (min FCMP_GROW_CATCHUP_MAX_PER_BLOCK (c.store.nextOutputIndex - c.store.treeSlots))]

/-- The calls of a run. -/
def treeCalls (c : Chain) : List Op → List TreeCall
  | [] => []
  | op :: ops => stepTreeCalls H cfg c op ++ treeCalls (step H cfg c op) ops

variable {H cfg}

namespace SparseTreeLemmas

open TreeInvLemmas BacklogLemmas LagLemmas

/-! ## Growing -/

/-- An output stored beyond the slots changes none of them. -/
theorem slotsOf_insertOutput {s : Storage} {next : ℕ} (hle : s.treeSlots ≤ next) (out : StoredOutput) :
    slotsOf { s with outputs := s.outputs.insert next out } = slotsOf s := by
  unfold slotsOf
  refine List.map_congr_left fun i hi => ?_
  have hlt : i < s.treeSlots := List.mem_range.mp hi
  have hne : i ≠ next := by omega
  unfold slotOf
  rw [StorageMap.get_insert_ne hne]

theorem slotsOf_growEmptySlot {s : Storage} (hnew : s.admitted.containsKey s.treeSlots = false) :
    slotsOf (growEmptySlot H s) = slotsOf s ++ [none] := by
  have hslot : slotOf s s.treeSlots = none := by
    rw [slotOf, hnew]
    rfl
  show (List.range (s.treeSlots + 1)).map (slotOf s) = _
  rw [List.range_succ, List.map_append, List.map_singleton, hslot]
  rfl

theorem slotsOf_growEmptySlot_iterate {s : Storage}
    (hnew : ∀ i, s.treeSlots ≤ i → s.admitted.containsKey i = false) (k : ℕ) :
    slotsOf ((growEmptySlot H)^[k] s) = slotsOf s ++ List.replicate k none := by
  induction k generalizing s with
  | zero =>
    rw [List.replicate_zero, List.append_nil]
    rfl
  | succ k ih =>
    have hnew' : ∀ i, (growEmptySlot H s).treeSlots ≤ i →
        (growEmptySlot H s).admitted.containsKey i = false :=
      fun i hi => hnew i (Nat.le_of_succ_le hi)
    rw [Function.iterate_succ_apply, ih hnew', slotsOf_growEmptySlot (hnew _ le_rfl), List.append_assoc,
      List.singleton_append, List.replicate_succ]

theorem treeSlots_le_storeLoop (s : Storage) (next : ℕ) (outs : List StoredOutput) :
    s.treeSlots ≤ (storeLoop H s next outs).1.treeSlots := by
  induction outs generalizing s next with
  | nil => exact le_rfl
  | cons out outs ih =>
    rw [storeLoop]
    refine le_trans ?_ (ih _ _)
    unfold maybeGrowEmptyOnCreate
    split
    · exact le_rfl
    · exact Nat.le_succ s.treeSlots

/-- Storing outputs offers their slots in turn: the next one is grown, a lagging tree keeps its slots. -/
theorem slotCalls_storeLoop {fin : ℕ} {s : Storage} {next : ℕ} (h : SlotInv H cfg fin s)
    (hle : s.treeSlots ≤ next) (outs : List StoredOutput)
    (hcap : (storeLoop H s next outs).1.treeSlots ≤ 2 ^ MAX_DEPTH) :
    ((List.range' next outs.length).map TreeCall.maybeGrowEmptyOnCreate).foldlM slotCall (slotsOf s) =
      some (slotsOf (storeLoop H s next outs).1) := by
  induction outs generalizing s next with
  | nil => rfl
  | cons out outs ih =>
    have hins := SlotInv.insertOutput h hle out
    have hslots := slotsOf_insertOutput hle out
    have hkept : ({ s with outputs := s.outputs.insert next out } : Storage).treeSlots = s.treeSlots := rfl
    rw [storeLoop] at hcap ⊢
    generalize ({ s with outputs := s.outputs.insert next out } : Storage) = s' at hins hslots hkept hcap ⊢
    rw [← hslots, List.length_cons, List.range'_succ, List.map_cons, List.foldlM_cons, slotCall,
      length_slotsOf, hkept]
    by_cases heq : s.treeSlots = next
    · have hgrow : maybeGrowEmptyOnCreate H s' next = refreshMembershipRoot H (growEmptySlot H s') :=
        if_neg (not_not.mpr (hkept.trans heq))
      have hinv := SlotInv.grow hins
      have hlevel : (refreshMembershipRoot H (growEmptySlot H s')).treeSlots = next + 1 :=
        congrArg (· + 1) (hkept.trans heq)
      have hgrown : slotsOf (refreshMembershipRoot H (growEmptySlot H s')) = slotsOf s' ++ [none] :=
        slotsOf_growEmptySlot (H := H) (hins.above _ le_rfl).2
      rw [hgrow] at hcap ⊢
      have hlt : s.treeSlots < 2 ^ MAX_DEPTH := by
        have hmono := (@treeSlots_le_storeLoop H _ (next + 1) outs).trans hcap
        rw [hlevel] at hmono
        omega
      rw [if_neg (not_not.mpr heq.symm), if_pos hlt, Option.bind_eq_bind, Option.bind_some, ← hgrown]
      exact ih ⟨hinv.digest, hinv.above, hinv.mature⟩ hlevel.le hcap
    · have hkeep : maybeGrowEmptyOnCreate H s' next = s' := if_pos (hkept ▸ heq)
      rw [hkeep] at hcap ⊢
      rw [if_pos (Ne.symm heq), Option.bind_eq_bind, Option.bind_some]
      exact ih hins (hkept.trans_le (Nat.le_succ_of_le hle)) hcap

/-! ## Filling -/

theorem slotsOf_fillSlot {s : Storage} {i : ℕ} {out : StoredOutput} (hout : s.outputs.get i = some out) :
    slotsOf (fillSlot H s i out) = (slotsOf s).set i (some (out.oneTimeKey, out.commitment)) := by
  refine List.ext_getElem? fun j => ?_
  rw [List.getElem?_set, length_slotsOf]
  rcases lt_or_ge j s.treeSlots with hj | hj
  · rw [getElem?_slotsOf (show j < (fillSlot H s i out).treeSlots from hj), getElem?_slotsOf hj,
      slotOf_fillSlot hout]
    by_cases hij : i = j
    · subst hij
      rw [if_pos rfl, if_pos rfl, if_pos hj]
    · rw [if_neg (Ne.symm hij), if_neg hij]
  · have hnone : (slotsOf (fillSlot H s i out))[j]? = none :=
      List.getElem?_eq_none (by rw [length_slotsOf]; exact hj)
    have hnone' : (slotsOf s)[j]? = none := List.getElem?_eq_none (by rw [length_slotsOf]; exact hj)
    rw [hnone, hnone']
    split
    · next hij => rw [if_neg (by omega)]
    · rfl

/-- The scan admits slots that are grown and empty, each once. -/
theorem slotCalls_fillAll {s : Storage} {is : List ℕ} (hnodup : is.Nodup)
    (hall : ∀ i ∈ is, i < s.treeSlots ∧ s.admitted.containsKey i = false ∧
      ∃ out, s.outputs.get i = some out) :
    (is.filterMap (admitCall s.outputs)).foldlM slotCall (slotsOf s) =
      some (slotsOf (fillAll H s is)) := by
  induction is generalizing s with
  | nil => rfl
  | cons i is ih =>
    rw [List.nodup_cons] at hnodup
    obtain ⟨hi, hnew, out, hout⟩ := hall i List.mem_cons_self
    have hcall : admitCall s.outputs i = some (.admitLeaf i out.oneTimeKey out.commitment) := by
      rw [admitCall, hout, Option.map_some]
    have hempty : (slotsOf s)[i]? = some none := by
      rw [getElem?_slotsOf hi, slotOf, hnew]
      rfl
    rw [List.filterMap_cons_some hcall, List.foldlM_cons, slotCall, if_pos hempty, Option.bind_eq_bind,
      Option.bind_some, ← slotsOf_fillSlot (H := H) hout, fillAll_cons, fillAll_singleton hout]
    refine ih (s := fillSlot H s i out) hnodup.2 fun j hj => ?_
    obtain ⟨hlt, hnew', hout'⟩ := hall j (List.mem_cons_of_mem i hj)
    have hne : j ≠ i := fun heq => hnodup.1 (heq ▸ hj)
    refine ⟨hlt, ?_, hout'⟩
    rw [fillSlot, StorageMap.containsKey_insert, decide_eq_false hne, hnew']
    rfl

/-! ## Steps and runs -/

/-- The end of a block takes the calls of the scan, then the one that catches up. -/
theorem slotCalls_onFinalize {c : Chain} (h : TreeInv H cfg c)
    (hcap : (onFinalize H cfg c.number c.store).1.treeSlots ≤ 2 ^ MAX_DEPTH) :
    (stepTreeCalls H cfg c .onFinalize).foldlM slotCall (slotsOf c.store) =
      some (slotsOf (onFinalize H cfg c.number c.store).1) := by
  have hslots := @treeSlots_onFinalize H cfg c.number c.store
  have hinv := admitMature_inv (SlotInv.mono h.slots c.finalized_le)
  obtain ⟨_, _, _, hframe⟩ := @MembershipLemmas.exists_admitMature H cfg c.number c.store
  obtain ⟨cursor, -, hadmission⟩ := @admitMature_eq H cfg c.number c.store
  have hfilled : slotsOf (admitMatureLeavesBudgeted H cfg c.number c.store).1 =
      slotsOf (fillAll H c.store
        ((waiting cfg c.number c.store).take FCMP_ADMIT_MAX_LEAVES_PER_BLOCK)) := by
    rw [hadmission]
    rfl
  have hgrown : slotsOf (onFinalize H cfg c.number c.store).1 =
      slotsOf (catchupGrowBudgeted H (admitMatureLeavesBudgeted H cfg c.number c.store).1).1 := rfl
  have htree : (admitMatureLeavesBudgeted H cfg c.number c.store).1.treeSlots = c.store.treeSlots := by
    rw [hframe]
  have hnext : (admitMatureLeavesBudgeted H cfg c.number c.store).1.nextOutputIndex =
      c.store.nextOutputIndex := by rw [hframe]
  have hscan := slotCalls_fillAll (H := H) (s := c.store)
    ((@nodup_waiting cfg c.number c.store).sublist
      (List.take_sublist FCMP_ADMIT_MAX_LEAVES_PER_BLOCK _)) fun i hi => by
    obtain ⟨hnew, out, hout, -⟩ := exists_of_mem_waiting (List.mem_of_mem_take hi)
    have hback := mem_waiting.mp (List.mem_of_mem_take hi)
    exact ⟨(mem_backlog.mp hback).1, hnew, out, hout⟩
  have hbudget : min (min FCMP_GROW_CATCHUP_MAX_PER_BLOCK
      (c.store.nextOutputIndex - c.store.treeSlots)) (2 ^ MAX_DEPTH - c.store.treeSlots) =
      min FCMP_GROW_CATCHUP_MAX_PER_BLOCK (c.store.nextOutputIndex - c.store.treeSlots) :=
    Nat.min_eq_left (by omega)
  rw [← hfilled] at hscan
  generalize (admitMatureLeavesBudgeted H cfg c.number c.store).1 = s at hinv hgrown htree hnext hscan
  rw [hgrown, catchupGrowBudgeted, catchupLoop_eq, htree, hnext,
    slotsOf_growEmptySlot_iterate fun i hi => (hinv.above i hi).2, stepTreeCalls, List.foldlM_append,
    hscan, Option.bind_eq_bind, Option.bind_some, List.foldlM_cons, slotCall, length_slotsOf, htree,
    hbudget]
  rfl

/-- The calls of a step take the slots before it to the slots behind it. -/
theorem slotCalls_step {c : Chain} (h : TreeInv H cfg c)
    (hle : c.store.treeSlots ≤ c.store.nextOutputIndex) (op : Op)
    (hcap : (step H cfg c op).store.treeSlots ≤ 2 ^ MAX_DEPTH) :
    (stepTreeCalls H cfg c op).foldlM slotCall (slotsOf c.store) =
      some (slotsOf (step H cfg c op).store) := by
  have hspec := @step_spec H cfg c op
  unfold stepTreeCalls stepOutputs
  generalize hs : (step H cfg c op).store = s' at hspec hcap ⊢
  generalize acceptedCall H cfg c op = a at hspec ⊢
  cases hspec with
  | onInitialize => rfl
  | rejected origin call e he => rfl
  | transfer tx fees hvalid hfees =>
    have hcalls := slotCalls_storeLoop (s := { c.store with
        keyImages := (tx.inputs.val.map FcmpInput.keyImage).foldl (fun m ki => m.insert ki ())
          c.store.keyImages
        blockFees := fees })
      ⟨h.slots.digest, h.slots.above, h.slots.mature⟩ hle
      (tx.outputs.val.map (storedOfTransfer c.number tx)) hcap
    rw [Option.toList_some, List.flatMap_singleton]
    exact hcalls
  | coinbase outputs txPubkey emitted hvalid hemitted =>
    have hcalls := slotCalls_storeLoop (s := { c.store with
        blockFees := 0, emitted := emitted, coinbaseDone := true })
      ⟨h.slots.digest, h.slots.above, h.slots.mature⟩ hle
      (outputs.val.map (storedOfCoinbase H c.number txPubkey)) hcap
    rw [Option.toList_some, List.flatMap_singleton]
    exact hcalls
  | onFinalize => exact slotCalls_onFinalize h hcap

theorem treeSlots_le_run {c : Chain} (h : TreeInv H cfg c)
    (hle : c.store.treeSlots ≤ c.store.nextOutputIndex) (ops : List Op) :
    c.store.treeSlots ≤ (run (step H cfg) c ops).store.treeSlots := by
  induction ops generalizing c with
  | nil => exact le_rfl
  | cons op ops ih =>
    obtain ⟨h', hle', -⟩ := treeInv_step h hle op
    exact (treeSlots_le_step h hle op).trans (ih h' hle')

theorem slotCalls_run {c : Chain} (h : TreeInv H cfg c)
    (hle : c.store.treeSlots ≤ c.store.nextOutputIndex) (ops : List Op)
    (hcap : (run (step H cfg) c ops).store.treeSlots ≤ 2 ^ MAX_DEPTH) :
    (treeCalls H cfg c ops).foldlM slotCall (slotsOf c.store) =
      some (slotsOf (run (step H cfg) c ops).store) := by
  induction ops generalizing c with
  | nil => rfl
  | cons op ops ih =>
    obtain ⟨h', hle', -⟩ := treeInv_step h hle op
    rw [run_cons] at hcap ⊢
    rw [treeCalls, List.foldlM_append,
      slotCalls_step h hle op ((treeSlots_le_run h' hle' ops).trans hcap), Option.bind_eq_bind,
      Option.bind_some]
    exact ih h' hle' hcap

end SparseTreeLemmas

open SparseTreeLemmas FcmpSpike.SparseTreeLemmas

/-- What a tree of the spike shares with the storage of the pallet: the digests, the admissions and the root.
Every slot has a path that verifies against the stored root. -/
structure Mirrors (H : Host) (s : Storage) (t : SparseMerkleTree) : Prop where
  leaves : t.leaves = digestsOf H s
  admitted : ∀ i, t.isAdmitted i = s.admitted.containsKey i
  root : t.root H.blake2_256 = s.membershipRoot
  path : ∀ i, i < s.treeSlots → ∃ path, t.transparentPath H.blake2_256 i = some path ∧
    path.leafHash = slotDigest H.blake2_256 (slotOf s i) ∧
    verifyTransparentPath H.blake2_256 path s.membershipRoot = true

namespace SparseTreeLemmas

open TreeInvLemmas

theorem mirrors_of_treeOf {c : Chain} (h : TreeInv H cfg c) {t : SparseMerkleTree}
    (ht : TreeOf H.blake2_256 (slotsOf c.store) t) : Mirrors H c.store t := by
  have hdigests := h.slots.digestsOf_eq
  have hroot : t.root H.blake2_256 = c.store.membershipRoot := by
    rw [root_treeOf ht, ← hdigests]
    exact h.root.symm
  refine ⟨?_, fun i => ?_, hroot, fun i hi => ?_⟩
  · rw [ht.leaves, hdigests]
  · rw [TreeOf.isAdmitted_eq ht]
    rcases lt_or_ge i c.store.treeSlots with hi | hi
    · rw [getElem?_slotsOf hi, Option.map_some, Option.getD_some, slotOf]
      split
      · next hadmitted =>
        obtain ⟨out, hout, -⟩ := h.slots.mature i hadmitted
        rw [hadmitted, hout]
        rfl
      · next hnot => exact (Bool.eq_false_iff.mpr hnot).symm
    · rw [List.getElem?_eq_none (by rwa [length_slotsOf]), (h.slots.above i hi).2]
      rfl
  · obtain ⟨path, hpath, -, hleaf, -, hverify⟩ := transparentPath_of_slot ht (getElem?_slotsOf hi)
    exact ⟨path, hpath, hleaf, hroot ▸ hverify⟩

end SparseTreeLemmas

/-- The spike's tree refines the pallet's: from any state that keeps the invariant, lagging or not, any run of
hooks and calls is a list of calls of the spike's tree. They take a tree of the slots before the run to a tree of
the slots behind it, which has the digests, the admissions and the root of the storage, as long as the slots stay
within the 2^32 of the spike's capacity. -/
theorem sparse_tree_refined (H : Host) (cfg : Config) (c : Chain) (t : SparseMerkleTree) (ops : List Op)
    (hinv : TreeInv H cfg c) (hle : c.store.treeSlots ≤ c.store.nextOutputIndex)
    (ht : TreeOf H.blake2_256 (slotsOf c.store) t)
    (hcap : (run (step H cfg) c ops).store.treeSlots ≤ 2 ^ MAX_DEPTH) :
    Mirrors H c.store t ∧
    ∃ t', t.applyAll H.blake2_256 (treeCalls H cfg c ops) = some t' ∧
      TreeOf H.blake2_256 (slotsOf (run (step H cfg) c ops).store) t' ∧
      Mirrors H (run (step H cfg) c ops).store t' := by
  have hslots := slotCalls_run hinv hle ops hcap
  refine ⟨mirrors_of_treeOf hinv ht, ?_⟩
  rcases applyAll_treeOf ht (treeCalls H cfg c ops) with ⟨hnone, -⟩ | ⟨slots', t', hslots', htree, h'⟩
  · rw [hslots] at hnone
    cases hnone
  · rw [hslots, Option.some.injEq] at hslots'
    subst hslots'
    exact ⟨t', htree, h', mirrors_of_treeOf (treeInv_run hinv hle ops).1 h'⟩

/-- Two slots behind four mature outputs: the end of a block admits the slots, then catches up. -/
theorem sparse_tree_refined_lagging :
    let H := nativeHost (cyclic ristrettoOrder)
    let c := laggingChain H 2 4 0 (agedOutputs 4)
    ∃ t t' : SparseMerkleTree,
      t.applyAll H.blake2_256 (treeCalls H ⟨10, 60, 1⟩ c [.onFinalize]) = some t' ∧
        Mirrors H (run (step H ⟨10, 60, 1⟩) c [.onFinalize]).store t' := by
  intro H c
  have hinv : TreeInv H ⟨10, 60, 1⟩ c := LagLemmas.laggingChain_inv _ _ _ _ _ _
  have hnext : (run (step H ⟨10, 60, 1⟩) c [.onFinalize]).store.nextOutputIndex = 4 := by
    rw [run_cons, run_nil, nextOutputIndex_step]
    rfl
  have hle : c.store.treeSlots ≤ c.store.nextOutputIndex := Nat.le_of_ble_eq_true rfl
  have hcap : (run (step H ⟨10, 60, 1⟩) c [.onFinalize]).store.treeSlots ≤ 2 ^ MAX_DEPTH :=
    (treeInv_run hinv hle [.onFinalize]).2.trans (hnext.trans_le (Nat.le_of_ble_eq_true rfl))
  have ht : TreeOf H.blake2_256 (slotsOf c.store)
      ⟨List.replicate 2 (emptyLeafHash H.blake2_256), List.replicate 2 false, rfl,
        Nat.le_of_ble_eq_true rfl⟩ := ⟨rfl, rfl⟩
  obtain ⟨-, t', htree, -, hmirrors⟩ :=
    sparse_tree_refined H ⟨10, 60, 1⟩ c _ [.onFinalize] hinv hle ht hcap
  exact ⟨_, t', htree, hmirrors⟩

end Kohl.Pallet
