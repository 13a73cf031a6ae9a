import Kohl.Pallet.Backlog

/-!
# Admission in small trees

The scan at the end of a block looks at every slot unless its budget of 64 admissions runs out first.
With at most 64 slots it never does: every output that is mature then is admitted, and with empty
blocks alone every stored output is admitted some day.

* `onFinalize_admits`: in a tree of at most 64 slots the end of a block admits every mature output.
* `emptyBlocks_keep`: empty blocks leave outputs, key images and money as they are.
* `emptyBlocks_admit`: after enough empty blocks a given output is admitted.
-/

namespace Kohl.Pallet

open ByteLib Run BacklogLemmas

variable {H : Host} {cfg : Config}

/-- In a tree of at most 64 slots the end of a block admits every output that is mature. -/
theorem onFinalize_admits {n : ℕ} {s : Storage} (hslots : s.treeSlots ≤ 64) {i : ℕ}
    (hi : i < s.treeSlots) {out : StoredOutput} (hout : s.outputs.get i = some out)
    (hmature : out.height + maturityAge cfg out ≤ n) :
    (onFinalize H cfg n s).1.admitted.containsKey i = true := by
  obtain ⟨-, -, hadmitted⟩ := @onFinalize_backlog H cfg n s
  rw [hadmitted]
  cases hold : s.admitted.containsKey i with
  | true => exact .inr rfl
  | false =>
    have hwaits : i ∈ waiting cfg n s := mem_waiting.mpr (mem_backlog.mpr ⟨hi, hold, out, hout, hmature⟩)
    have hall : (waiting cfg n s).length ≤ FCMP_ADMIT_MAX_LEAVES_PER_BLOCK := by
      calc (waiting cfg n s).length
          ≤ (RoundRobin.visits s.treeSlots (s.admitScanCursor % s.treeSlots) s.treeSlots).length :=
            List.length_filter_le _ _
        _ = s.treeSlots := RoundRobin.length_visits _ _ _
        _ ≤ FCMP_ADMIT_MAX_LEAVES_PER_BLOCK := hslots
    rw [List.take_of_length_le hall]
    exact .inl hwaits

/-! ## Empty blocks -/

/-- The steps of `n` blocks without calls. -/
def emptyBlocks (n : ℕ) : List Op := (List.replicate n []).flatMap blockOps

theorem emptyBlocks_succ (n : ℕ) : emptyBlocks (n + 1) = emptyBlocks n ++ [.onInitialize, .onFinalize] := by
  rw [emptyBlocks, List.replicate_succ', List.flatMap_append]
  rfl

/-- What empty blocks do not change. -/
structure Kept (c c' : Chain) : Prop where
  outputs : c'.store.outputs = c.store.outputs
  next : c'.store.nextOutputIndex = c.store.nextOutputIndex
  keyImages : c'.store.keyImages = c.store.keyImages
  emitted : c'.store.emitted = c.store.emitted
  blockFees : c'.store.blockFees = c.store.blockFees

theorem kept_onFinalize (c : Chain) : Kept c (step H cfg c .onFinalize) := by
  obtain ⟨_, _, _, _, _, _, hkeep⟩ := @exists_onFinalize H cfg c.number c.store
  have hstore : (step H cfg c .onFinalize).store = (onFinalize H cfg c.number c.store).1 := rfl
  refine ⟨?_, ?_, ?_, ?_, ?_⟩ <;> rw [hstore, hkeep]

theorem emptyBlocks_keep (c : Chain) (n : ℕ) :
    Kept c (run (step H cfg) c (emptyBlocks n)) ∧
      (run (step H cfg) c (emptyBlocks n)).number = c.number + n := by
  induction n with
  | zero => exact ⟨⟨rfl, rfl, rfl, rfl, rfl⟩, rfl⟩
  | succ n ih =>
    obtain ⟨h, hnumber⟩ := ih
    rw [emptyBlocks_succ, run_append, run_cons, run_cons, run_nil]
    have hlast := @kept_onFinalize H cfg
      (step H cfg (run (step H cfg) c (emptyBlocks n)) .onInitialize)
    refine ⟨⟨hlast.outputs.trans h.outputs, hlast.next.trans h.next,
      hlast.keyImages.trans h.keyImages, hlast.emitted.trans h.emitted,
      hlast.blockFees.trans h.blockFees⟩, ?_⟩
    show (run (step H cfg) c (emptyBlocks n)).number + 1 = c.number + (n + 1)
    omega

/-- After enough empty blocks a stored output of a tree of at most 64 slots is admitted. -/
theorem emptyBlocks_admit {ops : List Op} {c : Chain}
    (hc : c = run (step H cfg) (.genesis H) ops) (hslots : c.store.treeSlots ≤ 64) {i : ℕ}
    {out : StoredOutput} (hout : c.store.outputs.get i = some out) :
    (run (step H cfg) c (emptyBlocks (out.height + maturityAge cfg out + 1))).store.admitted.containsKey
      i = true := by
  subst hc
  obtain ⟨hkept, hnumber⟩ := @emptyBlocks_keep H cfg (run (step H cfg) (.genesis H) ops)
    (out.height + maturityAge cfg out)
  have hnext := (@treeInv_run_genesis H cfg ops).2
  have hnext' := (@treeInv_run_genesis H cfg
    (ops ++ emptyBlocks (out.height + maturityAge cfg out))).2
  rw [run_append, hkept.next, ← hnext] at hnext'
  have hi : i < (run (step H cfg) (.genesis H) ops).store.treeSlots := by
    rw [(ledger_spec ops).1] at hout
    rw [hnext, (ledger_spec ops).2]
    exact (List.getElem?_eq_some_iff.mp hout).1
  rw [emptyBlocks_succ, run_append, run_cons, run_cons, run_nil]
  refine @onFinalize_admits H cfg _ _ ?_ i ?_ out ?_ ?_
  · exact hnext'.trans_le hslots
  · exact hi.trans_eq hnext'.symm
  · show (run (step H cfg) _ _).store.outputs.get i = some out
    rw [hkept.outputs]
    exact hout
  · show _ ≤ (run (step H cfg) _ _).number + 1
    omega

end Kohl.Pallet
