import Mathlib.Logic.Function.Iterate
import Kohl.Pallet.Ledger

/-!
# Fees and emission

What the chain can say about its money without looking into a commitment: the public amounts of the
coinbase outputs, the fees waiting for the next coinbase and the emission. Fees are collected by
transfers, wait in the storage for any number of blocks and are paid out by the next coinbase.

* `acceptedCoinbases_le_one`: between two initializations at most one coinbase is executed.
* `emitted_eq_emissionAfter`: the emission is a function of the number of executed coinbases.
* `publicAmounts_add_blockFees`: what was paid out and what waits is what was emitted and collected.
* `accounting_exact`: the three together, for every run.
-/

namespace Kohl.Pallet

open ByteLib Run

variable (H : Host) (cfg : Config)

/-! ## What is counted -/

/-- How many coinbases a step executes. -/
def coinbaseOfStep (c : Chain) (op : Op) : ℕ := ((acceptedCall H cfg c op).toList.filter isInherent).length

/-- How many coinbases a run executes. -/
def acceptedCoinbases (c : Chain) : List Op → ℕ
  | [] => 0
  | op :: ops => coinbaseOfStep H cfg c op + acceptedCoinbases (step H cfg c op) ops

/-- The fees a run collects. -/
def collectedFees (c : Chain) (ops : List Op) : ℕ :=
  ((acceptedTransfers H cfg c ops).map fun tx => tx.fee.toNat).sum

/-- The amount of an output, if it is public. -/
def StoredOutput.publicAmount (out : StoredOutput) : ℕ :=
  if out.coinbase then (out.amount.map UInt64.toNat).getD 0 else 0

/-- The public amounts of all stored coinbase outputs. -/
def publicAmounts (s : Storage) : ℕ :=
  ((List.range s.nextOutputIndex).map fun i =>
    ((s.outputs.get i).map StoredOutput.publicAmount).getD 0).sum

/-- The emission after `k` rewards, each computed from the emission before it. -/
def emissionAfter (k : ℕ) : ℕ := (fun e => e + (blockReward (UInt64.ofNat e)).toNat)^[k] 0

variable {H cfg}

namespace AccountingLemmas

theorem acceptedCoinbases_append (c : Chain) (ops ops' : List Op) :
    acceptedCoinbases H cfg c (ops ++ ops') =
      acceptedCoinbases H cfg c ops + acceptedCoinbases H cfg (run (step H cfg) c ops) ops' := by
  induction ops generalizing c with
  | nil => rw [List.nil_append, acceptedCoinbases, Nat.zero_add, run_nil]
  | cons op ops ih => rw [List.cons_append, acceptedCoinbases, ih, acceptedCoinbases, run_cons, Nat.add_assoc]

theorem acceptedCoinbases_concat (c : Chain) (ops : List Op) (op : Op) :
    acceptedCoinbases H cfg c (ops ++ [op]) =
      acceptedCoinbases H cfg c ops + coinbaseOfStep H cfg (run (step H cfg) c ops) op := by
  rw [acceptedCoinbases_append]
  rfl

theorem collectedFees_concat (c : Chain) (ops : List Op) (op : Op) :
    collectedFees H cfg c (ops ++ [op]) = collectedFees H cfg c ops +
      ((acceptedTransfer H cfg (run (step H cfg) c ops) op).toList.map fun tx => tx.fee.toNat).sum := by
  rw [collectedFees, acceptedTransfers_concat, List.map_append, List.sum_append]
  rfl

theorem emissionAfter_succ (k : ℕ) : emissionAfter (k + 1) =
    emissionAfter k + (blockReward (UInt64.ofNat (emissionAfter k))).toNat :=
  Function.iterate_succ_apply' _ _ _

/-- The public amounts of a reachable state are those of its ledger. -/
theorem publicAmounts_run (ops : List Op) :
    publicAmounts (run (step H cfg) (.genesis H) ops).store =
      ((ledger H cfg (.genesis H) ops).map StoredOutput.publicAmount).sum := by
  obtain ⟨hget, hnext⟩ := @ledger_spec H cfg ops
  rw [publicAmounts, hnext]
  congr 1
  refine List.ext_getElem (by simp) ?_
  intro i hi hi'
  rw [List.length_map] at hi'
  simp only [List.getElem_map, List.getElem_range, hget, List.getElem?_eq_getElem hi',
    Option.map_some, Option.getD_some]

theorem sum_publicAmount_transfer (now : ℕ) (tx : TransferTx) :
    (((Call.transfer tx).storedOutputs H now).map StoredOutput.publicAmount).sum = 0 := by
  rw [Call.storedOutputs, List.map_map]
  refine List.sum_eq_zero fun n hn => ?_
  obtain ⟨out, -, rfl⟩ := List.mem_map.mp hn
  rfl

theorem sum_publicAmount_coinbase (now : ℕ) (outputs : BoundedVec CoinbaseOutput MAX_OUTPUTS)
    (txPubkey : Bytes32) :
    (((Call.coinbase outputs txPubkey).storedOutputs H now).map StoredOutput.publicAmount).sum =
      (outputs.val.map fun out => out.amount.toNat).sum := by
  rw [Call.storedOutputs, List.map_map]
  rfl

end AccountingLemmas

open AccountingLemmas

/-! ## One coinbase per block -/

/-- Between two initializations at most one coinbase is executed, and none if there was one before. -/
theorem acceptedCoinbases_le_one {ops : List Op} (h : Op.onInitialize ∉ ops) (c : Chain) :
    acceptedCoinbases H cfg c ops + (if c.store.coinbaseDone then 1 else 0) ≤ 1 := by
  induction ops generalizing c with
  | nil =>
    rw [acceptedCoinbases]
    split <;> omega
  | cons op ops ih =>
    rw [List.mem_cons, not_or] at h
    have hrest := ih h.2 (step H cfg c op)
    rw [acceptedCoinbases, coinbaseOfStep]
    have hspec := @step_spec H cfg c op
    generalize (step H cfg c op) = c' at hspec hrest ⊢
    generalize hs : c'.store = s' at hspec hrest
    generalize acceptedCall H cfg c op = a at hspec ⊢
    cases hspec with
    | onInitialize => exact absurd rfl h.1
    | rejected origin call e he =>
      rw [Option.toList_none, List.filter_nil, List.length_nil, Nat.zero_add]
      exact hrest
    | transfer tx fees hvalid hfees =>
      rw [(transferred_money _ _ _ _).2.2] at hrest
      rw [Option.toList_some, List.filter_cons_of_neg (by simp [isInherent]), List.filter_nil,
        List.length_nil, Nat.zero_add]
      exact hrest
    | coinbase outputs txPubkey emitted hvalid hemitted =>
      rw [(minted_money _ _ _ _ _).2.2, if_pos rfl] at hrest
      rw [Option.toList_some, List.filter_cons_of_pos rfl, List.filter_nil, List.length_singleton,
        hvalid.first, if_neg Bool.false_ne_true]
      omega
    | onFinalize =>
      obtain ⟨_, _, _, _, _, _, hkeep⟩ := @exists_onFinalize H cfg c.number c.store
      rw [hkeep] at hrest
      rw [Option.toList_none, List.filter_nil, List.length_nil, Nat.zero_add]
      exact hrest

/-! ## The emission -/

/-- The emission is that of the executed coinbases, whatever their outputs. -/
theorem emitted_eq_emissionAfter (ops : List Op) :
    (run (step H cfg) (.genesis H) ops).store.emitted.toNat =
      emissionAfter (acceptedCoinbases H cfg (.genesis H) ops) := by
  refine run_history_invariant (P := fun ops (c : Chain) => c.store.emitted.toNat =
    emissionAfter (acceptedCoinbases H cfg (.genesis H) ops)) rfl ?_ ops
  intro ops op h
  rw [acceptedCoinbases_concat, coinbaseOfStep]
  have hspec := @step_spec H cfg (run (step H cfg) (.genesis H) ops) op
  generalize run (step H cfg) (.genesis H) ops = c at hspec h ⊢
  generalize (step H cfg c op).store = s' at hspec ⊢
  generalize acceptedCall H cfg c op = a at hspec ⊢
  cases hspec with
  | onInitialize => exact h
  | rejected origin call e he => exact h
  | transfer tx fees hvalid hfees =>
    rw [(transferred_money _ _ _ _).2.1]
    exact h
  | coinbase outputs txPubkey emitted hvalid hemitted =>
    rw [(minted_money _ _ _ _ _).2.1, checkedAdd_eq_some.mp hemitted, Option.toList_some,
      List.filter_cons_of_pos rfl, List.filter_nil, List.length_singleton, emissionAfter_succ, ← h,
      UInt64.ofNat_toNat]
  | onFinalize =>
    obtain ⟨_, _, _, _, _, _, hkeep⟩ := @exists_onFinalize H cfg c.number c.store
    rw [hkeep]
    exact h

/-- One reward takes the emission at most to the end of the curve or one tail reward further. -/
theorem add_blockReward_le (e : UInt64) :
    e.toNat + (blockReward e).toNat ≤ max MAX_CURVE_SUPPLY (e.toNat + TAIL_REWARD) := by
  have hcurve : (MAX_CURVE_SUPPLY - e.toNat) / 2 ^ EMISSION_SHIFT ≤ MAX_CURVE_SUPPLY - e.toNat :=
    Nat.div_le_self _ _
  rw [toNat_blockReward]
  omega

/-- The emission is at most the supply of the curve and one tail reward for every coinbase. -/
theorem emissionAfter_le {k : ℕ} (h : emissionAfter k < 2 ^ 64) :
    emissionAfter k ≤ MAX_CURVE_SUPPLY + k * TAIL_REWARD := by
  induction k with
  | zero => exact Nat.zero_le _
  | succ k ih =>
    rw [emissionAfter_succ] at h ⊢
    have hlt : emissionAfter k < 2 ^ 64 := Nat.lt_of_le_of_lt (Nat.le_add_right _ _) h
    have hle := ih hlt
    have hstep := add_blockReward_le (UInt64.ofNat (emissionAfter k))
    rw [UInt64.toNat_ofNat', Nat.mod_eq_of_lt hlt] at hstep
    rw [Nat.succ_mul]
    omega

/-- Every block executes at most one coinbase. -/
theorem acceptedCoinbases_le_number (ops : List Op) :
    acceptedCoinbases H cfg (.genesis H) ops +
        (if (run (step H cfg) (.genesis H) ops).store.coinbaseDone then 0 else 1) ≤
      (run (step H cfg) (.genesis H) ops).number + 1 := by
  refine run_history_invariant (P := fun ops (c : Chain) => acceptedCoinbases H cfg (.genesis H) ops +
    (if c.store.coinbaseDone then 0 else 1) ≤ c.number + 1) (Nat.le_refl _) ?_ ops
  intro ops op h
  rw [acceptedCoinbases_concat, coinbaseOfStep]
  have hspec := @step_spec H cfg (run (step H cfg) (.genesis H) ops) op
  generalize run (step H cfg) (.genesis H) ops = c at hspec h ⊢
  have hnumber := @LedgerLemmas.number_le_step H cfg c op
  generalize hc' : step H cfg c op = c' at hspec hnumber ⊢
  generalize c'.store = s' at hspec ⊢
  generalize acceptedCall H cfg c op = a at hspec ⊢
  cases hspec with
  | onInitialize =>
    have hnext : c'.number = c.number + 1 := by
      rw [← hc']
      rfl
    rw [hnext]
    show _ + 0 + 1 ≤ c.number + 1 + 1
    split at h <;> omega
  | rejected origin call e he => exact h.trans (Nat.succ_le_succ hnumber)
  | transfer tx fees hvalid hfees =>
    rw [(transferred_money _ _ _ _).2.2]
    exact h.trans (Nat.succ_le_succ hnumber)
  | coinbase outputs txPubkey emitted hvalid hemitted =>
    rw [hvalid.first, if_neg Bool.false_ne_true] at h
    rw [(minted_money _ _ _ _ _).2.2, if_pos rfl]
    exact h.trans (Nat.succ_le_succ hnumber)
  | onFinalize =>
    obtain ⟨_, _, _, _, _, _, hkeep⟩ := @exists_onFinalize H cfg c.number c.store
    rw [hkeep]
    exact h.trans (Nat.succ_le_succ hnumber)

/-! ## The balance of the public accounts -/

/-- What was paid out and what waits for a coinbase is what was emitted and what was collected. -/
theorem publicAmounts_add_blockFees (ops : List Op) :
    publicAmounts (run (step H cfg) (.genesis H) ops).store +
        (run (step H cfg) (.genesis H) ops).store.blockFees.toNat =
      (run (step H cfg) (.genesis H) ops).store.emitted.toNat +
        collectedFees H cfg (.genesis H) ops := by
  rw [publicAmounts_run]
  refine run_history_invariant (P := fun ops (c : Chain) =>
    ((ledger H cfg (.genesis H) ops).map StoredOutput.publicAmount).sum + c.store.blockFees.toNat =
      c.store.emitted.toNat + collectedFees H cfg (.genesis H) ops) rfl ?_ ops
  intro ops op h
  rw [ledger_concat, collectedFees_concat, List.map_append, List.sum_append, stepOutputs,
    acceptedTransfer]
  have hspec := @step_spec H cfg (run (step H cfg) (.genesis H) ops) op
  generalize run (step H cfg) (.genesis H) ops = c at hspec h ⊢
  generalize (step H cfg c op).store = s' at hspec ⊢
  generalize acceptedCall H cfg c op = a at hspec ⊢
  cases hspec with
  | onInitialize => exact h
  | rejected origin call e he => exact h
  | transfer tx fees hvalid hfees =>
    rw [(transferred_money _ _ _ _).1, (transferred_money _ _ _ _).2.1, checkedAdd_eq_some.mp hfees,
      Option.toList_some, List.flatMap_singleton, sum_publicAmount_transfer]
    show _ = _ + (_ + [tx.fee.toNat].sum)
    rw [List.sum_singleton]
    omega
  | coinbase outputs txPubkey emitted hvalid hemitted =>
    rw [(minted_money _ _ _ _ _).1, (minted_money _ _ _ _ _).2.1, checkedAdd_eq_some.mp hemitted,
      Option.toList_some, List.flatMap_singleton, sum_publicAmount_coinbase, hvalid.total]
    show _ + 0 = _ + (_ + 0)
    omega
  | onFinalize =>
    obtain ⟨_, _, _, _, _, _, hkeep⟩ := @exists_onFinalize H cfg c.number c.store
    rw [hkeep]
    exact h

/-- Public accounting is exact, with no assumption about the cryptography. After every run from
genesis the public amounts of the stored coinbase outputs and the fees that wait for a coinbase add up
to the emission and the fees of all executed transfers; no part of the run without an initialization
executes two coinbases; and the emission is the `k`-fold iterate of adding the reward, for `k` executed
coinbases. -/
theorem accounting_exact (H : Host) (cfg : Config) (ops : List Op) :
    let s := (run (step H cfg) (.genesis H) ops).store
    publicAmounts s + s.blockFees.toNat =
      s.emitted.toNat + ((acceptedTransfers H cfg (.genesis H) ops).map fun tx => tx.fee.toNat).sum ∧
    (∀ pre part later, ops = pre ++ part ++ later → Op.onInitialize ∉ part →
      acceptedCoinbases H cfg (run (step H cfg) (.genesis H) pre) part ≤ 1) ∧
    s.emitted.toNat = (fun e => e + (blockReward (UInt64.ofNat e)).toNat)^[
      acceptedCoinbases H cfg (.genesis H) ops] 0 := by
  intro s
  refine ⟨publicAmounts_add_blockFees ops, ?_, emitted_eq_emissionAfter ops⟩
  intro pre part later _ hpart
  exact (Nat.le_add_right _ _).trans (acceptedCoinbases_le_one hpart _)

end Kohl.Pallet
