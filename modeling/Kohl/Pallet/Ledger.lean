import Kohl.Pallet.Chain

/-!
# The ledger of outputs

The outputs are an append-only list. `ledger` is that list, read off the calls a run executes; the
output map of the pallet is its index.

* `get_outputs_step`, `nextOutputIndex_step`: a step appends the outputs of the call it executes.
* `ledger_spec`: the output map of every reachable state is the ledger.
* `get_outputs_mono`: a stored output stays as it is.
* `emitted_le`: the emission is bounded by the number of outputs.
* `outputOk_of_mem_ledger`: keys and amounts of stored outputs.
* `append_only_ledger`: indices, order and contents of the ledger, and where a call appends to it.
-/

namespace Kohl.Pallet

open ByteLib Run ChainLemmas

variable (H : Host) (cfg : Config)

/-- The outputs a call stores in block `now`. -/
def Call.storedOutputs (now : ℕ) : Call → List StoredOutput
  | .transfer tx => tx.outputs.val.map (storedOfTransfer now tx)
  | .coinbase outputs txPubkey => outputs.val.map (storedOfCoinbase H now txPubkey)

/-- The outputs a step stores. -/
def stepOutputs (c : Chain) (op : Op) : List StoredOutput :=
  (acceptedCall H cfg c op).toList.flatMap (Call.storedOutputs H c.number)

/-- The outputs a run stores, in order. -/
def ledger (c : Chain) : List Op → List StoredOutput
  | [] => []
  | op :: ops => stepOutputs H cfg c op ++ ledger (step H cfg c op) ops

variable {H cfg}

/-- A step appends the outputs of the call it executes. -/
theorem get_outputs_step (c : Chain) (op : Op) (j : ℕ) :
    (step H cfg c op).store.outputs.get j =
      if c.store.nextOutputIndex ≤ j ∧
          j < c.store.nextOutputIndex + (stepOutputs H cfg c op).length then
        (stepOutputs H cfg c op)[j - c.store.nextOutputIndex]?
      else c.store.outputs.get j := by
  have hspec := @step_spec H cfg c op
  rw [stepOutputs]
  generalize (step H cfg c op).store = s' at hspec ⊢
  generalize acceptedCall H cfg c op = a at hspec ⊢
  cases hspec with
  | onInitialize => simp [Pallet.onInitialize]
  | rejected origin call e he => simp
  | transfer tx fees hvalid hfees =>
    rw [transferred, get_outputs_storeOutputs]
    simp [Call.storedOutputs]
  | coinbase outputs txPubkey emitted hvalid hemitted =>
    rw [minted, get_outputs_storeOutputs]
    simp [Call.storedOutputs]
  | onFinalize =>
    obtain ⟨_, _, _, _, _, _, hkeep⟩ := @exists_onFinalize H cfg c.number c.store
    rw [hkeep]
    simp

theorem nextOutputIndex_step (c : Chain) (op : Op) :
    (step H cfg c op).store.nextOutputIndex =
      c.store.nextOutputIndex + (stepOutputs H cfg c op).length := by
  have hspec := @step_spec H cfg c op
  rw [stepOutputs]
  generalize (step H cfg c op).store = s' at hspec ⊢
  generalize acceptedCall H cfg c op = a at hspec ⊢
  cases hspec with
  | onInitialize => simp [Pallet.onInitialize]
  | rejected origin call e he => simp
  | transfer tx fees hvalid hfees => simp [transferred, Call.storedOutputs]
  | coinbase outputs txPubkey emitted hvalid hemitted => simp [minted, Call.storedOutputs]
  | onFinalize =>
    obtain ⟨_, _, _, _, _, _, hkeep⟩ := @exists_onFinalize H cfg c.number c.store
    rw [hkeep]
    simp

theorem ledger_append (c : Chain) (ops ops' : List Op) :
    ledger H cfg c (ops ++ ops') =
      ledger H cfg c ops ++ ledger H cfg (run (step H cfg) c ops) ops' := by
  induction ops generalizing c with
  | nil => rfl
  | cons op ops ih => simp only [List.cons_append, ledger, ih, run_cons, List.append_assoc]

theorem ledger_concat (c : Chain) (ops : List Op) (op : Op) :
    ledger H cfg c (ops ++ [op]) =
      ledger H cfg c ops ++ stepOutputs H cfg (run (step H cfg) c ops) op := by
  rw [ledger_append]
  simp only [ledger, List.append_nil]

/-- The output map of a reachable state is the ledger. -/
theorem ledger_spec (ops : List Op) :
    (∀ i, (run (step H cfg) (.genesis H) ops).store.outputs.get i =
        (ledger H cfg (.genesis H) ops)[i]?) ∧
      (run (step H cfg) (.genesis H) ops).store.nextOutputIndex =
        (ledger H cfg (.genesis H) ops).length := by
  refine run_history_invariant (P := fun ops (c : Chain) =>
    (∀ i, c.store.outputs.get i = (ledger H cfg (.genesis H) ops)[i]?) ∧
      c.store.nextOutputIndex = (ledger H cfg (.genesis H) ops).length) ⟨fun _ => rfl, rfl⟩ ?_ ops
  rintro ops op ⟨hget, hnext⟩
  rw [ledger_concat]
  refine ⟨fun i => ?_, ?_⟩
  · rw [get_outputs_step, hnext]
    split
    · next hi => rw [List.getElem?_append_right hi.1]
    · next hi =>
      rw [hget]
      by_cases hlt : i < (ledger H cfg (.genesis H) ops).length
      · rw [List.getElem?_append_left hlt]
      · rw [List.getElem?_eq_none (not_lt.mp hlt), List.getElem?_eq_none]
        rw [List.length_append]
        omega
  · rw [nextOutputIndex_step, hnext, List.length_append]

/-- A stored output of a reachable state stays as it is. -/
theorem get_outputs_mono {ops : List Op} {i : ℕ} {out : StoredOutput}
    (h : (run (step H cfg) (.genesis H) ops).store.outputs.get i = some out) (later : List Op) :
    (run (step H cfg) (.genesis H) (ops ++ later)).store.outputs.get i = some out := by
  rw [(ledger_spec _).1] at h ⊢
  rw [ledger_append, List.getElem?_append_left (List.getElem?_eq_some_iff.mp h).1, h]

theorem get_outputs_prefix {pre ops : List Op} (hpre : pre <+: ops) {i : ℕ} {out : StoredOutput}
    (h : (run (step H cfg) (.genesis H) pre).store.outputs.get i = some out) :
    (run (step H cfg) (.genesis H) ops).store.outputs.get i = some out := by
  obtain ⟨later, rfl⟩ := hpre
  exact get_outputs_mono h later

/-! ## Fees and emission -/

theorem transferred_money (now : ℕ) (s : Storage) (tx : TransferTx) (fees : UInt64) :
    (transferred H now s tx fees).blockFees = fees ∧
      (transferred H now s tx fees).emitted = s.emitted ∧
      (transferred H now s tx fees).coinbaseDone = s.coinbaseDone := by
  obtain ⟨_, _, _, _, hstore⟩ := @exists_transferred H now s tx fees
  rw [hstore]
  exact ⟨rfl, rfl, rfl⟩

theorem minted_money (now : ℕ) (s : Storage) (outputs : List CoinbaseOutput)
    (txPubkey : Bytes32) (emitted : UInt64) :
    (minted H now s outputs txPubkey emitted).blockFees = 0 ∧
      (minted H now s outputs txPubkey emitted).emitted = emitted ∧
      (minted H now s outputs txPubkey emitted).coinbaseDone = true := by
  obtain ⟨_, _, _, _, hstore⟩ := @exists_minted H now s outputs txPubkey emitted
  rw [hstore]
  exact ⟨rfl, rfl, rfl⟩

/-- The reward is largest at the start. -/
theorem blockReward_le (emitted : UInt64) : (blockReward emitted).toNat ≤ (blockReward 0).toNat := by
  rw [toNat_blockReward, toNat_blockReward]
  exact max_le_max_left _ (Nat.div_le_div_right (Nat.sub_le_sub_left (Nat.zero_le _) _))

/-- Every coinbase stores an output, so the emission is at most the first reward for each of them. -/
theorem emitted_le (ops : List Op) :
    (run (step H cfg) (.genesis H) ops).store.emitted.toNat ≤
      (run (step H cfg) (.genesis H) ops).store.nextOutputIndex * (blockReward 0).toNat := by
  refine run_invariant (P := fun c : Chain =>
    c.store.emitted.toNat ≤ c.store.nextOutputIndex * (blockReward 0).toNat) (Nat.zero_le _) ?_ ops
  intro c op h
  have hspec := @step_spec H cfg c op
  generalize (step H cfg c op).store = s' at hspec ⊢
  generalize acceptedCall H cfg c op = a at hspec
  cases hspec with
  | onInitialize => exact h
  | rejected origin call e he => exact h
  | transfer tx fees hvalid hfees =>
    rw [(transferred_money _ _ _ _).2.1, transferred, nextOutputIndex_storeOutputs]
    exact h.trans (Nat.mul_le_mul_right _ (Nat.le_add_right _ _))
  | coinbase outputs txPubkey emitted hvalid hemitted =>
    have hreward := blockReward_le c.store.emitted
    have hpos : 1 ≤ outputs.val.length := List.length_pos_iff.mpr hvalid.outputs_ne
    rw [(minted_money _ _ _ _ _).2.1, checkedAdd_eq_some.mp hemitted, minted,
      nextOutputIndex_storeOutputs, List.length_map, Nat.add_mul]
    exact Nat.add_le_add h (hreward.trans (Nat.le_mul_of_pos_left _ hpos))
  | onFinalize =>
    obtain ⟨_, _, _, _, _, _, hkeep⟩ := @exists_onFinalize H cfg c.number c.store
    rw [hkeep]
    exact h

/-! ## What is stored -/

/-- Where an output a step stores comes from. -/
theorem mem_stepOutputs {c : Chain} {op : Op} {out : StoredOutput}
    (h : out ∈ stepOutputs H cfg c op) :
    (∃ tx, acceptedTransfer H cfg c op = some tx ∧ TransferValid H cfg c.number c.store tx ∧
      ∃ o ∈ tx.outputs.val, out = storedOfTransfer c.number tx o) ∨
    (∃ outputs txPubkey, acceptedCall H cfg c op = some (.coinbase outputs txPubkey) ∧
      CoinbaseValid H c.store outputs.val txPubkey ∧
      ∃ o ∈ outputs.val, out = storedOfCoinbase H c.number txPubkey o) := by
  have hspec := @step_spec H cfg c op
  rw [stepOutputs] at h
  rw [acceptedTransfer]
  generalize (step H cfg c op).store = s' at hspec
  generalize acceptedCall H cfg c op = a at hspec h ⊢
  cases hspec with
  | onInitialize => exact absurd h List.not_mem_nil
  | rejected origin call e he => exact absurd h List.not_mem_nil
  | transfer tx fees hvalid hfees =>
    simp only [Option.toList_some, List.flatMap_cons, List.flatMap_nil, List.append_nil,
      Call.storedOutputs, List.mem_map] at h
    obtain ⟨o, ho, rfl⟩ := h
    exact .inl ⟨tx, rfl, hvalid, o, ho, rfl⟩
  | coinbase outputs txPubkey emitted hvalid hemitted =>
    simp only [Option.toList_some, List.flatMap_cons, List.flatMap_nil, List.append_nil,
      Call.storedOutputs, List.mem_map] at h
    obtain ⟨o, ho, rfl⟩ := h
    exact .inr ⟨outputs, txPubkey, rfl, hvalid, o, ho, rfl⟩
  | onFinalize => exact absurd h List.not_mem_nil

/-- A property of the outputs every step stores is one of every stored output. -/
theorem forall_mem_ledger {Q : StoredOutput → Prop} (ops : List Op)
    (h : ∀ pre op, pre ++ [op] <+: ops →
      ∀ out ∈ stepOutputs H cfg (run (step H cfg) (.genesis H) pre) op, Q out) :
    ∀ out ∈ ledger H cfg (.genesis H) ops, Q out := by
  induction ops using List.reverseRecOn with
  | nil => exact fun _ hout => absurd hout List.not_mem_nil
  | append_singleton ops op ih =>
    intro out hout
    rw [ledger_concat, List.mem_append] at hout
    rcases hout with hout | hout
    · exact ih (fun pre op' hpre => h pre op' (hpre.trans (List.prefix_append _ _))) out hout
    · exact h ops op (List.prefix_refl _) out hout

/-- What holds of every stored output: its key is a valid point, and it has an amount exactly when
it is a coinbase, with the commitment of the amount and no payload. -/
structure OutputOk (H : Host) (out : StoredOutput) : Prop where
  key : H.isValidPointV1 out.oneTimeKey = true
  coinbase : out.coinbase = out.amount.isSome
  amount : ∀ a, out.amount = some a →
    out.commitment = H.valueCommitmentV1 a ∧ 0 < a ∧ out.payload.val = []

theorem outputOk_of_mem_ledger {ops : List Op} {out : StoredOutput}
    (h : out ∈ ledger H cfg (.genesis H) ops) : OutputOk H out := by
  refine forall_mem_ledger (H := H) (Q := OutputOk H) ops (fun pre op _ out hout => ?_) out h
  rcases mem_stepOutputs hout with ⟨tx, -, hvalid, o, ho, rfl⟩ | ⟨outs, pk, -, hvalid, o, ho, rfl⟩
  · exact ⟨hvalid.keys o ho, rfl, fun a ha => by cases ha⟩
  · refine ⟨hvalid.keys o ho, rfl, fun a ha => ?_⟩
    rw [storedOfCoinbase, Option.some.injEq] at ha
    subst ha
    exact ⟨rfl, hvalid.amounts o ho, rfl⟩

theorem outputOk_of_get {ops : List Op} {i : ℕ} {out : StoredOutput}
    (h : (run (step H cfg) (.genesis H) ops).store.outputs.get i = some out) : OutputOk H out := by
  rw [(ledger_spec ops).1] at h
  exact outputOk_of_mem_ledger (List.mem_of_getElem? h)

/-! ## The order of the ledger -/

namespace LedgerLemmas

theorem height_of_mem_stepOutputs {c : Chain} {op : Op} {out : StoredOutput}
    (h : out ∈ stepOutputs H cfg c op) : out.height = c.number := by
  rcases mem_stepOutputs h with ⟨tx, -, -, o, -, rfl⟩ | ⟨outputs, txPubkey, -, -, o, -, rfl⟩
  · rfl
  · rfl

theorem number_le_step (c : Chain) (op : Op) : c.number ≤ (step H cfg c op).number := by
  cases op with
  | onInitialize => exact Nat.le_succ _
  | dispatch origin call => exact Nat.le_refl _
  | onFinalize => exact Nat.le_refl _

/-- The heights of the ledger are ordered and none of them is ahead of the chain. -/
theorem heights_ledger (ops : List Op) :
    (ledger H cfg (.genesis H) ops).Pairwise (fun a b => a.height ≤ b.height) ∧
      ∀ out ∈ ledger H cfg (.genesis H) ops,
        out.height ≤ (run (step H cfg) (.genesis H) ops).number := by
  refine run_history_invariant (P := fun ops (c : Chain) =>
    (ledger H cfg (.genesis H) ops).Pairwise (fun a b => a.height ≤ b.height) ∧
      ∀ out ∈ ledger H cfg (.genesis H) ops, out.height ≤ c.number) ?_ ?_ ops
  · exact ⟨.nil, fun out hout => absurd hout List.not_mem_nil⟩
  rintro ops op ⟨hsorted, hle⟩
  rw [ledger_concat]
  constructor
  · refine List.pairwise_append.mpr ⟨hsorted, ?_, ?_⟩
    · -- the outputs of one step all have the number of its block
      refine List.pairwise_of_forall_mem_list ?_
      intro a ha b hb
      rw [height_of_mem_stepOutputs ha, height_of_mem_stepOutputs hb]
    · intro a ha b hb
      rw [height_of_mem_stepOutputs hb]
      exact hle a ha
  · intro out hout
    have hstep := @number_le_step H cfg (run (step H cfg) (.genesis H) ops) op
    rcases List.mem_append.mp hout with hout | hout
    · exact (hle out hout).trans hstep
    · rw [height_of_mem_stepOutputs hout]
      exact hstep

/-- The call a successful dispatch executes. -/
theorem acceptedCall_of_dispatch {c : Chain} {origin : Origin} {call : Call} {ev : Event}
    (h : (dispatch H cfg origin c.number c.store call).1 = .ok ev) :
    acceptedCall H cfg c (.dispatch origin call) = some call ∧
      (step H cfg c (.dispatch origin call)).store =
        (dispatch H cfg origin c.number c.store call).2 := by
  constructor
  · simp only [acceptedCall, h]
  · simp only [step, dispatchOrRollback]
    split
    · next heq => rw [heq]
    · next heq =>
      rw [heq] at h
      cases h

end LedgerLemmas

open LedgerLemmas

/-- Where an event says the outputs of its call are: the first index and the number of outputs. -/
def Event.outputRange : Event → Option (ℕ × ℕ)
  | .transferred _ firstOutputIndex outputCount _ => some (firstOutputIndex, outputCount)
  | .coinbaseMinted firstOutputIndex outputCount _ _ => some (firstOutputIndex, outputCount)
  | .membershipTreeUpdated .. => none

/-- The event of a successful dispatch names the next free index and the number of its outputs. -/
theorem outputRange_of_dispatch {origin : Origin} {now : ℕ} {s : Storage} {call : Call} {ev : Event}
    (h : (dispatch H cfg origin now s call).1 = .ok ev) :
    ev.outputRange = some (s.nextOutputIndex, (call.storedOutputs H now).length) := by
  cases call with
  | transfer tx =>
    rcases @transfer_cases H cfg origin now s tx with
      ⟨e, he⟩ | ⟨-, -, fees, -, heq⟩
    · rw [dispatch, he] at h
      cases h
    · rw [dispatch, heq] at h
      cases h
      rw [Call.storedOutputs, List.length_map]
      rfl
  | coinbase outputs txPubkey =>
    rcases coinbase_cases (H := H) origin now s outputs txPubkey with
      ⟨e, he⟩ | ⟨-, -, emitted, -, heq⟩
    · rw [dispatch, he] at h
      cases h
    · rw [dispatch, heq] at h
      cases h
      rw [Call.storedOutputs, List.length_map]
      rfl

/-- The outputs are an append-only ledger. In every reachable state the indices in use are those below
the counter, the heights are ordered and not ahead of the chain, and exactly the coinbase outputs have
a public amount, which is positive and fixes the commitment; a stored output stays as it is; and a
successful dispatch stores the outputs of its call, in order, where its event says, and changes no
other output. -/
theorem append_only_ledger (H : Host) (cfg : Config) (ops : List Op) :
    let c := run (step H cfg) (.genesis H) ops
    (∀ i, c.store.outputs.containsKey i = true ↔ i < c.store.nextOutputIndex) ∧
    (∀ i out, c.store.outputs.get i = some out → ∀ later,
      (run (step H cfg) (.genesis H) (ops ++ later)).store.outputs.get i = some out) ∧
    (∀ i j a b, i ≤ j → c.store.outputs.get i = some a → c.store.outputs.get j = some b →
      a.height ≤ b.height ∧ b.height ≤ c.number) ∧
    (∀ i out, c.store.outputs.get i = some out →
      (out.coinbase = true ↔ ∃ a, out.amount = some a) ∧
      ∀ a, out.amount = some a →
        out.commitment = H.valueCommitmentV1 a ∧ 0 < a ∧ out.payload.val = []) ∧
    ∀ origin call ev, (dispatch H cfg origin c.number c.store call).1 = .ok ev →
      ∃ first count, ev.outputRange = some (first, count) ∧ first = c.store.nextOutputIndex ∧
        count = (call.storedOutputs H c.number).length ∧
        (dispatch H cfg origin c.number c.store call).2.nextOutputIndex = first + count ∧
        ∀ j, (dispatch H cfg origin c.number c.store call).2.outputs.get j =
          if first ≤ j ∧ j < first + count then (call.storedOutputs H c.number)[j - first]?
          else c.store.outputs.get j := by
  intro c
  obtain ⟨hget, hnext⟩ := @ledger_spec H cfg ops
  obtain ⟨hsorted, hle⟩ := @heights_ledger H cfg ops
  refine ⟨?_, ?_, ?_, ?_, ?_⟩
  · intro i
    rw [StorageMap.containsKey, hget, hnext, Option.isSome_iff_ne_none, ne_eq,
      List.getElem?_eq_none_iff, not_le]
  · intro i out hout later
    exact get_outputs_mono hout later
  · intro i j a b hij ha hb
    rw [hget] at ha hb
    obtain ⟨hi, rfl⟩ := List.getElem?_eq_some_iff.mp ha
    obtain ⟨hj, rfl⟩ := List.getElem?_eq_some_iff.mp hb
    refine ⟨?_, hle _ (List.getElem_mem hj)⟩
    rcases Nat.lt_or_eq_of_le hij with hlt | rfl
    · exact List.pairwise_iff_getElem.mp hsorted i j hi hj hlt
    · exact Nat.le_refl _
  · intro i out hout
    have hok := outputOk_of_get hout
    refine ⟨?_, hok.amount⟩
    rw [hok.coinbase, Option.isSome_iff_exists]
  · intro origin call ev hev
    obtain ⟨hacc, hstore⟩ := acceptedCall_of_dispatch hev
    have houtputs : stepOutputs H cfg c (.dispatch origin call) = call.storedOutputs H c.number := by
      rw [stepOutputs, hacc, Option.toList_some, List.flatMap_singleton]
    refine ⟨_, _, outputRange_of_dispatch hev, rfl, rfl, ?_, ?_⟩
    · rw [← hstore, nextOutputIndex_step, houtputs]
    · intro j
      rw [← hstore, get_outputs_step, houtputs]

end Kohl.Pallet
