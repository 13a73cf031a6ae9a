import Kohl.Pallet.Calls

/-!
# Runs of the chain

A chain is the block number of the system, the number of the last finalized block and the storage of
the pallet. Its steps are the two hooks and the dispatch of a call; a failed dispatch is rolled back
by the system. Steps may come in any order (`run`); `blockOps` is the order of a block.

* `step_spec`: what a step can do, as a relation with one constructor per outcome.
* `acceptedTransfers_concat`: the transfers of a run, one step at a time.
-/

namespace Kohl.Pallet

open ByteLib Run

variable (H : Host) (cfg : Config)

/-! ## Dispatch -/

def dispatch (origin : Origin) (now : ℕ) (s : Storage) : Call → Except DispatchError Event × Storage
  | .transfer tx => transfer H cfg origin now s tx
  | .coinbase outputs txPubkey => coinbase H origin now s outputs txPubkey

/-- A dispatch with the rollback of the system: an error leaves the storage as it was. -/
def dispatchOrRollback (origin : Origin) (now : ℕ) (s : Storage) (call : Call) : Storage :=
  match dispatch H cfg origin now s call with
  | (.ok _, s') => s'
  | (.error _, _) => s

/-! ## Steps -/

/-- The block number of the system, the number of the last finalized block (zero before the first)
and the storage. -/
structure Chain where
  number : ℕ
  finalized : ℕ
  finalized_le : finalized ≤ number
  store : Storage

def Chain.genesis : Chain := ⟨0, 0, le_rfl, .genesis H.blake2_256⟩

inductive Op
  | onInitialize
  | dispatch (origin : Origin) (call : Call)
  | onFinalize
deriving DecidableEq

def step (c : Chain) : Op → Chain
  | .onInitialize => ⟨c.number + 1, c.finalized, Nat.le_succ_of_le c.finalized_le,
      Pallet.onInitialize c.store⟩
  | .dispatch origin call => { c with store := dispatchOrRollback H cfg origin c.number c.store call }
  | .onFinalize => ⟨c.number, c.number, le_rfl, (Pallet.onFinalize H cfg c.number c.store).1⟩

/-- The storage an accepted transfer leaves behind; `fees` are the accumulated fees. -/
def transferred (now : ℕ) (s : Storage) (tx : TransferTx) (fees : UInt64) : Storage :=
  storeOutputs H
    { s with
      keyImages := (tx.inputs.val.map FcmpInput.keyImage).foldl (fun m ki => m.insert ki ())
        s.keyImages
      blockFees := fees }
    (tx.outputs.val.map (storedOfTransfer now tx))

/-- The storage an accepted coinbase leaves behind; `emitted` is the new emission. -/
def minted (now : ℕ) (s : Storage) (outputs : List CoinbaseOutput) (txPubkey : Bytes32)
    (emitted : UInt64) : Storage :=
  storeOutputs H { s with blockFees := 0, emitted := emitted, coinbaseDone := true }
    (outputs.map (storedOfCoinbase H now txPubkey))

/-- What a step can do: the storage it leaves behind, and the call it executes if it does. -/
inductive StepSpec (c : Chain) : Op → Storage → Option Call → Prop
  | onInitialize : StepSpec c .onInitialize (Pallet.onInitialize c.store) none
  | rejected (origin : Origin) (call : Call) (e : DispatchError)
      (h : (Pallet.dispatch H cfg origin c.number c.store call).1 = .error e) :
      StepSpec c (.dispatch origin call) c.store none
  | transfer (tx : TransferTx) (fees : UInt64) (hvalid : TransferValid H cfg c.number c.store tx)
      (hfees : checkedAdd c.store.blockFees tx.fee = some fees) :
      StepSpec c (.dispatch .authorized (.transfer tx)) (transferred H c.number c.store tx fees)
        (some (.transfer tx))
  | coinbase (outputs : BoundedVec CoinbaseOutput MAX_OUTPUTS) (txPubkey : Bytes32)
      (emitted : UInt64) (hvalid : CoinbaseValid H c.store outputs.val txPubkey)
      (hemitted : checkedAdd c.store.emitted (blockReward c.store.emitted) = some emitted) :
      StepSpec c (.dispatch .none (.coinbase outputs txPubkey))
        (minted H c.number c.store outputs.val txPubkey emitted)
        (some (.coinbase outputs txPubkey))
  | onFinalize : StepSpec c .onFinalize (Pallet.onFinalize H cfg c.number c.store).1 none

/-- Whether a step executes a call, and which. -/
def acceptedCall (c : Chain) : Op → Option Call
  | .dispatch origin call =>
    match (Pallet.dispatch H cfg origin c.number c.store call).1 with
    | .ok _ => some call
    | .error _ => none
  | _ => none

/-- Whether a step executes a transfer, and which. -/
def acceptedTransfer (c : Chain) (op : Op) : Option TransferTx :=
  match acceptedCall H cfg c op with
  | some (.transfer tx) => some tx
  | _ => none

/-- The transfers a run executes, in order. -/
def acceptedTransfers (c : Chain) : List Op → List TransferTx
  | [] => []
  | op :: ops => (acceptedTransfer H cfg c op).toList ++ acceptedTransfers (step H cfg c op) ops

/-- The inputs of all executed transfers, in order. -/
def acceptedInputs (c : Chain) (ops : List Op) : List FcmpInput :=
  (acceptedTransfers H cfg c ops).flatMap fun tx => tx.inputs.val

/-! ## Blocks -/

/-- The steps of a block with the given dispatches. -/
def blockOps (calls : List (Origin × Call)) : List Op :=
  .onInitialize :: calls.map (fun c => .dispatch c.1 c.2) ++ [.onFinalize]

/-- The chain behind a list of blocks. -/
def afterBlocks (blocks : List (List (Origin × Call))) : Chain :=
  run (step H cfg) (.genesis H) (blocks.flatMap blockOps)

/-- The chain inside the block that follows `blocks`, behind the dispatches `calls`. -/
def insideBlock (blocks : List (List (Origin × Call))) (calls : List (Origin × Call)) : Chain :=
  run (step H cfg) (.genesis H)
    (blocks.flatMap blockOps ++ .onInitialize :: calls.map fun c => .dispatch c.1 c.2)

/-! ## The outcomes of a step -/

variable {H cfg}

/-- What an accepted transfer may change. -/
theorem exists_transferred (now : ℕ) (s : Storage) (tx : TransferTx) (fees : UInt64) : ∃ o t d r,
    transferred H now s tx fees =
      { s with
        keyImages := (tx.inputs.val.map FcmpInput.keyImage).foldl (fun m ki => m.insert ki ())
          s.keyImages
        blockFees := fees
        outputs := o
        treeSlots := t
        membershipLeafDigest := d
        membershipRoot := r
        nextOutputIndex := s.nextOutputIndex + tx.outputs.val.length } := by
  obtain ⟨o, t, d, r, hstore⟩ := exists_storeOutputs (H := H)
    { s with
      keyImages := (tx.inputs.val.map FcmpInput.keyImage).foldl (fun m ki => m.insert ki ())
        s.keyImages
      blockFees := fees } (tx.outputs.val.map (storedOfTransfer now tx))
  rw [List.length_map] at hstore
  exact ⟨o, t, d, r, hstore⟩

/-- What an accepted coinbase may change. -/
theorem exists_minted (now : ℕ) (s : Storage) (outputs : List CoinbaseOutput) (txPubkey : Bytes32)
    (emitted : UInt64) : ∃ o t d r,
    minted H now s outputs txPubkey emitted =
      { s with
        blockFees := 0
        emitted := emitted
        coinbaseDone := true
        outputs := o
        treeSlots := t
        membershipLeafDigest := d
        membershipRoot := r
        nextOutputIndex := s.nextOutputIndex + outputs.length } := by
  obtain ⟨o, t, d, r, hstore⟩ := exists_storeOutputs (H := H)
    { s with blockFees := 0, emitted := emitted, coinbaseDone := true }
    (outputs.map (storedOfCoinbase H now txPubkey))
  rw [List.length_map] at hstore
  exact ⟨o, t, d, r, hstore⟩

namespace ChainLemmas

/-- What a dispatch of a transfer does. -/
theorem transfer_cases (origin : Origin) (now : ℕ) (s : Storage) (tx : TransferTx) :
    (∃ e, (Pallet.transfer H cfg origin now s tx).1 = .error e) ∨
    (origin = .authorized ∧ TransferValid H cfg now s tx ∧ ∃ fees,
      checkedAdd s.blockFees tx.fee = some fees ∧
      Pallet.transfer H cfg origin now s tx =
        (.ok (.transferred (tx.inputs.val.map FcmpInput.keyImage) s.nextOutputIndex
          tx.outputs.val.length tx.fee), transferred H now s tx fees)) := by
  unfold Pallet.transfer
  split
  · exact .inl ⟨_, rfl⟩
  next horigin =>
  split
  · exact .inl ⟨_, rfl⟩
  next hverify =>
  rw [verifyTransfer_iff] at hverify
  rcases hfees : checkedAdd s.blockFees tx.fee with _ | fees
  · refine .inl ⟨.module .arithmeticOverflow, ?_⟩
    simp only [applyTransfer, hfees]
    rfl
  · refine .inr ⟨not_not.mp horigin, hverify, fees, rfl, ?_⟩
    simp only [applyTransfer, hfees]
    rfl

/-- What a dispatch of a coinbase does. -/
theorem coinbase_cases (origin : Origin) (now : ℕ) (s : Storage)
    (outputs : BoundedVec CoinbaseOutput MAX_OUTPUTS) (txPubkey : Bytes32) :
    (∃ e, (Pallet.coinbase H origin now s outputs txPubkey).1 = .error e) ∨
    (origin = .none ∧ CoinbaseValid H s outputs.val txPubkey ∧ ∃ emitted,
      checkedAdd s.emitted (blockReward s.emitted) = some emitted ∧
      Pallet.coinbase H origin now s outputs txPubkey =
        (.ok (.coinbaseMinted s.nextOutputIndex outputs.val.length (blockReward s.emitted)
          s.blockFees), minted H now s outputs.val txPubkey emitted)) := by
  unfold Pallet.coinbase
  split
  · exact .inl ⟨_, rfl⟩
  next horigin =>
  split
  · exact .inl ⟨_, rfl⟩
  next reward fees hverify =>
  rw [verifyCoinbase_eq_ok, Prod.mk.injEq] at hverify
  obtain ⟨hvalid, rfl, rfl⟩ := hverify
  rcases hemitted : checkedAdd s.emitted (blockReward s.emitted) with _ | emitted
  · refine .inl ⟨.module .arithmeticOverflow, ?_⟩
    simp only [applyCoinbase, hemitted]
    rfl
  · refine .inr ⟨not_not.mp horigin, hvalid, emitted, rfl, ?_⟩
    simp only [applyCoinbase, hemitted]
    rfl

/-- A valid transfer whose fee does not overflow is executed. -/
theorem transfer_eq_ok {now : ℕ} {s : Storage} {tx : TransferTx} {fees : UInt64}
    (hvalid : TransferValid H cfg now s tx) (hfees : checkedAdd s.blockFees tx.fee = some fees) :
    Pallet.transfer H cfg .authorized now s tx =
      (.ok (.transferred (tx.inputs.val.map FcmpInput.keyImage) s.nextOutputIndex
        tx.outputs.val.length tx.fee), transferred H now s tx fees) := by
  unfold Pallet.transfer
  rw [if_neg (not_not.mpr rfl), verifyTransfer_iff.mpr hvalid]
  simp only [applyTransfer, hfees]
  rfl

/-- A valid coinbase whose emission does not overflow is executed. -/
theorem coinbase_eq_ok {now : ℕ} {s : Storage} {outputs : BoundedVec CoinbaseOutput MAX_OUTPUTS}
    {txPubkey : Bytes32} {emitted : UInt64} (hvalid : CoinbaseValid H s outputs.val txPubkey)
    (hemitted : checkedAdd s.emitted (blockReward s.emitted) = some emitted) :
    Pallet.coinbase H .none now s outputs txPubkey =
      (.ok (.coinbaseMinted s.nextOutputIndex outputs.val.length (blockReward s.emitted)
        s.blockFees), minted H now s outputs.val txPubkey emitted) := by
  unfold Pallet.coinbase
  rw [if_neg (not_not.mpr rfl), verifyCoinbase_eq_ok.mpr ⟨hvalid, rfl⟩]
  simp only [applyCoinbase, hemitted]
  rfl

theorem dispatch_coinbase {now : ℕ} {s : Storage} {outputs : BoundedVec CoinbaseOutput MAX_OUTPUTS}
    {txPubkey : Bytes32} {emitted : UInt64} (hvalid : CoinbaseValid H s outputs.val txPubkey)
    (hemitted : checkedAdd s.emitted (blockReward s.emitted) = some emitted) :
    dispatchOrRollback H cfg .none now s (.coinbase outputs txPubkey) =
      minted H now s outputs.val txPubkey emitted := by
  simp only [dispatchOrRollback, dispatch, coinbase_eq_ok hvalid hemitted]

end ChainLemmas

open ChainLemmas

/-- Every step does one of the things its specification lists. -/
theorem step_spec (c : Chain) (op : Op) :
    StepSpec H cfg c op (step H cfg c op).store (acceptedCall H cfg c op) := by
  cases op with
  | onInitialize => exact .onInitialize
  | onFinalize => exact .onFinalize
  | dispatch origin call =>
    -- a failed dispatch leaves the chain as it was
    have hrejected : ∀ e, (dispatch H cfg origin c.number c.store call).1 = .error e →
        StepSpec H cfg c (.dispatch origin call) (step H cfg c (.dispatch origin call)).store
          (acceptedCall H cfg c (.dispatch origin call)) := by
      intro e he
      have hstep : (step H cfg c (.dispatch origin call)).store = c.store := by
        simp only [step, dispatchOrRollback]
        split
        · next h => rw [h] at he; cases he
        · rfl
      have hnone : acceptedCall H cfg c (.dispatch origin call) = none := by
        simp only [acceptedCall, he]
      rw [hstep, hnone]
      exact .rejected origin call e he
    cases call with
    | transfer tx =>
      rcases transfer_cases (H := H) origin c.number c.store tx with
        ⟨e, he⟩ | ⟨rfl, hvalid, fees, hfees, heq⟩
      · exact hrejected e he
      · have hstep : (step H cfg c (.dispatch .authorized (.transfer tx))).store =
            transferred H c.number c.store tx fees := by
          simp only [step, dispatchOrRollback, dispatch, heq]
        have hsome : acceptedCall H cfg c (.dispatch .authorized (.transfer tx)) =
            some (.transfer tx) := by
          simp only [acceptedCall, dispatch, heq]
        rw [hstep, hsome]
        exact .transfer tx fees hvalid hfees
    | coinbase outputs txPubkey =>
      rcases coinbase_cases (H := H) origin c.number c.store outputs txPubkey with
        ⟨e, he⟩ | ⟨rfl, hvalid, emitted, hemitted, heq⟩
      · exact hrejected e he
      · have hstep : (step H cfg c (.dispatch .none (.coinbase outputs txPubkey))).store =
            minted H c.number c.store outputs.val txPubkey emitted := by
          simp only [step, dispatchOrRollback, dispatch, heq]
        have hsome : acceptedCall H cfg c (.dispatch .none (.coinbase outputs txPubkey)) =
            some (.coinbase outputs txPubkey) := by
          simp only [acceptedCall, dispatch, heq]
        rw [hstep, hsome]
        exact .coinbase outputs txPubkey emitted hvalid hemitted

/-- A step that executes a transfer has found it valid. -/
theorem acceptedTransfer_spec {c : Chain} {op : Op} {tx : TransferTx}
    (h : acceptedTransfer H cfg c op = some tx) :
    TransferValid H cfg c.number c.store tx ∧ ∃ fees,
      checkedAdd c.store.blockFees tx.fee = some fees ∧
      (step H cfg c op).store = transferred H c.number c.store tx fees := by
  have hspec := @step_spec H cfg c op
  rw [acceptedTransfer] at h
  generalize (step H cfg c op).store = s' at hspec ⊢
  generalize acceptedCall H cfg c op = a at hspec h
  cases hspec with
  | transfer tx' fees hvalid hfees =>
    rw [Option.some.injEq] at h
    subst h
    exact ⟨hvalid, fees, hfees, rfl⟩
  | onInitialize => cases h
  | rejected => cases h
  | coinbase => cases h
  | onFinalize => cases h

/-- A valid transfer whose fee does not overflow is executed by its dispatch. -/
theorem acceptedTransfer_of_valid {c : Chain} {tx : TransferTx} {fees : UInt64}
    (hvalid : TransferValid H cfg c.number c.store tx)
    (hfees : checkedAdd c.store.blockFees tx.fee = some fees) :
    acceptedTransfer H cfg c (.dispatch .authorized (.transfer tx)) = some tx := by
  simp only [acceptedTransfer, acceptedCall, dispatch, transfer_eq_ok hvalid hfees]

/-- A new block does not touch what a transfer is checked against. -/
theorem TransferValid.onInitialize {now : ℕ} {s : Storage}
    {tx : TransferTx} (h : TransferValid H cfg now s tx) :
    TransferValid H cfg now (Pallet.onInitialize s) tx := by
  have hroot := membershipRootAccepted_iff.mp h.root
  exact ⟨h.inputs_ne, h.outputs_ne, h.sorted, h.fee, h.txPubkey, h.keys, h.slots,
    membershipRootAccepted_iff.mpr hroot, h.unspent, h.keyImages, h.pseudos, h.fcmp, h.balance,
    h.range⟩

/-! ## Runs and their transfers -/

theorem acceptedTransfers_append (c : Chain) (ops ops' : List Op) :
    acceptedTransfers H cfg c (ops ++ ops') =
      acceptedTransfers H cfg c ops ++ acceptedTransfers H cfg (run (step H cfg) c ops) ops' := by
  induction ops generalizing c with
  | nil => rfl
  | cons op ops ih => simp only [List.cons_append, acceptedTransfers, ih, run_cons, List.append_assoc]

theorem acceptedTransfers_concat (c : Chain) (ops : List Op) (op : Op) :
    acceptedTransfers H cfg c (ops ++ [op]) = acceptedTransfers H cfg c ops ++
      (acceptedTransfer H cfg (run (step H cfg) c ops) op).toList := by
  rw [acceptedTransfers_append]
  simp only [acceptedTransfers, List.append_nil]

/-- Only a dispatched transfer is accepted. -/
theorem exists_dispatch_of_mem {c : Chain} {ops : List Op} {tx : TransferTx}
    (h : tx ∈ acceptedTransfers H cfg c ops) : .dispatch .authorized (.transfer tx) ∈ ops := by
  induction ops generalizing c with
  | nil => exact absurd h List.not_mem_nil
  | cons op ops ih =>
    rw [acceptedTransfers, List.mem_append, Option.mem_toList] at h
    rcases h with h | h
    · have hspec := @step_spec H cfg c op
      rw [acceptedTransfer] at h
      generalize (step H cfg c op).store = s' at hspec
      generalize acceptedCall H cfg c op = a at hspec h
      cases hspec with
      | transfer tx' fees hvalid hfees =>
        cases h
        exact List.mem_cons_self
      | onInitialize => cases h
      | rejected => cases h
      | coinbase => cases h
      | onFinalize => cases h
    · exact List.mem_cons_of_mem _ (ih h)

/-- The transfer a dispatch executes is the one it carries. -/
theorem eq_of_acceptedTransfer {c : Chain} {tx tx' : TransferTx}
    (h : acceptedTransfer H cfg c (.dispatch .authorized (.transfer tx)) = some tx') : tx = tx' := by
  have haccepted : tx' ∈ acceptedTransfers H cfg c [.dispatch .authorized (.transfer tx)] := by
    rw [acceptedTransfers, h]
    exact List.mem_cons_self
  have hmem := exists_dispatch_of_mem haccepted
  rw [List.mem_singleton, Op.dispatch.injEq, Call.transfer.injEq] at hmem
  exact hmem.2.symm

theorem acceptedInputs_concat (c : Chain) (ops : List Op) (op : Op) :
    acceptedInputs H cfg c (ops ++ [op]) = acceptedInputs H cfg c ops ++
      (acceptedTransfer H cfg (run (step H cfg) c ops) op).toList.flatMap fun tx => tx.inputs.val := by
  rw [acceptedInputs, acceptedTransfers_concat, List.flatMap_append]
  rfl

end Kohl.Pallet
