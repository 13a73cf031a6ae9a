import Kohl.Pallet.Membership

/-!
# The calls of pallet-ringct

The pool check, the verification and the execution of a transfer, the coinbase and the inherent that
builds it. A call returns its outcome next to the storage it leaves behind, also when it fails, so
that what a failed call has written is visible.

* `authorizeTransfer_eq_ok`: what the pool has checked of a transfer it takes.
* `verifyTransfer_iff`: what an accepted transfer has passed.
* `transfer_cases`, `coinbase_cases`: what the two calls can do.
-/

namespace Kohl.Pallet

open ByteLib

variable (H : Host) (cfg : Config)

/-- `ensure!`. -/
def ensure {ε : Type} (b : Bool) (e : ε) : Except ε Unit := if b then .ok () else .error e

@[simp] theorem ensure_eq_ok {ε : Type} {b : Bool} {e : ε} : ensure b e = .ok () ↔ b = true := by
  unfold ensure
  split <;> simp_all

/-! ## Transfers -/

/-- The inputs of a transfer, checked by the pool: the proof fits and the key image is new. -/
def authorizeInputs (s : Storage) : List FcmpInput → Except InvalidTransaction Unit
  | [] => .ok ()
  | input :: inputs =>
    if MAX_FCMP_PROOF_BYTES < input.fcmpProof.val.length then .error .badProof
    else if s.keyImages.containsKey input.keyImage then .error .stale
    else authorizeInputs s inputs

/-- The cheap checks of the pool. -/
def authorizeTransfer (now : ℕ) (s : Storage) (tx : TransferTx) :
    Except InvalidTransaction ValidTransaction :=
  let encodedLen := tx.encodedSize
  if tx.fee < saturatingMul cfg.minFeePerByte encodedLen then .error .payment
  else if tx.inputs.val.isEmpty || tx.outputs.val.isEmpty then .error .badProof
  else if MAX_FCMP_INPUTS < tx.inputs.val.length then .error .badProof
  else
    match authorizeInputs s tx.inputs.val with
    | .error e => .error e
    | .ok () =>
      if membershipRootAccepted now s tx.membershipRoot then
        .ok {
          priority := tx.fee / max encodedLen 1
          requires := []
          provides := tx.inputs.val.map fun i => ascii "kohl/ki" ++ i.keyImage.val
          longevity := FCMP_ROOT_MAX_AGE_BLOCKS
          propagate := true }
      else .error .stale

/-- The checks of one input. -/
def verifyInput (s : Storage) (msg root : Bytes32) (input : FcmpInput) : Except Error Unit := do
  ensure (decide (input.fcmpProof.val.length ≤ MAX_FCMP_PROOF_BYTES)) .fcmpProofTooLarge
  ensure (!s.keyImages.containsKey input.keyImage) .keyImageAlreadySpent
  ensure (H.isValidPointV1 input.keyImage) .invalidPoint
  ensure (H.isValidPointV1 input.pseudoCommitment) .invalidPoint
  ensure (H.verifyFcmpV1 msg.val root.val input.pseudoCommitment.val input.keyImage.val
    input.fcmpProof.val) .fcmpInvalid

/-- The loop over the inputs. -/
def verifyInputs (s : Storage) (msg root : Bytes32) : List FcmpInput → Except Error Unit
  | [] => .ok ()
  | input :: inputs => do
    verifyInput H s msg root input
    verifyInputs s msg root inputs

/-- The pseudo-commitments of the inputs, concatenated. -/
def pseudoCommitments (tx : TransferTx) : Bytes :=
  tx.inputs.val.flatMap fun i => i.pseudoCommitment.val

/-- The commitments of the outputs, concatenated. -/
def outputCommitments (tx : TransferTx) : Bytes := tx.outputs.val.flatMap fun o => o.commitment.val

/-- The consensus check of a transfer. -/
def verifyTransfer (now : ℕ) (s : Storage) (tx : TransferTx) : Except Error Unit := do
  ensure (!tx.inputs.val.isEmpty && !tx.outputs.val.isEmpty) .emptyInputsOrOutputs
  ensure (decide (tx.inputs.val.length ≤ MAX_FCMP_INPUTS)) .tooManyInputs
  ensure (windowsAll (fun a b => decide (a.keyImage < b.keyImage)) tx.inputs.val)
    .inputsNotSortedUnique
  ensure (decide (saturatingMul cfg.minFeePerByte tx.encodedSize ≤ tx.fee)) .feeTooLow
  ensure (H.isValidPointV1 tx.txPubkey) .invalidPoint
  ensure (tx.outputs.val.all fun out => H.isValidPointV1 out.oneTimeKey) .invalidPoint
  ensure (decide (s.treeSlots ≤ MAX_FCMP_ANON_SET)) .treeTooLargeForFcmp
  ensure (membershipRootAccepted now s tx.membershipRoot) .rootStale
  verifyInputs H s (signingHash H.blake2_256 tx) tx.membershipRoot tx.inputs.val
  ensure (H.verifyBalanceV1 (pseudoCommitments tx) (outputCommitments tx) tx.fee)
    .balanceCheckFailed
  ensure (H.verifyRangeProofV1 tx.rangeProof.val (outputCommitments tx)) .rangeProofInvalid

/-- A transfer's output as it is stored. -/
def storedOfTransfer (now : ℕ) (tx : TransferTx) (out : Output) : StoredOutput where
  oneTimeKey := out.oneTimeKey
  commitment := out.commitment
  txPubkey := tx.txPubkey
  viewTag := out.viewTag
  payload := out.payload
  amount := none
  height := now
  coinbase := false

/-- The changes of a transfer; the key images are in before the fee is added. -/
def applyTransfer (now : ℕ) (s : Storage) (tx : TransferTx) : Except Error Event × Storage :=
  let keyImages := tx.inputs.val.map FcmpInput.keyImage
  let s := { s with keyImages := keyImages.foldl (fun m ki => m.insert ki ()) s.keyImages }
  match checkedAdd s.blockFees tx.fee with
  | none => (.error .arithmeticOverflow, s)
  | some fees =>
    let s := { s with blockFees := fees }
    (.ok (.transferred keyImages s.nextOutputIndex tx.outputs.val.length tx.fee),
      storeOutputs H s (tx.outputs.val.map (storedOfTransfer now tx)))

inductive Origin
  | none
  | authorized
  | signed
  | root
deriving DecidableEq, Repr

def transfer (origin : Origin) (now : ℕ) (s : Storage) (tx : TransferTx) :
    Except DispatchError Event × Storage :=
  if origin ≠ .authorized then (.error .badOrigin, s)
  else
    match verifyTransfer H cfg now s tx with
    | .error e => (.error (.module e), s)
    | .ok () => let r := applyTransfer H now s tx; (r.1.mapError .module, r.2)

/-! ## Coinbase -/

/-- The total of the coinbase outputs, every one of them checked. -/
def coinbaseTotal : List CoinbaseOutput → UInt64 → Except Error UInt64
  | [], total => .ok total
  | out :: outs, total => do
    ensure (decide (0 < out.amount)) .coinbaseAmountInvalid
    ensure (H.isValidPointV1 out.oneTimeKey) .invalidPoint
    match checkedAdd total out.amount with
    | none => .error .coinbaseAmountInvalid
    | some total => coinbaseTotal outs total

/-- The checks of a coinbase; the reward and the fees it claims. -/
def verifyCoinbase (s : Storage) (outputs : List CoinbaseOutput) (txPubkey : Bytes32) :
    Except Error (UInt64 × UInt64) := do
  ensure (!s.coinbaseDone) .coinbaseAlreadyIncluded
  ensure (!outputs.isEmpty) .emptyInputsOrOutputs
  ensure (H.isValidPointV1 txPubkey) .invalidPoint
  let reward := blockReward s.emitted
  let fees := s.blockFees
  match checkedAdd reward fees with
  | none => .error .coinbaseAmountInvalid
  | some entitled =>
    let total ← coinbaseTotal H outputs 0
    ensure (decide (total = entitled)) .coinbaseAmountInvalid
    .ok (reward, fees)

/-- A coinbase output as it is stored: the commitment is the one of its amount. -/
def storedOfCoinbase (now : ℕ) (txPubkey : Bytes32) (out : CoinbaseOutput) : StoredOutput where
  oneTimeKey := out.oneTimeKey
  commitment := H.valueCommitmentV1 out.amount
  txPubkey := txPubkey
  viewTag := out.viewTag
  payload := ⟨[], by decide⟩
  amount := some out.amount
  height := now
  coinbase := true

/-- The changes of a coinbase; the fees are gone before the emission is added. -/
def applyCoinbase (now : ℕ) (s : Storage) (outputs : List CoinbaseOutput) (txPubkey : Bytes32)
    (reward fees : UInt64) : Except Error Event × Storage :=
  let s := { s with blockFees := 0 }
  match checkedAdd s.emitted reward with
  | none => (.error .arithmeticOverflow, s)
  | some emitted =>
    let s := { s with emitted := emitted, coinbaseDone := true }
    (.ok (.coinbaseMinted s.nextOutputIndex outputs.length reward fees),
      storeOutputs H s (outputs.map (storedOfCoinbase H now txPubkey)))

def coinbase (origin : Origin) (now : ℕ) (s : Storage)
    (outputs : BoundedVec CoinbaseOutput MAX_OUTPUTS) (txPubkey : Bytes32) :
    Except DispatchError Event × Storage :=
  if origin ≠ .none then (.error .badOrigin, s)
  else
    match verifyCoinbase H s outputs.val txPubkey with
    | .error e => (.error (.module e), s)
    | .ok (reward, fees) =>
      let r := applyCoinbase H now s outputs.val txPubkey reward fees
      (r.1.mapError .module, r.2)

inductive Call
  | transfer (tx : TransferTx)
  | coinbase (outputs : BoundedVec CoinbaseOutput MAX_OUTPUTS) (txPubkey : Bytes32)
deriving DecidableEq

/-- The inherent data of a miner: one-time key, transaction key and view tag of the payout. -/
abbrev CoinbaseInherent := Bytes32 × Bytes32 × UInt8

/-- Build the coinbase of a block; the amount is read off the storage. -/
def createInherent (s : Storage) (data : Option CoinbaseInherent) : Option Call :=
  data.bind fun (oneTimeKey, txPubkey, viewTag) =>
  (checkedAdd (blockReward s.emitted) s.blockFees).bind fun amount =>
  if amount = 0 then none
  else
    (BoundedVec.tryFrom [⟨oneTimeKey, amount, viewTag⟩]).map fun outputs =>
      Call.coinbase outputs txPubkey

def isInherent : Call → Bool
  | .coinbase _ _ => true
  | .transfer _ => false

/-! ## What the calls check -/

/-- Everything a transfer has passed when the pool takes it. -/
structure GatePassed (cfg : Config) (now : ℕ) (s : Storage) (tx : TransferTx) : Prop where
  fee : saturatingMul cfg.minFeePerByte tx.encodedSize ≤ tx.fee
  inputs_ne : tx.inputs.val ≠ []
  outputs_ne : tx.outputs.val ≠ []
  unspent : ∀ input ∈ tx.inputs.val, s.keyImages.containsKey input.keyImage = false
  root : membershipRootAccepted now s tx.membershipRoot = true

/-- What the pool is told about a transfer it takes. -/
def poolEntry (tx : TransferTx) : ValidTransaction where
  priority := tx.fee / max tx.encodedSize 1
  requires := []
  provides := tx.inputs.val.map fun i => ascii "kohl/ki" ++ i.keyImage.val
  longevity := FCMP_ROOT_MAX_AGE_BLOCKS
  propagate := true

/-- Everything a transfer has passed when it is accepted. -/
structure TransferValid (now : ℕ) (s : Storage) (tx : TransferTx) : Prop where
  inputs_ne : tx.inputs.val ≠ []
  outputs_ne : tx.outputs.val ≠ []
  sorted : tx.inputs.val.Pairwise fun a b => a.keyImage < b.keyImage
  fee : saturatingMul cfg.minFeePerByte tx.encodedSize ≤ tx.fee
  txPubkey : H.isValidPointV1 tx.txPubkey = true
  keys : ∀ out ∈ tx.outputs.val, H.isValidPointV1 out.oneTimeKey = true
  slots : s.treeSlots ≤ MAX_FCMP_ANON_SET
  root : membershipRootAccepted now s tx.membershipRoot = true
  unspent : ∀ input ∈ tx.inputs.val, s.keyImages.containsKey input.keyImage = false
  keyImages : ∀ input ∈ tx.inputs.val, H.isValidPointV1 input.keyImage = true
  pseudos : ∀ input ∈ tx.inputs.val, H.isValidPointV1 input.pseudoCommitment = true
  fcmp : ∀ input ∈ tx.inputs.val, H.verifyFcmpV1 (signingHash H.blake2_256 tx).val
    tx.membershipRoot.val input.pseudoCommitment.val input.keyImage.val input.fcmpProof.val = true
  balance : H.verifyBalanceV1 (pseudoCommitments tx) (outputCommitments tx) tx.fee = true
  range : H.verifyRangeProofV1 tx.rangeProof.val (outputCommitments tx) = true

/-- Everything a coinbase has passed when it is accepted. -/
structure CoinbaseValid (s : Storage) (outputs : List CoinbaseOutput) (txPubkey : Bytes32) :
    Prop where
  first : s.coinbaseDone = false
  outputs_ne : outputs ≠ []
  txPubkey : H.isValidPointV1 txPubkey = true
  amounts : ∀ out ∈ outputs, 0 < out.amount
  keys : ∀ out ∈ outputs, H.isValidPointV1 out.oneTimeKey = true
  fits : (blockReward s.emitted).toNat + s.blockFees.toNat < 2 ^ 64
  total : (outputs.map fun out => out.amount.toNat).sum =
    (blockReward s.emitted).toNat + s.blockFees.toNat

namespace CallLemmas

variable {H cfg}

theorem bind_eq_ok {ε α β : Type} {x : Except ε α} {f : α → Except ε β} {b : β} :
    (x >>= f) = .ok b ↔ ∃ a, x = .ok a ∧ f a = .ok b := by
  cases x with
  | error e =>
    constructor
    · intro h
      cases h
    · rintro ⟨a, h, -⟩
      cases h
  | ok a =>
    constructor
    · intro h
      exact ⟨a, rfl, h⟩
    · rintro ⟨a', h, hf⟩
      cases h
      exact hf

theorem bind_eq_error {ε α β : Type} {x : Except ε α} {f : α → Except ε β} {e : ε}
    (h : (x >>= f) = .error e) : x = .error e ∨ ∃ a, x = .ok a ∧ f a = .error e := by
  cases x with
  | error e' =>
    cases h
    exact .inl rfl
  | ok a => exact .inr ⟨a, rfl, h⟩

theorem bind_ne_error {ε α β : Type} {x : Except ε α} {f : α → Except ε β} {e : ε}
    (hx : x ≠ .error e) (hf : ∀ a, f a ≠ .error e) : (x >>= f) ≠ .error e := by
  intro h
  rcases bind_eq_error h with hfail | ⟨a, -, hfail⟩
  · exact hx hfail
  · exact hf a hfail

theorem ensure_true_ne_error {ε : Type} {b : Bool} {e e' : ε} (h : b = true) :
    ensure b e ≠ .error e' := by
  rw [ensure_eq_ok.mpr h]
  intro hok
  cases hok

theorem ensure_ne_error {ε : Type} {b : Bool} {e e' : ε} (hne : e ≠ e') : ensure b e ≠ .error e' := by
  unfold ensure
  split
  · intro h
    cases h
  · exact fun h => hne (Except.error.inj h)

theorem bind_unit_eq_ok {ε β : Type} {x : Except ε Unit} {f : Unit → Except ε β} {b : β} :
    (x >>= f) = .ok b ↔ x = .ok () ∧ f () = .ok b := by
  rw [bind_eq_ok]
  constructor
  · rintro ⟨⟨⟩, hx, hf⟩
    exact ⟨hx, hf⟩
  · rintro ⟨hx, hf⟩
    exact ⟨(), hx, hf⟩

theorem authorizeInputs_iff {s : Storage} {inputs : List FcmpInput} :
    authorizeInputs s inputs = .ok () ↔
      ∀ input ∈ inputs, s.keyImages.containsKey input.keyImage = false := by
  induction inputs with
  | nil => simp [authorizeInputs]
  | cons a inputs ih =>
    rw [authorizeInputs, if_neg (not_lt.mpr a.fcmpProof.property), List.forall_mem_cons, ← ih]
    split
    · next hspent => simp [hspent]
    · next hspent => simp [hspent]

theorem verifyInput_iff {s : Storage} {msg root : Bytes32} {input : FcmpInput} :
    verifyInput H s msg root input = .ok () ↔
      s.keyImages.containsKey input.keyImage = false ∧ H.isValidPointV1 input.keyImage = true ∧
      H.isValidPointV1 input.pseudoCommitment = true ∧
      H.verifyFcmpV1 msg.val root.val input.pseudoCommitment.val input.keyImage.val
        input.fcmpProof.val = true := by
  simp only [verifyInput, bind_unit_eq_ok, ensure_eq_ok, Bool.not_eq_true',
    decide_eq_true_eq, input.fcmpProof.property, true_and]

theorem verifyInputs_iff {s : Storage} {msg root : Bytes32} {inputs : List FcmpInput} :
    verifyInputs H s msg root inputs = .ok () ↔
      ∀ input ∈ inputs, verifyInput H s msg root input = .ok () := by
  induction inputs with
  | nil => simp [verifyInputs]
  | cons a inputs ih =>
    simp only [verifyInputs, bind_unit_eq_ok, ih, List.forall_mem_cons]

theorem sorted_iff {inputs : List FcmpInput} :
    windowsAll (fun a b => decide (a.keyImage < b.keyImage)) inputs = true ↔
      inputs.Pairwise fun a b => a.keyImage < b.keyImage := by
  rw [windowsAll_iff_pairwise]
  · simp
  · intro a b c hab hbc
    rw [decide_eq_true_eq] at *
    exact hab.trans hbc

/-- The total of the coinbase outputs is the sum of their amounts and does not overflow. -/
theorem coinbaseTotal_eq_ok {outs : List CoinbaseOutput} {total r : UInt64} :
    coinbaseTotal H outs total = .ok r ↔
      (∀ out ∈ outs, 0 < out.amount) ∧ (∀ out ∈ outs, H.isValidPointV1 out.oneTimeKey = true) ∧
      r.toNat = total.toNat + (outs.map fun out => out.amount.toNat).sum := by
  induction outs generalizing total with
  | nil =>
    simp only [coinbaseTotal, Except.ok.injEq, List.not_mem_nil, false_imp_iff, implies_true,
      List.map_nil, List.sum_nil, add_zero, true_and, ← UInt64.toNat_inj]
    exact eq_comm
  | cons out outs ih =>
    simp only [coinbaseTotal, bind_unit_eq_ok, ensure_eq_ok, decide_eq_true_eq,
      List.forall_mem_cons, List.map_cons, List.sum_cons]
    rcases hadd : checkedAdd total out.amount with _ | t
    · -- the sum of all amounts is larger than the one that overflows
      constructor
      · rintro ⟨-, -, h⟩
        cases h
      rintro ⟨-, -, h⟩
      have hr := r.toNat_lt
      have hsome : checkedAdd total out.amount = some (total + out.amount) := by
        rw [checkedAdd, if_pos (by omega)]
      rw [hadd] at hsome
      cases hsome
    · have ht := checkedAdd_eq_some.mp hadd
      simp only [ih, ht]
      constructor
      · rintro ⟨h1, h2, h3, h4, h5⟩
        exact ⟨⟨h1, h3⟩, ⟨h2, h4⟩, by omega⟩
      · rintro ⟨⟨h1, h3⟩, ⟨h2, h4⟩, h5⟩
        exact ⟨h1, h2, h3, h4, by omega⟩

end CallLemmas

open CallLemmas

variable {H cfg}

/-- The pool takes a transfer exactly when it passes the cheap checks. -/
theorem authorizeTransfer_eq_ok {now : ℕ} {s : Storage} {tx : TransferTx} {v : ValidTransaction} :
    authorizeTransfer cfg now s tx = .ok v ↔ GatePassed cfg now s tx ∧ v = poolEntry tx := by
  simp only [authorizeTransfer]
  split
  · next hfee =>
    refine ⟨fun h => (by cases h), fun h => absurd h.1.fee (UInt64.not_le.mpr hfee)⟩
  next hfee =>
  split
  · next hempty =>
    refine ⟨fun h => (by cases h), fun h => ?_⟩
    rw [Bool.or_eq_true, List.isEmpty_iff, List.isEmpty_iff] at hempty
    rcases hempty with hempty | hempty
    · exact absurd hempty h.1.inputs_ne
    · exact absurd hempty h.1.outputs_ne
  next hempty =>
  rw [Bool.or_eq_true, List.isEmpty_iff, List.isEmpty_iff, not_or] at hempty
  rw [if_neg (not_lt.mpr tx.inputs.property)]
  rcases hinputs : authorizeInputs s tx.inputs.val with e | ⟨⟩
  · refine ⟨fun h => (by cases h), fun h => ?_⟩
    rw [authorizeInputs_iff.mpr h.1.unspent] at hinputs
    cases hinputs
  · rw [authorizeInputs_iff] at hinputs
    dsimp only
    split
    · next hroot =>
      rw [Except.ok.injEq]
      constructor
      · rintro rfl
        exact ⟨⟨UInt64.not_lt.mp hfee, hempty.1, hempty.2, hinputs, hroot⟩, rfl⟩
      · rintro ⟨-, rfl⟩
        rfl
    · next hroot =>
      exact ⟨fun h => (by cases h), fun h => absurd h.1.root hroot⟩

/-- A transfer is accepted exactly when it passes every check. -/
theorem verifyTransfer_iff {now : ℕ} {s : Storage} {tx : TransferTx} :
    verifyTransfer H cfg now s tx = .ok () ↔ TransferValid H cfg now s tx := by
  simp only [verifyTransfer, bind_unit_eq_ok, ensure_eq_ok, Bool.and_eq_true,
    Bool.not_eq_true', List.isEmpty_eq_false_iff, decide_eq_true_eq, tx.inputs.property, true_and,
    sorted_iff, List.all_eq_true, verifyInputs_iff, verifyInput_iff]
  constructor
  · rintro ⟨⟨h1, h2⟩, h3, h4, h5, h6, h7, h8, h9, h10, h11⟩
    exact ⟨h1, h2, h3, h4, h5, h6, h7, h8, fun i hi => (h9 i hi).1, fun i hi => (h9 i hi).2.1,
      fun i hi => (h9 i hi).2.2.1, fun i hi => (h9 i hi).2.2.2, h10, h11⟩
  · intro h
    exact ⟨⟨h.inputs_ne, h.outputs_ne⟩, h.sorted, h.fee, h.txPubkey, h.keys, h.slots, h.root,
      fun i hi => ⟨h.unspent i hi, h.keyImages i hi, h.pseudos i hi, h.fcmp i hi⟩, h.balance,
      h.range⟩

/-- A coinbase is accepted exactly when it passes every check; it claims the reward and the
fees. -/
theorem verifyCoinbase_eq_ok {s : Storage} {outputs : List CoinbaseOutput} {txPubkey : Bytes32}
    {r : UInt64 × UInt64} :
    verifyCoinbase H s outputs txPubkey = .ok r ↔
      CoinbaseValid H s outputs txPubkey ∧ r = (blockReward s.emitted, s.blockFees) := by
  simp only [verifyCoinbase, bind_unit_eq_ok, ensure_eq_ok, Bool.not_eq_true',
    List.isEmpty_eq_false_iff]
  rcases hadd : checkedAdd (blockReward s.emitted) s.blockFees with _ | entitled
  · constructor
    · rintro ⟨-, -, -, h⟩
      cases h
    rintro ⟨h, -⟩
    rw [checkedAdd, if_pos h.fits] at hadd
    cases hadd
  · have hent := checkedAdd_eq_some.mp hadd
    have hlt := entitled.toNat_lt
    rw [bind_eq_ok]
    simp only [bind_unit_eq_ok, ensure_eq_ok, decide_eq_true_eq, coinbaseTotal_eq_ok,
      UInt64.toNat_zero, zero_add, Except.ok.injEq]
    constructor
    · rintro ⟨h1, h2, h3, total, ⟨h4, h5, h6⟩, rfl, rfl⟩
      exact ⟨⟨h1, h2, h3, h4, h5, by omega, by omega⟩, rfl⟩
    · rintro ⟨⟨h1, h2, h3, h4, h5, -, h6⟩, rfl⟩
      exact ⟨h1, h2, h3, entitled, ⟨h4, h5, by omega⟩, rfl, rfl⟩

end Kohl.Pallet
