import Kohl.Lib.LargestFirst
import Kohl.Wallet.Fees

/-!
# Which outputs the Send command spends

`wallet/src/main.rs`. The command takes its mature admitted outputs, the largest first, until they
cover the amount and the fee of a transfer with one input. Only then does it estimate the fee for the
number it has taken, and gives up if they do not cover that.

* `selectLoop_spec`, `selectInputs_eq_ok`: the loop takes a shortest run of the largest outputs.
* `selection_complete_iff`: when an affordable payment is made.
* `selection_stops_short`: a payment that three outputs cover and the command refuses.
-/

namespace Kohl.Wallet

open LargestFirst MembershipTree Fcmp

/-! ## The command -/

def mature (coinbase : Bool) (height best : ℕ) : Bool :=
  let age := best - height
  if coinbase then decide (60 ≤ age) else decide (10 ≤ age)

def isMature (o : OwnedOutput) (best : ℕ) : Bool := mature o.coinbase o.height best

/-- The snapshot lists the output. -/
def isAdmitted (membership : MembershipSnapshot) (o : OwnedOutput) : Bool :=
  membership.admitted.any fun m => m.treeIndex == o.globalIndex

/-- `sort_by_key` under the reversed order of the amounts; equal amounts keep their order. -/
def sortByAmount (outputs : List OwnedOutput) : List OwnedOutput :=
  outputs.mergeSort fun a b => decide (b.amount ≤ a.amount)

/-- The loop over the mature outputs, with what is selected so far and its total. -/
def selectLoop (membership : MembershipSnapshot) (needed : UInt64) :
    List OwnedOutput → List OwnedOutput → UInt64 → List OwnedOutput × UInt64
  | [], selected, total => (selected, total)
  | o :: rest, selected, total =>
    if ¬isAdmitted membership o then selectLoop membership needed rest selected total
    else
      let selected := selected ++ [o]
      let total := saturatingAdd total o.amount
      if needed ≤ total then (selected, total) else selectLoop membership needed rest selected total

/-- Why the command gives up before it builds a transfer. -/
inductive SendError
  | notEnough (needed total slots : UInt64)
  | tryAgain
deriving DecidableEq, Repr

def SendError.message : SendError → String
  | .notEnough needed total slots =>
    s!"not enough admitted mature funds: need {needed}, have {total} (tree slots={slots})"
  | .tryAgain => "selected inputs cover amount but not re-estimated fee; try again"

/-- The inputs and the fee that `build_transfer_multi` is called with. -/
def selectInputs (owned : List OwnedOutput) (best : ℕ) (membership : MembershipSnapshot)
    (amount feePerByte : UInt64) : Except SendError (List OwnedOutput × UInt64) :=
  let slots := UInt64.ofNat membership.digests.length
  let estFee := saturatingMul feePerByte (estimateTxBytes slots 1)
  let needed := saturatingAdd amount estFee
  let mature := sortByAmount (owned.filter fun o => isMature o best)
  let (selected, total) := selectLoop membership needed mature [] 0
  if total < needed then .error (.notEnough needed total slots)
  else
    let estFee := saturatingMul feePerByte (estimateTxBytes slots selected.length)
    if total < saturatingAdd amount estFee then .error .tryAgain else .ok (selected, estFee)

/-! ## What a payment needs -/

variable (owned : List OwnedOutput) (best : ℕ) (membership : MembershipSnapshot)
  (amount feePerByte : UInt64)

def amountOf (o : OwnedOutput) : ℕ := o.amount.toNat

/-- The amount and the fee for `k` inputs, in full. -/
def cost (k : ℕ) : ℕ :=
  amount.toNat +
    feePerByte.toNat * (estimateTxBytes (UInt64.ofNat membership.digests.length) k).toNat

/-- Distinct mature admitted outputs, no more than a transfer takes, that cover the amount and the fee
for their number. -/
structure Covers (outputs : List OwnedOutput) : Prop where
  distinct : outputs.Nodup
  spendable : ∀ o ∈ outputs, o ∈ owned ∧ isMature o best = true ∧ isAdmitted membership o = true
  length_le : outputs.length ≤ MAX_FCMP_INPUTS
  covered : cost membership amount feePerByte outputs.length ≤ total amountOf outputs

/-- Some outputs cover the payment. -/
def Payable : Prop := ∃ outputs, Covers owned best membership amount feePerByte outputs

/-- The command goes on with outputs that cover the payment. -/
def Funded : Prop :=
  ∃ selected fee, selectInputs owned best membership amount feePerByte = .ok (selected, fee) ∧
    Covers owned best membership amount feePerByte selected

/-- The mature admitted outputs, the largest first. -/
def ranked : List OwnedOutput :=
  (sortByAmount (owned.filter fun o => isMature o best)).filter (isAdmitted membership)

/-- Where the largest outputs come to the cost of one input, they come to the cost of their own number,
and none of them is listed twice. -/
def LargestCover : Prop :=
  ∀ j, Shortest amountOf (min (cost membership amount feePerByte 1) (2 ^ 64 - 1))
      (ranked owned best membership) j →
    cost membership amount feePerByte j ≤ total amountOf ((ranked owned best membership).take j) ∧
      ((ranked owned best membership).take j).Nodup

/-! ## The loop -/

namespace SelectionLemmas

variable {owned : List OwnedOutput} {best : ℕ} {membership : MembershipSnapshot}
  {amount feePerByte : UInt64}

/-- The loop takes admitted outputs until the target is reached; its total is the true one, cut off at
the largest `u64`. -/
theorem selectLoop_spec (membership : MembershipSnapshot) (needed : UInt64)
    (outputs selected : List OwnedOutput) {sum : UInt64} {acc : ℕ} (hsum : sum.toNat = min acc (2 ^ 64 - 1)) :
    let taken := takeUntil amountOf needed.toNat acc (outputs.filter (isAdmitted membership))
    (selectLoop membership needed outputs selected sum).1 = selected ++ taken ∧
      (selectLoop membership needed outputs selected sum).2.toNat =
        min (acc + total amountOf taken) (2 ^ 64 - 1) := by
  induction outputs generalizing selected sum acc with
  | nil => exact ⟨(List.append_nil selected).symm, hsum⟩
  | cons o outputs ih =>
    rw [selectLoop, List.filter_cons]
    cases isAdmitted membership o with
    | false => exact ih selected hsum
    | true =>
    rw [if_neg (not_not.mpr rfl), if_pos rfl, takeUntil]
    have hsum' : (saturatingAdd sum o.amount).toNat = min (acc + amountOf o) (2 ^ 64 - 1) := by
      rw [toNat_saturatingAdd, hsum, amountOf]
      omega
    have hneeded := needed.toNat_lt
    have hiff : needed ≤ saturatingAdd sum o.amount ↔ needed.toNat ≤ acc + amountOf o := by
      rw [UInt64.le_iff_toNat_le, hsum']
      omega
    dsimp only
    rcases Decidable.em (needed.toNat ≤ acc + amountOf o) with hreached | hnot
    · rw [if_pos (hiff.mpr hreached), if_pos hreached, total_cons, total_nil, Nat.add_zero]
      exact ⟨rfl, hsum'⟩
    · rw [if_neg (mt hiff.mp hnot), if_neg hnot]
      obtain ⟨hselected, htotal⟩ := ih (selected ++ [o]) hsum'
      refine ⟨?_, ?_⟩
      · rw [hselected, List.append_assoc, List.singleton_append]
      · rw [htotal, total_cons, Nat.add_assoc]

/-- What is needed, as the command computes it. -/
theorem toNat_needed (k : ℕ) :
    (saturatingAdd amount (saturatingMul feePerByte
      (estimateTxBytes (UInt64.ofNat membership.digests.length) k))).toNat =
      min (cost membership amount feePerByte k) (2 ^ 64 - 1) := by
  rw [toNat_saturatingAdd, toNat_saturatingMul, cost]
  omega

/-- The outputs the loop selects. -/
def run (owned : List OwnedOutput) (best : ℕ) (membership : MembershipSnapshot)
    (amount feePerByte : UInt64) : List OwnedOutput :=
  takeUntil amountOf (min (cost membership amount feePerByte 1) (2 ^ 64 - 1)) 0
    (ranked owned best membership)

/-- The command goes on exactly when the run of the loop covers, up to the largest `u64`, the cost of
one input and that of its own number. -/
theorem selectInputs_eq_ok {selected : List OwnedOutput} {fee : UInt64} :
    selectInputs owned best membership amount feePerByte = .ok (selected, fee) ↔
      selected = run owned best membership amount feePerByte ∧
      fee = saturatingMul feePerByte
        (estimateTxBytes (UInt64.ofNat membership.digests.length) selected.length) ∧
      min (cost membership amount feePerByte 1) (2 ^ 64 - 1) ≤ total amountOf selected ∧
      min (cost membership amount feePerByte selected.length) (2 ^ 64 - 1) ≤
        total amountOf selected := by
  have hzero : (0 : UInt64).toNat = min 0 (2 ^ 64 - 1) := rfl
  have hloop := selectLoop_spec membership (saturatingAdd amount
    (saturatingMul feePerByte (estimateTxBytes (UInt64.ofNat membership.digests.length) 1)))
    (sortByAmount (owned.filter fun o => isMature o best)) [] hzero
  dsimp only at hloop
  rw [toNat_needed, List.nil_append, Nat.zero_add] at hloop
  obtain ⟨hselected, htotal⟩ := hloop
  unfold selectInputs
  dsimp only
  generalize selectLoop membership _ _ [] 0 = loop at hselected htotal ⊢
  obtain ⟨taken, sum⟩ := loop
  change taken = run owned best membership amount feePerByte at hselected
  change sum.toNat = min (total amountOf (run owned best membership amount feePerByte)) _ at htotal
  subst hselected
  have hless : ∀ k, sum < saturatingAdd amount (saturatingMul feePerByte
      (estimateTxBytes (UInt64.ofNat membership.digests.length) k)) ↔
      ¬min (cost membership amount feePerByte k) (2 ^ 64 - 1) ≤
        total amountOf (run owned best membership amount feePerByte) := by
    intro k
    rw [UInt64.lt_iff_toNat_lt, toNat_needed, htotal]
    omega
  dsimp only
  constructor
  · intro h
    split at h
    · cases h
    next hone =>
    split at h
    · cases h
    next hown =>
    cases h
    exact ⟨rfl, rfl, not_not.mp (mt (hless 1).mpr hone), not_not.mp (mt (hless _).mpr hown)⟩
  · rintro ⟨rfl, rfl, hone, hown⟩
    rw [if_neg (mt (hless 1).mp (not_not.mpr hone)), if_neg (mt (hless _).mp (not_not.mpr hown))]

theorem mem_ranked {o : OwnedOutput} : o ∈ ranked owned best membership ↔
    o ∈ owned ∧ isMature o best = true ∧ isAdmitted membership o = true := by
  rw [ranked, List.mem_filter, sortByAmount, (List.mergeSort_perm _ _).mem_iff, List.mem_filter,
    and_assoc]

theorem pairwise_ranked :
    (ranked owned best membership).Pairwise fun a b => amountOf b ≤ amountOf a := by
  have hsorted : (sortByAmount (owned.filter fun o => isMature o best)).Pairwise
      fun a b => decide (b.amount ≤ a.amount) = true := by
    refine List.pairwise_mergeSort ?_ ?_ _
    · intro a b c hab hbc
      rw [decide_eq_true_eq] at *
      exact UInt64.le_trans hbc hab
    · intro a b
      rw [Bool.or_eq_true, decide_eq_true_eq, decide_eq_true_eq]
      exact UInt64.le_total b.amount a.amount
  refine (hsorted.imp ?_).filter _
  intro a b hab
  exact UInt64.le_iff_toNat_le.mp (of_decide_eq_true hab)

/-- The fee for no input is that for one. -/
theorem cost_zero : cost membership amount feePerByte 0 = cost membership amount feePerByte 1 := rfl

theorem cost_one_le {k : ℕ} (hk : k < 2 ^ 64) :
    cost membership amount feePerByte 1 ≤ cost membership amount feePerByte k := by
  unfold cost
  rw [toNat_estimateTxBytes _ (by omega), toNat_estimateTxBytes _ hk]
  refine Nat.add_le_add_left (Nat.mul_le_mul_left _ ?_) _
  refine min_le_min_right _ (Nat.add_le_add_left (Nat.mul_le_mul_left _ ?_) _)
  exact Nat.le_max_right _ _

/-- The run of the loop, when the largest outputs reach the target. -/
theorem run_eq_take {j : ℕ}
    (h : Shortest amountOf (min (cost membership amount feePerByte 1) (2 ^ 64 - 1))
      (ranked owned best membership) j)
    (hpos : 0 < cost membership amount feePerByte 1) :
    run owned best membership amount feePerByte = (ranked owned best membership).take j ∧
      (run owned best membership amount feePerByte).length = j := by
  have hrun := takeUntil_eq_take h (by omega)
  have heq : run owned best membership amount feePerByte = (ranked owned best membership).take j := hrun
  refine ⟨heq, ?_⟩
  rw [heq, List.length_take, Nat.min_eq_left h.le_length]

/-- Without amount and fee the loop takes at most one output, and that covers the payment. -/
theorem funded_of_cost_zero (hzero : cost membership amount feePerByte 1 = 0) :
    Funded owned best membership amount feePerByte := by
  have hrun : run owned best membership amount feePerByte = (ranked owned best membership).take 1 := by
    unfold run
    rw [hzero]
    exact takeUntil_zero 0 _
  have hlen : (run owned best membership amount feePerByte).length ≤ 1 := by
    rw [hrun]
    exact List.length_take_le 1 _
  have hcost : cost membership amount feePerByte (run owned best membership amount feePerByte).length =
      0 := by
    rcases Nat.le_one_iff_eq_zero_or_eq_one.mp hlen with hnone | hone
    · rw [hnone, cost_zero, hzero]
    · rw [hone, hzero]
  refine ⟨_, _, selectInputs_eq_ok.mpr ⟨rfl, rfl, ?_, ?_⟩, ?_, ?_, ?_, ?_⟩
  · omega
  · omega
  · rw [hrun]
    cases ranked owned best membership with
    | nil => exact List.nodup_nil
    | cons o outputs => exact List.nodup_singleton o
  · intro o ho
    exact mem_ranked.mp (subset_takeUntil _ _ _ ho)
  · exact hlen.trans (by decide)
  · omega

/-- An affordable payment is within the largest outputs, as many as it takes. -/
theorem exists_shortest_of_payable (h : Payable owned best membership amount feePerByte) :
    ∃ j ≤ MAX_FCMP_INPUTS,
      Shortest amountOf (min (cost membership amount feePerByte 1) (2 ^ 64 - 1))
        (ranked owned best membership) j := by
  obtain ⟨chosen, hchosen⟩ := h
  have hsub : chosen.Subperm (ranked owned best membership) :=
    hchosen.distinct.subperm fun o ho => mem_ranked.mpr (hchosen.spendable o ho)
  have hheavy := total_le_total_take hsub pairwise_ranked
  have hcap : MAX_FCMP_INPUTS = 4 := rfl
  have hlen := hchosen.length_le
  have hcost : cost membership amount feePerByte 1 ≤ cost membership amount feePerByte chosen.length :=
    cost_one_le (by omega)
  have hcovered := hchosen.covered
  have htarget : min (cost membership amount feePerByte 1) (2 ^ 64 - 1) ≤
      total amountOf ((ranked owned best membership).take chosen.length) :=
    (min_le_left _ _).trans (hcost.trans (hcovered.trans hheavy))
  obtain ⟨j, hj, hshortest⟩ := exists_shortest hsub.length_le htarget
  exact ⟨j, hj.trans hlen, hshortest⟩

end SelectionLemmas

open SelectionLemmas

/-- The selection is complete exactly where the largest outputs cover their own fee. For every wallet,
snapshot, amount and rate: that an affordable payment is made, with distinct outputs within the cap that
cover the amount and the fee for their number, is the same as that, if it is affordable, the fewest
largest outputs that come to the cost of one input also come to the cost of their own number, with none
of them listed twice. -/
theorem selection_complete_iff (owned : List OwnedOutput) (best : ℕ) (membership : MembershipSnapshot)
    (amount feePerByte : UInt64) :
    (Payable owned best membership amount feePerByte → Funded owned best membership amount feePerByte) ↔
      (Payable owned best membership amount feePerByte →
        LargestCover owned best membership amount feePerByte) := by
  constructor
  · intro hfunded hpayable j hj
    rcases Nat.eq_zero_or_pos (cost membership amount feePerByte 1) with hzero | hpos
    · -- the shortest run to a target of zero is empty
      have hj0 : j = 0 := by
        by_contra hne
        have hbelow := hj.below 0 (Nat.pos_of_ne_zero hne)
        omega
      subst hj0
      rw [cost_zero, hzero, List.take_zero]
      exact ⟨Nat.zero_le _, List.nodup_nil⟩
    · obtain ⟨selected, fee, hselect, hcovers⟩ := hfunded hpayable
      obtain ⟨rfl, -⟩ := selectInputs_eq_ok.mp hselect
      obtain ⟨hrun, hlen⟩ := run_eq_take hj hpos
      have hcovered := hcovers.covered
      have hdistinct := hcovers.distinct
      rw [hlen, hrun] at hcovered
      rw [hrun] at hdistinct
      exact ⟨hcovered, hdistinct⟩
  · intro hcover hpayable
    rcases Nat.eq_zero_or_pos (cost membership amount feePerByte 1) with hzero | hpos
    · exact funded_of_cost_zero hzero
    · obtain ⟨j, hcap, hj⟩ := exists_shortest_of_payable hpayable
      obtain ⟨hcovered, hdistinct⟩ := hcover hpayable j hj
      obtain ⟨hrun, hlen⟩ := run_eq_take hj hpos
      have hreaches := hj.reaches
      rw [← hrun] at hcovered hdistinct hreaches
      refine ⟨_, _, selectInputs_eq_ok.mpr ⟨rfl, rfl, hreaches, ?_⟩, hdistinct, ?_, ?_, ?_⟩
      · rw [hlen]
        exact (min_le_left _ _).trans hcovered
      · intro o ho
        exact mem_ranked.mp (subset_takeUntil _ _ _ ho)
      · exact hlen.trans_le hcap
      · rw [hlen]
        exact hcovered

/-! ## A payment that is refused -/

/-- An output of height zero at the slot `i`. -/
def sampleOutput (i : ℕ) (amount : UInt64) : OwnedOutput where
  globalIndex := UInt64.ofNat i
  localIndex := 0
  amount := amount
  blinding := Cyclic.toBytes (Cyclic.scalarOf (20 + i))
  secret := Cyclic.toBytes (Cyclic.scalarOf (30 + i))
  keyImage := Cyclic.toBytes (Cyclic.scalarOf (40 + i))
  oneTimeKey := Cyclic.toBytes (Cyclic.scalarOf (50 + i))
  commitment := Cyclic.toBytes (Cyclic.scalarOf (60 + i))
  height := 0
  coinbase := false

def sampleOutputs : List OwnedOutput := [sampleOutput 0 3700, sampleOutput 1 770, sampleOutput 2 770]

/-- The snapshot whose three slots hold the outputs. -/
def sampleSlots : MembershipSnapshot :=
  let hash := (cyclic ristrettoOrder).blake2_256
  let digests := sampleOutputs.map fun o => leafHash hash o.oneTimeKey o.commitment
  { root := rootFromLeaves hash digests
    digests := digests
    admitted := sampleOutputs.map fun o => ⟨o.oneTimeKey, o.commitment, o.globalIndex⟩ }

/-- Outputs of 3700, 770 and 770 over three slots, a thousand to pay and one unit a byte: one input
costs 3736, two cost 4472 and three cost 5208. The loop stops at the second output, with 4470, and
every retry does the same; the three outputs come to 5240. -/
theorem selection_stops_short :
    selectInputs sampleOutputs 100 sampleSlots 1000 1 = .error .tryAgain ∧
      ¬(Payable sampleOutputs 100 sampleSlots 1000 1 → Funded sampleOutputs 100 sampleSlots 1000 1) := by
  have hsort : sortByAmount (sampleOutputs.filter fun o => isMature o 100) = sampleOutputs := by
    have hmature : (sampleOutputs.filter fun o => isMature o 100) = sampleOutputs := rfl
    rw [hmature]
    exact List.mergeSort_of_pairwise (by decide)
  have hrefused : selectInputs sampleOutputs 100 sampleSlots 1000 1 = .error .tryAgain := by
    unfold selectInputs
    rw [hsort]
    rfl
  have hpayable : Payable sampleOutputs 100 sampleSlots 1000 1 := by
    refine ⟨sampleOutputs, ?_, ?_, ?_, ?_⟩
    · decide
    · decide
    · decide
    · decide
  refine ⟨hrefused, ?_⟩
  intro hclaim
  obtain ⟨selected, fee, hselect, -⟩ := hclaim hpayable
  rw [hrefused] at hselect
  cases hselect

end Kohl.Wallet
