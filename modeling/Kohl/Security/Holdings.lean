import Kohl.Security.ReadBack
import Kohl.Security.Reward
import Kohl.Wallet.SendOutcome

/-!
# What a wallet holds

The `Scan` command of `wallet/src/main.rs` while the chain grows under it, and the balance it prints.

* `coin_of_found`: the amount the scan reads off an output is the value of its coin, and a coin that is spent
  has the key image the scan computes.
* `holdings_le`: unspent outputs, whichever wallets find them, are worth at most what was emitted.
* `balance_covered`: whatever is imported between two calls, the command ends with a report, and its balance
  and the waiting fees were emitted.
-/

namespace Kohl

open ByteLib Run Pallet Stealth RuntimeApi

namespace Wallet

/-! ## The command -/

/-- The answers the command works with; a key image is asked for by the place of its output among the owned
ones. -/
structure ScanAnswers where
  bestNumber : Except String ℕ
  outputsInRange : ℕ → ℕ → Except String (List Entry)
  isKeyImageSpent : ℕ → Bytes32 → Except String Bool

/-- How the command ends without a report. -/
inductive ScanFailure
  | text (e : TextError)
  | rpc (text : String)
  | overflow

/-- What the command prints. -/
structure ScanReport where
  address : Bytes
  scanned : ℕ
  unspent : List OwnedOutput
  spent : List OwnedOutput
  balance : UInt64

def fetchAllOutputs (answers : ScanAnswers) : Except String (List Entry) := do
  let best ← answers.bestNumber
  answers.outputsInRange 0 best

/-- `iter().sum()` over `u64` amounts; `none` where it overflows. -/
def sumAmounts (owned : List OwnedOutput) : Option UInt64 :=
  owned.foldlM (fun total o => checkedAdd total o.amount) 0

variable {l : ℕ} {Point : Type} [AddCommGroup Point] [Module (ZMod l) Point]

def scanCommand (E : CryptoLib l Point) (seedText : Bytes) (answers : ScanAnswers) :
    Except ScanFailure ScanReport := do
  let seed ← (parseSeed seedText).mapError .text
  let w := fromSeed E seed
  let outputs ← (fetchAllOutputs answers).mapError .rpc
  let split ← (RpcClient.splitBySpent answers.isKeyImageSpent (scan E w outputs)).mapError .rpc
  let balance ← okOr (sumAmounts split.1) .overflow
  .ok ⟨addressString w, outputs.length, split.1, split.2, balance⟩

/-- The answers of a node that has the blocks `blocks` when it is asked for the height, `moved` on top of
them when it is asked for the outputs, and `later i` on top of those for the key image of output `i`. -/
def ScanAnswers.whileGrowing [DecidableEq Point] (E : CryptoLib l Point) (cfg : Config)
    (order : Iteration Entry) (serves : String → Bool) (blocks moved : List (List (Origin × Call)))
    (later : ℕ → List (List (Origin × Call))) : ScanAnswers where
  bestNumber := RpcClient.bestNumber (SendLemmas.endpointAt E cfg blocks order serves)
  outputsInRange := RpcClient.outputsInRange (SendLemmas.endpointAt E cfg (blocks ++ moved) order serves)
  isKeyImageSpent i :=
    RpcClient.isKeyImageSpent (SendLemmas.endpointAt E cfg (blocks ++ moved ++ later i) order serves)

namespace HoldingsLemmas

open CallLemmas BuildLemmas InflationLemmas SendLemmas

/-! ## The sum and the split -/

theorem foldlM_checkedAdd {owned : List OwnedOutput} {start : UInt64}
    (h : start.toNat + (owned.map fun o => o.amount.toNat).sum < 2 ^ 64) :
    ∃ total, owned.foldlM (fun total o => checkedAdd total o.amount) start = some total ∧
      total.toNat = start.toNat + (owned.map fun o => o.amount.toNat).sum := by
  induction owned generalizing start with
  | nil => exact ⟨start, rfl, rfl⟩
  | cons o owned ih =>
    rw [List.map_cons, List.sum_cons] at h
    have hadd : checkedAdd start o.amount = some (start + o.amount) := by
      rw [checkedAdd, if_pos (by omega)]
    have hsum := checkedAdd_eq_some.mp hadd
    obtain ⟨total, htotal, heq⟩ := @ih (start + o.amount) (by omega)
    refine ⟨total, ?_, ?_⟩
    · rw [List.foldlM_cons, hadd]
      exact htotal
    · rw [heq, hsum, List.map_cons, List.sum_cons, Nat.add_assoc]

/-- With an answer for every key image the loop puts every output on one side, by some answer. -/
theorem splitBySpentLoop_spec {ask : ℕ → Bytes32 → Except String Bool} {q : ℕ → Bytes32 → Bool}
    (h : ∀ i ki, ask i ki = .ok (q i ki)) (rest : List (OwnedOutput × ℕ)) (unspent spent : List OwnedOutput) :
    ∃ u s, splitBySpentLoop ask rest unspent spent = .ok (unspent ++ u, spent ++ s) ∧
      (u ++ s).Perm (rest.map Prod.fst) ∧ u.Sublist (rest.map Prod.fst) ∧
      (∀ o ∈ u, ∃ i, q i o.keyImage = false) ∧ ∀ o ∈ s, ∃ i, q i o.keyImage = true := by
  induction rest generalizing unspent spent with
  | nil =>
    refine ⟨[], [], ?_, .nil, .slnil, fun _ ho => absurd ho List.not_mem_nil,
      fun _ ho => absurd ho List.not_mem_nil⟩
    rw [splitBySpentLoop, List.append_nil, List.append_nil]
  | cons x rest ih =>
    obtain ⟨o, i⟩ := x
    rw [splitBySpentLoop, h, ok_bind]
    cases hq : q i o.keyImage with
    | true =>
      obtain ⟨u, s, hloop, hperm, hsub, hu, hs⟩ := ih unspent (spent ++ [o])
      refine ⟨u, o :: s, ?_, ?_, hsub.cons _, hu, ?_⟩
      · rw [if_pos rfl, hloop, List.append_assoc]
        rfl
      · exact List.perm_middle.trans (hperm.cons o)
      · exact List.forall_mem_cons.mpr ⟨⟨i, hq⟩, hs⟩
    | false =>
      obtain ⟨u, s, hloop, hperm, hsub, hu, hs⟩ := ih (unspent ++ [o]) spent
      refine ⟨o :: u, s, ?_, hperm.cons o, hsub.cons_cons o, ?_, hs⟩
      · rw [if_neg Bool.false_ne_true, hloop, List.append_assoc]
        rfl
      · exact List.forall_mem_cons.mpr ⟨⟨i, hq⟩, hu⟩

/-- The command ends with a report unless the unspent amounts overflow. -/
theorem scanCommand_spec {E : CryptoLib l Point} {seedText : Bytes} {seed : Bytes32}
    (hseed : parseSeed seedText = .ok seed) {answers : ScanAnswers} {best : ℕ} {feed : List Entry}
    {q : ℕ → Bytes32 → Bool} (hbest : answers.bestNumber = .ok best)
    (hfeed : answers.outputsInRange 0 best = .ok feed)
    (hspent : ∀ i ki, answers.isKeyImageSpent i ki = .ok (q i ki))
    (hfits : ∀ unspent : List OwnedOutput, unspent.Sublist (scan E (fromSeed E seed) feed) →
      (∀ o ∈ unspent, ∃ i, q i o.keyImage = false) →
      (unspent.map fun o => o.amount.toNat).sum < 2 ^ 64) :
    ∃ report, scanCommand E seedText answers = .ok report ∧
      report.address = addressString (fromSeed E seed) ∧ report.scanned = feed.length ∧
      (report.unspent ++ report.spent).Perm (scan E (fromSeed E seed) feed) ∧
      report.unspent.Sublist (scan E (fromSeed E seed) feed) ∧
      (∀ o ∈ report.unspent, ∃ i, q i o.keyImage = false) ∧
      (∀ o ∈ report.spent, ∃ i, q i o.keyImage = true) ∧
      report.balance.toNat = (report.unspent.map fun o => o.amount.toNat).sum := by
  obtain ⟨unspent, spent, hloop, hperm, hsub, hu, hs⟩ :=
    splitBySpentLoop_spec hspent (scan E (fromSeed E seed) feed).zipIdx [] []
  rw [List.zipIdx_map_fst] at hperm hsub
  have hsplit : RpcClient.splitBySpent answers.isKeyImageSpent (scan E (fromSeed E seed) feed) =
      .ok (unspent, spent) := hloop
  obtain ⟨balance, hbalance, hsum⟩ := @foldlM_checkedAdd unspent 0
    (by rw [UInt64.toNat_zero, Nat.zero_add]; exact hfits unspent hsub hu)
  refine ⟨⟨addressString (fromSeed E seed), feed.length, unspent, spent, balance⟩, ?_, rfl, rfl, hperm,
    hsub, hu, hs, ?_⟩
  · have hoverflow : (okOr (sumAmounts unspent) .overflow : Except ScanFailure UInt64) = .ok balance :=
      okOr_eq_ok.mpr hbalance
    rw [scanCommand, hseed, mapError_ok, ok_bind, fetchAllOutputs, hbest, ok_bind, hfeed, mapError_ok,
      ok_bind, hsplit, mapError_ok, ok_bind, hoverflow, ok_bind]
  · rw [hsum, UInt64.toNat_zero, Nat.zero_add]

/-! ## What is found -/

section Found

variable {E : CryptoLib l Point} {w : Wallet E} {gi : UInt64} {out : StoredOutput}
  {o : OwnedOutput}

/-- What is found has the index it was scanned for, opens the commitment, and has the key image of the secret
of its key. -/
theorem tryOwn_backed (hR : ReadBack E) (hS : E.CanonicalScalars)
    (hpublic : ∀ a, out.amount = some a → Native.commit E a zeroBlinding = some out.commitment)
    (h : tryOwn E w gi out = some o) :
    o.globalIndex = gi ∧ Native.commit E o.amount o.blinding = some out.commitment ∧
      ∃ x : ZMod l, E.compress (x • E.G) = out.oneTimeKey ∧
        o.keyImage = E.compress (x • Clsag.hp E out.oneTimeKey.val) := by
  obtain ⟨x, hx, hkey⟩ := tryOwn_opens hR.keys hS h
  obtain ⟨shared, li, -, hfound⟩ := ScanLemmas.tryOwn_spec h
  have himage := hfound.keyImage
  rw [Clsag.keyImage, hx, Option.map_some, Option.some.injEq, hkey] at himage
  exact ⟨hfound.globalIndex, ScanLemmas.openAmount_eq_found hpublic hfound.amount, x, hkey, himage.symm⟩

/-- Whoever spends what is found uses the key image the scan computes. -/
theorem keyImage_of_spends (hR : ReadBack E) (hind : Independent E) (hcanon : CanonicalPoints E)
    {x : ZMod l} (hkey : E.compress (x • E.G) = out.oneTimeKey) {input : FcmpInput}
    (h : SpendsMember E input out.oneTimeKey out.commitment) :
    input.keyImage = E.compress (x • Clsag.hp E out.oneTimeKey.val) := by
  obtain ⟨y, -, -, -, hopens, himage, -⟩ := h
  rw [← hkey, hR.keys, Option.some.injEq] at hopens
  have hxy : E.pcCommit 0 x = E.pcCommit 0 y := by rw [CryptoLib.pcCommit, CryptoLib.pcCommit, hopens]
  rw [(pcCommit_inj hind hxy).2]
  exact (hcanon _ _ himage).symm

theorem index_of_tryOwn (h : tryOwn E w gi out = some o) : o.globalIndex = gi := by
  obtain ⟨shared, li, -, hfound⟩ := ScanLemmas.tryOwn_spec h
  exact hfound.globalIndex

/-- The scan keeps the indices apart. -/
theorem scan_indices (w : Wallet E) (feed : List Entry) :
    ((scan E w feed).map OwnedOutput.globalIndex).Sublist (feed.map Prod.fst) := by
  induction feed with
  | nil => exact .slnil
  | cons x feed ih =>
    rw [scan, List.filterMap_cons]
    cases hown : tryOwn E w x.1 x.2 with
    | none => exact ih.cons _
    | some o =>
      rw [List.map_cons, List.map_cons, index_of_tryOwn hown]
      exact ih.cons_cons _

end Found

/-! ## Unspent outputs are unspent coins -/

section Run

variable [DecidableEq Point] {E : CryptoLib l Point} {cfg : Config} {ops : List Op} {s : Storage}

/-- The coin of an output that some wallet finds in a reachable state: it has the amount of the output, and a
spend of it has spent the key image. -/
theorem coin_of_found (hl : 2 ^ 250 < l) (hind : Independent E) (hcanon : CanonicalPoints E)
    (hR : ReadBack E) (hS : E.CanonicalScalars) (hZ : E.ZeroScalar)
    (hs : s = (run (step (nativeHost E) cfg) (.genesis (nativeHost E)) ops).store)
    (hfits : s.nextOutputIndex ≤ 2 ^ 64) {a : CoinLedger} (hsim : Simulates E cfg ops a) {w : Wallet E}
    {x : Entry} (hx : x ∈ storedOutputs s) {o : OwnedOutput} (h : tryOwn E w x.1 x.2 = some o) :
    o.globalIndex.toNat < a.coins.length ∧ a.value o.globalIndex.toNat = o.amount.toNat ∧
      (o.globalIndex.toNat ∈ a.spent → s.keyImages.containsKey o.keyImage = true) := by
  have hget := ((mem_storedOutputs hfits).mp hx).2
  rw [hs] at hget
  have hok := outputOk_of_get hget
  obtain ⟨hindex, hcommit, y, hkey, himage⟩ := tryOwn_backed hR hS
    (fun b hb => by rw [(hok.amount b hb).1]; exact commit_zeroBlinding hS hZ b) h
  rw [(ledger_spec ops).1] at hget
  rw [hindex]
  refine ⟨?_, ?_, fun hspent => ?_⟩
  · rw [hsim.coins, List.length_map]
    exact (List.getElem?_eq_some_iff.mp hget).1
  · rw [CoinLedger.value, hsim.coins, List.getD_eq_getElem?_getD, List.getElem?_map, hget]
    exact valueOf_eq hl hind (hasValue_of_commit hR hcommit)
  · obtain ⟨k, hk⟩ := List.getElem?_of_mem hspent
    obtain ⟨input, hinput, out, hout, hmember⟩ := getElem?_of_forall₂ hsim.spent.flip hk
    rw [hget, Option.some.injEq] at hout
    subst hout
    rw [himage, ← keyImage_of_spends hR hind hcanon hkey hmember, hs]
    exact ((keyImages_run ops).2 _).mpr (List.mem_map_of_mem (List.mem_of_getElem? hinput))

/-- Unspent outputs at different indices, whichever wallets find them, are worth at most what was emitted less
the waiting fees. -/
theorem holdings_le (hl : 2 ^ 250 < l) (hind : Independent E) (hcanon : CanonicalPoints E)
    (hpublic : PublicAmounts E) (hR : ReadBack E) (hS : E.CanonicalScalars) (hZ : E.ZeroScalar)
    (hideal : IdealRun E cfg ops)
    (hs : s = (run (step (nativeHost E) cfg) (.genesis (nativeHost E)) ops).store)
    (hfits : s.nextOutputIndex ≤ 2 ^ 64) {owned : List OwnedOutput}
    (hnodup : (owned.map OwnedOutput.globalIndex).Nodup)
    (hfound : ∀ o ∈ owned, ∃ w x, x ∈ storedOutputs s ∧ tryOwn E w x.1 x.2 = some o)
    (hunspent : ∀ o ∈ owned, s.keyImages.containsKey o.keyImage = false) :
    (owned.map fun o => o.amount.toNat).sum + s.blockFees.toNat ≤ s.emitted.toNat := by
  obtain ⟨a, hsim, hsound⟩ := exists_simulates hl hind hcanon hpublic hideal
  have hcoin : ∀ o ∈ owned, o.globalIndex.toNat < a.coins.length ∧
      a.value o.globalIndex.toNat = o.amount.toNat ∧ o.globalIndex.toNat ∉ a.spent := by
    intro o ho
    obtain ⟨w, x, hx, hown⟩ := hfound o ho
    obtain ⟨hstored, hvalue, hspent⟩ := coin_of_found hl hind hcanon hR hS hZ hs hfits hsim hx hown
    refine ⟨hstored, hvalue, fun hmem => ?_⟩
    have himage := hspent hmem
    rw [hunspent o ho] at himage
    cases himage
  have hindices : owned.map (fun o => o.globalIndex.toNat) =
      (owned.map OwnedOutput.globalIndex).map UInt64.toNat := by
    rw [List.map_map]
    rfl
  have hle := @CoinLedger.Sound.unspent_add_le _ hsound (owned.map fun o => o.globalIndex.toNat) ?_ ?_
  · have hvalues : (owned.map fun o => o.globalIndex.toNat).map a.value =
        owned.map fun o => o.amount.toNat := by
      rw [List.map_map]
      exact List.map_congr_left fun o ho => (hcoin o ho).2.1
    rw [hvalues, hsim.fees, hsim.emitted, ← hs] at hle
    exact hle
  · refine List.nodup_append'.mpr ⟨hsound.nodup, ?_, ?_⟩
    · rw [hindices]
      exact hnodup.map fun i j => UInt64.toNat_inj.mp
    · intro i hspent hmem
      obtain ⟨o, ho, rfl⟩ := List.mem_map.mp hmem
      exact (hcoin o ho).2.2 hspent
  · intro i hmem
    obtain ⟨o, ho, rfl⟩ := List.mem_map.mp hmem
    exact (hcoin o ho).1

end Run

/-! ## The outputs of a growing chain -/

section Chain

variable [DecidableEq Point] {E : CryptoLib l Point} {cfg : Config} {order : Iteration Entry}
  {serves : String → Bool} {blocks moved : List (List (Origin × Call))}

/-- The outputs up to the height that was asked for first, whatever came on top. -/
theorem feed_perm : (outputsInRange order (afterBlocks (nativeHost E) cfg (blocks ++ moved)).store 0
    blocks.length).Perm (storedOutputs (afterBlocks (nativeHost E) cfg blocks).store) := by
  have hperm := @ApiLemmas.within_ledger_perm (nativeHost E) cfg ((blocks ++ moved).flatMap blockOps) _
    order rfl 0 blocks.length
  rw [ApiLemmas.within_past blocks moved le_rfl, ApiLemmas.within_all] at hperm
  have hstored := @ApiLemmas.storedOutputs_eq (nativeHost E) cfg (blocks.flatMap blockOps) _ rfl
  rw [afterBlocks, afterBlocks, hstored]
  exact hperm

theorem afterBlocks_append (H : Host) (blocks later : List (List (Origin × Call))) :
    afterBlocks H cfg (blocks ++ later) =
      run (step H cfg) (afterBlocks H cfg blocks) (later.flatMap blockOps) := by
  rw [afterBlocks, List.flatMap_append, run_append, ← afterBlocks]

theorem nextOutputIndex_le (H : Host) (blocks later : List (List (Origin × Call))) :
    (afterBlocks H cfg blocks).store.nextOutputIndex ≤
      (afterBlocks H cfg (blocks ++ later)).store.nextOutputIndex := by
  have hnext := (@ledger_spec H cfg (blocks.flatMap blockOps)).2
  have hnext' := (@ledger_spec H cfg ((blocks ++ later).flatMap blockOps)).2
  rw [List.flatMap_append, ledger_append, List.length_append, ← List.flatMap_append] at hnext'
  rw [afterBlocks, afterBlocks, hnext, hnext']
  exact Nat.le_add_right _ _

theorem length_storedOutputs (H : Host) (blocks : List (List (Origin × Call))) :
    (storedOutputs (afterBlocks H cfg blocks).store).length =
      (afterBlocks H cfg blocks).store.nextOutputIndex := by
  have hstored := @ApiLemmas.storedOutputs_eq H cfg (blocks.flatMap blockOps) _ rfl
  rw [afterBlocks, hstored, ApiLemmas.length_indexed, (@ledger_spec H cfg (blocks.flatMap blockOps)).2]

theorem nodup_storedOutputs {s : Storage} (hfits : s.nextOutputIndex ≤ 2 ^ 64) :
    ((storedOutputs s).map Prod.fst).Nodup := by
  have hsub : ((storedOutputs s).map Prod.fst).Sublist
      ((List.range s.nextOutputIndex).map UInt64.ofNat) := by
    rw [storedOutputs]
    generalize List.range s.nextOutputIndex = is
    induction is with
    | nil => exact .slnil
    | cons i is ih =>
      rw [List.filterMap_cons]
      cases s.outputs.get i with
      | none => exact ih.cons _
      | some out => exact ih.cons_cons _
  refine hsub.nodup (List.Nodup.map_on (fun i hi j hj hij => ?_) List.nodup_range)
  have hback := congrArg UInt64.toNat hij
  rw [UInt64.toNat_ofNat', UInt64.toNat_ofNat',
    Nat.mod_eq_of_lt ((List.mem_range.mp hi).trans_le hfits),
    Nat.mod_eq_of_lt ((List.mem_range.mp hj).trans_le hfits)] at hback
  exact hback

end Chain

end HoldingsLemmas

open HoldingsLemmas CallLemmas SendLemmas ClientLemmas

/-- The balance is covered. Behind an ideal run, and whatever blocks the node imports between two calls, the
`Scan` command over a readable seed ends with a report, as long as there are fewer than 2^32 blocks and fewer
than 2^32 outputs when it asks for the outputs. The report lists every output of the wallet up to the height it
asked for once, as unspent only if it was unspent at that height and as spent only if it is spent by now; the
balance is the sum of the unspent amounts, without overflow, and the balance and the fees that waited at that
height were emitted by then. -/
theorem balance_covered [DecidableEq Point] (E : CryptoLib l Point) (hl : 2 ^ 250 < l)
    (hind : Independent E) (hcanon : CanonicalPoints E) (hpublic : PublicAmounts E) (hR : ReadBack E)
    (hS : E.CanonicalScalars) (hZ : E.ZeroScalar) (cfg : Config) (order : Iteration Entry)
    (serves : String → Bool) (blocks moved : List (List (Origin × Call)))
    (later : ℕ → List (List (Origin × Call))) (hheight : (blocks ++ moved).length < 2 ^ 32)
    (hfits : (afterBlocks (nativeHost E) cfg (blocks ++ moved)).store.nextOutputIndex < 2 ^ 32)
    (hideal : IdealRun E cfg (blocks.flatMap blockOps)) (seedText : Bytes) (seed : Bytes32)
    (hseed : parseSeed seedText = .ok seed) :
    let s := (afterBlocks (nativeHost E) cfg blocks).store
    ∃ report, scanCommand E seedText (.whileGrowing E cfg order serves blocks moved later) = .ok report ∧
      report.address = addressString (fromSeed E seed) ∧ report.scanned = s.nextOutputIndex ∧
      (report.unspent ++ report.spent).Perm (scan E (fromSeed E seed) (storedOutputs s)) ∧
      (∀ o ∈ report.unspent, s.keyImages.containsKey o.keyImage = false) ∧
      (∀ o ∈ report.spent, ∃ i, (afterBlocks (nativeHost E) cfg
        (blocks ++ moved ++ later i)).store.keyImages.containsKey o.keyImage = true) ∧
      report.balance.toNat = (report.unspent.map fun o => o.amount.toNat).sum ∧
      report.balance.toNat + s.blockFees.toNat ≤ s.emitted.toNat := by
  intro s
  have hlen : blocks.length < 2 ^ 32 :=
    Nat.lt_of_le_of_lt (List.prefix_append blocks moved).length_le hheight
  have hnext : s.nextOutputIndex ≤ 2 ^ 64 := by
    have hle := @nextOutputIndex_le cfg (nativeHost E) blocks moved
    exact hle.trans (hfits.le.trans (by decide))
  have hfeed : (ScanAnswers.whileGrowing E cfg order serves blocks moved later).outputsInRange 0
      blocks.length = .ok _ := outputsInRange_nodeAt hheight hfits (Nat.two_pow_pos 32) hlen
  have hperm := @feed_perm _ _ _ _ _ E cfg order blocks moved
  generalize outputsInRange order (afterBlocks (nativeHost E) cfg (blocks ++ moved)).store 0
    blocks.length = feed at hfeed hperm
  -- what is unspent later was unspent then, and different outputs have different indices
  have hcovered : ∀ unspent : List OwnedOutput, unspent.Sublist (scan E (fromSeed E seed) feed) →
      (∀ o ∈ unspent, ∃ i, (afterBlocks (nativeHost E) cfg
        (blocks ++ moved ++ later i)).store.keyImages.containsKey o.keyImage = false) →
      (∀ o ∈ unspent, s.keyImages.containsKey o.keyImage = false) ∧
      (unspent.map fun o => o.amount.toNat).sum + s.blockFees.toNat ≤ s.emitted.toNat := by
    intro unspent hsub hlater
    have hunspent : ∀ o ∈ unspent, s.keyImages.containsKey o.keyImage = false := by
      intro o ho
      obtain ⟨i, hi⟩ := hlater o ho
      rw [Bool.eq_false_iff]
      intro hspent
      have hmono := @keyImages_mono (nativeHost E) cfg (afterBlocks (nativeHost E) cfg blocks) _ hspent
        ((moved ++ later i).flatMap blockOps)
      rw [← afterBlocks_append, ← List.append_assoc, hi] at hmono
      cases hmono
    refine ⟨hunspent, holdings_le hl hind hcanon hpublic hR hS hZ hideal rfl hnext ?_ ?_ hunspent⟩
    · refine ((hsub.map OwnedOutput.globalIndex).trans (scan_indices _ feed)).nodup ?_
      exact (hperm.map Prod.fst).nodup_iff.mpr (nodup_storedOutputs hnext)
    · intro o ho
      obtain ⟨x, hx, hown⟩ := List.mem_filterMap.mp (hsub.subset ho)
      exact ⟨fromSeed E seed, x, hperm.subset hx, hown⟩
  obtain ⟨report, hreport, haddress, hscanned, hsplit, hsub, hunspent, hspent, hbalance⟩ :=
    scanCommand_spec hseed (bestNumber_node hlen) hfeed (fun i ki => isKeyImageSpent_node ki)
      fun unspent hsub hlater => by
        have hle := (hcovered unspent hsub hlater).2
        have hemitted := s.emitted.toNat_lt
        omega
  obtain ⟨hthen, hle⟩ := hcovered report.unspent hsub hunspent
  refine ⟨report, hreport, haddress, ?_, hsplit.trans (hperm.filterMap _), hthen, hspent, hbalance,
    hbalance ▸ hle⟩
  rw [hscanned, hperm.length_eq, length_storedOutputs]

/-! ## A report over the plane that is read back -/

def readableWallet : Wallet (readable ristrettoOrder) := fromSeed (readable ristrettoOrder) sampleSeed

/-- A block with the reward of a node that mines for the wallet. -/
def minedBlock : List (Origin × Call) :=
  ((miningInherentData (readable ristrettoOrder) readableWallet.address (5 : ZMod ristrettoOrder)).toOption.bind
    fun data => createInherent (.genesis (readable ristrettoOrder).blake2_256) (some data)).toList.map
      fun call => (.none, call)

def minedOps : List Op := [minedBlock].flatMap blockOps

namespace ReadableLemmas

/-- The run accepts no transfer, hashes without collisions and stores one output of the wallet. -/
theorem minedOps_spec :
    let H := nativeHost (readable ristrettoOrder)
    let s := (afterBlocks H eagerConfig [minedBlock]).store
    (acceptedTransfers H eagerConfig (.genesis H) minedOps).isEmpty = true ∧
      MembershipTree.CollisionFree (readable ristrettoOrder).blake2_256 (runPreimages H eagerConfig minedOps) ∧
      s.nextOutputIndex < 2 ^ 32 ∧ s.emitted.toNat ≤ (blockReward 0).toNat ∧
      (scan (readable ristrettoOrder) readableWallet (storedOutputs s)).length = 1 := by
  decide +kernel

theorem minedOps_ideal : IdealRun (readable ristrettoOrder) eagerConfig minedOps := by
  obtain ⟨hquiet, hfree, -⟩ := minedOps_spec
  rw [List.isEmpty_iff] at hquiet
  refine ⟨fun tx htx => ?_, fun tx htx => ?_, ?_⟩
  · rw [hquiet] at htx
    cases htx
  · rw [hquiet] at htx
    cases htx
  · rw [acceptedInputs, hquiet, List.flatMap_nil, List.flatMap_nil, List.append_nil]
    exact hfree

end ReadableLemmas

open ReadableLemmas

/-- The mined reward is reported, and not more than it. -/
theorem balance_covered_mined :
    ∃ report, scanCommand (readable ristrettoOrder) sampleSeedText
        (.whileGrowing (readable ristrettoOrder) eagerConfig .asKept (fun _ => false) [minedBlock] []
          fun _ => []) = .ok report ∧
      (report.unspent ++ report.spent).length = 1 ∧ report.balance.toNat ≤ (blockReward 0).toNat := by
  have hl : 2 ^ 250 < ristrettoOrder := by decide
  have hl' : ristrettoOrder ≤ 2 ^ 255 := by decide
  have hl'' : ristrettoOrder ≤ 2 ^ 256 := by decide
  obtain ⟨-, -, hfits, hemitted, hfound⟩ := minedOps_spec
  rw [← List.append_nil [minedBlock]] at hfits
  obtain ⟨report, hreport, -, -, hsplit, -, -, -, hcovered⟩ := balance_covered (readable ristrettoOrder) hl
    readable_independent (readable_canonicalPoints hl) (readable_publicAmounts hl hl')
    (readable_readBack hl hl') (readable_canonicalScalars hl'') readable_zeroScalar eagerConfig .asKept
    (fun _ => false) [minedBlock] [] (fun _ => []) (by decide) hfits minedOps_ideal sampleSeedText
    sampleSeed parseSeed_sample
  refine ⟨report, hreport, ?_, ((Nat.le_add_right _ _).trans hcovered).trans hemitted⟩
  rw [hsplit.length_eq]
  exact hfound

end Wallet

end Kohl
