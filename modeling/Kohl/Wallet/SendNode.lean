import Kohl.Wallet.SendBuilt

/-!
# The Send command behind a node that stands still

Every question of the command is answered by one storage.

* `prepareSend_of_answers`, `prepareSend_node`: the command up to the selection.
* `refresh_node`, `recheckSend_node`: the snapshot of the node, which the second look at the tip keeps.
* `canSpend_of_selectInputs`: whatever is selected can be spent.
* `send_of_crowded`, `send_of_refused`, `send_of_skeleton`, `exists_send`: how the command ends.
* `verify_sent_iff`: what the node makes of a transfer built in its own snapshot.
-/

namespace Kohl

open ByteLib Run Pallet MembershipTree Fcmp Stealth RuntimeApi
open LargestFirst (total)

namespace Wallet

/-! ## A node that stands still -/

namespace SendLemmas

open CallLemmas CacheLemmas MembershipCache BuildLemmas SelectionLemmas SpecLemmas

section Refresh

variable {hash : Bytes → Bytes32} {outputs : List Entry} {tip : TipAnswers} {answers : SnapshotAnswers}
  {height : ℕ} {root : Bytes32} {slots : UInt64}

/-- The first refresh fetches a snapshot, and keeps it with the height it was told. -/
theorem refresh_new_eq_ok {snap : MembershipSnapshot} (hheight : tip.bestNumber = .ok height)
    (hroot : tip.membershipRoot = .ok root) (hslots : tip.treeSlots = .ok slots)
    (hfetch : membershipSnapshot hash answers outputs = .ok snap) :
    refreshMembershipCache hash tip answers outputs .new = (.ok snap, ⟨height, some snap⟩) := by
  have hagain := (@rebuild_fst hash MembershipCache.new 0 snap.root snap.digests
    (byIndex outputs) (resyncIfReorged .new height root slots.toNat).2 height).trans
    (membershipSnapshot_eq_ok hfetch).2.2
  obtain ⟨hcache, -, -, -⟩ := rebuild_eq_ok hagain
  unfold refreshMembershipCache
  simp only [hheight, hroot, hslots]
  unfold refreshAt
  have hfresh : (resyncIfReorged .new height root slots.toNat).1 = true := rfl
  simp only [hfresh, Bool.true_or, if_true, hfetch, hagain, hcache]
  rfl

theorem refresh_new_eq_error {e : RpcFailure} (hheight : tip.bestNumber = .ok height)
    (hroot : tip.membershipRoot = .ok root) (hslots : tip.treeSlots = .ok slots)
    (hfetch : membershipSnapshot hash answers outputs = .error e) :
    (refreshMembershipCache hash tip answers outputs .new).1 = .error e := by
  unfold refreshMembershipCache
  simp only [hheight, hroot, hslots]
  unfold refreshAt
  have hfresh : (resyncIfReorged .new height root slots.toNat).1 = true := rfl
  simp only [hfresh, Bool.true_or, if_true, hfetch]

theorem needsResync_self {snap : MembershipSnapshot} {count : ℕ} (hcount : snap.digests.length = count) :
    needsResync ⟨height, some snap⟩ height snap.root count = false := by
  show (if height < height then true else if snap.root ≠ snap.root then true
    else if snap.digests.length ≠ count then true else false) = false
  rw [if_neg (Nat.lt_irrefl _), if_neg (not_not.mpr rfl), if_neg (not_not.mpr hcount)]

end Refresh

/-- With the answers of one storage the loop splits by its key images. -/
theorem splitBySpent_eq_ok {isKeyImageSpent : ℕ → Bytes32 → Except String Bool} {s : Storage}
    (h : ∀ i ki, isKeyImageSpent i ki = .ok (s.keyImages.containsKey ki)) (owned : List OwnedOutput) :
    RpcClient.splitBySpent isKeyImageSpent owned = .ok (Wallet.splitBySpent s owned) := by
  have hloop : ∀ (rest : List (OwnedOutput × ℕ)) (unspent spent : List OwnedOutput),
      splitBySpentLoop isKeyImageSpent rest unspent spent =
        .ok (unspent ++ (rest.map Prod.fst).filter (fun o => !s.keyImages.containsKey o.keyImage),
          spent ++ (rest.map Prod.fst).filter (fun o => s.keyImages.containsKey o.keyImage)) := by
    intro rest
    induction rest with
    | nil =>
      intro unspent spent
      rw [splitBySpentLoop, List.map_nil, List.filter_nil, List.filter_nil, List.append_nil,
        List.append_nil]
    | cons x rest ih =>
      intro unspent spent
      rw [splitBySpentLoop, h, ok_bind, List.map_cons, List.filter_cons, List.filter_cons]
      cases s.keyImages.containsKey x.1.keyImage with
      | true =>
        rw [if_pos rfl, ih, List.append_assoc]
        rfl
      | false =>
        rw [if_neg Bool.false_ne_true, ih, List.append_assoc]
        rfl
  rw [RpcClient.splitBySpent, hloop, List.zipIdx_map_fst, List.nil_append, List.nil_append,
    Wallet.splitBySpent, List.partition_eq_filter_filter]
  simp only [Function.comp_def, Bool.not_not]

section Node

variable {l : ℕ} {Point : Type} [AddCommGroup Point] [Module (ZMod l) Point] [DecidableEq Point]
variable {E : CryptoLib l Point} {cfg : Config} {ops : List Op} {s : Storage} {feed : List Entry}

/-- The snapshot of a reachable state. -/
def snapshotAt (E : CryptoLib l Point) (s : Storage) : MembershipSnapshot :=
  ⟨s.membershipRoot, (slotsOf s).map (slotDigest E.blake2_256), ringOfSlots (slotsOf s)⟩

variable (hs : s = (run (step (nativeHost E) cfg) (.genesis (nativeHost E)) ops).store)
include hs

theorem digestsOf_run : digestsOf (nativeHost E) s = (slotsOf s).map (slotDigest E.blake2_256) := by
  have hinv : SlotInv (nativeHost E) cfg _ s := hs ▸ (treeInv_run_genesis ops).1.slots
  exact hinv.digestsOf_eq

/-- The outputs of a reachable state in any order give its snapshot. -/
theorem snapshot_of_feed (hfeed : ∀ x, x ∈ feed ↔ x ∈ storedOutputs s)
    (hslots : s.treeSlots ≤ MAX_FCMP_ANON_SET) (hlegible : Legible E.blake2_256 (slotsOf s)) :
    snapshotFromFrontier E.blake2_256 s.membershipRoot (digestsOf (nativeHost E) s) feed =
      .ok (snapshotAt E s) := by
  have hanon : MAX_FCMP_ANON_SET = 64 := rfl
  have hnext := slots_eq_next hs
  rw [digestsOf_run hs, snapshotAt, root_of_run hs]
  refine snapshotFromFrontier_slots hlegible ((length_slotsOf s).trans_le hslots) fun i p c hi => ?_
  obtain ⟨hlt, -, out, hout, hpc⟩ := getElem?_slotsOf_eq_some.mp hi
  have hback : (UInt64.ofNat i).toNat = i := toNat_ofNat hlt (by omega)
  refine ⟨out, MembershipLemmas.get_byIndex ((hfeed _).mpr ?_) fun out' hout' => ?_, hpc⟩
  · rw [mem_storedOutputs (by omega), hback]
    exact ⟨by omega, hout⟩
  · have hstored := ((mem_storedOutputs (by omega)).mp ((hfeed _).mp hout')).2
    rw [hback, hout, Option.some.injEq] at hstored
    exact hstored.symm

/-- Beyond 64 slots there is no snapshot. -/
theorem snapshot_of_crowded (hslots : MAX_FCMP_ANON_SET < s.treeSlots) :
    snapshotFromFrontier E.blake2_256 s.membershipRoot (digestsOf (nativeHost E) s) feed =
      .error .treeTooLarge := by
  have hlen : MAX_FCMP_ANON_SET < (digestsOf (nativeHost E) s).length := by
    rw [digestsOf_run hs, List.length_map, length_slotsOf]
    exact hslots
  rw [snapshotFromFrontier, rebuild, if_pos hlen]

end Node

/-! ## The command behind one node -/

section Command

open ClientLemmas

variable {l : ℕ} {Point : Type} [AddCommGroup Point] [Module (ZMod l) Point]

section Answers

variable {E : CryptoLib l Point} {w : Wallet E} {amount : UInt64}
variable {answers : SendAnswers} {best : ℕ} {rate : UInt64} {all : List Entry}
  {split : List OwnedOutput × List OwnedOutput}
variable (hbest : answers.bestNumber = .ok best) (hrate : answers.minFeePerByte = .ok rate)
  (hall : answers.outputsInRange 0 best = .ok all)
  (hsplit : RpcClient.splitBySpent answers.isKeyImageSpent (scan E w all) = .ok split)
include hbest hrate hall hsplit

/-- The command behind its first answers. -/
theorem prepareSend_of_answers : prepareSend E w amount answers = (do
    let refreshed := refreshMembershipCache E.blake2_256 answers.tip answers.snapshot all .new
    let membership ← refreshed.1.mapError .membership
    let chosen ← (selectInputs split.1 best membership amount rate).mapError .selection
    .ok ⟨all, membership, refreshed.2, chosen.1, chosen.2⟩) := by
  rw [prepareSend, hbest, hrate]
  show ((answers.outputsInRange 0 best).mapError SendFailure.rpc >>= _) = _
  rw [hall]
  show ((RpcClient.splitBySpent answers.isKeyImageSpent (scan E w all)).mapError SendFailure.rpc >>= _) =
    _
  rw [hsplit]
  rfl

theorem prepareSend_of_lost {e : RpcFailure}
    (h : (refreshMembershipCache E.blake2_256 answers.tip answers.snapshot all .new).1 = .error e) :
    prepareSend E w amount answers = .error (.membership e) := by
  rw [prepareSend_of_answers hbest hrate hall hsplit]
  dsimp only
  rw [h]
  rfl

theorem prepareSend_of_refreshed {snap : MembershipSnapshot} {cache : MembershipCache}
    (h : refreshMembershipCache E.blake2_256 answers.tip answers.snapshot all .new = (.ok snap, cache)) :
    prepareSend E w amount answers = (do
      let chosen ← (selectInputs split.1 best snap amount rate).mapError .selection
      .ok ⟨all, snap, cache, chosen.1, chosen.2⟩) := by
  rw [prepareSend_of_answers hbest hrate hall hsplit]
  simp only [h, mapError_ok, ok_bind]

end Answers

variable [DecidableEq Point]
variable {E : CryptoLib l Point} {cfg : Config} {blocks : List (List (Origin × Call))}
  {order : Iteration Entry} {serves : String → Bool} {w : Wallet E} {amount : UInt64}

/-- The unspent outputs that a wallet finds behind a chain. -/
def unspentAt (E : CryptoLib l Point) (cfg : Config) (blocks : List (List (Origin × Call)))
    (order : Iteration Entry) (w : Wallet E) : List OwnedOutput :=
  let s := (afterBlocks (nativeHost E) cfg blocks).store
  (Wallet.splitBySpent s (scan E w (outputsInRange order s 0 blocks.length))).1

/-- The node behind a chain, as the command asks it. -/
def endpointAt (E : CryptoLib l Point) (cfg : Config) (blocks : List (List (Origin × Call)))
    (order : Iteration Entry) (serves : String → Bool) : Endpoint :=
  (nodeAt (nativeHost E) cfg blocks order serves).endpoint (nativeHost E)

theorem mem_feed_iff (x : Entry) :
    x ∈ outputsInRange order (afterBlocks (nativeHost E) cfg blocks).store 0 blocks.length ↔
      x ∈ storedOutputs (afterBlocks (nativeHost E) cfg blocks).store := by
  have hs : (afterBlocks (nativeHost E) cfg blocks).store =
      (run (step (nativeHost E) cfg) (.genesis (nativeHost E)) (blocks.flatMap blockOps)).store := rfl
  rw [ApiLemmas.storedOutputs_eq hs]
  exact (ApiLemmas.all_perm order blocks).mem_iff

/-- The outputs and the key images behind a chain. -/
theorem feed_node (hheight : blocks.length < 2 ^ 32)
    (hfits : (afterBlocks (nativeHost E) cfg blocks).store.nextOutputIndex < 2 ^ 32) :
    let answers := SendAnswers.ofEndpoint (endpointAt E cfg blocks order serves)
    let s := (afterBlocks (nativeHost E) cfg blocks).store
    answers.outputsInRange 0 blocks.length = .ok (outputsInRange order s 0 blocks.length) ∧
      RpcClient.splitBySpent answers.isKeyImageSpent
        (scan E w (outputsInRange order s 0 blocks.length)) =
          .ok (Wallet.splitBySpent s (scan E w (outputsInRange order s 0 blocks.length))) :=
  ⟨outputsInRange_nodeAt hheight hfits (Nat.two_pow_pos 32) hheight,
    splitBySpent_eq_ok (fun _ ki => isKeyImageSpent_node ki) _⟩

/-- The outputs the command is told of are outputs of the chain. -/
theorem get_of_feed (hheight : blocks.length < 2 ^ 32)
    (hfits : (afterBlocks (nativeHost E) cfg blocks).store.nextOutputIndex < 2 ^ 32) {best : ℕ}
    {feed : List Entry}
    (hbest : (SendAnswers.ofEndpoint (endpointAt E cfg blocks order serves)).bestNumber = .ok best)
    (hall : (SendAnswers.ofEndpoint (endpointAt E cfg blocks order serves)).outputsInRange 0 best =
      .ok feed) :
    ∀ x ∈ feed, (afterBlocks (nativeHost E) cfg blocks).store.outputs.get x.1.toNat = some x.2 := by
  have hheight' : (SendAnswers.ofEndpoint (endpointAt E cfg blocks order serves)).bestNumber =
      .ok blocks.length := bestNumber_node hheight
  rw [hheight', Except.ok.injEq] at hbest
  subst hbest
  have hall' : (SendAnswers.ofEndpoint (endpointAt E cfg blocks order serves)).outputsInRange 0
      blocks.length = .ok _ := outputsInRange_nodeAt hheight hfits (Nat.two_pow_pos 32) hheight
  rw [hall', Except.ok.injEq] at hall
  subst hall
  intro x hx
  exact ((mem_storedOutputs (by omega)).mp ((mem_feed_iff x).mp hx)).2

/-- What is read of the tip behind a chain. -/
theorem tipAnswers_node (hheight : blocks.length < 2 ^ 32) :
    let tip := RpcClient.tipAnswers (endpointAt E cfg blocks order serves)
    let s := (afterBlocks (nativeHost E) cfg blocks).store
    tip.bestNumber = .ok blocks.length ∧ tip.membershipRoot = .ok s.membershipRoot ∧
      tip.treeSlots = .ok (UInt64.ofNat s.treeSlots) :=
  ⟨bestNumber_node hheight, membershipRoot_node, treeSlots_node⟩

theorem snapshot_node {feed : List Entry}
    (hfits : 32 * (afterBlocks (nativeHost E) cfg blocks).store.nextOutputIndex + 5 < 2 ^ 32) :
    membershipSnapshot E.blake2_256
        (RpcClient.snapshotAnswers (endpointAt E cfg blocks order serves)) feed =
      (snapshotFromFrontier E.blake2_256 (afterBlocks (nativeHost E) cfg blocks).store.membershipRoot
        (digestsOf (nativeHost E) (afterBlocks (nativeHost E) cfg blocks).store) feed).mapError
        .wallet :=
  membershipSnapshot_node (by rw [treeSlots_nodeAt]; exact hfits) feed

theorem refresh_node (hheight : blocks.length < 2 ^ 32)
    (hslots : (afterBlocks (nativeHost E) cfg blocks).store.treeSlots ≤ MAX_FCMP_ANON_SET)
    (hlegible : Legible E.blake2_256 (slotsOf (afterBlocks (nativeHost E) cfg blocks).store)) :
    refreshMembershipCache E.blake2_256
        (RpcClient.tipAnswers (endpointAt E cfg blocks order serves))
        (RpcClient.snapshotAnswers (endpointAt E cfg blocks order serves))
        (outputsInRange order (afterBlocks (nativeHost E) cfg blocks).store 0 blocks.length) .new =
      (.ok (snapshotAt E (afterBlocks (nativeHost E) cfg blocks).store),
        ⟨blocks.length, some (snapshotAt E (afterBlocks (nativeHost E) cfg blocks).store)⟩) := by
  have hs : (afterBlocks (nativeHost E) cfg blocks).store =
      (run (step (nativeHost E) cfg) (.genesis (nativeHost E)) (blocks.flatMap blockOps)).store := rfl
  have hanon : MAX_FCMP_ANON_SET = 64 := rfl
  have hnext := slots_eq_next hs
  obtain ⟨hbest, hroot, hcount⟩ := @tipAnswers_node l Point _ _ _ E cfg blocks order serves hheight
  refine refresh_new_eq_ok hbest hroot hcount ?_
  rw [snapshot_node (by omega), snapshot_of_feed hs mem_feed_iff hslots hlegible]
  rfl

/-- With at most 64 slots there are few outputs. -/
theorem few_outputs
    (hslots : (afterBlocks (nativeHost E) cfg blocks).store.treeSlots ≤ MAX_FCMP_ANON_SET) :
    (afterBlocks (nativeHost E) cfg blocks).store.nextOutputIndex < 2 ^ 32 := by
  have hs : (afterBlocks (nativeHost E) cfg blocks).store =
      (run (step (nativeHost E) cfg) (.genesis (nativeHost E)) (blocks.flatMap blockOps)).store := rfl
  have hanon : MAX_FCMP_ANON_SET = 64 := rfl
  have hnext := slots_eq_next hs
  omega

/-- The command up to the selection: the selection decides. -/
theorem prepareSend_node (hheight : blocks.length < 2 ^ 32)
    (hslots : (afterBlocks (nativeHost E) cfg blocks).store.treeSlots ≤ MAX_FCMP_ANON_SET)
    (hlegible : Legible E.blake2_256 (slotsOf (afterBlocks (nativeHost E) cfg blocks).store)) :
    prepareSend E w amount (.ofEndpoint (endpointAt E cfg blocks order serves)) = (do
      let chosen ← (selectInputs (unspentAt E cfg blocks order w) blocks.length
        (snapshotAt E (afterBlocks (nativeHost E) cfg blocks).store) amount
        cfg.minFeePerByte).mapError .selection
      .ok ⟨outputsInRange order (afterBlocks (nativeHost E) cfg blocks).store 0 blocks.length,
        snapshotAt E (afterBlocks (nativeHost E) cfg blocks).store,
        ⟨blocks.length, some (snapshotAt E (afterBlocks (nativeHost E) cfg blocks).store)⟩, chosen.1,
        chosen.2⟩) := by
  obtain ⟨hbest, -, -⟩ := @tipAnswers_node l Point _ _ _ E cfg blocks order serves hheight
  obtain ⟨hall, hsplit⟩ :=
    @feed_node l Point _ _ _ E cfg blocks order serves w hheight (few_outputs hslots)
  have hrefresh := @refresh_node l Point _ _ _ E cfg blocks order serves hheight hslots hlegible
  exact prepareSend_of_refreshed hbest minFeePerByte_node hall hsplit hrefresh

/-- The second look finds the tip where it was. -/
theorem recheckSend_node (hheight : blocks.length < 2 ^ 32) {p : SendState}
    (hslots : (afterBlocks (nativeHost E) cfg blocks).store.treeSlots ≤ MAX_FCMP_ANON_SET)
    (hcache : p.cache =
      ⟨blocks.length, some (snapshotAt E (afterBlocks (nativeHost E) cfg blocks).store)⟩) :
    recheckSend E.blake2_256 (.ofEndpoint (endpointAt E cfg blocks order serves)) p =
      .ok p.membership := by
  obtain ⟨hbest, hroot, hcount⟩ := @tipAnswers_node l Point _ _ _ E cfg blocks order serves hheight
  have hanon : MAX_FCMP_ANON_SET = 64 := rfl
  have hback : (UInt64.ofNat (afterBlocks (nativeHost E) cfg blocks).store.treeSlots).toNat =
      (afterBlocks (nativeHost E) cfg blocks).store.treeSlots := by
    rw [UInt64.toNat_ofNat', Nat.mod_eq_of_lt (by omega)]
  have hlen : (snapshotAt E (afterBlocks (nativeHost E) cfg blocks).store).digests.length =
      (afterBlocks (nativeHost E) cfg blocks).store.treeSlots := by
    rw [snapshotAt, List.length_map, length_slotsOf]
  have hsame : p.cache.needsResync blocks.length
      (afterBlocks (nativeHost E) cfg blocks).store.membershipRoot
      (UInt64.ofNat (afterBlocks (nativeHost E) cfg blocks).store.treeSlots).toNat = false := by
    rw [hcache, hback]
    exact needsResync_self hlen
  show ((RpcClient.tipAnswers (endpointAt E cfg blocks order serves)).bestNumber.mapError
    SendFailure.rpc >>= _) = _
  rw [hbest]
  show ((RpcClient.tipAnswers (endpointAt E cfg blocks order serves)).membershipRoot.mapError
    SendFailure.rpc >>= _) = _
  rw [hroot]
  show ((RpcClient.tipAnswers (endpointAt E cfg blocks order serves)).treeSlots.mapError
    SendFailure.rpc >>= _) = _
  rw [hcount]
  show (if p.cache.needsResync blocks.length _ _ = true then _ else _) = _
  rw [hsame, if_neg Bool.false_ne_true]

section Texts

variable {seedText destText : Bytes} {seed : Bytes32} {dest : StealthAddress} {answers : SendAnswers}
variable (rand : TransferRandomness l)

/-- A seed that does not parse is the first thing noticed. -/
theorem send_of_seedText {e : TextError} (h : parseSeed seedText = .error e) :
    send E rand seedText destText amount answers = .error (.text e) := by
  rw [send, h]
  rfl

theorem send_of_destText {e : TextError} (hseed : parseSeed seedText = .ok seed)
    (h : parseAddress destText = .error e) :
    send E rand seedText destText amount answers = .error (.text e) := by
  rw [send, hseed, h]
  rfl

variable (hseed : parseSeed seedText = .ok seed) (hdest : parseAddress destText = .ok dest)
include hseed hdest

theorem send_of_error {e : SendFailure}
    (h : prepareSend E (fromSeed E seed) amount answers = .error e) :
    send E rand seedText destText amount answers = .error e := by
  rw [send, hseed, hdest]
  show (prepareSend E (fromSeed E seed) amount answers >>= _) = _
  rw [h]
  rfl

theorem send_of_prepare {p : SendState} {snap : MembershipSnapshot}
    (h : prepareSend E (fromSeed E seed) amount answers = .ok p)
    (hsnap : recheckSend E.blake2_256 answers p = .ok snap) :
    send E rand seedText destText amount answers = (do
      let tx ← (buildTransferMulti E (fromSeed E seed) rand p.selected snap dest amount
        p.fee).mapError .build
      .ok (tx, p.selected)) := by
  rw [send, hseed, hdest]
  show (prepareSend E (fromSeed E seed) amount answers >>= _) = _
  rw [h, ok_bind, hsnap]
  rfl

end Texts

/-- Whatever is selected behind a chain can be spent in its snapshot. -/
theorem canSpend_of_selectInputs (hE : E.Canonical) (hS : E.CanonicalScalars) (hZ : E.ZeroScalar)
    (hslots : (afterBlocks (nativeHost E) cfg blocks).store.treeSlots ≤ MAX_FCMP_ANON_SET)
    (hlegible : Legible E.blake2_256 (slotsOf (afterBlocks (nativeHost E) cfg blocks).store))
    {selected : List OwnedOutput} {fee : UInt64}
    (h : selectInputs (unspentAt E cfg blocks order w) blocks.length
      (snapshotAt E (afterBlocks (nativeHost E) cfg blocks).store) amount cfg.minFeePerByte =
        .ok (selected, fee)) (hne : selected ≠ []) (hmax : selected.length ≤ MAX_FCMP_INPUTS) :
    checkInputs E selected (snapshotAt E (afterBlocks (nativeHost E) cfg blocks).store) = .ok () ∧
      CanSpend E (snapshotAt E (afterBlocks (nativeHost E) cfg blocks).store) selected ∧
      ∀ o ∈ selected,
        (afterBlocks (nativeHost E) cfg blocks).store.keyImages.containsKey o.keyImage = false := by
  have hs : (afterBlocks (nativeHost E) cfg blocks).store =
      (run (step (nativeHost E) cfg) (.genesis (nativeHost E)) (blocks.flatMap blockOps)).store := rfl
  have hanon : MAX_FCMP_ANON_SET = 64 := rfl
  have hnext := slots_eq_next hs
  have hbuilt : BuiltFrom E.blake2_256
      (outputsInRange order (afterBlocks (nativeHost E) cfg blocks).store 0 blocks.length)
      (snapshotAt E (afterBlocks (nativeHost E) cfg blocks).store) := by
    have hsnap := snapshot_of_feed hs (@mem_feed_iff l Point _ _ _ E cfg blocks order) hslots hlegible
    rw [digestsOf_run hs] at hsnap
    exact hsnap
  obtain ⟨rfl, -, -, -⟩ := selectInputs_eq_ok.mp h
  have hranked : ∀ o ∈ SelectionLemmas.run (unspentAt E cfg blocks order w) blocks.length
      (snapshotAt E (afterBlocks (nativeHost E) cfg blocks).store) amount cfg.minFeePerByte,
      o ∈ unspentAt E cfg blocks order w ∧
        isAdmitted (snapshotAt E (afterBlocks (nativeHost E) cfg blocks).store) o = true := by
    intro o ho
    obtain ⟨howned, -, hlisted⟩ := mem_ranked.mp (LargestFirst.subset_takeUntil _ _ _ ho)
    exact ⟨howned, hlisted⟩
  have hunspent : ∀ o ∈ unspentAt E cfg blocks order w,
      o ∈ scan E w (outputsInRange order (afterBlocks (nativeHost E) cfg blocks).store 0
        blocks.length) ∧
      (afterBlocks (nativeHost E) cfg blocks).store.keyImages.containsKey o.keyImage = false := by
    intro o ho
    rw [unspentAt, Wallet.splitBySpent, List.partition_eq_filter_filter] at ho
    obtain ⟨hscan, hfresh⟩ := List.mem_filter.mp ho
    exact ⟨hscan, (Bool.not_eq_true' _).mp hfresh⟩
  have hcheck := checkInputs_eq_ok (rebuild_eq_ok hbuilt).2.2.2 hne hmax fun o ho => (hranked o ho).2
  refine ⟨hcheck, canSpend_of_feed hs hE hS hZ ?_ hbuilt
    (fun o ho => (hunspent o (hranked o ho).1).1) hcheck, fun o ho => (hunspent o (hranked o ho).1).2⟩
  intro x hx
  exact ((mem_storedOutputs (by omega)).mp (mem_feed_iff x |>.mp hx)).2

section Still

variable {seedText destText : Bytes} {seed : Bytes32} {dest : StealthAddress}
variable (hheight : blocks.length < 2 ^ 32) (rand : TransferRandomness l)
  (hseed : parseSeed seedText = .ok seed) (hdest : parseAddress destText = .ok dest)
include hheight hseed hdest

/-- A tree that is too large stops the command before the selection. -/
theorem send_of_crowded
    (hcrowded : MAX_FCMP_ANON_SET < (afterBlocks (nativeHost E) cfg blocks).store.treeSlots)
    (hfits : 32 * (afterBlocks (nativeHost E) cfg blocks).store.nextOutputIndex + 5 < 2 ^ 32) :
    send E rand seedText destText amount (.ofEndpoint (endpointAt E cfg blocks order serves)) =
      .error (.membership (.wallet .treeTooLarge)) := by
  have hs : (afterBlocks (nativeHost E) cfg blocks).store =
      (run (step (nativeHost E) cfg) (.genesis (nativeHost E)) (blocks.flatMap blockOps)).store := rfl
  obtain ⟨hbest, hroot, hcount⟩ := @tipAnswers_node l Point _ _ _ E cfg blocks order serves hheight
  have hfew : (afterBlocks (nativeHost E) cfg blocks).store.nextOutputIndex < 2 ^ 32 := by omega
  obtain ⟨hall, hsplit⟩ :=
    @feed_node l Point _ _ _ E cfg blocks order serves (fromSeed E seed) hheight hfew
  refine send_of_error rand hseed hdest (prepareSend_of_lost hbest minFeePerByte_node hall hsplit ?_)
  refine refresh_new_eq_error hbest hroot hcount ?_
  show membershipSnapshot E.blake2_256
    (RpcClient.snapshotAnswers (endpointAt E cfg blocks order serves)) _ = _
  rw [snapshot_node hfits, snapshot_of_crowded hs hcrowded]
  rfl

variable (hslots : (afterBlocks (nativeHost E) cfg blocks).store.treeSlots ≤ MAX_FCMP_ANON_SET)
  (hlegible : Legible E.blake2_256 (slotsOf (afterBlocks (nativeHost E) cfg blocks).store))
include hslots hlegible

theorem send_of_refused {e : SendError}
    (hchoice : selectInputs (unspentAt E cfg blocks order (fromSeed E seed)) blocks.length
      (snapshotAt E (afterBlocks (nativeHost E) cfg blocks).store) amount cfg.minFeePerByte = .error e) :
    send E rand seedText destText amount (.ofEndpoint (endpointAt E cfg blocks order serves)) =
      .error (.selection e) := by
  refine send_of_error rand hseed hdest ?_
  rw [prepareSend_node hheight hslots hlegible, hchoice]
  rfl

variable {selected : List OwnedOutput} {fee : UInt64}
  (hchoice : selectInputs (unspentAt E cfg blocks order (fromSeed E seed)) blocks.length
    (snapshotAt E (afterBlocks (nativeHost E) cfg blocks).store) amount cfg.minFeePerByte =
      .ok (selected, fee))
include hchoice

/-- A selection goes to the builder with the snapshot of the node. -/
theorem send_of_choice :
    send E rand seedText destText amount (.ofEndpoint (endpointAt E cfg blocks order serves)) = (do
      let tx ← (buildTransferMulti E (fromSeed E seed) rand selected
        (snapshotAt E (afterBlocks (nativeHost E) cfg blocks).store) dest amount fee).mapError .build
      .ok (tx, selected)) := by
  have hstate : prepareSend E (fromSeed E seed) amount
      (.ofEndpoint (endpointAt E cfg blocks order serves)) =
      .ok ⟨outputsInRange order (afterBlocks (nativeHost E) cfg blocks).store 0 blocks.length,
        snapshotAt E (afterBlocks (nativeHost E) cfg blocks).store,
        ⟨blocks.length, some (snapshotAt E (afterBlocks (nativeHost E) cfg blocks).store)⟩, selected,
        fee⟩ := by
    rw [prepareSend_node hheight hslots hlegible, hchoice]
    rfl
  exact send_of_prepare rand hseed hdest hstate (recheckSend_node hheight hslots rfl)

theorem send_of_skeleton {e : WalletError}
    (h : skeletonTransfer E (fromSeed E seed) rand selected
      (snapshotAt E (afterBlocks (nativeHost E) cfg blocks).store) dest amount fee = .error e) :
    send E rand seedText destText amount (.ofEndpoint (endpointAt E cfg blocks order serves)) =
      .error (.build (.wallet e)) := by
  rw [send_of_choice hheight rand hseed hdest hslots hlegible hchoice, build_eq_error h]
  rfl

/-- To a destination with two points a selection that fits is sent. -/
theorem exists_send (hE : E.Canonical) (hS : E.CanonicalScalars) (hZ : E.ZeroScalar)
    (hR : E.RangeComplete) (hview : ∃ p, E.decompress dest.viewPublic = some p)
    (hspend : ∃ p, E.decompress dest.spendPublic = some p) (hfits : FitsTransfer selected amount fee) :
    ∃ tx, send E rand seedText destText amount (.ofEndpoint (endpointAt E cfg blocks order serves)) =
        .ok (tx, selected) ∧
      buildTransferMulti E (fromSeed E seed) rand selected
        (snapshotAt E (afterBlocks (nativeHost E) cfg blocks).store) dest amount fee = .ok tx ∧
      Built E (snapshotAt E (afterBlocks (nativeHost E) cfg blocks).store) selected fee tx := by
  obtain ⟨hne, hmax, htotal, hneeded⟩ := hfits
  obtain ⟨-, hcan, -⟩ := canSpend_of_selectInputs hE hS hZ hslots hlegible hchoice hne hmax
  obtain ⟨tx, hbuild, hbuilt⟩ := buildTransferMulti_built hE hS hR (fromSeed E seed) rand hcan hview
    hspend (covered_of_selectInputs hchoice hneeded) htotal
  refine ⟨tx, ?_, hbuild, hbuilt⟩
  rw [send_of_choice hheight rand hseed hdest hslots hlegible hchoice, hbuild]
  rfl

end Still

/-- What is sent in the snapshot of the node pays the node's floor and names its root. -/
theorem verify_sent_iff (hE : E.Canonical) (hS : E.CanonicalScalars) (hZ : E.ZeroScalar)
    (hslots : (afterBlocks (nativeHost E) cfg blocks).store.treeSlots ≤ MAX_FCMP_ANON_SET)
    (hlegible : Legible E.blake2_256 (slotsOf (afterBlocks (nativeHost E) cfg blocks).store))
    {rand : TransferRandomness l} {dest : StealthAddress} {selected : List OwnedOutput} {fee : UInt64}
    (hchoice : selectInputs (unspentAt E cfg blocks order w) blocks.length
      (snapshotAt E (afterBlocks (nativeHost E) cfg blocks).store) amount cfg.minFeePerByte =
        .ok (selected, fee)) (hne : selected ≠ []) (hmax : selected.length ≤ MAX_FCMP_INPUTS)
    {tx : TransferTx} (hbuild : buildTransferMulti E w rand selected
      (snapshotAt E (afterBlocks (nativeHost E) cfg blocks).store) dest amount fee = .ok tx)
    (hbuilt : Built E (snapshotAt E (afterBlocks (nativeHost E) cfg blocks).store) selected fee tx) :
    verifyTransfer (nativeHost E) cfg (afterBlocks (nativeHost E) cfg blocks).number
        (afterBlocks (nativeHost E) cfg blocks).store tx = .ok () ↔
      (selected.map OwnedOutput.keyImage).Nodup ∧ NoIdentity E tx := by
  obtain ⟨-, hcan, hunspent⟩ := canSpend_of_selectInputs hE hS hZ hslots hlegible hchoice hne hmax
  rw [verifyTransfer_iff, transferValid_iff_of_built hE hbuilt hcan.owned hcan.inputs_ne]
  constructor
  · intro hcurrent
    exact ⟨hcurrent.distinct, hcurrent.points⟩
  · rintro ⟨hdistinct, hpoints⟩
    obtain ⟨pairs, hprepared⟩ := hbuilt.prepared
    refine ⟨?_, hslots, ?_, hunspent, hdistinct, hpoints⟩
    · obtain ⟨-, hfee, -, -⟩ := SelectionLemmas.selectInputs_eq_ok.mp hchoice
      rw [hprepared.fee_eq, hfee]
      exact saturatingMul_encodedSize_le (UInt64.le_refl _) (length_encode_le_estimate hbuild)
    · rw [membershipRootAccepted_iff, hprepared.root]
      exact .inl rfl

end Command

end SendLemmas

end Wallet

end Kohl
