import Kohl.Wallet.Client
import Kohl.Wallet.Selection

/-!
# The Send command

`wallet/src/main.rs` from the words on the command line to the transfer it hands to the node. The command
asks the node many times, and the chain may move between any two of the calls; so an answer is arbitrary
here, and only what a result needs of it is assumed.

* `refresh_origin`: a snapshot was built from the outputs the command was told of.
* `prepareSend_eq_ok`, `recheckSend_eq_ok`, `send_eq_ok`: what a submitted transfer takes from the answers.
-/

namespace Kohl

open ByteLib Run Pallet MembershipTree Fcmp Stealth RuntimeApi

namespace Wallet

/-! ## The command -/

/-- The answers the command works with, in the order of its calls; a key image is asked for by the place of
its output among the owned ones. -/
structure SendAnswers where
  bestNumber : Except String ℕ
  minFeePerByte : Except String UInt64
  outputsInRange : ℕ → ℕ → Except String (List Entry)
  isKeyImageSpent : ℕ → Bytes32 → Except String Bool
  tip : TipAnswers
  snapshot : SnapshotAnswers
  recheck : TipAnswers
  tipAgain : TipAnswers
  snapshotAgain : SnapshotAnswers

/-- All answers of one endpoint. -/
def SendAnswers.ofEndpoint (rpc : Endpoint) : SendAnswers where
  bestNumber := RpcClient.bestNumber rpc
  minFeePerByte := RpcClient.minFeePerByte rpc
  outputsInRange := RpcClient.outputsInRange rpc
  isKeyImageSpent _ := RpcClient.isKeyImageSpent rpc
  tip := RpcClient.tipAnswers rpc
  snapshot := RpcClient.snapshotAnswers rpc
  recheck := RpcClient.tipAnswers rpc
  tipAgain := RpcClient.tipAnswers rpc
  snapshotAgain := RpcClient.snapshotAnswers rpc

/-- How the command ends without a transfer. -/
inductive SendFailure
  | text (e : TextError)
  | rpc (text : String)
  | membership (e : RpcFailure)
  | selection (e : SendError)
  | build (e : BuildFailure)

/-- The loop over the owned outputs, with the unspent and the spent ones so far. -/
def splitBySpentLoop (isKeyImageSpent : ℕ → Bytes32 → Except String Bool) :
    List (OwnedOutput × ℕ) → List OwnedOutput → List OwnedOutput →
      Except String (List OwnedOutput × List OwnedOutput)
  | [], unspent, spent => .ok (unspent, spent)
  | (o, i) :: rest, unspent, spent => do
    if ← isKeyImageSpent i o.keyImage then
      splitBySpentLoop isKeyImageSpent rest unspent (spent ++ [o])
    else splitBySpentLoop isKeyImageSpent rest (unspent ++ [o]) spent

def RpcClient.splitBySpent (isKeyImageSpent : ℕ → Bytes32 → Except String Bool)
    (owned : List OwnedOutput) : Except String (List OwnedOutput × List OwnedOutput) :=
  splitBySpentLoop isKeyImageSpent owned.zipIdx [] []

variable {l : ℕ} {Point : Type} [AddCommGroup Point] [Module (ZMod l) Point]

/-- What the command has before it asks for the tip again: the outputs it was told, the cache with its
snapshot, and the inputs with their fee. -/
structure SendState where
  outputs : List Entry
  membership : MembershipSnapshot
  cache : MembershipCache
  selected : List OwnedOutput
  fee : UInt64

/-- The command up to the selection. -/
def prepareSend (E : CryptoLib l Point) (w : Wallet E) (amount : UInt64) (answers : SendAnswers) :
    Except SendFailure SendState := do
  let best ← answers.bestNumber.mapError .rpc
  let feePerByte ← answers.minFeePerByte.mapError .rpc
  let all ← (answers.outputsInRange 0 best).mapError .rpc
  let split ← (RpcClient.splitBySpent answers.isKeyImageSpent (scan E w all)).mapError .rpc
  let refreshed := refreshMembershipCache E.blake2_256 answers.tip answers.snapshot all .new
  let membership ← refreshed.1.mapError .membership
  let chosen ← (selectInputs split.1 best membership amount feePerByte).mapError .selection
  .ok ⟨all, membership, refreshed.2, chosen.1, chosen.2⟩

/-- The snapshot the transfer is proved in: the first one, unless the tip has moved. -/
def recheckSend (hash : Bytes → Bytes32) (answers : SendAnswers) (p : SendState) :
    Except SendFailure MembershipSnapshot := do
  let tip2 ← answers.recheck.bestNumber.mapError .rpc
  let root2 ← answers.recheck.membershipRoot.mapError .rpc
  let slots2 ← answers.recheck.treeSlots.mapError .rpc
  if p.cache.needsResync tip2 root2 slots2.toNat then
    (refreshMembershipCache hash answers.tipAgain answers.snapshotAgain p.outputs
      p.cache).1.mapError .membership
  else .ok p.membership

variable [DecidableEq Point]

/-- The transfer the command submits, with the outputs it spends. -/
def send (E : CryptoLib l Point) (rand : TransferRandomness l) (seedText destText : Bytes) (amount : UInt64)
    (answers : SendAnswers) : Except SendFailure (TransferTx × List OwnedOutput) := do
  let seed ← (parseSeed seedText).mapError .text
  let w := fromSeed E seed
  let dest ← (parseAddress destText).mapError .text
  let p ← prepareSend E w amount answers
  let membership ← recheckSend E.blake2_256 answers p
  let tx ← (buildTransferMulti E w rand p.selected membership dest amount p.fee).mapError .build
  .ok (tx, p.selected)

/-! ## What the answers put into a transfer -/

namespace SendLemmas

open CallLemmas CacheLemmas MembershipCache BuildLemmas SpecLemmas

variable {hash : Bytes → Bytes32} {outputs : List Entry} {snap : MembershipSnapshot}

theorem mapError_ok {ε ε' α : Type} (a : α) (f : ε → ε') :
    (Except.ok a : Except ε α).mapError f = .ok a := rfl

theorem mapError_eq_ok {ε ε' α : Type} {x : Except ε α} {f : ε → ε'} {a : α} :
    x.mapError f = .ok a ↔ x = .ok a := by
  cases x with
  | error e =>
    constructor
    · intro h
      cases h
    · intro h
      cases h
  | ok b =>
    show Except.ok b = .ok a ↔ _
    rw [Except.ok.injEq, Except.ok.injEq]

/-- What counts as unspent was owned. -/
theorem mem_of_splitBySpent {isKeyImageSpent : ℕ → Bytes32 → Except String Bool}
    {owned : List OwnedOutput} {split : List OwnedOutput × List OwnedOutput}
    (h : RpcClient.splitBySpent isKeyImageSpent owned = .ok split) : ∀ o ∈ split.1, o ∈ owned := by
  have hloop : ∀ (rest : List (OwnedOutput × ℕ)) (unspent spent : List OwnedOutput),
      splitBySpentLoop isKeyImageSpent rest unspent spent = .ok split →
      ∀ o ∈ split.1, o ∈ unspent ∨ o ∈ rest.map Prod.fst := by
    intro rest
    induction rest with
    | nil =>
      intro unspent spent h o ho
      cases h
      exact .inl ho
    | cons x rest ih =>
      intro unspent spent h o ho
      obtain ⟨flag, -, h⟩ := bind_eq_ok.mp h
      cases flag with
      | true => exact (ih _ _ h o ho).imp_right (List.mem_cons_of_mem _)
      | false =>
        rcases ih _ _ h o ho with hmem | hmem
        · rcases List.mem_append.mp hmem with hmem | hmem
          · exact .inl hmem
          · rw [List.mem_singleton.mp hmem]
            exact .inr List.mem_cons_self
        · exact .inr (List.mem_cons_of_mem _ hmem)
  intro o ho
  have hmem := (hloop _ _ _ h o ho).resolve_left List.not_mem_nil
  rw [List.zipIdx_map_fst] at hmem
  exact hmem

/-- What the map of the outputs holds was among them. -/
theorem mem_of_get_byIndex {i : UInt64} {out : StoredOutput} (h : (byIndex outputs).get i = some out) :
    (i, out) ∈ outputs := by
  have hfold : ∀ (rest : List Entry) (m : StorageMap UInt64 StoredOutput),
      (rest.foldl (fun m x => m.insert x.1 x.2) m).get i = some out →
      (i, out) ∈ rest ∨ m.get i = some out := by
    intro rest
    induction rest with
    | nil => exact fun m h => .inr h
    | cons x rest ih =>
      intro m h
      rcases ih _ h with hmem | hget
      · exact .inl (List.mem_cons_of_mem _ hmem)
      · by_cases hx : i = x.1
        · rw [hx, StorageMap.get_insert_self, Option.some.injEq] at hget
          rw [hx, ← hget]
          exact .inl List.mem_cons_self
        · rw [StorageMap.get_insert_ne hx] at hget
          exact .inr hget
  rcases hfold _ _ h with hmem | hnone
  · exact hmem
  · cases hnone

/-- A member of a rebuilt ring is an output of the map, under its index. -/
theorem get_of_rebuildLoop {m : StorageMap UInt64 StoredOutput} {digests : List (Bytes32 × ℕ)}
    {ring : List RingMember} (h : rebuildLoop hash m digests = .ok ring) :
    ∀ x ∈ ring, ∃ out, m.get x.treeIndex = some out ∧ out.oneTimeKey = x.oneTimeKey ∧
      out.commitment = x.commitment := by
  induction digests generalizing ring with
  | nil =>
    cases h
    exact fun x hx => absurd hx List.not_mem_nil
  | cons d digests ih =>
    rw [rebuildLoop] at h
    split at h
    · exact ih h
    split at h
    · cases h
    next out hout =>
    split at h
    · cases h
    cases hrest : rebuildLoop hash m digests with
    | error e =>
      rw [hrest] at h
      cases h
    | ok rest =>
      rw [hrest] at h
      cases h
      intro x hx
      rcases List.mem_cons.mp hx with rfl | hx
      · exact ⟨out, hout, rfl, rfl⟩
      · exact ih hrest x hx

/-- The members of a snapshot are among the outputs it was built from. -/
theorem output_of_member {root : Bytes32} {digests : List Bytes32}
    (h : snapshotFromFrontier hash root digests outputs = .ok snap) :
    ∀ x ∈ snap.admitted, ∃ out, (x.treeIndex, out) ∈ outputs ∧ out.oneTimeKey = x.oneTimeKey ∧
      out.commitment = x.commitment := by
  unfold snapshotFromFrontier rebuild at h
  split at h
  · cases h
  split at h
  · cases h
  split at h
  · cases h
  next admitted hloop =>
  cases h
  intro x hx
  obtain ⟨out, hout, hkeys⟩ := get_of_rebuildLoop hloop x hx
  exact ⟨out, mem_of_get_byIndex hout, hkeys⟩

/-- A snapshot for which the outputs give its ring. -/
def BuiltFrom (hash : Bytes → Bytes32) (outputs : List Entry) (snap : MembershipSnapshot) : Prop :=
  snapshotFromFrontier hash snap.root snap.digests outputs = .ok snap

/-- A refresh leaves its snapshot in the cache; it was there before, or it was built from the outputs under
the root that was asked for. -/
theorem refresh_origin {tip : TipAnswers} {answers : SnapshotAnswers} {cache : MembershipCache}
    (h : (refreshMembershipCache hash tip answers outputs cache).1 = .ok snap) :
    (refreshMembershipCache hash tip answers outputs cache).2.snapshot = some snap ∧
      (cache.snapshot = some snap ∨
        answers.membershipRoot = .ok snap.root ∧ BuiltFrom hash outputs snap) := by
  unfold refreshMembershipCache at h ⊢
  split at h
  · next height root slots hheight hroot hslots =>
    unfold refreshAt at h ⊢
    dsimp only at h ⊢
    split at h
    · next hneeds =>
      rw [if_pos hneeds]
      cases hfetch : membershipSnapshot hash answers outputs with
      | error e =>
        rw [hfetch] at h
        cases h
      | ok fetched =>
        obtain ⟨hanswer, -, hbuilt⟩ := membershipSnapshot_eq_ok hfetch
        have hagain := (@rebuild_fst hash MembershipCache.new 0 fetched.root fetched.digests
          (byIndex outputs) (cache.resyncIfReorged height root slots.toNat).2 height).trans hbuilt
        obtain ⟨hcache, -, -, -⟩ := rebuild_eq_ok hagain
        simp only [hfetch, hagain, hcache, refreshAt.populated, Except.ok.injEq] at h ⊢
        subst h
        exact ⟨rfl, .inr ⟨hanswer, hbuilt⟩⟩
    · next hneeds =>
      rw [if_neg hneeds]
      have hkept : (cache.resyncIfReorged height root slots.toNat).2.snapshot = some snap := by
        unfold refreshAt.populated at h
        split at h
        · next kept hkept =>
          cases h
          exact hkept
        · cases h
      refine ⟨hkept, .inl ?_⟩
      unfold resyncIfReorged at hkept
      split at hkept
      · cases hkept
      · exact hkept
  · cases h
  · cases h
  · cases h

/-! ## What a submitted transfer takes from the answers -/

section Sent

variable {l : ℕ} {Point : Type} [AddCommGroup Point] [Module (ZMod l) Point]
variable {E : CryptoLib l Point} {w : Wallet E} {rand : TransferRandomness l} {amount : UInt64}
  {answers : SendAnswers} {p : SendState}

/-- What the command has prepared: a selection among the owned outputs it was told of, and a snapshot that
was built from them, which is also the one of its cache. -/
theorem prepareSend_eq_ok (h : prepareSend E w amount answers = .ok p) :
    ∃ best feePerByte owned, answers.bestNumber = .ok best ∧ answers.minFeePerByte = .ok feePerByte ∧
      answers.outputsInRange 0 best = .ok p.outputs ∧
      (∀ o ∈ owned, o ∈ scan E w p.outputs) ∧
      selectInputs owned best p.membership amount feePerByte = .ok (p.selected, p.fee) ∧
      answers.snapshot.membershipRoot = .ok p.membership.root ∧
      BuiltFrom E.blake2_256 p.outputs p.membership ∧ p.cache.snapshot = some p.membership := by
  unfold prepareSend at h
  obtain ⟨best, hbest, h⟩ := bind_eq_ok.mp h
  obtain ⟨feePerByte, hfee, h⟩ := bind_eq_ok.mp h
  obtain ⟨all, hall, h⟩ := bind_eq_ok.mp h
  obtain ⟨split, hsplit, h⟩ := bind_eq_ok.mp h
  obtain ⟨membership, hmembership, h⟩ := bind_eq_ok.mp h
  obtain ⟨chosen, hchosen, h⟩ := bind_eq_ok.mp h
  cases h
  obtain ⟨hcache, horigin⟩ := refresh_origin (mapError_eq_ok.mp hmembership)
  rcases horigin with hempty | ⟨hroot, hbuilt⟩
  · cases hempty
  exact ⟨best, feePerByte, split.1, mapError_eq_ok.mp hbest, mapError_eq_ok.mp hfee,
    mapError_eq_ok.mp hall, mem_of_splitBySpent (mapError_eq_ok.mp hsplit),
    mapError_eq_ok.mp hchosen, hroot, hbuilt, hcache⟩

/-- The snapshot behind the second look at the tip is the first one, or built anew from the same outputs. -/
theorem recheckSend_eq_ok {membership : MembershipSnapshot}
    (hcache : p.cache.snapshot = some p.membership)
    (h : recheckSend hash answers p = .ok membership) :
    membership = p.membership ∨
      answers.snapshotAgain.membershipRoot = .ok membership.root ∧
        BuiltFrom hash p.outputs membership := by
  unfold recheckSend at h
  obtain ⟨tip2, -, h⟩ := bind_eq_ok.mp h
  obtain ⟨root2, -, h⟩ := bind_eq_ok.mp h
  obtain ⟨slots2, -, h⟩ := bind_eq_ok.mp h
  split at h
  · obtain ⟨-, horigin⟩ := refresh_origin (mapError_eq_ok.mp h)
    rcases horigin with hkept | hfresh
    · rw [hcache, Option.some.injEq] at hkept
      exact .inl hkept.symm
    · exact .inr hfresh
  · cases h
    exact .inl rfl

theorem send_eq_ok [DecidableEq Point] {seedText destText : Bytes} {tx : TransferTx}
    {selected : List OwnedOutput}
    (h : send E rand seedText destText amount answers = .ok (tx, selected)) :
    ∃ seed dest p membership, parseSeed seedText = .ok seed ∧ parseAddress destText = .ok dest ∧
      prepareSend E (fromSeed E seed) amount answers = .ok p ∧
      recheckSend E.blake2_256 answers p = .ok membership ∧ selected = p.selected ∧
      buildTransferMulti E (fromSeed E seed) rand p.selected membership dest amount p.fee =
        .ok tx := by
  unfold send at h
  obtain ⟨seed, hseed, h⟩ := bind_eq_ok.mp h
  obtain ⟨dest, hdest, h⟩ := bind_eq_ok.mp h
  obtain ⟨p, hp, h⟩ := bind_eq_ok.mp h
  obtain ⟨membership, hmembership, h⟩ := bind_eq_ok.mp h
  obtain ⟨tx', htx, h⟩ := bind_eq_ok.mp h
  cases h
  exact ⟨seed, dest, p, membership, mapError_eq_ok.mp hseed, mapError_eq_ok.mp hdest, hp, hmembership,
    rfl, mapError_eq_ok.mp htx⟩

end Sent

end SendLemmas

end Wallet

end Kohl
