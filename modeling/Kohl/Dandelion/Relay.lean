import Kohl.Dandelion.Node
import Kohl.Lib.Trace
import Mathlib.Algebra.BigOperators.Ring.Finset
import Mathlib.Algebra.Order.BigOperators.Group.Finset
import Mathlib.Algebra.Order.BigOperators.Group.List

/-!
# How often a transaction is relayed

A stem message makes the worker relay the transaction, and so does the notification of the inner pool
that the transaction was imported. The routes of the nodes may form a cycle; what ends the relaying is the
inner pool, which takes a transaction in once.

* `load_step`: a step sends no more than it took in.
* `relays_bounded`: in a network of any nodes, with any messages between them, a node relays a transaction
  at most twice for every time it comes into the pool.
-/

namespace Kohl.Dandelion

open Run

variable {Hash PeerId : Type}

/-! ## What a step takes in and passes on -/

/-- The hash in an import notification. -/
def Event.announced : Event Hash PeerId → Option Hash
  | .poolImport hash _ => some hash
  | _ => none

/-- The hash that a submission has before the inner pool. -/
def Submission.offered : Submission Hash → Option Hash
  | .inner (hash :: _) => some hash
  | _ => none

/-- The hash of the stem message that is before the inner pool. -/
def Worker.submitted : Worker Hash PeerId → Option Hash
  | .submitting _ hash => some hash
  | _ => none

/-- The hash that the worker has on its way to another node. -/
def Worker.carried : Worker Hash PeerId → Option Hash
  | .entering _ hash => some hash
  | .importing hash _ => some hash
  | .forwarding hash _ => some hash
  | _ => none

/-- The hash of a stem message that the inner pool accepts. -/
def received (n : Node Hash PeerId) (m : Move Hash PeerId) : Option Hash :=
  match m.action with
  | .work true => n.worker.submitted
  | _ => none

/-- The hash in an import notification that the worker takes. -/
def announced (n : Node Hash PeerId) (m : Move Hash PeerId) : Option Hash :=
  match m.action, n.worker with
  | .event event, .idle => event.announced
  | _, _ => none

/-- The hash that the inner pool is given and accepts. -/
def accepts (n : Node Hash PeerId) (m : Move Hash PeerId) : Option Hash :=
  match m.action with
  | .submitLocal xt true => some xt
  | .resume i true => n.submissions[i]?.bind Submission.offered
  | .work true => n.worker.submitted
  | _ => none

/-- The hash that the inner pool drops. -/
def dropped (_ : Node Hash PeerId) (m : Move Hash PeerId) : Option Hash :=
  match m.action with
  | .drop hash => some hash
  | _ => none

variable [DecidableEq Hash]

/-- The hash that a step brings into the pool. -/
def imported (n : Node Hash PeerId) (m : Move Hash PeerId) : Option Hash :=
  (accepts n m).filter fun hash => hash ∉ n.pool

/-- The stem messages for `hash` that the node has sent. -/
def Node.relays (n : Node Hash PeerId) (hash : Hash) : ℕ := (n.sent.map Prod.snd).count hash

variable [DecidableEq PeerId]

/-- What the inner pool promises: it rejects what it has, and notifies of an import once. -/
structure PoolContract (O : Outside Hash PeerId) (n : Node Hash PeerId)
    (moves : List (Move Hash PeerId)) : Prop where
  rejects : ∀ x ∈ trace (Node.step O) n moves, ∀ hash ∈ accepts x.1 x.2, hash ∉ x.1.pool
  notifies : ∀ hash, (produced (Node.step O) announced n moves).count hash ≤
    (produced (Node.step O) imported n moves).count hash

namespace RelayLemmas

variable {O : Outside Hash PeerId} {n : Node Hash PeerId} {m : Move Hash PeerId} {hash : Hash}

/-- What has been sent or is on its way. -/
def load (hash : Hash) (n : Node Hash PeerId) : ℕ :=
  n.relays hash + n.worker.carried.toList.count hash

omit [DecidableEq PeerId] in
theorem load_of_frame {n' : Node Hash PeerId} (hsent : n'.sent = n.sent) (hworker : n'.worker = n.worker) :
    load hash n' = load hash n := by
  rw [load, load, Node.relays, Node.relays, hsent, hworker]

omit [DecidableEq PeerId] in
theorem importTx_frame (hash' : Hash) (accepted : Bool) :
    (n.importTx hash' accepted).sent = n.sent ∧ (n.importTx hash' accepted).worker = n.worker := by
  unfold Node.importTx
  split <;> exact ⟨rfl, rfl⟩

omit [DecidableEq PeerId] in
theorem load_le_of_frame {n' : Node Hash PeerId} {k : ℕ} (hsent : n'.sent = n.sent)
    (hworker : n'.worker = n.worker) : load hash n' ≤ load hash n + k :=
  (load_of_frame hsent hworker).le.trans (Nat.le_add_right _ _)

omit [DecidableEq PeerId] in
theorem resume_frame (it : Orders) (now i : ℕ) (accepted : Bool) :
    (n.resume O it now i accepted).sent = n.sent ∧ (n.resume O it now i accepted).worker = n.worker := by
  unfold Node.resume
  split
  · exact ⟨rfl, rfl⟩
  · exact ⟨rfl, rfl⟩
  · exact importTx_frame _ accepted
  · exact ⟨rfl, rfl⟩
  · exact ⟨rfl, rfl⟩

omit [DecidableEq PeerId] in
theorem submitLocal_frame (xt : Hash) (accepted : Bool) :
    (n.submitLocal xt accepted).sent = n.sent ∧ (n.submitLocal xt accepted).worker = n.worker := by
  unfold Node.submitLocal
  split
  · exact importTx_frame xt true
  · exact ⟨rfl, rfl⟩

/-- An event sends nothing, and the worker has a hash to pass on from an import notification only. -/
theorem load_handle {it : Orders} {now : ℕ} (hidle : n.worker = .idle) (event : Event Hash PeerId) :
    load hash (n.handle O it now event) ≤ load hash n + event.announced.toList.count hash := by
  have hdisconnect : ∀ peer, (n.disconnect O it now peer).sent = n.sent ∧
      (n.disconnect O it now peer).worker = n.worker := by
    intro peer
    unfold Node.disconnect
    split
    · exact ⟨rfl, rfl⟩
    · exact ⟨rfl, rfl⟩
  cases event with
  | notificationStreamOpened peer known =>
    unfold Node.handle
    dsimp only
    split
    · exact load_le_of_frame rfl rfl
    · exact load_le_of_frame rfl rfl
  | notificationStreamClosed peer => exact load_le_of_frame (hdisconnect peer).1 (hdisconnect peer).2
  | notificationReceived peer majorSyncing message =>
    unfold Node.handle
    dsimp only
    split
    · exact load_le_of_frame rfl rfl
    cases message with
    | none => exact load_le_of_frame rfl rfl
    | some hash' =>
      rw [load, load, hidle]
      exact Nat.le_refl _
  | peerConnected peer => exact load_le_of_frame rfl rfl
  | peerDisconnected peer => exact load_le_of_frame (hdisconnect peer).1 (hdisconnect peer).2
  | poolImport hash' majorSyncing =>
    unfold Node.handle
    dsimp only
    split
    · exact load_le_of_frame rfl rfl
    split
    · rw [load, load, hidle]
      exact Nat.le_refl _
    · exact load_le_of_frame rfl rfl
  | tick =>
    rw [load, load, hidle]
    exact Nat.le_refl _

omit [DecidableEq PeerId] in
/-- What the worker has sent it had on its way, and it had it from a stem message that was accepted. -/
theorem load_work {it : Orders} {routes : Iteration ((_ : PeerId) × String)} {now : ℕ}
    (accepted : Bool) : load hash (n.work O it routes now accepted) ≤ load hash n +
      (if accepted then n.worker.submitted else none).toList.count hash := by
  unfold Node.work
  cases hworker : n.worker with
  | idle => exact load_le_of_frame rfl rfl
  | submitting sender hash' =>
    cases accepted with
    | true =>
      have hframe := @importTx_frame _ _ _ n hash' true
      rw [load, load, hworker]
      simp [Node.relays, hframe.1, Worker.carried, Worker.submitted]
    | false =>
      rw [load, load, hworker]
      exact Nat.le_refl _
  | entering sender hash' =>
    rw [load, load, hworker]
    exact Nat.le_add_right _ _
  | importing hash' now' =>
    rw [load, load, hworker]
    exact Nat.le_add_right _ _
  | forwarding hash' decision =>
    dsimp only
    split
    · next peer _ =>
      unfold Node.sendStem
      split
      · rw [load, load, hworker]
        simp [Node.relays, Worker.carried, Worker.submitted]
      · rw [load, load, hworker]
        simp [Node.relays, Worker.carried, Worker.submitted]
    · rw [load, load, hworker]
      simp [Node.relays, Worker.carried, Worker.submitted]
  | fluffing hash' =>
    rw [load, load, hworker]
    exact Nat.le_add_right _ _
  | expiring keys =>
    cases keys with
    | nil =>
      rw [load, load, hworker]
      exact Nat.le_add_right _ _
    | cons key keys =>
      rw [load, load, hworker]
      exact Nat.le_add_right _ _

/-- A step sends no more than it took in. -/
theorem load_step : load hash (n.step O m) ≤ load hash n +
    ((received n m).toList.count hash + (announced n m).toList.count hash) := by
  obtain ⟨delay, orders, routes, action⟩ := m
  unfold Node.step
  dsimp only
  cases action with
  | submitAt source xts => exact load_le_of_frame rfl rfl
  | submitOne source xt => exact load_le_of_frame rfl rfl
  | submitAndWatch source xt => exact load_le_of_frame rfl rfl
  | submitLocal xt accepted =>
    have hframe := submitLocal_frame (n := { n with clock := n.clock + delay }) xt accepted
    exact load_le_of_frame hframe.1 hframe.2
  | resume i accepted =>
    have hframe := resume_frame (O := O) (n := { n with clock := n.clock + delay }) orders
      (n.clock + delay) i accepted
    exact load_le_of_frame hframe.1 hframe.2
  | event event =>
    dsimp only
    split
    · next hidle =>
      have hannounced : announced n ⟨delay, orders, routes, .event event⟩ = event.announced := by
        rw [announced, show n.worker = .idle from hidle]
      have hload := @load_handle _ _ _ _ O { n with clock := n.clock + delay } hash orders
        (n.clock + delay) hidle event
      rw [hannounced]
      exact hload.trans (Nat.add_le_add_left (Nat.le_add_left _ _) _)
    · exact load_le_of_frame rfl rfl
  | work accepted =>
    have hload := @load_work _ _ _ O { n with clock := n.clock + delay } hash orders routes
      (n.clock + delay) accepted
    refine hload.trans (Nat.add_le_add_left ?_ _)
    cases accepted with
    | true => exact Nat.le_add_right _ _
    | false => exact Nat.zero_le _
  | drop hash' => exact load_le_of_frame rfl rfl
  | ready order => exact load_le_of_frame rfl rfl
  | next => exact load_le_of_frame rfl rfl

/-! ## What the pool takes in -/

/-- One while the hash is not in the pool. -/
def absent (hash : Hash) (n : Node Hash PeerId) : ℕ := if hash ∈ n.pool then 0 else 1

omit [DecidableEq PeerId] in
theorem absent_le_of_pool {n' : Node Hash PeerId} {k : ℕ} (hpool : n'.pool = n.pool) :
    (none : Option Hash).toList.count hash + absent hash n' ≤ absent hash n + k := by
  rw [absent, absent, hpool]
  exact (Nat.zero_add _).le.trans (Nat.le_add_right _ _)

omit [DecidableEq PeerId] in
theorem absent_importTx (xt : Hash) :
    ((some xt).filter fun x => x ∉ n.pool).toList.count hash + absent hash (n.importTx xt true) ≤
      absent hash n := by
  have hpool : (n.importTx xt true).pool = n.pool.insert xt := rfl
  rw [absent, absent, hpool]
  by_cases hmem : xt ∈ n.pool
  · simp [Option.filter_some, hmem]
  · by_cases heq : hash = xt
    · subst heq
      simp [Option.filter_some, hmem]
    · simp [Option.filter_some, hmem, heq, Ne.symm heq]

omit [DecidableEq Hash] in
theorem pool_disconnect (it : Orders) (now : ℕ) (peer : PeerId) :
    (n.disconnect O it now peer).pool = n.pool := by
  unfold Node.disconnect
  split <;> rfl

omit [DecidableEq Hash] in
theorem pool_handle (it : Orders) (now : ℕ) (event : Event Hash PeerId) :
    (n.handle O it now event).pool = n.pool := by
  cases event with
  | notificationStreamOpened peer known =>
    unfold Node.handle
    dsimp only
    split <;> rfl
  | notificationStreamClosed peer => exact pool_disconnect it now peer
  | notificationReceived peer majorSyncing message =>
    unfold Node.handle
    dsimp only
    split
    · rfl
    · cases message <;> rfl
  | peerConnected peer => rfl
  | peerDisconnected peer => exact pool_disconnect it now peer
  | poolImport hash majorSyncing =>
    unfold Node.handle
    dsimp only
    split
    · rfl
    · split <;> rfl
  | tick => rfl

omit [DecidableEq PeerId] in
/-- A submission hands to the pool what it offers. -/
theorem absent_resume (it : Orders) (now i : ℕ) (accepted : Bool) :
    ((if accepted then n.submissions[i]?.bind Submission.offered else none).filter
      fun x => x ∉ n.pool).toList.count hash + absent hash (n.resume O it now i accepted) ≤
      absent hash n := by
  unfold Node.resume
  generalize n.submissions[i]? = submission
  rcases submission with - | ⟨- | ⟨mark, marks⟩, xts⟩ | ⟨- | ⟨xt, xts⟩⟩ | xt
  case some.inner.cons =>
    cases accepted with
    | true => exact absent_importTx (n := n) xt
    | false => exact absent_le_of_pool (k := 0) rfl
  all_goals
    cases accepted <;> exact absent_le_of_pool (k := 0) rfl

omit [DecidableEq PeerId] in
theorem pool_sendStem (peer : PeerId) (xt : Hash) : (n.sendStem peer xt).pool = n.pool := by
  unfold Node.sendStem
  split <;> rfl

omit [DecidableEq PeerId] in
/-- The worker hands to the pool what a stem message brought. -/
theorem absent_work (it : Orders) (routes : Iteration ((_ : PeerId) × String)) (now : ℕ)
    (accepted : Bool) :
    ((if accepted then n.worker.submitted else none).filter fun x => x ∉ n.pool).toList.count hash +
      absent hash (n.work O it routes now accepted) ≤ absent hash n := by
  unfold Node.work
  cases n.worker with
  | submitting sender xt =>
    cases accepted with
    | true => exact absent_importTx (n := n) xt
    | false => exact absent_le_of_pool (k := 0) rfl
  | forwarding xt decision =>
    rw [show (Worker.forwarding xt decision : Worker Hash PeerId).submitted = none from rfl, ite_self]
    dsimp only
    split
    · exact absent_le_of_pool (k := 0) (pool_sendStem _ _)
    · exact absent_le_of_pool (k := 0) rfl
  | expiring keys => cases keys <;> cases accepted <;> exact absent_le_of_pool (k := 0) rfl
  | _ => cases accepted <;> exact absent_le_of_pool (k := 0) rfl

omit [DecidableEq PeerId] in
theorem absent_erase (xt : Hash) :
    absent hash { n with pool := n.pool.erase xt } ≤ absent hash n + (some xt).toList.count hash := by
  rw [absent, absent]
  by_cases heq : hash = xt
  · subst heq
    simp
    split <;> omega
  · simp [List.mem_erase_of_ne heq]

/-- The pool takes a hash in when it is absent, and it is absent again once it is dropped. -/
theorem absent_step : (imported n m).toList.count hash + absent hash (n.step O m) ≤
    absent hash n + (dropped n m).toList.count hash := by
  obtain ⟨delay, orders, routes, action⟩ := m
  unfold Node.step imported
  dsimp only
  cases action with
  | submitAt source xts => exact absent_le_of_pool rfl
  | submitOne source xt => exact absent_le_of_pool rfl
  | submitAndWatch source xt => exact absent_le_of_pool rfl
  | submitLocal xt accepted =>
    cases accepted with
    | true => exact absent_importTx xt
    | false => exact absent_le_of_pool rfl
  | resume i accepted =>
    have hresume := @absent_resume _ _ _ O { n with clock := n.clock + delay } hash orders
      (n.clock + delay) i accepted
    cases accepted with
    | true => exact hresume
    | false => exact hresume
  | event event =>
    dsimp only
    split
    · exact absent_le_of_pool (pool_handle orders _ event)
    · exact absent_le_of_pool rfl
  | work accepted =>
    have hwork := @absent_work _ _ _ O { n with clock := n.clock + delay } hash orders routes
      (n.clock + delay) accepted
    cases accepted with
    | true => exact hwork
    | false => exact hwork
  | drop xt => exact (Nat.zero_add _).le.trans (absent_erase xt)
  | ready order => exact absent_le_of_pool rfl
  | next => exact absent_le_of_pool rfl

/-! ## Over a run -/

section Run

variable {moves : List (Move Hash PeerId)}

/-- What a node sends it was sent, or told of. -/
theorem relays_le (it : Orders) (cfg : DandelionConfig) (localId : String) (created : ℕ) :
    (run (Node.step O) (.start O it cfg localId created) moves).relays hash ≤
      (produced (Node.step O) received (.start O it cfg localId created) moves).count hash +
        (produced (Node.step O) announced (.start O it cfg localId created) moves).count hash := by
  have hsum := @sum_trace_le _ _ (Node.step O) (.start O it cfg localId created) moves (fun _ => 0)
    (fun x => (received x.1 x.2).toList.count hash + (announced x.1 x.2).toList.count hash) (load hash)
    fun x _ => (Nat.zero_add _).le.trans load_step
  have hstart : load hash (.start O it cfg localId created) = 0 := rfl
  rw [List.sum_map_add, ← count_produced, ← count_produced, hstart, Nat.zero_add] at hsum
  exact (Nat.le_add_right _ _).trans ((Nat.le_add_left _ _).trans hsum)

/-- A transaction comes into the pool again only after it was dropped. -/
theorem imported_le (it : Orders) (cfg : DandelionConfig) (localId : String) (created : ℕ) :
    (produced (Node.step O) imported (.start O it cfg localId created) moves).count hash ≤
      1 + (produced (Node.step O) dropped (.start O it cfg localId created) moves).count hash := by
  have hsum := @sum_trace_le _ _ (Node.step O) (.start O it cfg localId created) moves
    (fun x => (imported x.1 x.2).toList.count hash) (fun x => (dropped x.1 x.2).toList.count hash)
    (absent hash) fun x _ => absent_step
  have hstart : absent hash (.start O it cfg localId created) = 1 := rfl
  rw [← count_produced, ← count_produced, hstart] at hsum
  exact (Nat.le_add_right _ _).trans hsum

omit [DecidableEq Hash] [DecidableEq PeerId] in
theorem accepts_of_received (h : received n m = some hash) : accepts n m = some hash := by
  unfold received at h
  unfold accepts
  split at h
  · next haction =>
    rw [haction]
    exact h
  · cases h

theorem received_le_imported (h : PoolContract O n moves) :
    (produced (Node.step O) received n moves).count hash ≤
      (produced (Node.step O) imported n moves).count hash := by
  rw [count_produced, count_produced]
  refine List.sum_le_sum fun x hx => ?_
  cases hreceived : received x.1 x.2 with
  | none => exact Nat.zero_le _
  | some hash' =>
    have haccepts := accepts_of_received hreceived
    have hfresh := h.rejects x hx hash' haccepts
    rw [imported, haccepts, Option.filter_some, if_pos (decide_eq_true hfresh)]

end Run

end RelayLemmas

open RelayLemmas

/-- In a network of nodes, whatever messages come from inside and outside of it, in every order of the
steps of all nodes: a node relays a transaction at most once for a stem message that its pool accepts and
once for an import notification, so at most twice for every time its pool takes the transaction in. The
whole network sends at most two stem messages for every node and every drop, whatever cycles the routes
form. -/
theorem relays_bounded {ι : Type} [Fintype ι] [DecidableEq ι] (O : ι → Outside Hash PeerId)
    (it : ι → Orders) (cfg : ι → DandelionConfig) (localId : ι → String) (created : ι → ℕ)
    (moves : List (ι × Move Hash PeerId)) (hash : Hash) :
    let start := fun i => Node.start (O i) (it i) (cfg i) (localId i) (created i)
    let final := run (turn fun i => Node.step (O i)) start moves
    let count := fun i f => (produced (Node.step (O i)) f (start i) (inputsOf i moves)).count hash
    (∀ i, (final i).relays hash ≤ count i received + count i announced) ∧
    ((∀ i, PoolContract (O i) (start i) (inputsOf i moves)) →
      (∀ i, count i received ≤ count i imported ∧ count i imported ≤ 1 + count i dropped ∧
        (final i).relays hash ≤ 2 * count i imported) ∧
      ∑ i, (final i).relays hash ≤ 2 * (Fintype.card ι + ∑ i, count i dropped)) := by
  intro start final count
  have hrelays : ∀ i, (final i).relays hash ≤ count i received + count i announced := by
    intro i
    have hfinal : final i = run (Node.step (O i)) (start i) (inputsOf i moves) := run_turn _ _ moves i
    rw [hfinal]
    exact relays_le (it i) (cfg i) (localId i) (created i)
  refine ⟨hrelays, fun hpool => ?_⟩
  have hnode : ∀ i, count i received ≤ count i imported ∧ count i imported ≤ 1 + count i dropped ∧
      (final i).relays hash ≤ 2 * count i imported := by
    intro i
    have hreceived : count i received ≤ count i imported := received_le_imported (hpool i)
    have hannounced : count i announced ≤ count i imported := (hpool i).notifies hash
    refine ⟨hreceived, imported_le (it i) (cfg i) (localId i) (created i), (hrelays i).trans ?_⟩
    rw [Nat.two_mul]
    exact Nat.add_le_add hreceived hannounced
  refine ⟨hnode, ?_⟩
  calc ∑ i, (final i).relays hash
      ≤ ∑ i, 2 * (1 + count i dropped) := Finset.sum_le_sum fun i _ =>
        (hnode i).2.2.trans (Nat.mul_le_mul_left 2 (hnode i).2.1)
    _ = 2 * (Fintype.card ι + ∑ i, count i dropped) := by
        rw [← Finset.mul_sum, Finset.sum_add_distrib, ← Finset.card_eq_sum_ones, Finset.card_univ]

def relayedTx : ByteLib.Bytes32 := ⟨List.replicate 32 33, rfl⟩

/-- The first node gets a transaction from the first of its peers, while the second node looks for expired
embargoes. -/
def relayMoves : List (Bool × Move ByteLib.Bytes32 String) :=
  [(true, .now (.event (.peerConnected alice))), (false, .now (.event .tick)),
    (true, .now (.event (.peerConnected bob))),
    (true, .now (.event (.notificationReceived alice false (some relayedTx)))), (true, .now (.work true)),
    (true, .now (.work true)), (false, .now (.work true)), (true, .now (.work true)),
    (true, .now (.event (.poolImport relayedTx false))), (true, .now (.work true)),
    (true, .now (.work true))]

def relayStart : Node ByteLib.Bytes32 String := .start h256Outside .asKept .default "kohl-00" 0

theorem relayMoves_contract (i : Bool) :
    PoolContract h256Outside relayStart (inputsOf i relayMoves) := by
  have hsame : produced (Node.step h256Outside) announced relayStart (inputsOf i relayMoves) =
      produced (Node.step h256Outside) imported relayStart (inputsOf i relayMoves) := by
    cases i <;> decide +kernel
  refine ⟨?_, fun hash => by rw [hsame]⟩
  cases i <;> decide +kernel

/-- Both are needed: a node sends a transaction on when it comes over the stem, and once more when its own
pool announces it. -/
theorem relays_bounded_twice :
    let final := run (turn fun _ => Node.step h256Outside) (fun _ => relayStart) relayMoves
    (final true).sent = [(bob, relayedTx), (bob, relayedTx)] ∧
      (final true).relays relayedTx ≤ 2 * 1 ∧ ∑ i, (final i).relays relayedTx ≤ 2 * (2 + 0) := by
  obtain ⟨-, hbounds⟩ := relays_bounded (fun _ : Bool => h256Outside) (fun _ => .asKept)
    (fun _ => .default) (fun _ => "kohl-00") (fun _ => 0) relayMoves relayedTx
  obtain ⟨hnodes, htotal⟩ := hbounds relayMoves_contract
  refine ⟨by decide +kernel, (hnodes true).2.2.trans ?_, htotal.trans ?_⟩
  · decide +kernel
  · decide +kernel

end Kohl.Dandelion
