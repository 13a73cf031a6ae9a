import Kohl.Dandelion.Node
import Kohl.Lib.StorageMap
import Mathlib.Data.Finset.Basic

/-!
# Stem routes

The worker keeps its peers in a map, the engine keeps their ids in a set of its own, and the outbound
peer is chosen ahead of the transactions that are sent to it. Peers come and go by substreams and by
the sync service, in any order and more than once.

* `Consistent`: the set is the set of ids of the map, the outbound peer is in it, and so is the peer of
  a decision the worker has not acted on.
* `consistent_step`: every step keeps it.
* `stem_routing`: in every state reached, a decision to stem names a peer that is there and that is not
  the one the transaction came from.
-/

namespace Kohl.Dandelion

open DandelionEngine Run

variable {Hash PeerId : Type} [DecidableEq PeerId]

/-- The ids in the map of the worker. -/
def idsOf (peers : AList fun _ : PeerId => String) : Finset String :=
  (peers.entries.map Sigma.snd).toFinset

/-- The peers of the engine. -/
def DandelionEngine.peerSet (e : DandelionEngine) : Finset String := e.peers.keys.toFinset

/-- The engine and the worker agree on the peers. -/
structure Consistent (O : Outside Hash PeerId) (n : Node Hash PeerId) : Prop where
  ids : ∀ peer id, n.peers.lookup peer = some id → id = O.toBase58 peer
  known : ∀ id, id ∈ n.engine.peers ↔ ∃ peer, n.peers.lookup peer = some id
  routed : Routed n.engine
  forwarding : ∀ hash id, n.worker = .forwarding hash (some id) → id ∈ n.engine.peers

namespace RoutingLemmas

variable {O : Outside Hash PeerId} {n n' : Node Hash PeerId} {it : Orders} {now : ℕ}

theorem mem_idsOf {peers : AList fun _ : PeerId => String} {id : String} :
    id ∈ idsOf peers ↔ ∃ peer, peers.lookup peer = some id := by
  unfold idsOf
  rw [List.mem_toFinset, List.mem_map]
  constructor
  · rintro ⟨⟨peer, id'⟩, hmem, rfl⟩
    exact ⟨peer, AList.mem_lookup_iff.mpr hmem⟩
  · rintro ⟨peer, hpeer⟩
    exact ⟨⟨peer, id⟩, AList.mem_lookup_iff.mp hpeer, rfl⟩

omit [DecidableEq PeerId] in
theorem mem_peerSet {e : DandelionEngine} {id : String} : id ∈ e.peerSet ↔ id ∈ e.peers :=
  List.mem_toFinset.trans AList.mem_keys.symm

theorem isSome_peerById (routes : Iteration ((_ : PeerId) × String))
    {peers : AList fun _ : PeerId => String} {id : String}
    (h : ∃ peer, peers.lookup peer = some id) : (Node.peerById routes peers id).isSome = true := by
  obtain ⟨peer, hpeer⟩ := h
  unfold Node.peerById
  rw [Option.isSome_map, List.find?_isSome]
  exact ⟨⟨peer, id⟩, routes.mem_order.mpr (AList.mem_lookup_iff.mp hpeer), decide_eq_true rfl⟩

/-- Steps that leave the peers alone. -/
theorem consistent_of_frame (h : Consistent O n) (hpeers : n'.peers = n.peers)
    (hengine : n'.engine.peers = n.engine.peers) (hrouted : Routed n'.engine)
    (hworker : ∀ hash id, n'.worker = .forwarding hash (some id) → id ∈ n.engine.peers) :
    Consistent O n' := by
  refine ⟨?_, ?_, hrouted, ?_⟩
  · rw [hpeers]
    exact h.ids
  · rw [hpeers, hengine]
    exact h.known
  · rw [hengine]
    exact hworker

/-- Steps of a submission that enter the stem or touch the pool. -/
theorem consistent_markStemHash (h : Consistent O n) (hash : Hash) :
    Consistent O (n.markStemHash O it now hash) := by
  have hrouted : Routed (n.markStemHash O it now hash).engine :=
    routed_enterStem h.routed (O.key hash) none now
  exact consistent_of_frame h rfl (enterStem_peers now (O.key hash) none) hrouted h.forwarding

theorem consistent_start (it : Orders) (cfg : DandelionConfig) (localId : String) (created : ℕ) :
    Consistent O (Node.start O it cfg localId created) := by
  refine ⟨?_, ?_, routed_new cfg localId created, ?_⟩
  · intro peer id h
    cases h
  · intro id
    refine iff_of_false (AList.notMem_empty id) ?_
    rintro ⟨peer, hpeer⟩
    cases hpeer
  · intro hash id h
    cases h

omit [DecidableEq PeerId] in
theorem ne_forwarding (hidle : n.worker = .idle) {hash : Hash} {decision : Option String} :
    n.worker ≠ .forwarding hash decision := by
  rw [hidle]
  intro h
  cases h

theorem consistent_connect (h : Consistent O n) (hidle : n.worker = .idle) (peer : PeerId) :
    Consistent O (n.connect O it now peer) := by
  have hengine : (n.connect O it now peer).engine.peers =
      n.engine.peers.insert (O.toBase58 peer) () := peerConnected_peers now _
  refine ⟨?_, ?_, routed_peerConnected h.routed _ now, ?_⟩
  · intro q id hq
    rcases eq_or_ne q peer with rfl | hne
    · exact (Option.some_inj.mp ((AList.lookup_insert _).symm.trans hq)).symm
    · exact h.ids q id ((AList.lookup_insert_ne hne).symm.trans hq)
  · intro id
    rw [hengine, AList.mem_insert, h.known]
    constructor
    · rintro (rfl | ⟨q, hq⟩)
      · exact ⟨peer, AList.lookup_insert _⟩
      · rcases eq_or_ne q peer with rfl | hne
        · rw [h.ids q id hq]
          exact ⟨q, AList.lookup_insert _⟩
        · exact ⟨q, (AList.lookup_insert_ne hne).trans hq⟩
    · rintro ⟨q, hq⟩
      rcases eq_or_ne q peer with rfl | hne
      · exact .inl (Option.some_inj.mp ((AList.lookup_insert _).symm.trans hq)).symm
      · exact .inr ⟨q, (AList.lookup_insert_ne hne).symm.trans hq⟩
  · intro hash id hworker
    exact absurd hworker (ne_forwarding hidle)

/-- A peer that leaves the map takes its id from the set, and no other peer has that id. -/
theorem consistent_disconnect (hinj : Function.Injective O.toBase58) (h : Consistent O n)
    (hidle : n.worker = .idle) (peer : PeerId) : Consistent O (n.disconnect O it now peer) := by
  unfold Node.disconnect
  split
  · exact h
  · next id hid =>
    refine ⟨?_, ?_, routed_peerDisconnected h.routed id now, ?_⟩
    · intro q id' hq
      rcases eq_or_ne q peer with rfl | hne
      · exact absurd (hq.symm.trans (AList.lookup_erase q _)) (Option.some_ne_none _)
      · exact h.ids q id' ((AList.lookup_erase_ne hne).symm.trans hq)
    · intro id'
      show id' ∈ (peerDisconnected O.digests it id now n.engine).peers ↔ _
      rw [peerDisconnected_peers, AList.mem_erase, h.known]
      constructor
      · rintro ⟨hne, q, hq⟩
        refine ⟨q, (AList.lookup_erase_ne ?_).trans hq⟩
        rintro rfl
        exact hne (Option.some_inj.mp (hq.symm.trans hid))
      · rintro ⟨q, hq⟩
        rcases eq_or_ne q peer with rfl | hne
        · exact absurd (hq.symm.trans (AList.lookup_erase q _)) (Option.some_ne_none _)
        · have hq' : n.peers.lookup q = some id' := (AList.lookup_erase_ne hne).symm.trans hq
          refine ⟨?_, q, hq'⟩
          intro heq
          rw [h.ids q id' hq', h.ids peer id hid] at heq
          exact hne (hinj heq)
    · intro hash id' hworker
      exact absurd hworker (ne_forwarding hidle)

theorem consistent_wait (h : Consistent O n) (worker : Worker Hash PeerId)
    (hworker : ∀ hash decision, worker ≠ .forwarding hash decision) :
    Consistent O { n with worker := worker } :=
  consistent_of_frame h rfl rfl h.routed fun hash id heq => absurd heq (hworker hash (some id))

theorem consistent_handle (hinj : Function.Injective O.toBase58) (h : Consistent O n)
    (hidle : n.worker = .idle) (event : Event Hash PeerId) :
    Consistent O (n.handle O it now event) := by
  have hwait : ∀ worker, (∀ hash decision, worker ≠ .forwarding hash decision) →
      Consistent O { n with worker := worker } := consistent_wait h
  cases event with
  | notificationStreamOpened peer known =>
    unfold Node.handle
    dsimp only
    split
    · exact consistent_connect h hidle peer
    · exact h
  | notificationStreamClosed peer => exact consistent_disconnect hinj h hidle peer
  | notificationReceived peer majorSyncing message =>
    unfold Node.handle
    dsimp only
    split
    · exact h
    · split
      · exact h
      · exact hwait _ (by simp)
  | peerConnected peer => exact consistent_connect h hidle peer
  | peerDisconnected peer => exact consistent_disconnect hinj h hidle peer
  | poolImport hash majorSyncing =>
    unfold Node.handle
    dsimp only
    split
    · exact h
    · split
      · exact hwait _ (by simp)
      · exact h
  | tick => exact hwait _ (by simp)

/-- A decision that the worker is to act on names a peer that is there. -/
theorem consistent_decision {e : DandelionEngine} (h : Consistent O n) (hrouted : Routed e)
    (hpeers : e.peers = n.engine.peers) (key : String) (at' : ℕ) (hash : Hash) :
    Consistent O { n with
      engine := (stemDecision O.digests it key at' e).2
      worker := .forwarding hash (stemDecision O.digests it key at' e).1 } := by
  refine consistent_of_frame h rfl ?_ (routed_stemDecision hrouted key at') ?_
  · exact (stemDecision_peers at' key).trans hpeers
  · intro hash' id hworker
    injection hworker with _ hdecision
    obtain ⟨-, -, hmem, -⟩ := stemDecision_eq_some hrouted hdecision
    rw [← hpeers]
    exact hmem

variable [DecidableEq Hash]

theorem consistent_importTx (h : Consistent O n) (hash : Hash) (accepted : Bool) :
    Consistent O (n.importTx hash accepted) := by
  unfold Node.importTx
  split
  · exact consistent_of_frame h rfl rfl h.routed h.forwarding
  · exact h

theorem consistent_submitLocal (h : Consistent O n) (hash : Hash) (accepted : Bool) :
    Consistent O (n.submitLocal hash accepted) := by
  unfold Node.submitLocal
  split
  · exact consistent_of_frame (consistent_importTx h hash true) rfl rfl h.routed h.forwarding
  · exact h

theorem consistent_resume (h : Consistent O n) (i : ℕ) (accepted : Bool) :
    Consistent O (n.resume O it now i accepted) := by
  unfold Node.resume
  split
  · next hash marks xts _ =>
    have hmark : Consistent O (n.markStemHash O it now hash) := consistent_markStemHash h hash
    exact consistent_of_frame hmark rfl rfl hmark.routed hmark.forwarding
  · exact consistent_of_frame h rfl rfl h.routed h.forwarding
  · next hash xts _ =>
    have himport := consistent_importTx h hash accepted
    exact consistent_of_frame himport rfl rfl himport.routed himport.forwarding
  · next hash _ =>
    have hmark : Consistent O (n.markStemHash O it now hash) := consistent_markStemHash h hash
    exact consistent_of_frame hmark rfl rfl hmark.routed hmark.forwarding
  · exact h

theorem consistent_work (h : Consistent O n) (routes : Iteration ((_ : PeerId) × String))
    (accepted : Bool) : Consistent O (n.work O it routes now accepted) := by
  have hwait : ∀ worker, (∀ hash decision, worker ≠ .forwarding hash decision) →
      Consistent O { n with worker := worker } := consistent_wait h
  unfold Node.work
  split
  · exact h
  · next sender hash _ =>
    split
    · have himport := consistent_importTx h hash true
      exact consistent_wait himport _ (by simp)
    · exact hwait _ (by simp)
  · next sender hash _ =>
    exact consistent_decision h (routed_enterStem h.routed _ _ now) (enterStem_peers now _ _)
      (O.key hash) now hash
  · next hash at' _ => exact consistent_decision h h.routed rfl (O.key hash) at' hash
  · split
    · unfold Node.sendStem
      split
      · exact consistent_of_frame h rfl rfl h.routed (by simp)
      · exact hwait _ (by simp)
    · exact hwait _ (by simp)
  · exact consistent_of_frame h rfl rfl (routed_fluff h.routed _) (by simp)
  · exact hwait _ (by simp)
  · exact consistent_of_frame h rfl rfl (routed_fluff h.routed _) (by simp)

theorem consistent_step (hinj : Function.Injective O.toBase58) (h : Consistent O n)
    (m : Move Hash PeerId) : Consistent O (n.step O m) := by
  have hclock : Consistent O { n with clock := n.clock + m.delay } :=
    consistent_of_frame h rfl rfl h.routed h.forwarding
  obtain ⟨delay, it, routes, action⟩ := m
  cases action with
  | submitAt source xts => exact consistent_of_frame h rfl rfl h.routed h.forwarding
  | submitOne source xt => exact consistent_of_frame h rfl rfl h.routed h.forwarding
  | submitAndWatch source xt => exact consistent_of_frame h rfl rfl h.routed h.forwarding
  | submitLocal xt accepted => exact consistent_submitLocal hclock xt accepted
  | resume i accepted => exact consistent_resume hclock i accepted
  | event event =>
    unfold Node.step
    dsimp only
    split
    · next hidle => exact consistent_handle hinj hclock hidle event
    · exact hclock
  | work accepted => exact consistent_work hclock routes accepted
  | drop hash => exact consistent_of_frame h rfl rfl h.routed h.forwarding
  | ready order => exact consistent_of_frame h rfl rfl h.routed h.forwarding
  | next => exact consistent_of_frame h rfl rfl h.routed h.forwarding

end RoutingLemmas

open RoutingLemmas

variable [DecidableEq Hash]

/-- In every state a node reaches, the engine knows the peers of the worker and no others; it has an
outbound peer exactly when it has peers, and the outbound peer is one of them. A decision to stem, by
the engine as it is or behind `enter_stem`, is made for a hash on the stem by a node that is no fluff
node, and names a peer that is known, that `peer_by_id` finds and that the hash did not come from. -/
theorem stem_routing (O : Outside Hash PeerId) (hinj : Function.Injective O.toBase58) (it : Orders)
    (cfg : DandelionConfig) (localId : String) (created : ℕ) (moves : List (Move Hash PeerId)) :
    let n := run (Node.step O) (Node.start O it cfg localId created) moves
    n.engine.peerSet = idsOf n.peers ∧
    (n.engine.epoch.outbound = none ↔ n.engine.peerSet = ∅) ∧
    (∀ id, n.engine.epoch.outbound = some id → id ∈ n.engine.peerSet) ∧
    ∀ e, e = n.engine ∨ (∃ it' key fromPeer now, e = (enterStem it' key fromPeer now n.engine).2) →
      ∀ it' key now id, (stemDecision O.digests it' key now e).1 = some id →
        let e' := (stemDecision O.digests it' key now e).2
        key ∈ e'.stem ∧ e'.epoch.isFluffNode = false ∧ id ∈ e'.peerSet ∧
        (∀ routes, (Node.peerById routes n.peers id).isSome = true) ∧
        ∀ entry, e'.stem.lookup key = some entry → entry.fromPeer ≠ some id := by
  intro n
  have hn : Consistent O n :=
    run_invariant (consistent_start it cfg localId created) (fun _ m h => consistent_step hinj h m) moves
  refine ⟨?_, ?_, ?_, ?_⟩
  · ext id
    rw [mem_peerSet, mem_idsOf]
    exact hn.known id
  · rw [hn.routed.none_iff]
    exact (List.toFinset_eq_empty_iff _).symm
  · intro id hid
    exact mem_peerSet.mpr (hn.routed.mem_peers id hid)
  · intro e he it' key now id hid e'
    have hrouted : Routed e ∧ e.peers = n.engine.peers := by
      rcases he with rfl | ⟨it'', key', fromPeer, now', rfl⟩
      · exact ⟨hn.routed, rfl⟩
      · exact ⟨routed_enterStem hn.routed key' fromPeer now', enterStem_peers now' key' fromPeer⟩
    obtain ⟨hstem, hrole, hpeer, hfrom⟩ := stemDecision_eq_some hrouted.1 hid
    have hpeers : e'.peers = e.peers := stemDecision_peers now key
    have hstems : e'.stem = e.stem := stemDecision_stem now key
    have hknown := (hn.known id).mp (hrouted.2 ▸ hpeer)
    refine ⟨?_, hrole, ?_, fun routes => isSome_peerById routes hknown, ?_⟩
    · rw [hstems]
      exact hstem
    · rw [mem_peerSet, hpeers]
      exact hpeer
    · rw [hstems]
      exact hfrom

/-- Of two peers the first is the outbound one. A transaction that the first sends goes on to the
second. -/
theorem stem_routing_two_peers :
    let O := h256Outside
    let tx : ByteLib.Bytes32 := ⟨List.replicate 32 1, rfl⟩
    let n := run (Node.step O) (Node.start O .asKept .default "kohl-00" 0)
      [.now (.event (.peerConnected alice)), .now (.event (.peerConnected bob)),
        .now (.event (.notificationReceived alice false (some tx))), .now (.work true)]
    let e := (enterStem .asKept (O.key tx) (some alice) 0 n.engine).2
    let e' := (stemDecision O.digests .asKept (O.key tx) 0 e).2
    (stemDecision O.digests .asKept (O.key tx) 0 e).1 = some bob ∧
    n.engine.peerSet = idsOf n.peers ∧ bob ∈ e'.peerSet ∧
    ∀ entry, e'.stem.lookup (O.key tx) = some entry → entry.fromPeer ≠ some bob := by
  intro O tx n e e'
  have hdecision : (stemDecision O.digests .asKept (O.key tx) 0 e).1 = some bob := by decide
  obtain ⟨hsame, -, -, hstem⟩ := stem_routing O Function.injective_id .asKept .default "kohl-00" 0
    [.now (.event (.peerConnected alice)), .now (.event (.peerConnected bob)),
      .now (.event (.notificationReceived alice false (some tx))), .now (.work true)]
  obtain ⟨-, -, hpeer, -, hfrom⟩ :=
    hstem e (.inr ⟨.asKept, O.key tx, some alice, 0, rfl⟩) .asKept (O.key tx) 0 _ hdecision
  exact ⟨hdecision, hsame, hpeer, hfrom⟩

end Kohl.Dandelion
