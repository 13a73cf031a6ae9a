import Kohl.Dandelion.Node
import Kohl.Lib.StorageMap
import Mathlib.Data.Finset.Option

/-!
# When a transaction may be flooded

A transaction that is submitted here or comes over the stem is to stay out of the gossip until it is
fluffed: while its hash is on the stem the gate hands it out as not propagable. The functions of
`TransactionPool` mark the hash before the inner pool has the transaction. `submit_local` and
`on_stem_received` mark it afterwards, and in between it is ready and not marked.

* `Watch`: the transactions that no fluff has released yet, and those the gossip reader got from it.
* `stem_kept`: a hash leaves the stem by a fluff only.
* `no_early_flood_iff`: no transaction is flooded early exactly when each of the two functions hands to
  the inner pool only what is on the stem already.
* `flooded_early`: both of them give a transaction to a reader that comes in between.
-/

namespace Kohl.Dandelion

open DandelionEngine Run

variable {Hash PeerId : Type}

/-! ## What happens to a transaction -/

/-- The hash that a step marks before the inner pool has the transaction. -/
def marked (n : Node Hash PeerId) (m : Move Hash PeerId) : Option Hash :=
  match m.action with
  | .resume i _ =>
    match n.submissions[i]? with
    | some (.marking (hash :: _) _) => some hash
    | _ => none
  | _ => none

/-- The hash that a step hands to the inner pool before it is marked: `submit_local` and
`on_stem_received`, when the inner pool accepts the transaction. -/
def exposed (n : Node Hash PeerId) (m : Move Hash PeerId) : Option Hash :=
  match m.action with
  | .submitLocal xt accepted => if accepted then some xt else none
  | .work accepted =>
    match n.worker with
    | .submitting _ hash => if accepted then some hash else none
    | _ => none
  | _ => none

/-- The key that a step fluffs: by `fluff_now`, because its embargo expired, or because another hash
displaces it. -/
def fluffed (O : Outside Hash PeerId) (n : Node Hash PeerId) (m : Move Hash PeerId) : Option String :=
  match m.action with
  | .resume i _ =>
    match n.submissions[i]? with
    | some (.marking (hash :: _) _) => displaced m.orders (O.key hash) n.engine
    | some (.unmarked hash) => displaced m.orders (O.key hash) n.engine
    | _ => none
  | .work _ =>
    match n.worker with
    | .entering _ hash => displaced m.orders (O.key hash) n.engine
    | .fluffing hash => some (O.key hash)
    | .expiring (key :: _) => some key
    | _ => none
  | _ => none

/-- What an observer of a node knows. -/
structure Watch (Hash : Type) where
  /-- The transactions that were submitted here or came over the stem, with no fluff since. -/
  stemmed : Finset Hash
  /-- Those of them that the gossip reader got as propagable. -/
  leaked : List Hash

variable [DecidableEq Hash]

/-- What the observer learns from a step of `n`. -/
def Watch.step (O : Outside Hash PeerId) (n : Node Hash PeerId) (w : Watch Hash)
    (m : Move Hash PeerId) : Watch Hash where
  stemmed := (w.stemmed.filter fun hash => fluffed O n m ≠ some (O.key hash)) ∪
    ((marked n m).toFinset ∪ (exposed n m).toFinset)
  leaked :=
    match m.action, n.unread with
    | .next, hash :: _ =>
      if hash ∈ w.stemmed ∧ (n.gatedTx O hash).isPropagable O = true then hash :: w.leaked
      else w.leaked
    | _, _ => w.leaked

variable [DecidableEq PeerId]

/-- A node under observation. -/
def watched (O : Outside Hash PeerId) (s : Node Hash PeerId × Watch Hash) (m : Move Hash PeerId) :
    Node Hash PeerId × Watch Hash := (s.1.step O m, s.2.step O s.1 m)

/-- Every transaction of the pool that no fluff has released is read as not propagable, and the gossip
reader has never read one otherwise. -/
def NoEarlyFlood (O : Outside Hash PeerId) (s : Node Hash PeerId × Watch Hash) : Prop :=
  (∀ hash, hash ∈ s.1.pool → hash ∈ s.2.stemmed → (s.1.gatedTx O hash).isPropagable O = false) ∧
    s.2.leaked = []

/-- What a step hands to the inner pool unmarked is on the stem already, if it would be propagated. -/
def Covered (O : Outside Hash PeerId) (n : Node Hash PeerId) (m : Move Hash PeerId) : Prop :=
  ∀ hash, exposed n m = some hash → O.isPropagable hash = true → O.key hash ∈ n.engine.stem

namespace FloodLemmas

variable {O : Outside Hash PeerId} {n : Node Hash PeerId} {m : Move Hash PeerId} {it : Orders}
  {routes : Iteration ((_ : PeerId) × String)} {now : ℕ} {key : String}

omit [DecidableEq PeerId] in
theorem stem_importTx (hash : Hash) (accepted : Bool) :
    (n.importTx hash accepted).engine = n.engine := by
  unfold Node.importTx
  split <;> rfl

omit [DecidableEq Hash] [DecidableEq PeerId] in
theorem mem_markStemHash {hash : Hash} : key ∈ (n.markStemHash O it now hash).engine.stem ↔
    key = O.key hash ∨ key ∈ n.engine.stem ∧ displaced it (O.key hash) n.engine ≠ some key :=
  mem_enterStem

omit [DecidableEq Hash] in
/-- The peers of the worker and the engine change, and the stem set does not. -/
theorem stem_handle (event : Event Hash PeerId) :
    (n.handle O it now event).engine.stem = n.engine.stem := by
  have hconnect : ∀ peer, (n.connect O it now peer).engine.stem = n.engine.stem := by
    intro peer
    exact peerConnected_stem now _
  have hdisconnect : ∀ peer, (n.disconnect O it now peer).engine.stem = n.engine.stem := by
    intro peer
    unfold Node.disconnect
    split
    · rfl
    · exact peerDisconnected_stem now _
  cases event with
  | notificationStreamOpened peer known =>
    unfold Node.handle
    dsimp only
    split
    · exact hconnect peer
    · rfl
  | notificationStreamClosed peer => exact hdisconnect peer
  | notificationReceived peer majorSyncing message =>
    unfold Node.handle
    dsimp only
    split
    · rfl
    · split <;> rfl
  | peerConnected peer => exact hconnect peer
  | peerDisconnected peer => exact hdisconnect peer
  | poolImport hash majorSyncing =>
    unfold Node.handle
    dsimp only
    split
    · rfl
    · split <;> rfl
  | tick => rfl

omit [DecidableEq PeerId] in
/-- A step of a submission fluffs what its hash displaces. -/
theorem stem_kept_resume {delay i : ℕ} {accepted : Bool} (hkey : key ∈ n.engine.stem)
    (hnot : fluffed O n ⟨delay, it, routes, .resume i accepted⟩ ≠ some key) :
    key ∈ (n.resume O it now i accepted).engine.stem := by
  unfold fluffed at hnot
  unfold Node.resume
  dsimp only at hnot
  split
  · next hash marks xts hsub =>
    rw [hsub] at hnot
    exact mem_markStemHash.mpr (.inr ⟨hkey, hnot⟩)
  · exact hkey
  · next hash xts hsub =>
    show key ∈ (n.importTx hash accepted).engine.stem
    rw [stem_importTx]
    exact hkey
  · next hash hsub =>
    rw [hsub] at hnot
    exact mem_markStemHash.mpr (.inr ⟨hkey, hnot⟩)
  · exact hkey

omit [DecidableEq PeerId] in
/-- A step of the worker fluffs what it says it fluffs, and what a hash it received displaces. -/
theorem stem_kept_work {delay : ℕ} {accepted : Bool} (hkey : key ∈ n.engine.stem)
    (hnot : fluffed O n ⟨delay, it, routes, .work accepted⟩ ≠ some key) :
    key ∈ (n.work O it routes now accepted).engine.stem := by
  unfold fluffed at hnot
  unfold Node.work
  dsimp only at hnot
  split
  · exact hkey
  · split <;> exact hkey
  · next sender hash hworker =>
    rw [hworker] at hnot
    show key ∈ (stemDecision O.digests it (O.key hash) now _).2.stem
    rw [stemDecision_stem]
    exact mem_enterStem.mpr (.inr ⟨hkey, hnot⟩)
  · next hash at' _ =>
    show key ∈ (stemDecision O.digests it (O.key hash) at' n.engine).2.stem
    rw [stemDecision_stem]
    exact hkey
  · split
    · unfold Node.sendStem
      split <;> exact hkey
    · exact hkey
  · next hash hworker =>
    rw [hworker] at hnot
    exact mem_fluff.mpr ⟨fun heq => hnot (congrArg some heq.symm), hkey⟩
  · exact hkey
  · next head keys hworker =>
    rw [hworker] at hnot
    exact mem_fluff.mpr ⟨fun heq => hnot (congrArg some heq.symm), hkey⟩

/-- A key leaves the stem by a fluff only. -/
theorem stem_kept (hkey : key ∈ n.engine.stem) (hnot : fluffed O n m ≠ some key) :
    key ∈ (n.step O m).engine.stem := by
  obtain ⟨delay, it, routes, action⟩ := m
  cases action with
  | submitAt source xts => exact hkey
  | submitOne source xt => exact hkey
  | submitAndWatch source xt => exact hkey
  | submitLocal xt accepted =>
    show key ∈ (Node.submitLocal { n with clock := n.clock + delay } xt accepted).engine.stem
    unfold Node.submitLocal
    split <;> exact hkey
  | resume i accepted => exact stem_kept_resume (n := { n with clock := n.clock + delay }) hkey hnot
  | event event =>
    unfold Node.step
    dsimp only
    split
    · rw [stem_handle]
      exact hkey
    · exact hkey
  | work accepted => exact stem_kept_work (n := { n with clock := n.clock + delay }) hkey hnot
  | drop hash => exact hkey
  | ready order => exact hkey
  | next => exact hkey

/-- What is marked is on the stem. -/
theorem stem_marked {hash : Hash} (h : marked n m = some hash) :
    O.key hash ∈ (n.step O m).engine.stem := by
  unfold marked at h
  split at h
  · next i accepted haction =>
    split at h
    · next head marks xts hsub =>
      cases h
      unfold Node.step
      rw [haction]
      dsimp only
      unfold Node.resume
      dsimp only
      rw [hsub]
      exact mem_markStemHash.mpr (.inl rfl)
    · cases h
  · cases h

/-- What is exposed is in the pool, and the stem is as it was. -/
theorem pool_exposed {hash : Hash} (h : exposed n m = some hash) :
    hash ∈ (n.step O m).pool ∧ (n.step O m).engine = n.engine := by
  unfold exposed at h
  split at h
  · next xt accepted haction =>
    split at h
    · next haccepted =>
      cases h
      unfold Node.step
      rw [haction, haccepted]
      exact ⟨List.mem_insert_self, rfl⟩
    · cases h
  · next accepted haction =>
    split at h
    · next sender xt hworker =>
      split at h
      · next haccepted =>
        cases h
        unfold Node.step
        rw [haction, haccepted]
        dsimp only
        unfold Node.work
        dsimp only
        rw [hworker]
        exact ⟨List.mem_insert_self, rfl⟩
      · cases h
    · cases h
  · cases h

variable {s : Node Hash PeerId × Watch Hash}

/-- What no fluff has released is on the stem, if it would be propagated. -/
def Hidden (O : Outside Hash PeerId) (s : Node Hash PeerId × Watch Hash) : Prop :=
  (∀ hash, hash ∈ s.2.stemmed → O.isPropagable hash = true → O.key hash ∈ s.1.engine.stem) ∧
    s.2.leaked = []

omit [DecidableEq Hash] [DecidableEq PeerId] in
theorem isPropagable_gatedTx {hash : Hash} : (n.gatedTx O hash).isPropagable O = true ↔
    O.key hash ∉ n.engine.stem ∧ O.isPropagable hash = true := by
  unfold Node.gatedTx GatedTx.isPropagable
  rw [Bool.and_eq_true, Bool.not_eq_true', ← Bool.not_eq_true, isStem_eq_true]

omit [DecidableEq Hash] [DecidableEq PeerId] in
theorem noEarlyFlood_of_hidden (h : Hidden O s) : NoEarlyFlood O s := by
  refine ⟨?_, h.2⟩
  intro hash _ hstemmed
  rw [← Bool.not_eq_true, isPropagable_gatedTx]
  rintro ⟨hnot, hprop⟩
  exact hnot (h.1 hash hstemmed hprop)

omit [DecidableEq PeerId] in
theorem mem_stemmed {w : Watch Hash} {hash : Hash} : hash ∈ (w.step O n m).stemmed ↔
    (hash ∈ w.stemmed ∧ fluffed O n m ≠ some (O.key hash)) ∨ marked n m = some hash ∨
      exposed n m = some hash := by
  show hash ∈ (w.stemmed.filter _) ∪ ((marked n m).toFinset ∪ (exposed n m).toFinset) ↔ _
  rw [Finset.mem_union, Finset.mem_filter, Finset.mem_union, Option.mem_toFinset, Option.mem_toFinset]
  rfl

omit [DecidableEq PeerId] in
/-- The reader gets what is on the stem as not propagable. -/
theorem leaked_step (h : Hidden O s) : (s.2.step O s.1 m).leaked = [] := by
  unfold Watch.step
  dsimp only
  split
  · next hash _ _ _ =>
    rw [if_neg, h.2]
    rintro ⟨hstemmed, hread⟩
    obtain ⟨hnot, hprop⟩ := isPropagable_gatedTx.mp hread
    exact hnot (h.1 hash hstemmed hprop)
  · exact h.2

theorem hidden_step (h : Hidden O s) (hm : Covered O s.1 m) : Hidden O (watched O s m) := by
  refine ⟨?_, leaked_step h⟩
  intro hash hstemmed hprop
  rcases mem_stemmed.mp hstemmed with ⟨hold, hnot⟩ | hmarked | hexposed
  · exact stem_kept (h.1 hash hold hprop) hnot
  · exact stem_marked hmarked
  · show O.key hash ∈ (s.1.step O m).engine.stem
    rw [(pool_exposed hexposed).2]
    exact hm hash hexposed hprop

/-- A step that exposes a transaction leaves a state in which it is read as propagable. -/
theorem covered_of_noEarlyFlood (h : NoEarlyFlood O (watched O s m)) : Covered O s.1 m := by
  intro hash hexposed hprop
  obtain ⟨hpool, hengine⟩ := @pool_exposed _ _ _ _ O _ _ _ hexposed
  have hread := h.1 hash hpool (mem_stemmed.mpr (.inr (.inr hexposed)))
  rw [← Bool.not_eq_true, isPropagable_gatedTx] at hread
  by_contra hnot
  refine hread ⟨?_, hprop⟩
  show O.key hash ∉ (s.1.step O m).engine.stem
  rw [hengine]
  exact hnot

end FloodLemmas

open FloodLemmas

/-- In every state of a run the gossip reader gets the transactions that no fluff has released as not
propagable, exactly when every transaction that `submit_local` or `on_stem_received` hands to the inner
pool, and that the inner pool would propagate, is on the stem by then. -/
theorem no_early_flood_iff (O : Outside Hash PeerId) (it : Orders) (cfg : DandelionConfig)
    (localId : String) (created : ℕ) (moves : List (Move Hash PeerId)) :
    (∀ pre, pre <+: moves →
      NoEarlyFlood O (run (watched O) (Node.start O it cfg localId created, ⟨∅, []⟩) pre)) ↔
    ∀ pre m, pre ++ [m] <+: moves →
      Covered O (run (watched O) (Node.start O it cfg localId created, ⟨∅, []⟩) pre).1 m := by
  constructor
  · intro h pre m hpre
    have hnext := h (pre ++ [m]) hpre
    rw [run_concat] at hnext
    exact covered_of_noEarlyFlood hnext
  · intro h pre hpre
    refine noEarlyFlood_of_hidden ?_
    induction pre using List.reverseRecOn with
    | nil =>
      refine ⟨?_, rfl⟩
      intro hash hstemmed
      exact absurd hstemmed (Finset.notMem_empty hash)
    | append_singleton pre m ih =>
      rw [run_concat]
      exact hidden_step (ih ((List.prefix_append pre [m]).trans hpre)) (h pre m hpre)

/-- A transaction is submitted by `submit_local`, or comes over the stem from the first peer; the inner
pool accepts it, and the gossip reader comes before its hash is marked. -/
theorem flooded_early :
    let tx : ByteLib.Bytes32 := ⟨List.replicate 32 1, rfl⟩
    let begin := (Node.start h256Outside .asKept .default "kohl-00" 0, (⟨∅, []⟩ : Watch ByteLib.Bytes32))
    let submitted := run (watched h256Outside) begin
      [.now (.submitLocal tx true), .now (.ready .asKept), .now .next]
    let received := run (watched h256Outside) begin
      [.now (.event (.peerConnected alice)),
        .now (.event (.notificationReceived alice false (some tx))), .now (.work true),
        .now (.ready .asKept), .now .next]
    (tx ∈ submitted.1.pool ∧ tx ∈ submitted.2.stemmed ∧
      (submitted.1.gatedTx h256Outside tx).isPropagable h256Outside = true ∧
      submitted.2.leaked = [tx]) ∧
    tx ∈ received.1.pool ∧ tx ∈ received.2.stemmed ∧
      (received.1.gatedTx h256Outside tx).isPropagable h256Outside = true ∧
      received.2.leaked = [tx] := by
  decide

end Kohl.Dandelion
