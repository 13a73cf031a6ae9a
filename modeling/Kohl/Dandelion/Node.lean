import Kohl.Dandelion.Engine
import Kohl.Lib.Bytes

/-!
# The node around the engine

The engine is shared by the gate in front of the transaction pool, on which any number of submissions
are under way at once, and by the worker that takes the events of the network one at a time. A step of
the node is what one of them does while it holds the lock of the engine, or one call into the inner
pool; between two steps of a function any other step may be taken. A transaction is known by its hash.

What the node calls and does not define is a parameter: the digests of the engine, the text of a hash
and of a peer, the verdicts of the inner pool and whether it wants a transaction propagated.
-/

namespace Kohl.Dandelion

open DandelionEngine

/-- What the node takes from elsewhere. -/
structure Outside (Hash PeerId : Type) where
  digests : Digests
  /-- The debug text of a hash, under which the engine knows a transaction. -/
  key : Hash → String
  toBase58 : PeerId → String
  /-- `is_propagable` of the transaction in the inner pool. -/
  isPropagable : Hash → Bool

inductive TransactionSource
  | inBlock
  | localOrigin
  | external
  deriving DecidableEq

/-- Where a submission to the gate stands. -/
inductive Submission (Hash : Type)
  /-- The hashes in `marks` are to be marked before the inner pool gets those in `xts`. -/
  | marking (marks xts : List Hash)
  /-- The inner pool has `xts` before it. -/
  | inner (xts : List Hash)
  /-- `submit_local` has returned from the inner pool and has not marked the hash. -/
  | unmarked (hash : Hash)

/-- Where the worker stands. -/
inductive Worker (Hash PeerId : Type)
  | idle
  /-- `on_stem_received`, before `submit_one`. -/
  | submitting (sender : PeerId) (hash : Hash)
  /-- `on_stem_received`, behind `submit_one`. -/
  | entering (sender : PeerId) (hash : Hash)
  /-- `on_pool_import` at `now`, for a hash it found on the stem. -/
  | importing (hash : Hash) (now : ℕ)
  /-- A decision has been made. -/
  | forwarding (hash : Hash) (decision : Option String)
  /-- Before `fluff_now`. -/
  | fluffing (hash : Hash)
  /-- `on_tick`, with the keys that remain to be fluffed. -/
  | expiring (keys : List String)

/-- A transaction as the gate hands it out. -/
structure GatedTx (Hash : Type) where
  hash : Hash
  propagable : Bool

structure Node (Hash PeerId : Type) where
  engine : DandelionEngine
  clock : ℕ
  /-- The ready transactions of the inner pool. -/
  pool : List Hash
  /-- The submissions to the gate, also those that are through. -/
  submissions : List (Submission Hash)
  worker : Worker Hash PeerId
  /-- The peers of the worker with their ids. -/
  peers : AList fun _ : PeerId => String
  /-- The stem messages sent. -/
  sent : List (PeerId × Hash)
  /-- What is left of the iterator of the gossip reader. -/
  unread : List Hash

/-- What the worker waits for. -/
inductive Event (Hash PeerId : Type)
  /-- `known` says whether the network knows the role of the peer. -/
  | notificationStreamOpened (peer : PeerId) (known : Bool)
  | notificationStreamClosed (peer : PeerId)
  /-- `message` is what the notification decodes to. -/
  | notificationReceived (peer : PeerId) (majorSyncing : Bool) (message : Option Hash)
  | peerConnected (peer : PeerId)
  | peerDisconnected (peer : PeerId)
  | poolImport (hash : Hash) (majorSyncing : Bool)
  | tick

inductive Action (Hash PeerId : Type)
  | submitAt (source : TransactionSource) (xts : List Hash)
  | submitOne (source : TransactionSource) (xt : Hash)
  | submitAndWatch (source : TransactionSource) (xt : Hash)
  /-- `submit_local` up to the return of the inner pool, which accepts the transaction or does not. -/
  | submitLocal (xt : Hash) (accepted : Bool)
  /-- The next step of a submission; `accepted` is the verdict of the inner pool, if it is asked. -/
  | resume (submission : ℕ) (accepted : Bool)
  | event (event : Event Hash PeerId)
  /-- The next step of the worker. -/
  | work (accepted : Bool)
  /-- The inner pool drops a transaction. -/
  | drop (hash : Hash)
  /-- The gossip reader asks for the ready transactions. -/
  | ready (order : Iteration Hash)
  /-- The gossip reader takes the next one. -/
  | next

/-- An action, the time since the one before it and the orders in which it iterates. -/
structure Move (Hash PeerId : Type) where
  delay : ℕ
  orders : Orders
  routes : Iteration ((_ : PeerId) × String)
  action : Action Hash PeerId

variable {Hash PeerId : Type}

namespace Submission

/-- The beginning of the `submit_*` functions of `TransactionPool`: what comes from this node is
marked before the inner pool sees it. -/
def start (source : TransactionSource) (xts : List Hash) : Submission Hash :=
  if source = .localOrigin then .marking xts xts else .inner xts

def submitAt (source : TransactionSource) (xts : List Hash) : Submission Hash := start source xts

def submitOne (source : TransactionSource) (xt : Hash) : Submission Hash := start source [xt]

def submitAndWatch (source : TransactionSource) (xt : Hash) : Submission Hash := start source [xt]

end Submission

namespace Node

/-- A node with a new engine. -/
def start (O : Outside Hash PeerId) (it : Orders) (cfg : DandelionConfig) (localId : String)
    (created : ℕ) : Node Hash PeerId where
  engine := new O.digests it cfg localId created
  clock := created
  pool := []
  submissions := []
  worker := .idle
  peers := ∅
  sent := []
  unread := []

variable [DecidableEq Hash] [DecidableEq PeerId] (O : Outside Hash PeerId)

section Functions

variable (it : Orders) (routes : Iteration ((_ : PeerId) × String)) (now : ℕ) (n : Node Hash PeerId)

def markStemHash (hash : Hash) : Node Hash PeerId :=
  { n with engine := (enterStem it (O.key hash) none now n.engine).2 }

/-- The inner pool takes `hash` in if it accepts it. -/
def importTx (hash : Hash) (accepted : Bool) : Node Hash PeerId :=
  if accepted then { n with pool := n.pool.insert hash } else n

def submitLocal (hash : Hash) (accepted : Bool) : Node Hash PeerId :=
  if accepted then
    { n.importTx hash true with submissions := n.submissions ++ [.unmarked hash] }
  else n

/-- The next step of the submission at `i`. -/
def resume (i : ℕ) (accepted : Bool) : Node Hash PeerId :=
  match n.submissions[i]? with
  | some (.marking (hash :: marks) xts) =>
    { markStemHash O it now n hash with submissions := n.submissions.set i (.marking marks xts) }
  | some (.marking [] xts) => { n with submissions := n.submissions.set i (.inner xts) }
  | some (.inner (hash :: xts)) =>
    { n.importTx hash accepted with submissions := n.submissions.set i (.inner xts) }
  | some (.unmarked hash) =>
    { markStemHash O it now n hash with submissions := n.submissions.set i (.inner []) }
  | _ => n

def connect (peer : PeerId) : Node Hash PeerId :=
  let id := O.toBase58 peer
  { n with
    peers := n.peers.insert peer id
    engine := peerConnected O.digests it id now n.engine }

def disconnect (peer : PeerId) : Node Hash PeerId :=
  match n.peers.lookup peer with
  | none => n
  | some id =>
    { n with
      peers := n.peers.erase peer
      engine := peerDisconnected O.digests it id now n.engine }

/-- `handle_notification`, `handle_sync_event`, `on_pool_import` and `on_tick` up to their first wait
or second lock. -/
def handle : Event Hash PeerId → Node Hash PeerId
  | .notificationStreamOpened peer known => if known then connect O it now n peer else n
  | .notificationStreamClosed peer => disconnect O it now n peer
  | .notificationReceived peer majorSyncing message =>
    if majorSyncing then n
    else
      match message with
      | none => n
      | some hash => { n with worker := .submitting peer hash }
  | .peerConnected peer => connect O it now n peer
  | .peerDisconnected peer => disconnect O it now n peer
  | .poolImport hash majorSyncing =>
    if majorSyncing then n
    else if n.engine.isStem (O.key hash) then { n with worker := .importing hash now }
    else n
  | .tick => { n with worker := .expiring (embargoExpired it now n.engine) }

def peerById (peers : AList fun _ : PeerId => String) (id : String) : Option PeerId :=
  ((routes.order peers.entries).find? fun entry => decide (entry.2 = id)).map Sigma.fst

/-- `send_stem`, which fails when the transaction has left the pool. -/
def sendStem (peer : PeerId) (hash : Hash) : Node Hash PeerId :=
  if hash ∈ n.pool then { n with sent := n.sent ++ [(peer, hash)], worker := .idle }
  else { n with worker := .fluffing hash }

/-- The next step of the worker. -/
def work (accepted : Bool) : Node Hash PeerId :=
  match n.worker with
  | .idle => n
  | .submitting sender hash =>
    if accepted then { n.importTx hash true with worker := .entering sender hash }
    else { n with worker := .idle }
  | .entering sender hash =>
    -- one lock for both calls
    let engine := (enterStem it (O.key hash) (some (O.toBase58 sender)) now n.engine).2
    let (decision, engine) := stemDecision O.digests it (O.key hash) now engine
    { n with engine := engine, worker := .forwarding hash decision }
  | .importing hash now =>
    let (decision, engine) := stemDecision O.digests it (O.key hash) now n.engine
    { n with engine := engine, worker := .forwarding hash decision }
  | .forwarding hash decision =>
    match decision.bind (peerById routes n.peers) with
    | some peer => sendStem n peer hash
    | none => { n with worker := .fluffing hash }
  | .fluffing hash => { n with engine := (fluff (O.key hash) n.engine).2, worker := .idle }
  | .expiring [] => { n with worker := .idle }
  | .expiring (key :: keys) =>
    { n with engine := (fluff key n.engine).2, worker := .expiring keys }

/-- `GatedIter::next` on `hash`, and every other place where the gate wraps a transaction. -/
def gatedTx (hash : Hash) : GatedTx Hash := ⟨hash, !n.engine.isStem (O.key hash)⟩

end Functions

/-- One step of the node. The worker takes an event only when it is idle. -/
def step (n : Node Hash PeerId) (m : Move Hash PeerId) : Node Hash PeerId :=
  let now := n.clock + m.delay
  let n := { n with clock := now }
  match m.action with
  | .submitAt source xts => { n with submissions := n.submissions ++ [.submitAt source xts] }
  | .submitOne source xt => { n with submissions := n.submissions ++ [.submitOne source xt] }
  | .submitAndWatch source xt =>
    { n with submissions := n.submissions ++ [.submitAndWatch source xt] }
  | .submitLocal xt accepted => submitLocal n xt accepted
  | .resume i accepted => resume O m.orders now n i accepted
  | .event event =>
    match n.worker with
    | .idle => handle O m.orders now n event
    | _ => n
  | .work accepted => work O m.orders m.routes now n accepted
  | .drop hash => { n with pool := n.pool.erase hash }
  | .ready order => { n with unread := order.order n.pool }
  | .next => { n with unread := n.unread.tail }

end Node

/-- `is_propagable` of a gated transaction. -/
def GatedTx.isPropagable (O : Outside Hash PeerId) (tx : GatedTx Hash) : Bool :=
  tx.propagable && O.isPropagable tx.hash

/-! ## A node over 256-bit hashes -/

/-- The debug text of a 256-bit hash. -/
def h256Debug (hash : ByteLib.Bytes32) : String :=
  "0x" ++ String.ofList (hash.val.flatMap fun b =>
    [Nat.digitChar (b.toNat / 16), Nat.digitChar (b.toNat % 16)])

/-- An action at once, with the tables iterated as they are kept. -/
def Move.now (action : Action Hash PeerId) : Move Hash PeerId := ⟨0, .asKept, .asKept, action⟩

/-- Transactions of this runtime, all of which are to be propagated, and peers known by their
base58 text. -/
def h256Outside : Outside ByteLib.Bytes32 String := ⟨constantDigests, h256Debug, id, fun _ => true⟩

end Kohl.Dandelion
