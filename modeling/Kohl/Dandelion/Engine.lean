import Kohl.Lib.Iteration
import Mathlib.Data.List.MinMax

/-!
# The Dandelion++ engine

The state machine behind the stem set: which hashes are on the stem, which peer the node stems to and
whether it is a fluff node for the epoch. Instants and durations are natural numbers of nanoseconds.
The digests of `DefaultHasher` are a parameter, and so is, call by call, the order in which the hash
tables are iterated.

* `Routed`: the outbound peer is one of the peers, and there is one when there are peers.
* `stemDecision_eq_some`: what a decision to go on stemming says.
-/

namespace Kohl.Dandelion

/-- One second. -/
def SECOND : ℕ := 1_000_000_000

/-- `DandelionConfig`. The probability is a float; all that is asked of it is which of the 10 000
possible rolls lie below. -/
structure DandelionConfig where
  /-- `roll as f64 / 10_000.0 < fluff_probability`. -/
  belowFluffProbability : ℕ → Bool
  embargo : ℕ
  epoch : ℕ
  maxStemEntries : ℕ

/-- `DandelionConfig::default`. -/
def DandelionConfig.default : DandelionConfig where
  belowFluffProbability := fun roll => decide (roll < 1000)
  embargo := 16 * SECOND
  epoch := 10 * 60 * SECOND
  maxStemEntries := 4096

/-- The digests the engine takes: of the local id and the epoch index, and for two of them of a peer
or a transaction hash. -/
structure Digests where
  fluffRole : String → UInt64 → UInt64
  outbound : String → UInt64 → String → UInt64
  hopFluff : String → UInt64 → String → UInt64

structure EpochRoute where
  outbound : Option String
  isFluffNode : Bool
  index : UInt64

structure StemEntry where
  embargoDeadline : ℕ
  fromPeer : Option String

/-- The orders in which one call iterates the two tables of the engine. -/
structure Orders where
  peers : Iteration String
  stem : Iteration ((_ : String) × StemEntry)

def Orders.asKept : Orders := ⟨.asKept, .asKept⟩

structure DandelionEngine where
  cfg : DandelionConfig
  localId : String
  stem : AList fun _ : String => StemEntry
  epoch : EpochRoute
  peers : AList fun _ : String => Unit
  epochStarted : ℕ
  epochIndex : UInt64

namespace DandelionEngine

/-! ## The functions of the engine -/

section Functions

variable (D : Digests) (it : Orders)

def recomputeEpoch (now : ℕ) (e : DandelionEngine) : DandelionEngine :=
  let roll := (D.fluffRole e.localId e.epochIndex).toNat % 10_000
  let isFluffNode := e.cfg.belowFluffProbability roll
  let outbound :=
    if e.peers.keys.isEmpty then none
    else Iteration.scanMin (D.outbound e.localId e.epochIndex) (it.peers.order e.peers.keys)
  { e with epochStarted := now, epoch := ⟨outbound, isFluffNode, e.epochIndex⟩ }

def new (cfg : DandelionConfig) (localId : String) (now : ℕ) : DandelionEngine :=
  recomputeEpoch D it now ⟨cfg, localId, ∅, ⟨none, false, 0⟩, ∅, now, 0⟩

def maybeRollEpoch (now : ℕ) (e : DandelionEngine) : DandelionEngine :=
  -- `duration_since` saturates at zero, as the subtraction does.
  if e.cfg.epoch ≤ now - e.epochStarted then
    recomputeEpoch D it now { e with epochIndex := e.epochIndex + 1 }
  else e

def peerConnected (peer : String) (now : ℕ) (e : DandelionEngine) : DandelionEngine :=
  let e := { e with peers := e.peers.insert peer () }
  if e.epoch.outbound.isNone then recomputeEpoch D it now e else e

def peerDisconnected (peer : String) (now : ℕ) (e : DandelionEngine) : DandelionEngine :=
  let e := { e with peers := e.peers.erase peer }
  if e.epoch.outbound = some peer then recomputeEpoch D it now e else e

def isStem (hash : String) (e : DandelionEngine) : Bool := decide (hash ∈ e.stem)

/-- The entry that makes room, when the stem set is full. -/
def evicted (e : DandelionEngine) : Option String :=
  if e.stem.keys.length < e.cfg.maxStemEntries then none
  else ((it.stem.order e.stem.entries).argmin fun entry => entry.2.embargoDeadline).map Sigma.fst

def evictIfFull (e : DandelionEngine) : DandelionEngine :=
  match evicted it e with
  | none => e
  | some key => { e with stem := e.stem.erase key }

def enterStem (hash : String) (fromPeer : Option String) (now : ℕ) (e : DandelionEngine) :
    Bool × DandelionEngine :=
  if hash ∈ e.stem then (false, e)
  else
    let e := evictIfFull it e
    (true, { e with stem := e.stem.insert hash ⟨now + e.cfg.embargo, fromPeer⟩ })

def fluff (hash : String) (e : DandelionEngine) : Bool × DandelionEngine :=
  ((e.stem.lookup hash).isSome, { e with stem := e.stem.erase hash })

def sampleFluff (hash : String) (e : DandelionEngine) : Bool :=
  e.cfg.belowFluffProbability ((D.hopFluff e.localId e.epochIndex hash).toNat % 10_000)

/-- `stem_decision` behind the roll of the epoch. -/
def nextHop (hash : String) (e : DandelionEngine) : Option String :=
  if hash ∉ e.stem then none
  else if e.epoch.isFluffNode then none
  else if sampleFluff D hash e then none
  else do
    let fromPeer := (e.stem.lookup hash).bind StemEntry.fromPeer
    let outbound ← e.epoch.outbound
    -- Never bounce back to the inbound stem peer.
    if fromPeer = some outbound then
      (it.peers.order e.peers.keys).find? fun p => decide (some p ≠ fromPeer)
    else some outbound

def stemDecision (hash : String) (now : ℕ) (e : DandelionEngine) : Option String × DandelionEngine :=
  let e := maybeRollEpoch D it now e
  (nextHop D it hash e, e)

def embargoExpired (now : ℕ) (e : DandelionEngine) : List String :=
  ((it.stem.order e.stem.entries).filter fun entry => decide (entry.2.embargoDeadline ≤ now)).map
    Sigma.fst

end Functions

/-! ## What each function leaves alone -/

variable {D : Digests} {it : Orders} {e : DandelionEngine}

section Frames

variable (now : ℕ) (p hash : String) (fromPeer : Option String)

@[simp] theorem maybeRollEpoch_stem : (maybeRollEpoch D it now e).stem = e.stem := by
  unfold maybeRollEpoch
  split <;> rfl

@[simp] theorem maybeRollEpoch_cfg : (maybeRollEpoch D it now e).cfg = e.cfg := by
  unfold maybeRollEpoch
  split <;> rfl

@[simp] theorem maybeRollEpoch_peers : (maybeRollEpoch D it now e).peers = e.peers := by
  unfold maybeRollEpoch
  split <;> rfl

@[simp] theorem peerConnected_stem : (peerConnected D it p now e).stem = e.stem := by
  unfold peerConnected
  dsimp only
  split <;> rfl

@[simp] theorem peerConnected_peers :
    (peerConnected D it p now e).peers = e.peers.insert p () := by
  unfold peerConnected
  dsimp only
  split <;> rfl

@[simp] theorem peerDisconnected_stem : (peerDisconnected D it p now e).stem = e.stem := by
  unfold peerDisconnected
  dsimp only
  split <;> rfl

@[simp] theorem peerDisconnected_peers :
    (peerDisconnected D it p now e).peers = e.peers.erase p := by
  unfold peerDisconnected
  dsimp only
  split <;> rfl

@[simp] theorem stemDecision_stem : (stemDecision D it hash now e).2.stem = e.stem :=
  maybeRollEpoch_stem now

@[simp] theorem stemDecision_peers : (stemDecision D it hash now e).2.peers = e.peers :=
  maybeRollEpoch_peers now

/-- Entering the stem writes the stem set and nothing else. -/
theorem enterStem_frame : ∃ stem, (enterStem it hash fromPeer now e).2 = { e with stem := stem } := by
  unfold enterStem evictIfFull
  split
  · exact ⟨e.stem, rfl⟩
  · dsimp only
    split
    · exact ⟨_, rfl⟩
    · exact ⟨_, rfl⟩

@[simp] theorem enterStem_cfg : (enterStem it hash fromPeer now e).2.cfg = e.cfg := by
  obtain ⟨stem, hstem⟩ : ∃ stem, (enterStem it hash fromPeer now e).2 = { e with stem := stem } :=
    enterStem_frame now hash fromPeer
  rw [hstem]

@[simp] theorem enterStem_peers : (enterStem it hash fromPeer now e).2.peers = e.peers := by
  obtain ⟨stem, hstem⟩ : ∃ stem, (enterStem it hash fromPeer now e).2 = { e with stem := stem } :=
    enterStem_frame now hash fromPeer
  rw [hstem]

end Frames

/-! ## The stem set -/

theorem isStem_eq_true {hash : String} : isStem hash e = true ↔ hash ∈ e.stem := decide_eq_true_iff

theorem evictIfFull_stem {key : String} :
    key ∈ (evictIfFull it e).stem ↔ key ∈ e.stem ∧ evicted it e ≠ some key := by
  unfold evictIfFull
  split
  · next hnone =>
    rw [hnone]
    exact ⟨fun h => ⟨h, Option.some_ne_none key ∘ Eq.symm⟩, And.left⟩
  · next k hsome =>
    rw [hsome]
    show key ∈ e.stem.erase k ↔ _
    rw [AList.mem_erase, ne_eq, ne_eq, Option.some_inj, eq_comm, and_comm]

/-- What `hash` displaces as it enters the stem. -/
def displaced (it : Orders) (hash : String) (e : DandelionEngine) : Option String :=
  if hash ∈ e.stem then none else evicted it e

/-- A hash is on the stem behind `enter_stem` if it is the one that entered, or was there before and
was not displaced. -/
theorem mem_enterStem {hash key : String} {fromPeer : Option String} {now : ℕ} :
    key ∈ (enterStem it hash fromPeer now e).2.stem ↔
      key = hash ∨ key ∈ e.stem ∧ displaced it hash e ≠ some key := by
  unfold enterStem displaced
  split
  · next hmem =>
    constructor
    · intro h
      exact .inr ⟨h, Option.some_ne_none key ∘ Eq.symm⟩
    · rintro (rfl | ⟨h, -⟩)
      · exact hmem
      · exact h
  · show key ∈ (evictIfFull it e).stem.insert hash _ ↔ _
    rw [AList.mem_insert, evictIfFull_stem]

theorem mem_fluff {hash key : String} : key ∈ (fluff hash e).2.stem ↔ key ≠ hash ∧ key ∈ e.stem :=
  AList.mem_erase

/-! ## Routes -/

/-- The route of the epoch agrees with the peers: there is an outbound peer exactly when there are
peers, and it is one of them. -/
structure Routed (e : DandelionEngine) : Prop where
  none_iff : e.epoch.outbound = none ↔ e.peers.keys = []
  mem_peers : ∀ p, e.epoch.outbound = some p → p ∈ e.peers

theorem routed_recomputeEpoch (now : ℕ) (e : DandelionEngine) : Routed (recomputeEpoch D it now e) := by
  have houtbound : (recomputeEpoch D it now e).epoch.outbound =
      if e.peers.keys.isEmpty then none
      else Iteration.scanMin (D.outbound e.localId e.epochIndex) (it.peers.order e.peers.keys) := rfl
  rcases Decidable.em (e.peers.keys = []) with hnil | hne
  · rw [if_pos (List.isEmpty_iff.mpr hnil)] at houtbound
    refine ⟨⟨fun _ => hnil, fun _ => houtbound⟩, ?_⟩
    intro p hp
    rw [houtbound] at hp
    cases hp
  · rw [if_neg (fun h => hne (List.isEmpty_iff.mp h))] at houtbound
    refine ⟨?_, ?_⟩
    · rw [houtbound, Iteration.scanMin_eq_none]
      exact it.peers.order_eq_nil
    · intro p hp
      rw [houtbound] at hp
      exact AList.mem_keys.mpr (it.peers.mem_order.mp (Iteration.scanMin_mem hp))

theorem routed_new (cfg : DandelionConfig) (localId : String) (now : ℕ) :
    Routed (new D it cfg localId now) := routed_recomputeEpoch now _

theorem routed_maybeRollEpoch (h : Routed e) (now : ℕ) : Routed (maybeRollEpoch D it now e) := by
  unfold maybeRollEpoch
  split
  · exact routed_recomputeEpoch now _
  · exact h

/-- A new peer leaves an outbound peer in place, and the choice is made again when there was none. -/
theorem routed_peerConnected (h : Routed e) (p : String) (now : ℕ) :
    Routed (peerConnected D it p now e) := by
  unfold peerConnected
  dsimp only
  split
  · exact routed_recomputeEpoch now _
  · next hsome =>
    refine ⟨⟨fun hnone => ?_, fun hnil => ?_⟩, fun q hq => ?_⟩
    · exact absurd (Option.isNone_iff_eq_none.mpr hnone) hsome
    · rw [AList.keys_insert] at hnil
      cases hnil
    · exact (AList.mem_insert _).mpr (.inr (h.mem_peers q hq))

/-- The outbound peer is only lost together with its place in the peers, and then the choice is made
again. -/
theorem routed_peerDisconnected (h : Routed e) (p : String) (now : ℕ) :
    Routed (peerDisconnected D it p now e) := by
  unfold peerDisconnected
  dsimp only
  split
  · exact routed_recomputeEpoch now _
  · next hne =>
    have hmem : ∀ q, e.epoch.outbound = some q → q ∈ e.peers.erase p := by
      intro q hq
      refine AList.mem_erase.mpr ⟨?_, h.mem_peers q hq⟩
      rintro rfl
      exact hne hq
    refine ⟨⟨fun hnone => ?_, fun hnil => ?_⟩, hmem⟩
    · show (e.peers.erase p).keys = []
      rw [AList.keys_erase, h.none_iff.mp hnone]
      rfl
    · cases hout : e.epoch.outbound with
      | none => rfl
      | some q =>
        have hq := AList.mem_keys.mp (hmem q hout)
        have hkeys : (e.peers.erase p).keys = [] := hnil
        rw [hkeys] at hq
        cases hq

theorem Routed.of_route {e' : DandelionEngine} (h : Routed e) (hepoch : e'.epoch = e.epoch)
    (hpeers : e'.peers = e.peers) : Routed e' := by
  refine ⟨?_, ?_⟩
  · rw [hepoch, hpeers]
    exact h.none_iff
  · rw [hepoch, hpeers]
    exact h.mem_peers

theorem routed_enterStem (h : Routed e) (hash : String) (fromPeer : Option String) (now : ℕ) :
    Routed (enterStem it hash fromPeer now e).2 := by
  obtain ⟨stem, hstem⟩ : ∃ stem, (enterStem it hash fromPeer now e).2 = { e with stem := stem } :=
    enterStem_frame now hash fromPeer
  rw [hstem]
  exact h.of_route rfl rfl

theorem routed_fluff (h : Routed e) (hash : String) : Routed (fluff hash e).2 := h.of_route rfl rfl

/-- A decision to go on stemming is made for a hash on the stem by a node that is no fluff node, and
names a peer that is not the one the hash came from. -/
theorem nextHop_eq_some (h : Routed e) {hash p : String} (hp : nextHop D it hash e = some p) :
    hash ∈ e.stem ∧ e.epoch.isFluffNode = false ∧ p ∈ e.peers ∧
      ∀ entry, e.stem.lookup hash = some entry → entry.fromPeer ≠ some p := by
  unfold nextHop at hp
  split at hp
  · cases hp
  · next hmem =>
    split at hp
    · cases hp
    · next hrole =>
      split at hp
      · cases hp
      · obtain ⟨outbound, hout, hnext⟩ := Option.bind_eq_some_iff.mp hp
        refine ⟨Decidable.not_not.mp hmem, Bool.eq_false_iff.mpr hrole, ?_⟩
        split at hnext
        · -- the outbound peer sent it: any other peer
          have hother := List.find?_some hnext
          have hne := of_decide_eq_true hother
          have hpeer := it.peers.mem_order.mp (List.mem_of_find?_eq_some hnext)
          refine ⟨AList.mem_keys.mpr hpeer, ?_⟩
          intro entry hentry hfrom
          rw [hentry] at hne
          exact hne hfrom.symm
        · next hother =>
          cases hnext
          refine ⟨h.mem_peers _ hout, ?_⟩
          intro entry hentry hfrom
          rw [hentry] at hother
          exact hother hfrom

theorem routed_stemDecision (h : Routed e) (hash : String) (now : ℕ) :
    Routed (stemDecision D it hash now e).2 := routed_maybeRollEpoch h now

theorem stemDecision_eq_some (h : Routed e) {hash p : String} {now : ℕ}
    (hp : (stemDecision D it hash now e).1 = some p) :
    hash ∈ e.stem ∧ (stemDecision D it hash now e).2.epoch.isFluffNode = false ∧ p ∈ e.peers ∧
      ∀ entry, e.stem.lookup hash = some entry → entry.fromPeer ≠ some p := by
  have hnext := nextHop_eq_some (routed_maybeRollEpoch h now) hp
  rw [maybeRollEpoch_stem, maybeRollEpoch_peers] at hnext
  exact hnext

end DandelionEngine

/-- Digests that do not look at what they digest. The role and the samples they give are those of a
node that stems. -/
def constantDigests : Digests := ⟨fun _ _ => 5_000, fun _ _ _ => 0, fun _ _ _ => 5_000⟩

/-- The ids of two peers. -/
def alice : String := "12D3KooWEyoppNCUx8Yx66oV9fJnriXwCcXwDDUA2kj6vnc6iDEp"

def bob : String := "12D3KooWHdiAxVd8uMQR1hGWXccidmfCwLqcMpGwR6QcTP6QRMuD"

end Kohl.Dandelion
