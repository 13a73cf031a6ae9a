import Kohl.Dandelion.Engine
import Kohl.Lib.StorageMap

/-!
# How long an epoch lasts

The fluff role and the routing seed of a node follow the epoch index, and the index is to change once
an epoch is over. The age of the epoch is measured from `epoch_started`, which is also set when the
route is recomputed because a peer came or went; such a recomputation keeps the index, so that it
prolongs the epoch.

* `applyCall_spec`: what a call does to the index and the start of the epoch.
* `epoch_bounded_iff`: an epoch outlives its length exactly when a decision falls into the time by
  which a recomputation prolonged it.
* `reconnects_keep_epoch`: a peer that reconnects in every epoch keeps the index for ever.
-/

namespace Kohl.Dandelion

open DandelionEngine Run

/-- A call of the engine. -/
inductive Call
  | peerConnected (peer : String)
  | peerDisconnected (peer : String)
  | enterStem (hash : String) (fromPeer : Option String)
  | fluff (hash : String)
  | stemDecision (hash : String)

/-- A call, the time since the call before it and the orders in which it iterates. -/
structure TimedCall where
  delay : ℕ
  orders : Orders
  call : Call

variable (D : Digests)

def applyCall (it : Orders) (now : ℕ) (e : DandelionEngine) : Call → DandelionEngine
  | .peerConnected peer => peerConnected D it peer now e
  | .peerDisconnected peer => peerDisconnected D it peer now e
  | .enterStem hash fromPeer => (enterStem it hash fromPeer now e).2
  | .fluff hash => (fluff hash e).2
  | .stemDecision hash => (stemDecision D it hash now e).2

/-- Whether a peer that comes or goes makes the engine choose its route anew. -/
def Call.churns (e : DandelionEngine) : Call → Bool
  | .peerConnected _ => e.epoch.outbound.isNone
  | .peerDisconnected peer => decide (e.epoch.outbound = some peer)
  | _ => false

/-- An engine and its past. -/
structure History where
  engine : DandelionEngine
  now : ℕ
  /-- When the epoch index changed last, or the engine was created. -/
  changed : ℕ
  /-- When a peer made the engine choose its route anew, the last time since the index changed. -/
  churned : Option ℕ

namespace History

def start (it : Orders) (cfg : DandelionConfig) (localId : String) (created : ℕ) : History :=
  ⟨new D it cfg localId created, created, created, none⟩

def step (s : History) (c : TimedCall) : History :=
  let now := s.now + c.delay
  let engine := applyCall D c.orders now s.engine c.call
  if engine.epochIndex = s.engine.epochIndex then
    ⟨engine, now, s.changed, if c.call.churns s.engine then some now else s.churned⟩
  else ⟨engine, now, now, none⟩

/-- At `t` the index is due to change, but a peer has made the engine choose its route anew less than
an epoch ago. -/
def Postponed (s : History) (t : ℕ) : Prop :=
  ∃ c, s.churned = some c ∧ s.changed + s.engine.cfg.epoch ≤ t ∧ t < c + s.engine.cfg.epoch

end History

variable {D} {it : Orders} {now : ℕ} {e : DandelionEngine}

namespace EpochLemmas

theorem succ_ne_self (i : UInt64) : i + 1 ≠ i := by
  intro h
  have hone : (1 : UInt64) = 0 := by
    calc (1 : UInt64) = i + 1 - i := by rw [UInt64.add_comm, UInt64.add_sub_cancel]
      _ = i - i := by rw [h]
      _ = 0 := UInt64.sub_self i
  exact absurd hone (by decide)

/-- What a roll that is due does, and one that is not. -/
theorem maybeRollEpoch_due (h : e.cfg.epoch ≤ now - e.epochStarted) :
    (maybeRollEpoch D it now e).epochIndex = e.epochIndex + 1 ∧
      (maybeRollEpoch D it now e).epochStarted = now ∧ (maybeRollEpoch D it now e).cfg = e.cfg := by
  unfold maybeRollEpoch
  rw [if_pos h]
  exact ⟨rfl, rfl, rfl⟩

theorem maybeRollEpoch_early (h : ¬ e.cfg.epoch ≤ now - e.epochStarted) :
    maybeRollEpoch D it now e = e := if_neg h

/-- A call that is no decision keeps the index, and sets the start of the epoch if it chooses the
route anew. -/
theorem applyCall_spec (c : Call) (hc : ∀ h, c ≠ .stemDecision h) :
    (applyCall D it now e c).epochIndex = e.epochIndex ∧ (applyCall D it now e c).cfg = e.cfg ∧
      (applyCall D it now e c).epochStarted = if c.churns e then now else e.epochStarted := by
  cases c with
  | peerConnected peer =>
    unfold applyCall Call.churns peerConnected
    dsimp only
    split
    · exact ⟨rfl, rfl, rfl⟩
    · exact ⟨rfl, rfl, rfl⟩
  | peerDisconnected peer =>
    unfold applyCall Call.churns peerDisconnected
    dsimp only
    split
    · next h => exact ⟨rfl, rfl, (if_pos (decide_eq_true h)).symm⟩
    · next h => exact ⟨rfl, rfl, (if_neg fun hd => h (of_decide_eq_true hd)).symm⟩
  | enterStem hash fromPeer =>
    obtain ⟨stem, hstem⟩ : ∃ stem, (enterStem it hash fromPeer now e).2 = { e with stem := stem } :=
      enterStem_frame now hash fromPeer
    unfold applyCall Call.churns
    dsimp only
    rw [hstem]
    exact ⟨rfl, rfl, rfl⟩
  | fluff hash => exact ⟨rfl, rfl, rfl⟩
  | stemDecision hash => exact absurd rfl (hc hash)

/-- The start of the epoch is the last choice of the route: at the change of the index, or after it
because of a peer. -/
def Started (cfg : DandelionConfig) (s : History) : Prop :=
  s.engine.cfg = cfg ∧ s.engine.epochStarted = s.churned.getD s.changed

theorem started_start (cfg : DandelionConfig) (localId : String) (created : ℕ) :
    Started cfg (History.start D it cfg localId created) := ⟨rfl, rfl⟩

variable {cfg : DandelionConfig} {s : History} {c : TimedCall}

/-- A step that is no decision keeps the time of the last change. -/
theorem step_of_ne_decision (hc : ∀ h, c.call ≠ .stemDecision h) :
    s.step D c = ⟨applyCall D c.orders (s.now + c.delay) s.engine c.call, s.now + c.delay, s.changed,
      if c.call.churns s.engine then some (s.now + c.delay) else s.churned⟩ := by
  obtain ⟨hindex, -, -⟩ := @applyCall_spec D c.orders (s.now + c.delay) s.engine c.call hc
  exact if_pos hindex

theorem started_of_ne_decision (h : Started cfg s) (hc : ∀ h, c.call ≠ .stemDecision h) :
    Started cfg (s.step D c) := by
  obtain ⟨-, hcfg, hstart⟩ := @applyCall_spec D c.orders (s.now + c.delay) s.engine c.call hc
  rw [step_of_ne_decision hc]
  refine ⟨hcfg.trans h.1, hstart.trans ?_⟩
  dsimp only
  split
  · rfl
  · exact h.2

theorem step_decision_due {delay : ℕ} {hash : String}
    (hdue : s.engine.cfg.epoch ≤ s.now + delay - s.engine.epochStarted) :
    s.step D ⟨delay, it, .stemDecision hash⟩ =
      ⟨maybeRollEpoch D it (s.now + delay) s.engine, s.now + delay, s.now + delay, none⟩ := by
  obtain ⟨hindex, -, -⟩ := @maybeRollEpoch_due D it _ _ hdue
  refine if_neg ?_
  show ¬ (maybeRollEpoch D it (s.now + delay) s.engine).epochIndex = s.engine.epochIndex
  rw [hindex]
  exact succ_ne_self _

theorem step_decision_early {delay : ℕ} {hash : String}
    (hearly : ¬ s.engine.cfg.epoch ≤ s.now + delay - s.engine.epochStarted) :
    s.step D ⟨delay, it, .stemDecision hash⟩ = { s with now := s.now + delay } := by
  have hsame : applyCall D it (s.now + delay) s.engine (.stemDecision hash) = s.engine :=
    maybeRollEpoch_early hearly
  unfold History.step
  dsimp only
  rw [hsame, if_pos rfl]
  rfl

theorem started_step (h : Started cfg s) (c : TimedCall) : Started cfg (s.step D c) := by
  obtain ⟨delay, it, call⟩ := c
  cases call with
  | stemDecision hash =>
    rcases Decidable.em (s.engine.cfg.epoch ≤ s.now + delay - s.engine.epochStarted) with hdue | hearly
    · rw [step_decision_due hdue]
      obtain ⟨-, hstart, hcfg⟩ := @maybeRollEpoch_due D it _ _ hdue
      exact ⟨hcfg.trans h.1, hstart⟩
    · rw [step_decision_early hearly]
      exact h
  | peerConnected peer => exact started_of_ne_decision h (by simp)
  | peerDisconnected peer => exact started_of_ne_decision h (by simp)
  | enterStem hash fromPeer => exact started_of_ne_decision h (by simp)
  | fluff hash => exact started_of_ne_decision h (by simp)

/-- One decision: the index changed less than an epoch ago unless its change was postponed. -/
theorem decision_bounded_iff (h : Started cfg s) (hepoch : 0 < cfg.epoch) (delay : ℕ) (it : Orders)
    (hash : String) :
    (s.step D ⟨delay, it, .stemDecision hash⟩).now - (s.step D ⟨delay, it, .stemDecision hash⟩).changed
        < cfg.epoch ↔ ¬ s.Postponed (s.now + delay) := by
  obtain ⟨hcfg, hstart⟩ := h
  unfold History.Postponed
  rcases Decidable.em (s.engine.cfg.epoch ≤ s.now + delay - s.engine.epochStarted) with hdue | hearly
  · rw [step_decision_due hdue]
    refine iff_of_true ?_ ?_
    · show s.now + delay - (s.now + delay) < cfg.epoch
      rw [Nat.sub_self]
      exact hepoch
    · rintro ⟨c, hc, -, hlt⟩
      rw [hstart, hc, Option.getD_some, hcfg] at hdue
      rw [hcfg] at hlt
      omega
  · rw [step_decision_early hearly]
    show s.now + delay - s.changed < cfg.epoch ↔ _
    rw [hcfg] at hearly ⊢
    cases hc : s.churned with
    | none =>
      rw [hstart, hc, Option.getD_none] at hearly
      refine iff_of_true (by omega) ?_
      rintro ⟨c, hnone, -⟩
      cases hnone
    | some c =>
      rw [hstart, hc, Option.getD_some] at hearly
      constructor
      · rintro hlt ⟨c', -, hover, -⟩
        omega
      · intro hnot
        by_contra hover
        exact hnot ⟨c, rfl, by omega, by omega⟩

end EpochLemmas

open EpochLemmas

/-- At every decision of a run the epoch index changed less than an epoch ago, or the engine is
younger than that, exactly when no decision comes at a time when the change is postponed. -/
theorem epoch_bounded_iff (D : Digests) (it : Orders) (cfg : DandelionConfig) (hepoch : 0 < cfg.epoch)
    (localId : String) (created : ℕ) (calls : List TimedCall) :
    (∀ pre delay it' hash, pre ++ [⟨delay, it', .stemDecision hash⟩] <+: calls →
      let s := run (History.step D) (History.start D it cfg localId created)
        (pre ++ [⟨delay, it', .stemDecision hash⟩])
      s.now - s.changed < cfg.epoch) ↔
    ∀ pre delay it' hash, pre ++ [⟨delay, it', .stemDecision hash⟩] <+: calls →
      let s := run (History.step D) (History.start D it cfg localId created) pre
      ¬ s.Postponed (s.now + delay) := by
  have hdecision : ∀ pre delay it' hash,
      let s := run (History.step D) (History.start D it cfg localId created) pre
      let s' := run (History.step D) (History.start D it cfg localId created)
        (pre ++ [⟨delay, it', .stemDecision hash⟩])
      s'.now - s'.changed < cfg.epoch ↔ ¬ s.Postponed (s.now + delay) := by
    intro pre delay it' hash s s'
    have hs : Started cfg s :=
      run_invariant (started_start cfg localId created) (fun _ c h => started_step h c) pre
    have hs' : s' = s.step D ⟨delay, it', .stemDecision hash⟩ := run_concat _ _ _
    rw [hs']
    exact decision_bounded_iff hs hepoch delay it' hash
  constructor
  · intro h pre delay it' hash hpre
    exact (hdecision pre delay it' hash).mp (h pre delay it' hash hpre)
  · intro h pre delay it' hash hpre
    exact (hdecision pre delay it' hash).mpr (h pre delay it' hash hpre)

/-- A peer that keeps its connection: the decision finds the epoch over and changes the index. -/
theorem epoch_bounded_connected :
    0 < DandelionConfig.default.epoch ∧
    ∀ pre delay it' hash, pre ++ [⟨delay, it', .stemDecision hash⟩] <+:
      [⟨0, .asKept, .peerConnected alice⟩, ⟨1198 * SECOND, .asKept, .stemDecision "0x01"⟩] →
      let s := run (History.step constantDigests)
        (History.start constantDigests .asKept .default "kohl-00" 0)
        (pre ++ [⟨delay, it', .stemDecision hash⟩])
      s.now - s.changed < DandelionConfig.default.epoch := by
  have hepoch : 0 < DandelionConfig.default.epoch := by decide
  refine ⟨hepoch, (epoch_bounded_iff constantDigests .asKept .default hepoch "kohl-00" 0 _).mpr ?_⟩
  intro pre delay it' hash hpre s
  obtain ⟨post, hpost⟩ := hpre
  cases pre with
  | nil => cases hpost
  | cons first pre =>
    cases pre with
    | nil =>
      cases hpost
      rintro ⟨c, hc, -, hlt⟩
      cases hc
      exact absurd hlt (by decide)
    | cons second pre => exact absurd (congrArg List.length hpost) (by simp)

/-! ## A peer that reconnects -/

/-- The only peer disconnects and connects again; a decision follows after `delay`. -/
def reconnect (it : Orders) (peer hash : String) (delay : ℕ) : List TimedCall :=
  [⟨0, it, .peerDisconnected peer⟩, ⟨0, it, .peerConnected peer⟩, ⟨delay, it, .stemDecision hash⟩]

namespace EpochLemmas

/-- An engine with one peer. -/
def Alone (peer : String) (e : DandelionEngine) : Prop :=
  e.peers.keys = [peer] ∧ e.epoch.outbound = some peer

/-- The first peer becomes the outbound peer, and the epoch begins anew. -/
theorem alone_peerConnected {peer : String} (hkeys : e.peers.keys = [])
    (houtbound : e.epoch.outbound = none) :
    Alone peer (peerConnected D it peer now e) ∧
      (peerConnected D it peer now e).epochStarted = now := by
  have hnew : peerConnected D it peer now e =
      recomputeEpoch D it now { e with peers := e.peers.insert peer () } :=
    if_pos (Option.isNone_iff_eq_none.mpr houtbound)
  have hpeers : (peerConnected D it peer now e).peers.keys = [peer] := by
    rw [peerConnected_peers, AList.keys_insert, hkeys]
    rfl
  have hrouted : Routed (peerConnected D it peer now e) := by
    rw [hnew]
    exact routed_recomputeEpoch now _
  refine ⟨⟨hpeers, ?_⟩, by rw [hnew]; rfl⟩
  cases hout : (peerConnected D it peer now e).epoch.outbound with
  | none =>
    rw [hrouted.none_iff.mp hout] at hpeers
    cases hpeers
  | some p =>
    have hmem := AList.mem_keys.mp (hrouted.mem_peers p hout)
    rw [hpeers, List.mem_singleton] at hmem
    rw [hmem]

/-- The last peer leaves no outbound peer. -/
theorem peerDisconnected_of_alone {peer : String} (h : Alone peer e) :
    (peerDisconnected D it peer now e).peers.keys = [] ∧
      (peerDisconnected D it peer now e).epoch.outbound = none := by
  have hkeys : (peerDisconnected D it peer now e).peers.keys = [] := by
    rw [peerDisconnected_peers, AList.keys_erase, h.1, List.erase_cons_head]
  have hnew : peerDisconnected D it peer now e =
      recomputeEpoch D it now { e with peers := e.peers.erase peer } := if_pos h.2
  have hrouted : Routed (peerDisconnected D it peer now e) := by
    rw [hnew]
    exact routed_recomputeEpoch now _
  exact ⟨hkeys, hrouted.none_iff.mpr hkeys⟩

theorem run_reconnect {s : History} {peer : String} (hash : String) {delay : ℕ}
    (h : Alone peer s.engine) (hdelay : delay < s.engine.cfg.epoch) :
    let s' := run (History.step D) s (reconnect it peer hash delay)
    Alone peer s'.engine ∧ s'.engine.epochIndex = s.engine.epochIndex ∧
      s'.engine.cfg = s.engine.cfg ∧ s'.now = s.now + delay ∧ s'.changed = s.changed := by
  intro s'
  let left := peerDisconnected D it peer s.now s.engine
  let back := peerConnected D it peer s.now left
  obtain ⟨hkeys, hnone⟩ := @peerDisconnected_of_alone D it s.now s.engine peer h
  obtain ⟨halone, hstart⟩ := @alone_peerConnected D it s.now left peer hkeys hnone
  obtain ⟨hindex, hcfg, -⟩ :=
    @applyCall_spec D it s.now s.engine (.peerDisconnected peer) (fun _ hc => by cases hc)
  obtain ⟨hindex', hcfg', -⟩ :=
    @applyCall_spec D it s.now left (.peerConnected peer) (fun _ hc => by cases hc)
  have hbackCfg : back.cfg = s.engine.cfg := hcfg'.trans hcfg
  -- before the decision the engine has its peer back and its epoch begins
  obtain ⟨churned, hback⟩ : ∃ churned,
      (s.step D ⟨0, it, .peerDisconnected peer⟩).step D ⟨0, it, .peerConnected peer⟩ =
        ⟨back, s.now, s.changed, churned⟩ := by
    rw [step_of_ne_decision (s := s) (fun _ hc => by cases hc),
      step_of_ne_decision (fun _ hc => by cases hc)]
    exact ⟨_, rfl⟩
  have hearly : ¬ back.cfg.epoch ≤ s.now + delay - back.epochStarted := by
    rw [hbackCfg, hstart, Nat.add_sub_cancel_left]
    exact Nat.not_le.mpr hdelay
  have hrun : s' = ⟨back, s.now + delay, s.changed, churned⟩ := by
    unfold s' reconnect
    rw [run_cons, run_cons, run_cons, run_nil, hback, step_decision_early hearly]
  rw [hrun]
  exact ⟨halone, hindex'.trans hindex, hbackCfg, rfl, rfl⟩

end EpochLemmas

namespace EpochLemmas

theorem run_reconnects {s : History} {peer : String} (hash : String) {delay : ℕ}
    (h : Alone peer s.engine) (hdelay : delay < s.engine.cfg.epoch) (rounds : ℕ) :
    let s' := run (History.step D) s (List.replicate rounds (reconnect it peer hash delay)).flatten
    s'.engine.epochIndex = s.engine.epochIndex ∧ s'.now = s.now + rounds * delay ∧
      s'.changed = s.changed := by
  induction rounds generalizing s with
  | zero => exact ⟨rfl, by rw [Nat.zero_mul]; rfl, rfl⟩
  | succ rounds ih =>
    have hround := @run_reconnect D it s peer hash delay h hdelay
    rw [List.replicate_succ, List.flatten_cons, run_append]
    generalize run (History.step D) s (reconnect it peer hash delay) = s' at hround ⊢
    obtain ⟨halone, hindex, hcfg, hnow, hchanged⟩ := hround
    obtain ⟨hindex', hnow', hchanged'⟩ := ih halone (hcfg ▸ hdelay)
    refine ⟨hindex'.trans hindex, ?_, hchanged'.trans hchanged⟩
    rw [hnow', hnow, Nat.succ_mul, Nat.add_assoc, Nat.add_comm delay]

end EpochLemmas

/-- A peer that reconnects in every epoch keeps the index of an engine, and with it the role and the
routing seed, for as long as it likes. -/
theorem reconnects_keep_epoch (D : Digests) (it : Orders) (cfg : DandelionConfig) (localId : String)
    (created : ℕ) (peer hash : String) {delay : ℕ} (hdelay : delay < cfg.epoch) (rounds : ℕ) :
    let s := run (History.step D) (History.start D it cfg localId created)
      (⟨0, it, .peerConnected peer⟩ :: (List.replicate rounds (reconnect it peer hash delay)).flatten)
    s.engine.epochIndex = 0 ∧ s.now - s.changed = rounds * delay := by
  intro s
  have hfirst : (History.start D it cfg localId created).step D ⟨0, it, .peerConnected peer⟩ = _ :=
    step_of_ne_decision fun _ hc => by cases hc
  obtain ⟨halone, -⟩ := @alone_peerConnected D it created (new D it cfg localId created) peer rfl rfl
  obtain ⟨hindex, hcfg, -⟩ := @applyCall_spec D it created (new D it cfg localId created)
    (.peerConnected peer) (fun _ hc => by cases hc)
  have hrun := @run_reconnects D it ((History.start D it cfg localId created).step D
    ⟨0, it, .peerConnected peer⟩) peer hash delay
  rw [hfirst] at hrun
  obtain ⟨hindex', hnow, hchanged⟩ := hrun halone (hcfg ▸ hdelay) rounds
  have hs : s = run (History.step D) _ _ := run_cons _ _ _
  rw [hfirst] at hs
  rw [hs]
  refine ⟨hindex'.trans hindex, ?_⟩
  rw [hnow, hchanged]
  exact Nat.add_sub_cancel_left created _

/-- The only peer disconnects and connects again a second before the epoch ends; a decision follows
when the epoch has been over for almost as long as it was to last. -/
def reconnection : List TimedCall :=
  [⟨0, .asKept, .peerConnected alice⟩,
    ⟨599 * SECOND, .asKept, .peerDisconnected alice⟩,
    ⟨0, .asKept, .peerConnected alice⟩,
    ⟨599 * SECOND, .asKept, .stemDecision "0x01"⟩]

/-- Almost twenty minutes after it was created, an engine whose epochs last ten still has its first
index. With one peer to choose from, the digests play no part in it. -/
theorem epoch_prolonged :
    let s := run (History.step constantDigests)
      (History.start constantDigests .asKept .default "kohl-00" 0) reconnection
    0 < DandelionConfig.default.epoch ∧ s.engine.epochIndex = 0 ∧
      ¬ s.now - s.changed < DandelionConfig.default.epoch := by
  decide

end Kohl.Dandelion
