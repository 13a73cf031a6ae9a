import Kohl.Dandelion.Embargo
import Kohl.Dandelion.Flood
import Kohl.Dandelion.Relay

/-!
# The embargo while other steps are taken

A tick reads the expired hashes under one lock and fluffs them one by one under others. In between the
gate marks hashes, full sets evict, and what was fluffed may be marked again.

* `lookup_step`: where the entry of a hash comes from.
* `Swept`: what expired before a tick is waiting to be fluffed by it, or gone.
* `embargo_interleaved`: once the worker has left a tick, nothing is on the stem whose embargo had expired
  when the tick began.
-/

namespace Kohl.Dandelion

open DandelionEngine Run

variable {Hash PeerId : Type} [DecidableEq Hash] [DecidableEq PeerId]

/-- Every hash whose embargo expired by `due` is among those that a tick has yet to fluff. -/
def Swept (due : ℕ) (n : Node Hash PeerId) : Prop :=
  ∀ key entry, n.engine.stem.lookup key = some entry → entry.embargoDeadline ≤ due →
    ∃ keys, n.worker = .expiring keys ∧ key ∈ keys

/-- The step `x` of a run puts `key` on the stem at the time `t`. -/
structure Marks (O : Outside Hash PeerId) (key : String) (t : ℕ)
    (x : Node Hash PeerId × Move Hash PeerId) : Prop where
  before : key ∉ x.1.engine.stem
  after : key ∈ (x.1.step O x.2).engine.stem
  time : x.1.clock + x.2.delay = t

namespace SweepLemmas

open EmbargoLemmas FloodLemmas

variable {O : Outside Hash PeerId} {n : Node Hash PeerId} {m : Move Hash PeerId} {it : Orders}
  {routes : Iteration ((_ : PeerId) × String)} {now : ℕ} {key : String} {entry : StemEntry}

/-! ## The clock and the configuration -/

/-- The functions of the node keep the clock and the configuration. -/
structure Frame (n n' : Node Hash PeerId) : Prop where
  clock : n'.clock = n.clock
  cfg : n'.engine.cfg = n.engine.cfg

omit [DecidableEq PeerId] in
theorem frame_importTx (hash : Hash) (accepted : Bool) : Frame n (n.importTx hash accepted) := by
  unfold Node.importTx
  split <;> exact ⟨rfl, rfl⟩

omit [DecidableEq PeerId] in
theorem frame_submitLocal (xt : Hash) (accepted : Bool) : Frame n (n.submitLocal xt accepted) := by
  unfold Node.submitLocal
  split
  · exact ⟨(frame_importTx xt true).clock, (frame_importTx xt true).cfg⟩
  · exact ⟨rfl, rfl⟩

omit [DecidableEq Hash] in
theorem frame_connect (peer : PeerId) : Frame n (n.connect O it now peer) := by
  refine ⟨rfl, ?_⟩
  show (peerConnected O.digests it (O.toBase58 peer) now n.engine).cfg = _
  unfold peerConnected
  dsimp only
  split <;> rfl

omit [DecidableEq Hash] in
theorem frame_disconnect (peer : PeerId) : Frame n (n.disconnect O it now peer) := by
  unfold Node.disconnect
  split
  · exact ⟨rfl, rfl⟩
  · next id _ =>
    refine ⟨rfl, ?_⟩
    show (peerDisconnected O.digests it id now n.engine).cfg = _
    unfold peerDisconnected
    dsimp only
    split <;> rfl

omit [DecidableEq Hash] in
theorem frame_handle (event : Event Hash PeerId) : Frame n (n.handle O it now event) := by
  cases event with
  | notificationStreamOpened peer known =>
    unfold Node.handle
    dsimp only
    split
    · exact frame_connect peer
    · exact ⟨rfl, rfl⟩
  | notificationStreamClosed peer => exact frame_disconnect peer
  | notificationReceived peer majorSyncing message =>
    unfold Node.handle
    dsimp only
    split
    · exact ⟨rfl, rfl⟩
    · cases message <;> exact ⟨rfl, rfl⟩
  | peerConnected peer => exact frame_connect peer
  | peerDisconnected peer => exact frame_disconnect peer
  | poolImport hash majorSyncing =>
    unfold Node.handle
    dsimp only
    split
    · exact ⟨rfl, rfl⟩
    · split <;> exact ⟨rfl, rfl⟩
  | tick => exact ⟨rfl, rfl⟩

omit [DecidableEq PeerId] in
theorem frame_resume (i : ℕ) (accepted : Bool) : Frame n (n.resume O it now i accepted) := by
  unfold Node.resume
  split
  · exact ⟨rfl, enterStem_cfg _ _ _⟩
  · exact ⟨rfl, rfl⟩
  · next hash xts _ => exact ⟨(frame_importTx hash accepted).clock, (frame_importTx hash accepted).cfg⟩
  · exact ⟨rfl, enterStem_cfg _ _ _⟩
  · exact ⟨rfl, rfl⟩

omit [DecidableEq PeerId] in
theorem frame_work (accepted : Bool) : Frame n (n.work O it routes now accepted) := by
  unfold Node.work
  split
  · exact ⟨rfl, rfl⟩
  · next sender hash _ =>
    split
    · exact ⟨(frame_importTx hash true).clock, (frame_importTx hash true).cfg⟩
    · exact ⟨rfl, rfl⟩
  · exact ⟨rfl, (maybeRollEpoch_cfg _).trans (enterStem_cfg _ _ _)⟩
  · exact ⟨rfl, maybeRollEpoch_cfg _⟩
  · split
    · unfold Node.sendStem
      split <;> exact ⟨rfl, rfl⟩
    · exact ⟨rfl, rfl⟩
  · exact ⟨rfl, rfl⟩
  · exact ⟨rfl, rfl⟩
  · exact ⟨rfl, rfl⟩

theorem frame_step : Frame { n with clock := n.clock + m.delay } (n.step O m) := by
  obtain ⟨delay, orders, routes, action⟩ := m
  cases action with
  | submitLocal xt accepted => exact frame_submitLocal xt accepted
  | resume i accepted => exact frame_resume i accepted
  | event event =>
    unfold Node.step
    dsimp only
    split
    · exact frame_handle event
    · exact ⟨rfl, rfl⟩
  | work accepted => exact frame_work accepted
  | _ => exact ⟨rfl, rfl⟩

/-! ## Where an entry comes from -/

/-- A lookup behind `enter_stem` finds what was there, or the entry of this call. -/
theorem lookup_of_enterStem {hash : String} {fromPeer : Option String} {e : DandelionEngine}
    (h : (enterStem it hash fromPeer now e).2.stem.lookup key = some entry) :
    e.stem.lookup key = some entry ∨ key ∉ e.stem ∧ entry.embargoDeadline = now + e.cfg.embargo := by
  by_cases hkey : key = hash
  · subst hkey
    rw [lookup_enterStem_self] at h
    split at h
    · exact .inl h
    · next hnot =>
      cases h
      exact .inr ⟨hnot, rfl⟩
  · rw [lookup_enterStem hkey] at h
    split at h
    · cases h
    · exact .inl h

theorem lookup_of_fluff {hash : String} {e : DandelionEngine}
    (h : (fluff hash e).2.stem.lookup key = some entry) : key ≠ hash ∧ e.stem.lookup key = some entry := by
  rw [lookup_fluff] at h
  split at h
  · cases h
  · next hne => exact ⟨hne, h⟩

omit [DecidableEq PeerId] in
theorem lookup_resume {i : ℕ} {accepted : Bool}
    (h : (n.resume O it now i accepted).engine.stem.lookup key = some entry) :
    n.engine.stem.lookup key = some entry ∨
      key ∉ n.engine.stem ∧ entry.embargoDeadline = now + n.engine.cfg.embargo := by
  unfold Node.resume at h
  split at h
  · exact lookup_of_enterStem h
  · exact .inl h
  · rw [show (n.importTx _ accepted).engine = n.engine from stem_importTx _ accepted] at h
    exact .inl h
  · exact lookup_of_enterStem h
  · exact .inl h

omit [DecidableEq PeerId] in
theorem lookup_work {accepted : Bool}
    (h : (n.work O it routes now accepted).engine.stem.lookup key = some entry) :
    n.engine.stem.lookup key = some entry ∨
      key ∉ n.engine.stem ∧ entry.embargoDeadline = now + n.engine.cfg.embargo := by
  unfold Node.work at h
  split at h
  · exact .inl h
  · split at h
    · rw [show (n.importTx _ true).engine = n.engine from stem_importTx _ true] at h
      exact .inl h
    · exact .inl h
  · next sender hash _ =>
    have hstem : (stemDecision O.digests it (O.key hash) now
        (enterStem it (O.key hash) (some (O.toBase58 sender)) now n.engine).2).2.stem.lookup key =
        some entry := h
    rw [stemDecision_stem] at hstem
    exact lookup_of_enterStem hstem
  · next hash at' _ =>
    have hstem : (stemDecision O.digests it (O.key hash) at' n.engine).2.stem.lookup key = some entry := h
    rw [stemDecision_stem] at hstem
    exact .inl hstem
  · split at h
    · unfold Node.sendStem at h
      split at h
      · exact .inl h
      · exact .inl h
    · exact .inl h
  · exact .inl (lookup_of_fluff h).2
  · exact .inl h
  · exact .inl (lookup_of_fluff h).2

/-- An entry behind a step was there before it, or its embargo begins with the step. -/
theorem lookup_step (h : (n.step O m).engine.stem.lookup key = some entry) :
    n.engine.stem.lookup key = some entry ∨
      key ∉ n.engine.stem ∧ entry.embargoDeadline = n.clock + m.delay + n.engine.cfg.embargo := by
  obtain ⟨delay, orders, routes, action⟩ := m
  cases action with
  | submitLocal xt accepted =>
    have hengine : (Node.submitLocal { n with clock := n.clock + delay } xt accepted).engine =
        n.engine := by
      unfold Node.submitLocal
      split
      · exact stem_importTx (n := { n with clock := n.clock + delay }) xt true
      · rfl
    have hentry : (Node.submitLocal { n with clock := n.clock + delay } xt
        accepted).engine.stem.lookup key = some entry := h
    rw [hengine] at hentry
    exact .inl hentry
  | resume i accepted => exact lookup_resume (n := { n with clock := n.clock + delay }) h
  | event event =>
    unfold Node.step at h
    dsimp only at h
    split at h
    · rw [stem_handle] at h
      exact .inl h
    · exact .inl h
  | work accepted => exact lookup_work (n := { n with clock := n.clock + delay }) h
  | _ => exact .inl h

/-- Every deadline was set by a step that marked the hash. -/
theorem exists_marks (it : Orders) (cfg : DandelionConfig) (localId : String) (created : ℕ)
    (moves : List (Move Hash PeerId)) :
    (run (Node.step O) (.start O it cfg localId created) moves).engine.cfg = cfg ∧
    ∀ key entry, (run (Node.step O) (.start O it cfg localId created) moves).engine.stem.lookup key =
        some entry →
      ∃ t, entry.embargoDeadline = t + cfg.embargo ∧
        ∃ x ∈ trace (Node.step O) (.start O it cfg localId created) moves, Marks O key t x := by
  refine run_history_invariant (P := fun is (n : Node Hash PeerId) => n.engine.cfg = cfg ∧
    ∀ key entry, n.engine.stem.lookup key = some entry → ∃ t, entry.embargoDeadline = t + cfg.embargo ∧
      ∃ x ∈ trace (Node.step O) (.start O it cfg localId created) is, Marks O key t x)
    ⟨rfl, fun key entry h => by cases h⟩ (fun is m h => ⟨frame_step.cfg.trans h.1, ?_⟩) moves
  intro key entry hentry
  rw [trace_concat]
  rcases lookup_step hentry with hold | ⟨hnot, hdeadline⟩
  · obtain ⟨t, ht, x, hx, hmarks⟩ := h.2 key entry hold
    exact ⟨t, ht, x, List.mem_append_left _ hx, hmarks⟩
  · rw [h.1] at hdeadline
    exact ⟨_, hdeadline, _, List.mem_append_right _ List.mem_cons_self,
      ⟨hnot, AList.lookup_isSome.mp (hentry ▸ rfl), rfl⟩⟩

/-! ## The sweep -/

/-- A tick has everything that expired before it. -/
theorem swept_tick (hidle : n.worker = .idle) (htick : m.action = .event .tick) :
    Swept (n.clock + m.delay) (n.step O m) := by
  obtain ⟨delay, orders, routes, action⟩ := m
  dsimp only at htick
  subst htick
  unfold Node.step
  dsimp only
  rw [hidle]
  intro key entry hentry hdue
  exact ⟨_, rfl, mem_embargoExpired.mpr ⟨entry, hentry, hdue⟩⟩

/-- Whatever step is taken, what expired before the tick stays with the worker until it is gone; what is
marked expires later. -/
theorem swept_step {due : ℕ} (hclock : due ≤ n.clock) (hembargo : 0 < n.engine.cfg.embargo)
    (h : Swept due n) : Swept due (n.step O m) := by
  intro key entry hentry hdue
  rcases lookup_step hentry with hold | ⟨-, hnew⟩
  · obtain ⟨keys, hworker, hmem⟩ := h key entry hold hdue
    obtain ⟨delay, orders, routes, action⟩ := m
    cases action with
    | submitLocal xt accepted =>
      have hframe := RelayLemmas.submitLocal_frame (n := { n with clock := n.clock + delay }) xt accepted
      exact ⟨keys, hframe.2.trans hworker, hmem⟩
    | resume i accepted =>
      have hframe := RelayLemmas.resume_frame (O := O) (n := { n with clock := n.clock + delay }) orders
        (n.clock + delay) i accepted
      exact ⟨keys, hframe.2.trans hworker, hmem⟩
    | event event =>
      refine ⟨keys, ?_, hmem⟩
      unfold Node.step
      dsimp only
      rw [hworker]
    | work accepted =>
      cases keys with
      | nil => exact absurd hmem List.not_mem_nil
      | cons head keys =>
        have hstep : n.step O ⟨delay, orders, routes, .work accepted⟩ =
            { n with
              clock := n.clock + delay
              engine := (fluff head n.engine).2
              worker := .expiring keys } := by
          unfold Node.step Node.work
          dsimp only
          rw [hworker]
        rw [hstep] at hentry ⊢
        exact ⟨keys, rfl, List.mem_of_ne_of_mem (lookup_of_fluff hentry).1 hmem⟩
    | _ => exact ⟨keys, hworker, hmem⟩
  · omega

end SweepLemmas

open SweepLemmas

/-- Whatever is done between the steps of a tick and after it: what had expired when the tick began is
waiting for the worker to fluff it, and once the worker has left the tick, every transaction is handed out
as the inner pool says, unless a step marked it so late that its embargo had not expired when the tick
began. -/
theorem embargo_interleaved (O : Outside Hash PeerId) (it : Orders) (cfg : DandelionConfig)
    (localId : String) (created : ℕ) (hembargo : 0 < cfg.embargo) (earlier later : List (Move Hash PeerId))
    (tick : Move Hash PeerId) (htick : tick.action = .event .tick)
    (hidle : (run (Node.step O) (.start O it cfg localId created) earlier).worker = .idle) :
    let start := Node.start O it cfg localId created
    let due := (run (Node.step O) start earlier).clock + tick.delay
    let n := run (Node.step O) start (earlier ++ tick :: later)
    Swept due n ∧
    ((∀ keys, n.worker ≠ .expiring keys) → ∀ hash,
      (n.gatedTx O hash).isPropagable O = O.isPropagable hash ∨
        ∃ t, due < t + cfg.embargo ∧
          ∃ x ∈ trace (Node.step O) start (earlier ++ tick :: later), Marks O (O.key hash) t x) := by
  intro start due n
  have hn : n = run (Node.step O) ((run (Node.step O) start earlier).step O tick) later := by
    rw [← run_cons, ← run_append]
  have hswept : Swept due n := by
    have hall : due ≤ n.clock ∧ n.engine.cfg = cfg ∧ Swept due n := by
      rw [hn]
      refine run_invariant (P := fun n : Node Hash PeerId => due ≤ n.clock ∧ n.engine.cfg = cfg ∧
        Swept due n) ⟨?_, ?_, swept_tick hidle htick⟩ (fun n' m h => ⟨?_, ?_, ?_⟩) later
      · exact frame_step.clock.ge
      · exact frame_step.cfg.trans (exists_marks it cfg localId created earlier).1
      · rw [frame_step.clock]
        exact h.1.trans (Nat.le_add_right _ _)
      · exact frame_step.cfg.trans h.2.1
      · exact swept_step h.1 (h.2.1 ▸ hembargo) h.2.2
    exact hall.2.2
  refine ⟨hswept, fun hleft hash => ?_⟩
  cases hlookup : n.engine.stem.lookup (O.key hash) with
  | none =>
    refine .inl ?_
    have hnot : O.key hash ∉ n.engine.stem := AList.lookup_eq_none.mp hlookup
    rw [GatedTx.isPropagable, Node.gatedTx, isStem, decide_eq_false hnot]
    rfl
  | some entry =>
    refine .inr ?_
    obtain ⟨t, ht, hmarks⟩ := (exists_marks it cfg localId created _).2 _ entry hlookup
    refine ⟨t, ?_, hmarks⟩
    rw [← ht]
    by_contra hdue
    obtain ⟨keys, hworker, -⟩ := hswept _ entry hlookup (Nat.not_lt.mp hdue)
    exact hleft keys hworker

def swallowedTx : ByteLib.Bytes32 := ⟨List.replicate 32 34, rfl⟩

def laterTx : ByteLib.Bytes32 := ⟨List.replicate 32 35, rfl⟩

/-- A transaction of this node goes to the only peer, which keeps it. -/
def swallowed : List (Move ByteLib.Bytes32 String) :=
  [.now (.event (.peerConnected alice)), .now (.submitOne .localOrigin swallowedTx),
    .now (.resume 0 true), .now (.resume 0 true), .now (.resume 0 true),
    .now (.event (.poolImport swallowedTx false)), .now (.work true), .now (.work true)]

/-- Another transaction is marked while the tick is under way. -/
def meanwhile : List (Move ByteLib.Bytes32 String) :=
  [.now (.submitOne .localOrigin laterTx), .now (.resume 1 true), .now (.work true), .now (.work true)]

def lateTick : Move ByteLib.Bytes32 String := ⟨16 * SECOND, .asKept, .asKept, .event .tick⟩

theorem embargo_interleaved_swallowed :
    let n := run (Node.step h256Outside) relayStart (swallowed ++ lateTick :: meanwhile)
    n.sent = [(alice, swallowedTx)] ∧ (n.gatedTx h256Outside swallowedTx).isPropagable h256Outside = true ∧
      (n.gatedTx h256Outside laterTx).isPropagable h256Outside = false ∧
      ∀ hash, (n.gatedTx h256Outside hash).isPropagable h256Outside = true ∨
        ∃ t, 16 * SECOND < t + 16 * SECOND ∧
          ∃ x ∈ trace (Node.step h256Outside) relayStart (swallowed ++ lateTick :: meanwhile),
            Marks h256Outside (h256Debug hash) t x := by
  have hbefore : (run (Node.step h256Outside) relayStart swallowed).worker = .idle := by rfl
  have hafter : (run (Node.step h256Outside) relayStart (swallowed ++ lateTick :: meanwhile)).worker =
      .idle := by rfl
  obtain ⟨-, hleft⟩ := embargo_interleaved h256Outside .asKept .default "kohl-00" 0 (by decide) swallowed
    meanwhile lateTick rfl hbefore
  refine ⟨by decide +kernel, by decide +kernel, by decide +kernel, hleft fun keys hkeys => ?_⟩
  cases hafter.symm.trans hkeys

end Kohl.Dandelion
