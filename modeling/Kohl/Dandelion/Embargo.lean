import Kohl.Dandelion.Epochs

/-!
# How long a transaction stays on the stem

A transaction on the stem is withheld from gossip. Nothing that a peer does may keep it there past its
embargo or let the stem set grow, so the entries are followed over runs of calls and ticks of the
worker, next to the time at which each hash entered last.

* `lookup_enterStem`, `lookup_onTick`: what entering the stem and a tick do to an entry.
* `evicted_minimal`: an eviction takes an entry with the least deadline.
* `embargo_and_capacity`: deadlines, expiry, capacity and the ways off the stem, in every run.
-/

namespace Kohl.Dandelion

open DandelionEngine Run

/-- `on_tick`: every expired entry is fluffed. -/
def onTick (it : Orders) (now : ℕ) (e : DandelionEngine) : DandelionEngine :=
  (embargoExpired it now e).foldl (fun e key => (fluff key e).2) e

/-- A call of the engine, or a tick of the worker. -/
inductive StemStep
  | call (call : Call)
  | tick

/-- A step, the time since the step before it and the orders in which it iterates. -/
structure TimedStep where
  delay : ℕ
  orders : Orders
  step : StemStep

/-- An engine, the time, and when `enter_stem` returned `true` for a hash the last time. -/
structure Stemming where
  engine : DandelionEngine
  now : ℕ
  entered : String → Option ℕ

namespace Stemming

variable (D : Digests)

def start (it : Orders) (cfg : DandelionConfig) (localId : String) (created : ℕ) : Stemming :=
  ⟨new D it cfg localId created, created, fun _ => none⟩

/-- The hash for which a step calls `enter_stem` with the answer `true`. -/
def enters (it : Orders) (now : ℕ) (e : DandelionEngine) : StemStep → Option String
  | .call (.enterStem hash fromPeer) => if (enterStem it hash fromPeer now e).1 then some hash else none
  | _ => none

def apply (it : Orders) (now : ℕ) (e : DandelionEngine) : StemStep → DandelionEngine
  | .call c => applyCall D it now e c
  | .tick => onTick it now e

def step (s : Stemming) (i : TimedStep) : Stemming :=
  let now := s.now + i.delay
  { engine := apply D i.orders now s.engine i.step
    now := now
    entered := fun hash =>
      if enters i.orders now s.engine i.step = some hash then some now else s.entered hash }

end Stemming

/-- Why the entry of `hash` is gone after a step of the engine `e` at `now`: it was fluffed, its
embargo had expired at a tick, or it made room in a full set and none had an earlier deadline. -/
inductive Leaves (it : Orders) (now : ℕ) (e : DandelionEngine) (hash : String) (entry : StemEntry) :
    StemStep → Prop
  | fluffed : Leaves it now e hash entry (.call (.fluff hash))
  | expired : entry.embargoDeadline ≤ now → Leaves it now e hash entry .tick
  | evicted {other : String} {fromPeer : Option String} :
      other ∉ e.stem → e.cfg.maxStemEntries ≤ e.stem.keys.length → evicted it e = some hash →
      (∀ key entry', e.stem.lookup key = some entry' → entry.embargoDeadline ≤ entry'.embargoDeadline) →
      Leaves it now e hash entry (.call (.enterStem other fromPeer))

namespace EmbargoLemmas

variable {D : Digests} {it : Orders} {now : ℕ} {e : DandelionEngine} {hash key : String}
  {fromPeer : Option String} {entry : StemEntry}

/-! ## The entry of a hash behind each call -/

theorem lookup_evictIfFull : (evictIfFull it e).stem.lookup key =
    if evicted it e = some key then none else e.stem.lookup key := by
  unfold evictIfFull
  split
  · next hnone =>
    rw [hnone, if_neg (Option.some_ne_none key).symm]
  · next k hsome =>
    rw [hsome]
    show (e.stem.erase k).lookup key = _
    split
    · next heq =>
      rw [Option.some.inj heq]
      exact AList.lookup_erase key e.stem
    · next hne => exact AList.lookup_erase_ne fun h => hne (h ▸ rfl)

theorem evictIfFull_cfg : (evictIfFull it e).cfg = e.cfg := by
  unfold evictIfFull
  split <;> rfl

/-- A hash that is on the stem keeps its entry; another one gets the deadline of this call. -/
theorem lookup_enterStem_self : (enterStem it hash fromPeer now e).2.stem.lookup hash =
    if hash ∈ e.stem then e.stem.lookup hash else some ⟨now + e.cfg.embargo, fromPeer⟩ := by
  unfold enterStem
  split
  · rfl
  · show ((evictIfFull it e).stem.insert hash ⟨now + (evictIfFull it e).cfg.embargo, fromPeer⟩).lookup
      hash = _
    rw [AList.lookup_insert, evictIfFull_cfg]

theorem lookup_enterStem (h : key ≠ hash) :
    (enterStem it hash fromPeer now e).2.stem.lookup key =
      if displaced it hash e = some key then none else e.stem.lookup key := by
  unfold enterStem displaced
  split
  · rw [if_neg (Option.some_ne_none key).symm]
  · show ((evictIfFull it e).stem.insert hash _).lookup key = _
    rw [AList.lookup_insert_ne h, lookup_evictIfFull]

theorem lookup_fluff : (fluff hash e).2.stem.lookup key =
    if key = hash then none else e.stem.lookup key := by
  show (e.stem.erase hash).lookup key = _
  split
  · next heq =>
    rw [heq]
    exact AList.lookup_erase hash e.stem
  · next hne => exact AList.lookup_erase_ne hne

theorem lookup_foldl_fluff (keys : List String) (e : DandelionEngine) :
    (keys.foldl (fun e key => (fluff key e).2) e).stem.lookup key =
      if key ∈ keys then none else e.stem.lookup key := by
  induction keys generalizing e with
  | nil => rfl
  | cons k keys ih =>
    show (keys.foldl (fun e key => (fluff key e).2) (fluff k e).2).stem.lookup key = _
    rw [ih, lookup_fluff]
    rcases Decidable.em (key ∈ keys) with hmem | hnot
    · rw [if_pos hmem, if_pos (List.mem_cons_of_mem k hmem)]
    · rw [if_neg hnot]
      rcases Decidable.em (key = k) with rfl | hne
      · rw [if_pos rfl, if_pos List.mem_cons_self]
      · rw [if_neg hne, if_neg]
        rintro (_ | ⟨_, hmem⟩)
        · exact hne rfl
        · exact hnot hmem

theorem mem_embargoExpired : key ∈ embargoExpired it now e ↔
    ∃ entry, e.stem.lookup key = some entry ∧ entry.embargoDeadline ≤ now := by
  unfold embargoExpired
  constructor
  · intro h
    obtain ⟨⟨k, entry⟩, hmem, rfl⟩ := List.mem_map.mp h
    obtain ⟨hentry, hdue⟩ := List.mem_filter.mp hmem
    exact ⟨entry, AList.mem_lookup_iff.mpr (it.stem.mem_order.mp hentry), of_decide_eq_true hdue⟩
  · rintro ⟨entry, hlookup, hdue⟩
    refine List.mem_map.mpr ⟨⟨key, entry⟩, List.mem_filter.mpr ⟨?_, decide_eq_true hdue⟩, rfl⟩
    exact it.stem.mem_order.mpr (AList.mem_lookup_iff.mp hlookup)

/-- A tick takes exactly the expired entries. -/
theorem lookup_onTick : (onTick it now e).stem.lookup key = some entry ↔
    e.stem.lookup key = some entry ∧ now < entry.embargoDeadline := by
  unfold onTick
  rw [lookup_foldl_fluff]
  split
  · next hmem =>
    obtain ⟨entry', hlookup, hdue⟩ := mem_embargoExpired.mp hmem
    constructor
    · intro h
      cases h
    · rintro ⟨hentry, hlater⟩
      cases hentry.symm.trans hlookup
      exact absurd hdue (Nat.not_le.mpr hlater)
  · next hnot =>
    constructor
    · intro h
      exact ⟨h, Nat.not_le.mp fun hdue => hnot (mem_embargoExpired.mpr ⟨entry, h, hdue⟩)⟩
    · exact And.left

/-! ## Evictions -/

/-- Only a full set evicts, and then an entry with the least deadline. -/
theorem evicted_minimal (h : evicted it e = some hash) :
    e.cfg.maxStemEntries ≤ e.stem.keys.length ∧ ∃ entry, e.stem.lookup hash = some entry ∧
      ∀ key entry', e.stem.lookup key = some entry' → entry.embargoDeadline ≤ entry'.embargoDeadline := by
  unfold evicted at h
  split at h
  · cases h
  · next hfull =>
    obtain ⟨⟨k, entry⟩, hmin, rfl⟩ := Option.map_eq_some_iff.mp h
    refine ⟨Nat.not_lt.mp hfull, entry, ?_, ?_⟩
    · exact AList.mem_lookup_iff.mpr (it.stem.mem_order.mp (List.argmin_mem hmin))
    · intro key entry' hlookup
      have hmem : (⟨key, entry'⟩ : (_ : String) × StemEntry) ∈ it.stem.order e.stem.entries :=
        it.stem.mem_order.mpr (AList.mem_lookup_iff.mp hlookup)
      have hle := List.le_of_mem_argmin hmem hmin
      exact hle

/-- A full set evicts unless it is empty, which only a capacity of zero makes it. -/
theorem evicted_eq_none (h : evicted it e = none) :
    e.stem.keys.length < e.cfg.maxStemEntries ∨ e.stem.keys = [] := by
  unfold evicted at h
  split at h
  · next hroom => exact .inl hroom
  · refine .inr ?_
    have hnil := it.stem.order_eq_nil.mp (List.argmin_eq_none.mp (Option.map_eq_none_iff.mp h))
    show e.stem.entries.keys = []
    rw [hnil]
    rfl

/-- There is room for one more behind `evict_if_full`. -/
theorem length_evictIfFull (h : e.stem.keys.length ≤ max 1 e.cfg.maxStemEntries) :
    (evictIfFull it e).stem.keys.length + 1 ≤ max 1 e.cfg.maxStemEntries := by
  unfold evictIfFull
  split
  · next hnone =>
    rcases evicted_eq_none hnone with hroom | hnil
    · exact Nat.le_trans hroom (Nat.le_max_right _ _)
    · rw [hnil]
      exact Nat.le_max_left _ _
  · next k hsome =>
    obtain ⟨-, entry, hlookup, -⟩ := evicted_minimal hsome
    have hmem : k ∈ e.stem.keys := AList.mem_keys.mp (AList.lookup_isSome.mp (hlookup ▸ rfl))
    show (e.stem.erase k).keys.length + 1 ≤ _
    rw [AList.keys_erase, List.length_erase_of_mem hmem,
      Nat.sub_add_cancel (List.length_pos_of_mem hmem)]
    exact h

theorem length_enterStem (h : e.stem.keys.length ≤ max 1 e.cfg.maxStemEntries) :
    (enterStem it hash fromPeer now e).2.stem.keys.length ≤ max 1 e.cfg.maxStemEntries := by
  unfold enterStem
  split
  · exact h
  · show ((evictIfFull it e).stem.insert hash _).keys.length ≤ _
    rw [AList.keys_insert, List.length_cons]
    exact Nat.le_trans (Nat.succ_le_succ List.length_erase_le) (length_evictIfFull h)

theorem length_fluff : (fluff hash e).2.stem.keys.length ≤ e.stem.keys.length := by
  show (e.stem.erase hash).keys.length ≤ _
  rw [AList.keys_erase]
  exact List.length_erase_le

theorem onTick_frame : (onTick it now e).stem.keys.length ≤ e.stem.keys.length ∧
    (onTick it now e).cfg = e.cfg := by
  unfold onTick
  generalize embargoExpired it now e = keys
  induction keys generalizing e with
  | nil => exact ⟨Nat.le_refl _, rfl⟩
  | cons k keys ih =>
    obtain ⟨hlen, hcfg⟩ := @ih (fluff k e).2
    exact ⟨Nat.le_trans hlen length_fluff, hcfg⟩

/-! ## One step -/

open Stemming

theorem enterStem_fst : (enterStem it hash fromPeer now e).1 = true ↔ hash ∉ e.stem := by
  unfold enterStem
  split
  · next hmem => exact ⟨fun h => (Bool.false_ne_true h).elim, fun h => absurd hmem h⟩
  · next hnot => exact ⟨fun _ => hnot, fun _ => rfl⟩

theorem enters_eq_some {i : StemStep} (h : enters it now e i = some hash) :
    ∃ fromPeer, i = .call (.enterStem hash fromPeer) ∧ hash ∉ e.stem := by
  unfold enters at h
  split at h
  · next hash' fromPeer =>
    split at h
    · next htrue =>
      cases h
      exact ⟨fromPeer, rfl, enterStem_fst.mp htrue⟩
    · cases h
  · cases h

theorem apply_cfg (i : StemStep) : (apply D it now e i).cfg = e.cfg := by
  cases i with
  | tick => exact onTick_frame.2
  | call c =>
    rcases Classical.em (∃ hash, c = .stemDecision hash) with ⟨hash, rfl⟩ | hnot
    · exact maybeRollEpoch_cfg now
    · exact (EpochLemmas.applyCall_spec c fun hash h => hnot ⟨hash, h⟩).2.1

/-- A step enters a hash, fluffs one, is a tick, or leaves the stem set alone. -/
theorem apply_cases (D : Digests) (it : Orders) (now : ℕ) (e : DandelionEngine) (i : StemStep) :
    (∃ hash fromPeer, i = .call (.enterStem hash fromPeer)) ∨ (∃ hash, i = .call (.fluff hash)) ∨
      i = .tick ∨ (apply D it now e i).stem = e.stem ∧ enters it now e i = none := by
  cases i with
  | tick => exact .inr (.inr (.inl rfl))
  | call c =>
    cases c with
    | peerConnected peer => exact .inr (.inr (.inr ⟨peerConnected_stem now peer, rfl⟩))
    | peerDisconnected peer => exact .inr (.inr (.inr ⟨peerDisconnected_stem now peer, rfl⟩))
    | enterStem hash fromPeer => exact .inl ⟨hash, fromPeer, rfl⟩
    | fluff hash => exact .inr (.inl ⟨hash, rfl⟩)
    | stemDecision hash => exact .inr (.inr (.inr ⟨stemDecision_stem now hash, rfl⟩))

theorem length_apply (h : e.stem.keys.length ≤ max 1 e.cfg.maxStemEntries) (i : StemStep) :
    (apply D it now e i).stem.keys.length ≤ max 1 e.cfg.maxStemEntries := by
  obtain ⟨hash, fromPeer, rfl⟩ | ⟨hash, rfl⟩ | rfl | ⟨hstem, -⟩ := apply_cases D it now e i
  · exact length_enterStem h
  · exact Nat.le_trans length_fluff h
  · exact Nat.le_trans onTick_frame.1 h
  · rw [hstem]
    exact h

/-- An entry on the stem behind a step was made by this step for a hash that had none, or is the
entry of before. -/
theorem lookup_apply {i : StemStep} (h : (apply D it now e i).stem.lookup key = some entry) :
    enters it now e i = some key ∧ key ∉ e.stem ∧ entry.embargoDeadline = now + e.cfg.embargo ∨
      enters it now e i ≠ some key ∧ e.stem.lookup key = some entry := by
  have hkeep (hnone : enters it now e i = none) (hbefore : e.stem.lookup key = some entry) :
      enters it now e i = some key ∧ key ∉ e.stem ∧ entry.embargoDeadline = now + e.cfg.embargo ∨
        enters it now e i ≠ some key ∧ e.stem.lookup key = some entry := by
    refine .inr ⟨?_, hbefore⟩
    rw [hnone]
    exact (Option.some_ne_none key).symm
  obtain ⟨hash, fromPeer, rfl⟩ | ⟨hash, rfl⟩ | rfl | ⟨hstem, hnone⟩ := apply_cases D it now e i
  · have hlookup : (enterStem it hash fromPeer now e).2.stem.lookup key = some entry := h
    rcases Decidable.em (key = hash) with rfl | hne
    · rw [lookup_enterStem_self] at hlookup
      split at hlookup
      · next hmem =>
        refine .inr ⟨?_, hlookup⟩
        intro henters
        obtain ⟨-, -, hnot⟩ := enters_eq_some henters
        exact hnot hmem
      · next hnot =>
        cases hlookup
        exact .inl ⟨if_pos (enterStem_fst.mpr hnot), hnot, rfl⟩
    · rw [lookup_enterStem hne] at hlookup
      split at hlookup
      · cases hlookup
      · refine .inr ⟨?_, hlookup⟩
        intro henters
        obtain ⟨_, heq, -⟩ := enters_eq_some henters
        cases heq
        exact hne rfl
  · have hlookup : (fluff hash e).2.stem.lookup key = some entry := h
    rw [lookup_fluff] at hlookup
    split at hlookup
    · cases hlookup
    · exact hkeep rfl hlookup
  · exact hkeep rfl (lookup_onTick.mp h).1
  · rw [hstem] at h
    exact hkeep hnone h

/-- The ways off the stem. -/
theorem leaves_apply {i : StemStep} (h : e.stem.lookup key = some entry)
    (hgone : key ∉ (apply D it now e i).stem) : Leaves it now e key entry i := by
  have hmem : key ∈ e.stem := AList.lookup_isSome.mp (h ▸ rfl)
  obtain ⟨hash, fromPeer, rfl⟩ | ⟨hash, rfl⟩ | rfl | ⟨hstem, -⟩ := apply_cases D it now e i
  · have hnot : ¬ (key = hash ∨ key ∈ e.stem ∧ displaced it hash e ≠ some key) :=
      fun hkept => hgone (mem_enterStem.mpr hkept)
    have hdisplaced : displaced it hash e = some key :=
      Decidable.not_not.mp fun hne => hnot (.inr ⟨hmem, hne⟩)
    unfold displaced at hdisplaced
    split at hdisplaced
    · cases hdisplaced
    · next hother =>
      obtain ⟨hfull, entry', hentry', hmin⟩ := evicted_minimal hdisplaced
      cases h.symm.trans hentry'
      exact .evicted hother hfull hdisplaced hmin
  · rcases Decidable.em (key = hash) with rfl | hne
    · exact .fluffed
    · exact absurd (mem_fluff.mpr ⟨hne, hmem⟩) hgone
  · refine .expired (Nat.not_lt.mp fun hlater => hgone ?_)
    have hkept : (onTick it now e).stem.lookup key = some entry := lookup_onTick.mpr ⟨h, hlater⟩
    exact AList.lookup_isSome.mp (hkept ▸ rfl)
  · exact absurd (hstem ▸ hmem) hgone

end EmbargoLemmas

/-! ## Runs -/

open EmbargoLemmas Stemming

/-- What holds of the stem set in every state: the configuration is the one given, the capacity is
kept, and the deadline of an entry lies an embargo behind the time at which its hash entered. -/
structure Embargoed (cfg : DandelionConfig) (s : Stemming) : Prop where
  cfg_eq : s.engine.cfg = cfg
  capacity : s.engine.stem.keys.length ≤ max 1 cfg.maxStemEntries
  deadline : ∀ hash entry, s.engine.stem.lookup hash = some entry →
    ∃ t, s.entered hash = some t ∧ t ≤ s.now ∧ entry.embargoDeadline = t + cfg.embargo

variable {D : Digests} {cfg : DandelionConfig} {s : Stemming}

theorem embargoed_start (it : Orders) (localId : String) (created : ℕ) :
    Embargoed cfg (start D it cfg localId created) := by
  refine ⟨rfl, Nat.zero_le _, ?_⟩
  intro hash entry h
  cases h

theorem embargoed_step (h : Embargoed cfg s) (i : TimedStep) : Embargoed cfg (s.step D i) := by
  obtain ⟨rfl, hcap, hdeadline⟩ := h
  refine ⟨apply_cfg i.step, length_apply hcap i.step, ?_⟩
  intro hash entry hlookup
  have hentered : (s.step D i).entered hash =
      if enters i.orders (s.now + i.delay) s.engine i.step = some hash then some (s.now + i.delay)
      else s.entered hash := rfl
  rw [hentered]
  rcases lookup_apply hlookup with ⟨henters, -, hnew⟩ | ⟨hother, hbefore⟩
  · rw [if_pos henters]
    exact ⟨_, rfl, Nat.le_refl _, hnew⟩
  · rw [if_neg hother]
    obtain ⟨t, ht, hle, hold⟩ := hdeadline hash entry hbefore
    exact ⟨t, ht, Nat.le_trans hle (Nat.le_add_right _ _), hold⟩

/-- In every run, the deadline of an entry is the time of the call that made it plus the embargo, and
there are never more than `max 1 max_stem_entries` entries. The next step leaves an entry as it is or
takes it, and takes it only as `Leaves` says; behind a tick no deadline has passed, so that a hash is
on the stem only if it entered less than an embargo ago. -/
theorem embargo_and_capacity (D : Digests) (it : Orders) (cfg : DandelionConfig) (localId : String)
    (created : ℕ) (steps : List TimedStep) :
    let s := run (step D) (start D it cfg localId created) steps
    (∀ hash entry, s.engine.stem.lookup hash = some entry →
      ∃ t, s.entered hash = some t ∧ t ≤ s.now ∧ entry.embargoDeadline = t + cfg.embargo) ∧
    s.engine.stem.keys.length ≤ max 1 cfg.maxStemEntries ∧
    ∀ i : TimedStep,
      let s' := s.step D i
      (∀ hash entry, s.engine.stem.lookup hash = some entry → hash ∈ s'.engine.stem →
        s'.engine.stem.lookup hash = some entry ∧ s'.entered hash = s.entered hash) ∧
      (∀ hash entry, s.engine.stem.lookup hash = some entry → hash ∉ s'.engine.stem →
        Leaves i.orders s'.now s.engine hash entry i.step) ∧
      (i.step = .tick → ∀ hash, isStem hash s'.engine = true →
        (∀ entry, s'.engine.stem.lookup hash = some entry → s'.now < entry.embargoDeadline) ∧
          ∃ t, s'.entered hash = some t ∧ s'.now - t < cfg.embargo) := by
  intro s
  have hs : Embargoed cfg s :=
    run_invariant (embargoed_start it localId created) (fun _ i h => embargoed_step h i) steps
  refine ⟨hs.deadline, hs.capacity, ?_⟩
  intro i s'
  have hs' : Embargoed cfg s' := embargoed_step hs i
  refine ⟨?_, fun hash entry h hgone => leaves_apply h hgone, ?_⟩
  · intro hash entry h hstays
    obtain ⟨entry', hentry'⟩ := Option.isSome_iff_exists.mp (AList.lookup_isSome.mpr hstays)
    rcases lookup_apply hentry' with ⟨-, hnot, -⟩ | ⟨hother, hbefore⟩
    · exact absurd (AList.lookup_isSome.mp (h ▸ rfl)) hnot
    · cases h.symm.trans hbefore
      exact ⟨hentry', if_neg hother⟩
  · intro htick hash hstem
    obtain ⟨entry, hentry⟩ := Option.isSome_iff_exists.mp
      (AList.lookup_isSome.mpr (isStem_eq_true.mp hstem))
    have hlater : ∀ entry, s'.engine.stem.lookup hash = some entry → s'.now < entry.embargoDeadline := by
      intro entry hentry
      have hengine : s'.engine = onTick i.orders s'.now s.engine := by
        show apply D i.orders _ s.engine i.step = _
        rw [htick]
        rfl
      rw [hengine] at hentry
      exact (lookup_onTick.mp hentry).2
    obtain ⟨t, ht, hle, hdeadline⟩ := hs'.deadline hash entry hentry
    refine ⟨hlater, t, ht, ?_⟩
    have hlt := hlater entry hentry
    rw [hdeadline] at hlt
    exact Nat.sub_lt_left_of_lt_add hle hlt

end Kohl.Dandelion
