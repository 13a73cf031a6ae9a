import Kohl.Crypto.Cyclic
import Kohl.Pallet.Ledger
import Kohl.Pallet.TreeInvariant
import Mathlib.Logic.Function.Iterate

/-!
# Lag

A tree may have fewer slots than there are outputs. While it lags, outputs are stored without growing
it, and the end of a block grows up to 64 slots in their place; once it is level, every output grows
its own slot and the tree stays level. Growing asks for the output of the slot to be there, which the
invariant of the tree alone does not say.

* `catchupLoop_eq`: catching up grows the next slots, as many as are missing and the budget allows.
* `lag_block`: the lag behind a block.
* `lag_closes`: lag closes and stays closed, and only slots of stored outputs are grown.
* `catchup_without_output`: the invariant of the tree does not keep the assertion from firing.
-/

namespace Kohl.Pallet

open ByteLib MembershipTree Run TreeInvLemmas

/-- `NextOutputIndex - TreeSlots`. -/
def lag (s : Storage) : ℕ := s.nextOutputIndex - s.treeSlots

/-- Every index below the next one has its output. -/
def Dense (s : Storage) : Prop := ∀ i, i < s.nextOutputIndex → s.outputs.containsKey i = true

variable (H : Host) (cfg : Config)

/-- The debug assertions of `catchupLoop`: before a slot is grown its output exists. -/
def catchupAsserts (nextOut : ℕ) : ℕ → Storage → Bool
  | 0, _ => true
  | left + 1, s =>
    if nextOut ≤ s.treeSlots then true
    else s.outputs.containsKey s.treeSlots && catchupAsserts nextOut left (growEmptySlot H s)

/-- The debug assertions of the end of block `n`. -/
def finalizeAsserts (n : ℕ) (s : Storage) : Bool :=
  let s := (admitMatureLeavesBudgeted H cfg n s).1
  catchupAsserts H s.nextOutputIndex FCMP_GROW_CATCHUP_MAX_PER_BLOCK s

/-- Every one of the blocks stores at most `m` outputs. -/
def MintsAtMost (m : ℕ) (c : Chain) : List (List (Origin × Call)) → Prop
  | [] => True
  | calls :: blocks => (ledger H cfg c (blockOps calls)).length ≤ m ∧
      MintsAtMost m (run (step H cfg) c (blockOps calls)) blocks

variable {H cfg}

namespace LagLemmas

@[simp] theorem treeSlots_growEmptySlot_iterate (k : ℕ) (s : Storage) :
    ((growEmptySlot H)^[k] s).treeSlots = s.treeSlots + k := by
  induction k generalizing s with
  | zero => rfl
  | succ k ih =>
    rw [Function.iterate_succ_apply, ih]
    show s.treeSlots + 1 + k = s.treeSlots + (k + 1)
    omega

/-- Catching up grows one slot after the other, as many as are missing and the budget allows. -/
theorem catchupLoop_eq (nextOut left grown : ℕ) (s : Storage) :
    catchupLoop H nextOut left grown s =
      ((growEmptySlot H)^[min left (nextOut - s.treeSlots)] s,
        grown + min left (nextOut - s.treeSlots)) := by
  induction left generalizing grown s with
  | zero => rw [Nat.zero_min]; rfl
  | succ left ih =>
    rw [catchupLoop]
    split
    · next hle => rw [Nat.sub_eq_zero_of_le hle, Nat.min_zero]; rfl
    · next hlt =>
      have hgrow : (growEmptySlot H s).treeSlots = s.treeSlots + 1 := rfl
      have hmin : min (left + 1) (nextOut - s.treeSlots) =
          min left (nextOut - (s.treeSlots + 1)) + 1 := by omega
      rw [ih, hgrow, hmin, Function.iterate_succ_apply]
      congr 1
      omega

/-- With an output at every index below the next one no assertion fires. -/
theorem catchupAsserts_of_dense {nextOut : ℕ} (left : ℕ) {s : Storage}
    (hdense : ∀ i, i < nextOut → s.outputs.containsKey i = true) :
    catchupAsserts H nextOut left s = true := by
  induction left generalizing s with
  | zero => rfl
  | succ left ih =>
    rw [catchupAsserts]
    split
    · rfl
    · next hlt =>
      rw [hdense s.treeSlots (Nat.lt_of_not_le hlt), Bool.true_and]
      exact ih hdense

/-- A lagging tree does not grow while outputs are stored. -/
theorem treeSlots_storeLoop {s : Storage} {next : ℕ} (hlt : s.treeSlots < next)
    (outs : List StoredOutput) : (storeLoop H s next outs).1.treeSlots = s.treeSlots := by
  induction outs generalizing s next with
  | nil => rfl
  | cons out outs ih =>
    have hkeep : maybeGrowEmptyOnCreate H { s with outputs := s.outputs.insert next out } next =
        { s with outputs := s.outputs.insert next out } := if_pos hlt.ne
    have hlater : s.treeSlots < next + 1 := Nat.lt_succ_of_lt hlt
    rw [storeLoop, hkeep]
    exact @ih { s with outputs := s.outputs.insert next out } (next + 1) hlater

theorem treeSlots_storeOutputs {s : Storage} (hlt : s.treeSlots < s.nextOutputIndex)
    (outs : List StoredOutput) : (storeOutputs H s outs).treeSlots = s.treeSlots :=
  treeSlots_storeLoop hlt outs

/-- The number of slots behind the end of a block. -/
theorem treeSlots_onFinalize (n : ℕ) (s : Storage) :
    (onFinalize H cfg n s).1.treeSlots =
      s.treeSlots + min FCMP_GROW_CATCHUP_MAX_PER_BLOCK (s.nextOutputIndex - s.treeSlots) := by
  obtain ⟨d, a, i, hfilled⟩ := @MembershipLemmas.exists_admitMature H cfg n s
  rw [onFinalize_fst]
  show (catchupGrowBudgeted H (admitMatureLeavesBudgeted H cfg n s).1).1.treeSlots = _
  rw [catchupGrowBudgeted, catchupLoop_eq, treeSlots_growEmptySlot_iterate, hfilled]

/-- A lagging tree grows at the end of a block only. -/
theorem treeSlots_step_of_lt {c : Chain} (hlt : c.store.treeSlots < c.store.nextOutputIndex) {op : Op}
    (hop : op ≠ .onFinalize) : (step H cfg c op).store.treeSlots = c.store.treeSlots := by
  have hspec := @step_spec H cfg c op
  generalize (step H cfg c op).store = s' at hspec ⊢
  generalize acceptedCall H cfg c op = a at hspec
  cases hspec with
  | onInitialize => rfl
  | rejected origin call e he => rfl
  | transfer tx fees hvalid hfees => exact treeSlots_storeOutputs (by exact hlt) _
  | coinbase outputs txPubkey emitted hvalid hemitted =>
    exact treeSlots_storeOutputs (by exact hlt) _
  | onFinalize => exact absurd rfl hop

/-- The lag behind a step: a level tree stays level, a lagging one falls back by what is stored and
makes up for 64 outputs at the end of a block. -/
theorem lag_step {c : Chain} (h : TreeInv H cfg c)
    (hle : c.store.treeSlots ≤ c.store.nextOutputIndex) (op : Op) :
    lag (step H cfg c op).store =
      if lag c.store = 0 then 0
      else if op = .onFinalize then lag c.store - FCMP_GROW_CATCHUP_MAX_PER_BLOCK
      else lag c.store + (stepOutputs H cfg c op).length := by
  have hnext := @nextOutputIndex_step H cfg c op
  split
  · next hzero =>
    have hlevel := (treeInv_step h hle op).2.2 (le_antisymm hle (Nat.le_of_sub_eq_zero hzero))
    rw [lag, hlevel, Nat.sub_self]
  next hpos =>
  have hlt : c.store.treeSlots < c.store.nextOutputIndex := Nat.lt_of_sub_ne_zero hpos
  split
  · next hop =>
    subst hop
    have hnone : stepOutputs H cfg c .onFinalize = [] := rfl
    have hslots : (step H cfg c .onFinalize).store.treeSlots = _ :=
      treeSlots_onFinalize c.number c.store
    rw [hnone, List.length_nil] at hnext
    rw [lag, lag, hnext, hslots]
    omega
  · next hop =>
    rw [lag, lag, hnext, treeSlots_step_of_lt hlt hop]
    omega

/-- The lag behind steps that end no block. -/
theorem lag_run {c : Chain} (h : TreeInv H cfg c) (hle : c.store.treeSlots ≤ c.store.nextOutputIndex)
    {ops : List Op} (hops : .onFinalize ∉ ops) :
    lag (run (step H cfg) c ops).store =
      if lag c.store = 0 then 0 else lag c.store + (ledger H cfg c ops).length := by
  induction ops generalizing c with
  | nil =>
    show lag c.store = _
    split
    · next hzero => exact hzero
    · rfl
  | cons op ops ih =>
    rw [List.mem_cons, not_or] at hops
    obtain ⟨h', hle', -⟩ := treeInv_step h hle op
    rw [run_cons, ih h' hle' hops.2, lag_step h hle, if_neg (Ne.symm hops.1), ledger,
      List.length_append]
    split
    · rw [if_pos rfl]
    · next hpos => rw [if_neg (by omega), Nat.add_assoc]

/-- The lag behind a block. -/
theorem lag_block {c : Chain} (h : TreeInv H cfg c)
    (hle : c.store.treeSlots ≤ c.store.nextOutputIndex) (calls : List (Origin × Call)) :
    lag (run (step H cfg) c (blockOps calls)).store =
      if lag c.store = 0 then 0
      else lag c.store + (ledger H cfg c (blockOps calls)).length -
        FCMP_GROW_CATCHUP_MAX_PER_BLOCK := by
  have hops : .onFinalize ∉ (.onInitialize :: calls.map fun x => .dispatch x.1 x.2 : List Op) := by
    rw [List.mem_cons, List.mem_map, not_or]
    refine ⟨fun h => Op.noConfusion h, ?_⟩
    rintro ⟨x, -, hx⟩
    cases hx
  obtain ⟨h', hle'⟩ := treeInv_run h hle (.onInitialize :: calls.map fun x => .dispatch x.1 x.2)
  have hledger : ledger H cfg c (blockOps calls) =
      ledger H cfg c (.onInitialize :: calls.map fun x => .dispatch x.1 x.2) := by
    rw [blockOps, ledger_concat]
    exact List.append_nil _
  rw [hledger, blockOps, run_concat, lag_step h' hle', if_pos rfl, lag_run h hle hops]
  split
  · rfl
  · next hpos => rw [if_neg (by omega)]

theorem dense_step {c : Chain} (h : Dense c.store) (op : Op) : Dense (step H cfg c op).store := by
  intro i hi
  rw [nextOutputIndex_step] at hi
  rw [StorageMap.containsKey, get_outputs_step]
  split
  · next hnew =>
    rw [List.getElem?_eq_getElem (by omega)]
    rfl
  · next hold => exact h i (by omega)

theorem dense_run {c : Chain} (h : Dense c.store) (ops : List Op) :
    Dense (run (step H cfg) c ops).store :=
  run_invariant (P := fun c : Chain => Dense c.store) h (fun _ op h => dense_step h op) ops

/-- With an output at every index no end of a block fires an assertion. -/
theorem finalizeAsserts_of_dense (n : ℕ) {s : Storage} (h : Dense s) :
    finalizeAsserts H cfg n s = true := by
  obtain ⟨d, a, i, hfilled⟩ := @MembershipLemmas.exists_admitMature H cfg n s
  refine catchupAsserts_of_dense _ ?_
  rw [hfilled]
  exact h

theorem treeSlots_le_step {c : Chain} (h : TreeInv H cfg c)
    (hle : c.store.treeSlots ≤ c.store.nextOutputIndex) (op : Op) :
    c.store.treeSlots ≤ (step H cfg c op).store.treeSlots := by
  have hnext := @nextOutputIndex_step H cfg c op
  rcases hle.lt_or_eq with hlt | heq
  · by_cases hop : op = .onFinalize
    · subst hop
      exact (Nat.le_add_right _ _).trans (treeSlots_onFinalize c.number c.store).ge
    · rw [treeSlots_step_of_lt hlt hop]
  · have hlevel := (treeInv_step h hle op).2.2 heq
    omega

/-- A step admits old slots only. -/
theorem lt_of_admitted_step {c : Chain} (h : TreeInv H cfg c) {op : Op} {i : ℕ}
    (hi : (step H cfg c op).store.admitted.containsKey i = true) : i < c.store.treeSlots := by
  have hspec := @step_spec H cfg c op
  generalize (step H cfg c op).store = s' at hspec hi
  generalize acceptedCall H cfg c op = a at hspec
  cases hspec with
  | onInitialize => exact SlotInv.lt_of_admitted h.slots hi
  | rejected origin call e he => exact SlotInv.lt_of_admitted h.slots hi
  | transfer tx fees hvalid hfees =>
    obtain ⟨_, _, _, _, hstore⟩ := @exists_transferred H c.number c.store tx fees
    rw [hstore] at hi
    exact SlotInv.lt_of_admitted h.slots hi
  | coinbase outputs txPubkey emitted hvalid hemitted =>
    obtain ⟨_, _, _, _, hstore⟩ := @exists_minted H c.number c.store outputs.val txPubkey emitted
    rw [hstore] at hi
    exact SlotInv.lt_of_admitted h.slots hi
  | onFinalize =>
    obtain ⟨d, a, cursor, hfilled⟩ := @MembershipLemmas.exists_admitMature H cfg c.number c.store
    have hinv := admitMature_inv (SlotInv.mono h.slots c.finalized_le)
    have hslots : (admitMatureLeavesBudgeted H cfg c.number c.store).1.treeSlots =
        c.store.treeSlots := by rw [hfilled]
    rw [admitted_onFinalize] at hi
    rw [← hslots]
    exact SlotInv.lt_of_admitted hinv hi

/-- The slots a step adds come behind the others, hold the placeholder and belong to stored
outputs. -/
theorem grown_step {c : Chain} (h : TreeInv H cfg c)
    (hle : c.store.treeSlots ≤ c.store.nextOutputIndex) (hdense : Dense c.store) (op : Op) :
    c.store.treeSlots ≤ (step H cfg c op).store.treeSlots ∧
      ∀ i, c.store.treeSlots ≤ i → i < (step H cfg c op).store.treeSlots →
        (step H cfg c op).store.membershipLeafDigest.get i = some (emptyLeafHash H.blake2_256) ∧
        (step H cfg c op).store.admitted.containsKey i = false ∧
        (step H cfg c op).store.outputs.containsKey i = true := by
  obtain ⟨h', hle', -⟩ := treeInv_step h hle op
  have hdense' := @dense_step H cfg c hdense op
  refine ⟨treeSlots_le_step h hle op, fun i hnew hi => ?_⟩
  have hadmitted : (step H cfg c op).store.admitted.containsKey i = false := by
    rw [Bool.eq_false_iff]
    intro hold
    exact absurd (lt_of_admitted_step h hold) (Nat.not_lt.mpr hnew)
  have hempty : slotOf (step H cfg c op).store i = none := by
    rw [slotOf, hadmitted]
    rfl
  refine ⟨?_, hadmitted, hdense' i (hi.trans_le hle')⟩
  rw [h'.slots.digest i hi, hempty, slotDigest_none]

/-- Every block that mints at most `m` outputs makes up for `64 - m` of them. -/
theorem lag_blocks_le {m : ℕ} (hm : m < 64) {c : Chain} (h : TreeInv H cfg c)
    (hle : c.store.treeSlots ≤ c.store.nextOutputIndex) {blocks : List (List (Origin × Call))}
    (hmints : MintsAtMost H cfg m c blocks) :
    lag (run (step H cfg) c (blocks.flatMap blockOps)).store ≤
      lag c.store - blocks.length * (64 - m) := by
  induction blocks generalizing c with
  | nil => exact Nat.le_sub_of_add_le (by simp)
  | cons calls blocks ih =>
    obtain ⟨hfirst, hrest⟩ := hmints
    obtain ⟨h', hle'⟩ := treeInv_run h hle (blockOps calls)
    have hlag := lag_block h hle calls
    have hbudget : FCMP_GROW_CATCHUP_MAX_PER_BLOCK = 64 := rfl
    rw [List.flatMap_cons, run_append, List.length_cons, Nat.succ_mul]
    refine (ih h' hle' hrest).trans ?_
    rw [hlag, hbudget]
    split <;> omega

/-- A level tree stays level. -/
theorem lag_run_zero {c : Chain} (h : TreeInv H cfg c)
    (hle : c.store.treeSlots ≤ c.store.nextOutputIndex) (hzero : lag c.store = 0) (ops : List Op) :
    lag (run (step H cfg) c ops).store = 0 := by
  induction ops generalizing c with
  | nil => exact hzero
  | cons op ops ih =>
    obtain ⟨h', hle', -⟩ := treeInv_step h hle op
    refine ih h' hle' ?_
    rw [lag_step h hle, if_pos hzero]

end LagLemmas

open LagLemmas

/-- In every state that satisfies the tree invariant and has an output at every index below the next
one: a block changes the lag by what it mints and what it catches up; at every step of every run from
there new slots come behind the old ones, hold the placeholder and belong to stored outputs, and the
assertion of the catch-up holds; and with at most `m < 64` outputs a block the lag is closed after
`⌈L / (64 - m)⌉` blocks and for ever after. -/
theorem lag_closes (H : Host) (cfg : Config) (c : Chain) (h : TreeInv H cfg c)
    (hle : c.store.treeSlots ≤ c.store.nextOutputIndex) (hdense : Dense c.store) :
    (∀ calls, lag (run (step H cfg) c (blockOps calls)).store =
      if 0 < lag c.store then lag c.store + (ledger H cfg c (blockOps calls)).length - 64 else 0) ∧
    (∀ ops, let c' := run (step H cfg) c ops
      finalizeAsserts H cfg c'.number c'.store = true ∧
      ∀ op, c'.store.treeSlots ≤ (step H cfg c' op).store.treeSlots ∧
        ∀ i, c'.store.treeSlots ≤ i → i < (step H cfg c' op).store.treeSlots →
          (step H cfg c' op).store.membershipLeafDigest.get i = some (emptyLeafHash H.blake2_256) ∧
          (step H cfg c' op).store.admitted.containsKey i = false ∧
          (step H cfg c' op).store.outputs.containsKey i = true) ∧
    ∀ m, m < 64 → ∀ blocks, MintsAtMost H cfg m c blocks →
      (lag c.store + (64 - m) - 1) / (64 - m) ≤ blocks.length →
      ∀ later, lag (run (step H cfg) c (blocks.flatMap blockOps ++ later)).store = 0 := by
  refine ⟨?_, ?_, ?_⟩
  · intro calls
    rw [lag_block h hle]
    rcases Nat.eq_zero_or_pos (lag c.store) with hzero | hpos
    · rw [if_pos hzero, if_neg (by omega)]
    · rw [if_neg (by omega), if_pos hpos]
      rfl
  · intro ops c'
    obtain ⟨h', hle'⟩ := treeInv_run h hle ops
    have hdense' : Dense c'.store := dense_run hdense ops
    exact ⟨finalizeAsserts_of_dense c'.number hdense', grown_step h' hle' hdense'⟩
  · intro m hm blocks hmints hblocks later
    obtain ⟨h', hle'⟩ := treeInv_run h hle (blocks.flatMap blockOps)
    have hclosed := lag_blocks_le hm h hle hmints
    rw [Nat.div_le_iff_le_mul_add_pred (Nat.sub_pos_of_lt hm)] at hblocks
    rw [Nat.mul_comm] at hblocks
    rw [run_append]
    exact lag_run_zero h' hle' (by omega) later

/-! ## Lagging states -/

/-- A storage with `slots` empty slots, the outputs of `stored` and the next index `next`. -/
def laggingStore (H : Host) (slots next cursor : ℕ) (stored : StorageMap ℕ StoredOutput) : Storage :=
  refreshMembershipRoot H
    { Storage.genesis H.blake2_256 with
      outputs := stored
      nextOutputIndex := next
      treeSlots := slots
      membershipLeafDigest :=
        ⟨fun i => if i < slots then some (emptyLeafHash H.blake2_256) else none⟩
      admitScanCursor := cursor }

/-- A lagging storage in block one hundred. -/
def laggingChain (H : Host) (slots next cursor : ℕ) (stored : StorageMap ℕ StoredOutput) : Chain :=
  ⟨100, 99, Nat.le_succ 99, laggingStore H slots next cursor stored⟩

/-- As many outputs as given, all of the first block. -/
def agedOutputs (count : ℕ) : StorageMap ℕ StoredOutput :=
  ⟨fun i => if i < count then some ⟨Cyclic.toBytes (Cyclic.scalarOf 5),
    Cyclic.toBytes (Cyclic.scalarOf 5), Cyclic.toBytes (Cyclic.scalarOf 3), 0, ⟨[], Nat.zero_le _⟩,
    none, 1, false⟩ else none⟩

namespace LagLemmas

theorem laggingChain_inv (H : Host) (cfg : Config) (slots next cursor : ℕ)
    (stored : StorageMap ℕ StoredOutput) :
    TreeInv H cfg (laggingChain H slots next cursor stored) := by
  refine ⟨⟨fun i hi => ?_, fun i hi => ⟨?_, rfl⟩, fun i hi => ?_⟩, rfl⟩
  · have hslot : i < slots := hi
    exact if_pos hslot
  · have hslot : slots ≤ i := hi
    exact if_neg (Nat.not_lt.mpr hslot)
  · cases hi

theorem dense_agedOutputs (H : Host) (slots count cursor : ℕ) :
    Dense (laggingStore H slots count cursor (agedOutputs count)) := by
  intro i hi
  have hcount : i < count := hi
  show (if i < count then some _ else none : Option StoredOutput).isSome = true
  rw [if_pos hcount]
  rfl

end LagLemmas

/-- Two hundred outputs without a slot get theirs in four empty blocks. -/
theorem lag_closes_two_hundred :
    let c := laggingChain (nativeHost (cyclic ristrettoOrder)) 0 200 0 (agedOutputs 200)
    lag c.store = 200 ∧ lag (run (step (nativeHost (cyclic ristrettoOrder)) ⟨10, 60, 1⟩) c
      ((List.replicate 4 []).flatMap blockOps)).store = 0 := by
  intro c
  obtain ⟨-, -, hcloses⟩ := lag_closes (nativeHost (cyclic ristrettoOrder)) ⟨10, 60, 1⟩ c
    (laggingChain_inv _ _ 0 200 0 _) (Nat.zero_le _) (dense_agedOutputs _ 0 200 0)
  have hclosed := hcloses 0 (by decide) (List.replicate 4 [])
    ⟨Nat.le_refl 0, Nat.le_refl 0, Nat.le_refl 0, Nat.le_refl 0, trivial⟩ (by decide) []
  rw [List.append_nil] at hclosed
  exact ⟨rfl, hclosed⟩

/-- A tree invariant that says nothing of the outputs beyond the slots lets the end of a block grow a
slot without an output: the assertion fires. -/
theorem catchup_without_output :
    let c := laggingChain (nativeHost (cyclic ristrettoOrder)) 0 1 0 .empty
    TreeInv (nativeHost (cyclic ristrettoOrder)) ⟨10, 60, 1⟩ c ∧
      c.store.treeSlots ≤ c.store.nextOutputIndex ∧
      finalizeAsserts (nativeHost (cyclic ristrettoOrder)) ⟨10, 60, 1⟩ c.number c.store = false ∧
      (step (nativeHost (cyclic ristrettoOrder)) ⟨10, 60, 1⟩ c .onFinalize).store.treeSlots = 1 ∧
      (step (nativeHost (cyclic ristrettoOrder)) ⟨10, 60, 1⟩ c
        .onFinalize).store.outputs.containsKey 0 = false :=
  ⟨laggingChain_inv _ _ 0 1 0 .empty, Nat.zero_le _, rfl, rfl, rfl⟩

end Kohl.Pallet
