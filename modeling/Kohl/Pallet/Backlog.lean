import Kohl.Lib.RoundRobin
import Kohl.Pallet.Lag

/-!
# The backlog of admissions

The slots that wait for their admission although their outputs are mature, and what the budgeted scan
does to them: it takes the first 64 of them round the tree from the cursor on. Without new arrivals a
backlog of `B` slots is gone after `⌈B/64⌉` blocks. Catching up adds arrivals: a slot that is grown
for an output that is mature already joins the backlog and may be served before older slots.

* `admitLoop_eq`: the scan in closed form.
* `budgeted_admission`: what the scan admits, and how a backlog shrinks.
* `lagging_backlog_delayed`: in a lagging tree arrivals can delay older slots.
-/

namespace Kohl.Pallet

open ByteLib MembershipTree Run RoundRobin

/-- Whether a slot waits for its admission: it is not admitted, and its output is mature. -/
def eligible (cfg : Config) (now : ℕ) (s : Storage) (i : ℕ) : Bool :=
  !s.admitted.containsKey i && (s.outputs.get i).any fun out => outputIsMature cfg out now

/-- The slots that wait, in the order of the scan. -/
def waiting (cfg : Config) (now : ℕ) (s : Storage) : List ℕ :=
  (visits s.treeSlots (s.admitScanCursor % s.treeSlots) s.treeSlots).filter (eligible cfg now s)

/-- The slots that wait. -/
def backlog (cfg : Config) (now : ℕ) (s : Storage) : Finset ℕ :=
  (Finset.range s.treeSlots).filter fun i => eligible cfg now s i = true

/-- Nothing joins the backlog up to block `n`: every output that is mature then is mature already and
has its slot. -/
def Quiet (cfg : Config) (n : ℕ) (c : Chain) : Prop :=
  ∀ i out, c.store.outputs.get i = some out → out.height + maturityAge cfg out ≤ n →
    i < c.store.treeSlots ∧ out.height + maturityAge cfg out ≤ c.number

variable (H : Host)

/-- Fill the slots of a list. -/
def fillAll (s : Storage) (is : List ℕ) : Storage :=
  is.foldl (fun s i => (s.outputs.get i).elim s (fillSlot H s i)) s

variable {H} {cfg : Config}

namespace BacklogLemmas

theorem eligible_iff {now : ℕ} {s : Storage} {i : ℕ} : eligible cfg now s i = true ↔
    s.admitted.containsKey i = false ∧ ∃ out, s.outputs.get i = some out ∧
      out.height + maturityAge cfg out ≤ now := by
  rw [eligible, Bool.and_eq_true, Bool.not_eq_true', Option.any_eq_true]
  simp only [outputIsMature, decide_eq_true_eq]

/-- A turn of the scan fills the slot if it waits, and nothing else. -/
theorem tryAdmit_eq (now : ℕ) (s : Storage) (i : ℕ) :
    tryAdmit H cfg now s i =
      if eligible cfg now s i then (fillAll H s [i], true) else (s, false) := by
  unfold tryAdmit eligible
  cases hadmitted : s.admitted.containsKey i with
  | true => rfl
  | false =>
    cases hout : s.outputs.get i with
    | none => rfl
    | some out =>
      cases hmature : outputIsMature cfg out now with
      | true => simp [fillAll, hout, hmature]
      | false => simp [hmature]

theorem fillAll_cons (s : Storage) (i : ℕ) (is : List ℕ) :
    fillAll H s (i :: is) = fillAll H (fillAll H s [i]) is := rfl

theorem fillAll_singleton {s : Storage} {i : ℕ} {out : StoredOutput}
    (hout : s.outputs.get i = some out) : fillAll H s [i] = fillSlot H s i out := by
  show (s.outputs.get i).elim s (fillSlot H s i) = _
  rw [hout]
  rfl

theorem exists_fillAll (s : Storage) (is : List ℕ) : ∃ d a,
    fillAll H s is = { s with membershipLeafDigest := d, admitted := a } := by
  induction is generalizing s with
  | nil => exact ⟨_, _, rfl⟩
  | cons i is ih =>
    rw [fillAll_cons]
    obtain ⟨d, a, hrest⟩ := ih (fillAll H s [i])
    have hone : ∃ d a, fillAll H s [i] = { s with membershipLeafDigest := d, admitted := a } := by
      show ∃ d a, (s.outputs.get i).elim s (fillSlot H s i) = _
      cases s.outputs.get i with
      | none => exact ⟨_, _, rfl⟩
      | some out => exact ⟨_, _, rfl⟩
    obtain ⟨d', a', hone⟩ := hone
    rw [hrest, hone]
    exact ⟨d, a, rfl⟩

@[simp] theorem outputs_fillAll (s : Storage) (is : List ℕ) :
    (fillAll H s is).outputs = s.outputs := by
  obtain ⟨_, _, h⟩ := exists_fillAll (H := H) s is
  rw [h]

/-- Filling slots with outputs admits them and no others. -/
theorem admitted_fillAll {s : Storage} {is : List ℕ}
    (hall : ∀ i ∈ is, ∃ out, s.outputs.get i = some out) (j : ℕ) :
    (fillAll H s is).admitted.containsKey j = true ↔
      j ∈ is ∨ s.admitted.containsKey j = true := by
  induction is generalizing s with
  | nil => simp [fillAll]
  | cons i is ih =>
    obtain ⟨out, hout⟩ := hall i List.mem_cons_self
    rw [fillAll_cons, ih (fun k hk => by rw [outputs_fillAll]; exact hall k (List.mem_cons_of_mem i hk)),
      fillAll_singleton hout, fillSlot, StorageMap.containsKey_insert, Bool.or_eq_true, decide_eq_true_eq,
      List.mem_cons, or_assoc, or_left_comm]

/-- Filled slots hold the leaf of their output, the others what they held. -/
theorem digest_fillAll {s : Storage} {is : List ℕ}
    (hall : ∀ i ∈ is, ∃ out, s.outputs.get i = some out) (j : ℕ) :
    (j ∉ is → (fillAll H s is).membershipLeafDigest.get j = s.membershipLeafDigest.get j) ∧
    (j ∈ is → ∀ out, s.outputs.get j = some out → (fillAll H s is).membershipLeafDigest.get j =
      some (leafHash H.blake2_256 out.oneTimeKey out.commitment)) := by
  induction is generalizing s with
  | nil => exact ⟨fun _ => rfl, fun h => absurd h List.not_mem_nil⟩
  | cons i is ih =>
    obtain ⟨out, hout⟩ := hall i List.mem_cons_self
    obtain ⟨hother, hfilled⟩ := @ih (fillAll H s [i]) (fun k hk => by
      rw [outputs_fillAll]
      exact hall k (List.mem_cons_of_mem i hk))
    rw [fillAll_cons]
    refine ⟨fun hj => ?_, fun hj out' hout' => ?_⟩
    · rw [List.mem_cons, not_or] at hj
      rw [hother hj.2, fillAll_singleton hout]
      exact StorageMap.get_insert_ne hj.1
    · by_cases hmem : j ∈ is
      · exact hfilled hmem out' (by rw [outputs_fillAll]; exact hout')
      · rw [hother hmem, fillAll_singleton hout]
        rw [List.mem_cons, or_iff_left hmem] at hj
        subst hj
        rw [hout, Option.some.injEq] at hout'
        subst hout'
        exact StorageMap.get_insert_self _ _ _

/-- Filling one slot does not change whether another one waits. -/
theorem eligible_fillAll {now : ℕ} {s : Storage} {i j : ℕ} (hne : j ≠ i) :
    eligible cfg now (fillAll H s [i]) j = eligible cfg now s j := by
  have hadmitted : (fillAll H s [i]).admitted.containsKey j = s.admitted.containsKey j := by
    show ((s.outputs.get i).elim s (fillSlot H s i)).admitted.containsKey j = _
    cases s.outputs.get i with
    | none => rfl
    | some out =>
      show (s.admitted.insert i ()).containsKey j = _
      rw [StorageMap.containsKey_insert, decide_eq_false hne, Bool.false_or]
  rw [eligible, eligible, hadmitted, outputs_fillAll]

/-- The slots a scan of `left` slots from `i` on admits when `n` of the budget are spent. -/
def admits (cfg : Config) (now slots left i n : ℕ) (s : Storage) : List ℕ :=
  ((visits slots i left).filter (eligible cfg now s)).take (FCMP_ADMIT_MAX_LEAVES_PER_BLOCK - n)

/-- The scan in closed form: it fills the first slots it meets that wait, up to what is left of the
budget, and ends inside the tree. -/
theorem admitLoop_eq {now slots : ℕ} (left n : ℕ) {i : ℕ} (hi : i < slots) (hleft : left ≤ slots)
    (s : Storage) :
    (admitLoop H cfg now slots left i n s).1 = fillAll H s (admits cfg now slots left i n s) ∧
      (admitLoop H cfg now slots left i n s).2.1 < slots ∧
      (admitLoop H cfg now slots left i n s).2.2 = n + (admits cfg now slots left i n s).length := by
  induction left generalizing i n s with
  | zero =>
    have hnone : admits cfg now slots 0 i n s = [] := List.take_nil
    rw [hnone]
    exact ⟨rfl, hi, rfl⟩
  | succ left ih =>
    have hnext : (i + 1) % slots < slots := Nat.mod_lt _ (Nat.zero_lt_of_lt hi)
    have hnodup := @nodup_visits slots i (left + 1) hleft
    rw [visits_succ hi, List.nodup_cons] at hnodup
    rw [admitLoop]
    by_cases hbudget : n < FCMP_ADMIT_MAX_LEAVES_PER_BLOCK
    · obtain ⟨b, hb⟩ := Nat.exists_eq_add_of_lt hbudget
      have hleftover : FCMP_ADMIT_MAX_LEAVES_PER_BLOCK - n = b + 1 := by omega
      rw [if_pos hbudget, tryAdmit_eq, next_eq_mod hi]
      cases helig : eligible cfg now s i with
      | true =>
        have hrest : (visits slots ((i + 1) % slots) left).filter
            (eligible cfg now (fillAll H s [i])) =
            (visits slots ((i + 1) % slots) left).filter (eligible cfg now s) :=
          List.filter_congr fun j hj =>
            eligible_fillAll fun heq => hnodup.1 (heq ▸ hj)
        have hadmits : admits cfg now slots (left + 1) i n s = i ::
            admits cfg now slots left ((i + 1) % slots) (n + 1) (fillAll H s [i]) := by
          rw [admits, admits, visits_succ hi, List.filter_cons_of_pos helig, hleftover,
            List.take_succ_cons, hrest, show FCMP_ADMIT_MAX_LEAVES_PER_BLOCK - (n + 1) = b by omega]
        obtain ⟨hstore, hcursor, hcount⟩ := ih (n + 1) hnext (Nat.le_of_succ_le hleft)
          (fillAll H s [i])
        rw [hadmits, List.length_cons]
        exact ⟨hstore.trans (fillAll_cons s i _).symm, hcursor, hcount.trans (by omega)⟩
      | false =>
        have hadmits : admits cfg now slots (left + 1) i n s =
            admits cfg now slots left ((i + 1) % slots) n s := by
          rw [admits, admits, visits_succ hi,
            List.filter_cons_of_neg (by rw [helig]; exact Bool.false_ne_true)]
        rw [hadmits]
        exact ih n hnext (Nat.le_of_succ_le hleft) s
    · have hnone : admits cfg now slots (left + 1) i n s = [] := by
        rw [admits, Nat.sub_eq_zero_of_le (Nat.le_of_not_lt hbudget), List.take_zero]
      rw [if_neg hbudget, hnone]
      exact ⟨rfl, hi, rfl⟩

theorem mem_waiting {now : ℕ} {s : Storage} {i : ℕ} :
    i ∈ waiting cfg now s ↔ i ∈ backlog cfg now s := by
  rw [waiting, backlog, List.mem_filter, Finset.mem_filter, Finset.mem_range]
  rcases Nat.eq_zero_or_pos s.treeSlots with hzero | hpos
  · rw [hzero]
    simp [visits]
  · rw [mem_visits_lap hpos]

theorem nodup_waiting (now : ℕ) (s : Storage) : (waiting cfg now s).Nodup :=
  (nodup_visits le_rfl).filter _

theorem length_waiting (now : ℕ) (s : Storage) :
    (waiting cfg now s).length = (backlog cfg now s).card := by
  have hset : (waiting cfg now s).toFinset = backlog cfg now s := by
    ext i
    rw [List.mem_toFinset, mem_waiting]
  rw [← hset, List.toFinset_card_of_nodup (nodup_waiting now s)]

/-- A slot that waits has an output that is mature and no admission. -/
theorem exists_of_mem_waiting {now : ℕ} {s : Storage} {i : ℕ} (h : i ∈ waiting cfg now s) :
    s.admitted.containsKey i = false ∧ ∃ out, s.outputs.get i = some out ∧
      out.height + maturityAge cfg out ≤ now :=
  eligible_iff.mp (List.mem_filter.mp h).2

/-- The end of the scan: the storage with the first slots that wait filled, and the cursor. -/
theorem admitMature_eq (now : ℕ) (s : Storage) : ∃ cursor,
    (cursor < s.treeSlots ∨ s.treeSlots = 0 ∧ cursor = 0) ∧
    admitMatureLeavesBudgeted H cfg now s =
      ({ fillAll H s ((waiting cfg now s).take FCMP_ADMIT_MAX_LEAVES_PER_BLOCK) with
        admitScanCursor := cursor },
        ((waiting cfg now s).take FCMP_ADMIT_MAX_LEAVES_PER_BLOCK).length) := by
  unfold admitMatureLeavesBudgeted
  split
  · next hzero =>
    have hnone : waiting cfg now s = [] := by
      rw [waiting, hzero]
      rfl
    refine ⟨0, Or.inr ⟨hzero, rfl⟩, ?_⟩
    rw [hnone]
    rfl
  · next hpos =>
    have hstart := Nat.mod_lt s.admitScanCursor (Nat.pos_of_ne_zero hpos)
    obtain ⟨hstore, hcursor, hcount⟩ := @admitLoop_eq H cfg now s.treeSlots s.treeSlots 0
      (s.admitScanCursor % s.treeSlots) hstart le_rfl s
    generalize admitLoop H cfg now s.treeSlots s.treeSlots (s.admitScanCursor % s.treeSlots) 0 s = r
      at hstore hcursor hcount ⊢
    obtain ⟨s', cursor, count⟩ := r
    rw [Nat.zero_add] at hcount
    refine ⟨cursor, Or.inl hcursor, ?_⟩
    dsimp only at hstore hcount ⊢
    rw [hstore, hcount]
    rfl

end BacklogLemmas

open BacklogLemmas

variable (H cfg) in
/-- What the budgeted scan does in block `now`: it admits the first 64 slots that wait, in the order
of the scan, returns their number, writes the leaf of each in place of the placeholder, and touches
nothing else but the cursor, which stays inside the tree. -/
structure AdmissionExact (now : ℕ) (s : Storage) (chosen : List ℕ) (r : Storage × ℕ) : Prop where
  nodup : chosen.Nodup
  count : r.2 = min FCMP_ADMIT_MAX_LEAVES_PER_BLOCK (backlog cfg now s).card
  length : chosen.length = r.2
  admitted : ∀ i, r.1.admitted.containsKey i = true ↔ i ∈ chosen ∨ s.admitted.containsKey i = true
  filled : ∀ i ∈ chosen, s.admitted.containsKey i = false ∧
    s.membershipLeafDigest.get i = some (emptyLeafHash H.blake2_256) ∧
    ∃ out, s.outputs.get i = some out ∧ out.height + maturityAge cfg out ≤ now ∧
      r.1.membershipLeafDigest.get i = some (leafHash H.blake2_256 out.oneTimeKey out.commitment)
  kept : ∀ i, i ∉ chosen → r.1.membershipLeafDigest.get i = s.membershipLeafDigest.get i
  frame : r.1 = { s with
    membershipLeafDigest := r.1.membershipLeafDigest
    admitted := r.1.admitted
    admitScanCursor := r.1.admitScanCursor }
  cursor : r.1.admitScanCursor < s.treeSlots ∨ s.treeSlots = 0 ∧ r.1.admitScanCursor = 0

namespace BacklogLemmas

theorem admissionExact {fin : ℕ} {s : Storage} (h : SlotInv H cfg fin s) (now : ℕ) :
    AdmissionExact H cfg now s ((waiting cfg now s).take FCMP_ADMIT_MAX_LEAVES_PER_BLOCK)
      (admitMatureLeavesBudgeted H cfg now s) := by
  obtain ⟨cursor, hcursor, heq⟩ := @admitMature_eq H cfg now s
  have hmem : ∀ i ∈ (waiting cfg now s).take FCMP_ADMIT_MAX_LEAVES_PER_BLOCK,
      i ∈ waiting cfg now s := fun i hi => List.mem_of_mem_take hi
  have hall : ∀ i ∈ (waiting cfg now s).take FCMP_ADMIT_MAX_LEAVES_PER_BLOCK,
      ∃ out, s.outputs.get i = some out := by
    intro i hi
    obtain ⟨-, out, hout, -⟩ := exists_of_mem_waiting (hmem i hi)
    exact ⟨out, hout⟩
  obtain ⟨d, a, hframe⟩ := exists_fillAll (H := H) s
    ((waiting cfg now s).take FCMP_ADMIT_MAX_LEAVES_PER_BLOCK)
  rw [heq]
  refine ⟨(nodup_waiting now s).sublist (List.take_sublist _ _), ?_, rfl, ?_, ?_, ?_, ?_, hcursor⟩
  · rw [← length_waiting, List.length_take]
  · exact admitted_fillAll hall
  · intro i hi
    obtain ⟨hnew, out, hout, hmature⟩ := exists_of_mem_waiting (hmem i hi)
    have hslot : i < s.treeSlots := by
      have hback := mem_waiting.mp (hmem i hi)
      rw [backlog, Finset.mem_filter, Finset.mem_range] at hback
      exact hback.1
    have hempty : slotOf s i = none := by
      rw [slotOf, hnew]
      rfl
    refine ⟨hnew, ?_, out, hout, hmature, (digest_fillAll hall i).2 hi out hout⟩
    rw [h.digest i hslot, hempty, slotDigest_none]
  · intro i hi
    exact (digest_fillAll hall i).1 hi
  · dsimp only
    rw [hframe]

theorem mem_backlog {now : ℕ} {s : Storage} {i : ℕ} : i ∈ backlog cfg now s ↔
    i < s.treeSlots ∧ s.admitted.containsKey i = false ∧ ∃ out, s.outputs.get i = some out ∧
      out.height + maturityAge cfg out ≤ now := by
  rw [backlog, Finset.mem_filter, Finset.mem_range, eligible_iff]

/-- What the end of a block does to the slots, the admissions and the outputs. -/
theorem onFinalize_backlog (n : ℕ) (s : Storage) :
    (onFinalize H cfg n s).1.outputs = s.outputs ∧
      s.treeSlots ≤ (onFinalize H cfg n s).1.treeSlots ∧
      ∀ i, (onFinalize H cfg n s).1.admitted.containsKey i = true ↔
        i ∈ (waiting cfg n s).take FCMP_ADMIT_MAX_LEAVES_PER_BLOCK ∨
          s.admitted.containsKey i = true := by
  obtain ⟨_, _, _, _, _, _, hkeep⟩ := @exists_onFinalize H cfg n s
  obtain ⟨cursor, -, hadmission⟩ := @admitMature_eq H cfg n s
  refine ⟨by rw [hkeep], ?_, fun i => ?_⟩
  · rw [LagLemmas.treeSlots_onFinalize]
    exact Nat.le_add_right _ _
  · rw [admitted_onFinalize, hadmission]
    refine admitted_fillAll (fun i hi => ?_) i
    obtain ⟨-, out, hout, -⟩ := exists_of_mem_waiting (List.mem_of_mem_take hi)
    exact ⟨out, hout⟩

/-- The end of a block takes up to 64 slots off a backlog that nothing joins. -/
theorem card_backlog_onFinalize {n : ℕ} {c : Chain} (hquiet : Quiet cfg n c) (hn : c.number ≤ n) :
    (backlog cfg c.number (onFinalize H cfg c.number c.store).1).card =
      (backlog cfg c.number c.store).card - FCMP_ADMIT_MAX_LEAVES_PER_BLOCK := by
  obtain ⟨houtputs, hslots, hadmitted⟩ := @onFinalize_backlog H cfg c.number c.store
  have hset : backlog cfg c.number (onFinalize H cfg c.number c.store).1 =
      backlog cfg c.number c.store \
        ((waiting cfg c.number c.store).take FCMP_ADMIT_MAX_LEAVES_PER_BLOCK).toFinset := by
    ext i
    rw [Finset.mem_sdiff, List.mem_toFinset, mem_backlog, mem_backlog, houtputs]
    constructor
    · rintro ⟨hi, hnew, out, hout, hmature⟩
      rw [Bool.eq_false_iff, ne_eq, hadmitted, not_or] at hnew
      exact ⟨⟨(hquiet i out hout (hmature.trans hn)).1, Bool.eq_false_iff.mpr hnew.2, out, hout,
        hmature⟩, hnew.1⟩
    · rintro ⟨⟨hi, hnew, hout⟩, hchosen⟩
      refine ⟨hi.trans_le hslots, ?_, hout⟩
      rw [Bool.eq_false_iff, ne_eq, hadmitted, not_or]
      exact ⟨hchosen, Bool.eq_false_iff.mp hnew⟩
  have hsubset : ((waiting cfg c.number c.store).take FCMP_ADMIT_MAX_LEAVES_PER_BLOCK).toFinset ⊆
      backlog cfg c.number c.store := by
    intro i hi
    exact mem_waiting.mp (List.mem_of_mem_take (List.mem_toFinset.mp hi))
  rw [hset, Finset.card_sdiff_of_subset hsubset, List.toFinset_card_of_nodup
    ((nodup_waiting c.number c.store).sublist (List.take_sublist _ _)), List.length_take,
    length_waiting]
  omega

theorem number_le_run (c : Chain) (ops : List Op) : c.number ≤ (run (step H cfg) c ops).number :=
  run_invariant (P := fun c' : Chain => c.number ≤ c'.number) le_rfl
    (fun c' op h => h.trans (LedgerLemmas.number_le_step c' op)) ops

/-- The backlog that nothing joins is the same in the next block. -/
theorem backlog_onInitialize {n : ℕ} {c : Chain} (hquiet : Quiet cfg n c) (hn : c.number + 1 ≤ n) :
    backlog cfg (c.number + 1) (step H cfg c .onInitialize).store =
      backlog cfg c.number c.store := by
  ext i
  rw [mem_backlog, mem_backlog]
  show i < c.store.treeSlots ∧ c.store.admitted.containsKey i = false ∧ _ ↔ _
  refine and_congr_right fun _ => and_congr_right fun _ => ?_
  constructor
  · rintro ⟨out, hout, hmature⟩
    exact ⟨out, hout, (hquiet i out hout (hmature.trans hn)).2⟩
  · rintro ⟨out, hout, hmature⟩
    exact ⟨out, hout, Nat.le_succ_of_le hmature⟩

/-- A step that stores no output takes nothing off a backlog that nothing joins, unless it ends a
block. -/
theorem backlog_step {n : ℕ} {c : Chain} {op : Op} (hquiet : Quiet cfg n c)
    (hn : (step H cfg c op).number ≤ n) (hnone : stepOutputs H cfg c op = []) :
    Quiet cfg n (step H cfg c op) ∧
      (backlog cfg (step H cfg c op).number (step H cfg c op).store).card =
        (backlog cfg c.number c.store).card -
          if op = .onFinalize then FCMP_ADMIT_MAX_LEAVES_PER_BLOCK else 0 := by
  have hspec := @step_spec H cfg c op
  rw [stepOutputs] at hnone
  generalize hs : (step H cfg c op).store = s' at hspec ⊢
  generalize acceptedCall H cfg c op = a at hspec hnone
  cases hspec with
  | onInitialize =>
    have hnumber : (step H cfg c .onInitialize).number = c.number + 1 := rfl
    rw [hnumber] at hn ⊢
    refine ⟨fun i out hout hmature => ?_, ?_⟩
    · rw [hs] at hout ⊢
      obtain ⟨hslot, hold⟩ := hquiet i out hout hmature
      exact ⟨hslot, Nat.le_succ_of_le hold⟩
    · rw [if_neg (fun h => Op.noConfusion h), Nat.sub_zero]
      exact congrArg Finset.card (@backlog_onInitialize H cfg n c hquiet hn)
  | rejected origin call e he =>
    refine ⟨fun i out hout hmature => ?_, ?_⟩
    · rw [hs] at hout ⊢
      exact hquiet i out hout hmature
    · rw [if_neg (fun h => Op.noConfusion h), Nat.sub_zero]
      rfl
  | transfer tx fees hvalid hfees =>
    have hempty : tx.outputs.val.map (storedOfTransfer c.number tx) = [] := by
      rw [Option.toList_some, List.flatMap_singleton] at hnone
      exact hnone
    exact absurd (List.map_eq_nil_iff.mp hempty) hvalid.outputs_ne
  | coinbase outputs txPubkey emitted hvalid hemitted =>
    have hempty : outputs.val.map (storedOfCoinbase H c.number txPubkey) = [] := by
      rw [Option.toList_some, List.flatMap_singleton] at hnone
      exact hnone
    exact absurd (List.map_eq_nil_iff.mp hempty) hvalid.outputs_ne
  | onFinalize =>
    obtain ⟨houtputs, hslots, -⟩ := @onFinalize_backlog H cfg c.number c.store
    have hnumber : (step H cfg c .onFinalize).number = c.number := rfl
    rw [hnumber] at hn ⊢
    refine ⟨fun i out hout hmature => ?_, ?_⟩
    · rw [hs] at hout ⊢
      rw [houtputs] at hout
      obtain ⟨hslot, hold⟩ := hquiet i out hout hmature
      exact ⟨hslot.trans_le hslots, hold⟩
    · rw [if_pos rfl]
      exact card_backlog_onFinalize hquiet hn

/-- Without new arrivals every end of a block takes up to 64 slots off the backlog. -/
theorem backlog_run {c : Chain} {ops : List Op} (hnone : ledger H cfg c ops = [])
    (hquiet : Quiet cfg (run (step H cfg) c ops).number c) :
    (backlog cfg (run (step H cfg) c ops).number (run (step H cfg) c ops).store).card =
      (backlog cfg c.number c.store).card -
        FCMP_ADMIT_MAX_LEAVES_PER_BLOCK * ops.count .onFinalize := by
  induction ops generalizing c with
  | nil => rfl
  | cons op ops ih =>
    rw [ledger, List.append_eq_nil_iff] at hnone
    rw [run_cons] at hquiet ⊢
    obtain ⟨hquiet', hcard⟩ := backlog_step hquiet (number_le_run _ ops) hnone.1
    rw [ih hnone.2 hquiet', hcard, List.count_cons]
    by_cases hop : op = .onFinalize
    · rw [if_pos hop, if_pos (beq_iff_eq.mpr hop), Nat.mul_succ, Nat.sub_sub, Nat.add_comm]
    · rw [if_neg hop, if_neg (fun h => hop (beq_iff_eq.mp h)), Nat.sub_zero, Nat.add_zero]

end BacklogLemmas

/-- In every state that satisfies the tree invariant, lagging or not, and for every block number, the
scan admits exactly the first 64 slots that wait, round the tree from the cursor on. Hence a backlog
of `B` slots that nothing joins shrinks by 64 with every end of a block and is cleared after exactly
`⌈B / 64⌉` of them, whatever hooks and failing calls the run is made of. -/
theorem budgeted_admission (H : Host) (cfg : Config) (c : Chain) (h : TreeInv H cfg c) :
    (∀ now, AdmissionExact H cfg now c.store
      ((waiting cfg now c.store).take FCMP_ADMIT_MAX_LEAVES_PER_BLOCK)
      (admitMatureLeavesBudgeted H cfg now c.store)) ∧
    ∀ ops, ledger H cfg c ops = [] → Quiet cfg (run (step H cfg) c ops).number c →
      let c' := run (step H cfg) c ops
      (backlog cfg c'.number c'.store).card =
        (backlog cfg c.number c.store).card - 64 * ops.count .onFinalize ∧
      (backlog cfg c'.number c'.store = ∅ ↔
        ((backlog cfg c.number c.store).card + 63) / 64 ≤ ops.count .onFinalize) := by
  refine ⟨fun now => admissionExact h.slots now, fun ops hnone hquiet => ?_⟩
  intro c'
  have hcard : (backlog cfg c'.number c'.store).card =
      (backlog cfg c.number c.store).card - 64 * ops.count .onFinalize := backlog_run hnone hquiet
  refine ⟨hcard, ?_⟩
  rw [← Finset.card_eq_zero, hcard]
  omega

/-! ## Old slots in a lagging tree -/

namespace BacklogLemmas

/-- The outputs of the first block are mature in block one hundred. -/
theorem mature_agedOutputs {count i : ℕ} {out : StoredOutput}
    (hout : (agedOutputs count).get i = some out) :
    i < count ∧ out.height + maturityAge ⟨10, 60, 1⟩ out ≤ 100 := by
  unfold agedOutputs at hout
  dsimp only at hout
  split at hout
  · next hi =>
    cases hout
    exact ⟨hi, Nat.le_of_ble_eq_true rfl⟩
  · cases hout

end BacklogLemmas

/-- Sixty-six slots of a level tree wait; after two ends of a block none does. -/
theorem budgeted_admission_two_blocks :
    let H := nativeHost (cyclic ristrettoOrder)
    let c := laggingChain H 66 66 1 (agedOutputs 66)
    (backlog ⟨10, 60, 1⟩ c.number c.store).card = 66 ∧
    backlog ⟨10, 60, 1⟩ 101 (run (step H ⟨10, 60, 1⟩) c
      [.onFinalize, .onInitialize, .onFinalize]).store = ∅ := by
  intro H c
  have hcard : (backlog ⟨10, 60, 1⟩ c.number c.store).card = 66 := by decide +kernel
  obtain ⟨-, hclears⟩ := budgeted_admission H ⟨10, 60, 1⟩ c (LagLemmas.laggingChain_inv _ _ _ _ _ _)
  have hcleared := (hclears [.onFinalize, .onInitialize, .onFinalize] rfl
    (fun i out hout _ => mature_agedOutputs hout)).2
  rw [hcard] at hcleared
  exact ⟨hcard, hcleared.mpr (by decide)⟩

/-- The same slots in a tree that lags behind outputs which are mature as well: no output is minted
or matures, but the slots that are grown meanwhile come first, and after two ends of a block slot 0
still waits. -/
theorem lagging_backlog_delayed :
    let H := nativeHost (cyclic ristrettoOrder)
    let c := laggingChain H 66 130 1 (agedOutputs 130)
    TreeInv H ⟨10, 60, 1⟩ c ∧ c.store.treeSlots ≤ c.store.nextOutputIndex ∧ Dense c.store ∧
    (backlog ⟨10, 60, 1⟩ c.number c.store).card = 66 ∧ 0 ∈ backlog ⟨10, 60, 1⟩ c.number c.store ∧
    ledger H ⟨10, 60, 1⟩ c [.onFinalize, .onInitialize, .onFinalize] = [] ∧
    (∀ i out, c.store.outputs.get i = some out → out.height + maturityAge ⟨10, 60, 1⟩ out ≤ c.number) ∧
    0 ∈ backlog ⟨10, 60, 1⟩ 101 (run (step H ⟨10, 60, 1⟩) c
      [.onFinalize, .onInitialize, .onFinalize]).store := by
  intro H c
  refine ⟨LagLemmas.laggingChain_inv _ _ _ _ _ _, by decide, LagLemmas.dense_agedOutputs _ _ _ _,
    by decide +kernel, by decide +kernel, rfl, ?_, by decide +kernel⟩
  intro i out hout
  exact (mature_agedOutputs hout).2

end Kohl.Pallet
