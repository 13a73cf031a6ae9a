import Kohl.Difficulty.Lwma
import Mathlib.Algebra.BigOperators.Intervals
import Mathlib.Data.List.Chain
import Mathlib.Data.List.Induction

/-!
# Difficulty over whole runs

A block difficulty is at most `2^128` above `(2^256 - 1) / Σi`, where `Σi` are the weights of the
window it was computed from. The weights grow with the window, so the difficulties of any window add
up below `2^256`, and the plain addition of the source never overflows.

* `finalizeAll_total`: no run traps, whatever its timestamps are.
* `difficulty_direction`: blocks that are never late keep the difficulty up, blocks that are never
  early keep it down.
-/

namespace Kohl.Difficulty

open Machine LinearWeight LwmaLemmas

/-! ## The sum of a window -/

/-- What the difficulty of the block with number `k` may exceed `2^128` by. The first three blocks
have the difficulty of the genesis state. -/
def excess (window k : ℕ) : ℕ :=
  if k ≤ 2 then 0 else (2 ^ 256 - 1) / weights 1 (min (k - 1) window)

/-- The bound on the difficulty of the block with number `k`. -/
def cap (window k : ℕ) : ℕ := 2 ^ 128 + excess window k

namespace RunLemmas

theorem excess_antitone {window j k : ℕ} (hwindow : 0 < window) (hj : 3 ≤ j) (h : j ≤ k) :
    excess window k ≤ excess window j := by
  rw [excess, excess, if_neg (by omega), if_neg (by omega)]
  exact Nat.div_le_div_left (weights_mono (min_le_min_right _ (Nat.sub_le_sub_right h 1)))
    (weights_pos (lt_min (by omega) hwindow))

/-- The window that starts right behind the blocks of the genesis difficulty has the largest sum. -/
theorem sum_excess_le {window a n : ℕ} (hwindow : 0 < window) (hn : n ≤ window) :
    ∑ k ∈ Finset.Ico a (a + n), excess window k ≤
      ∑ i ∈ Finset.range window, excess window (3 + i) := by
  rcases Nat.le_total a 3 with ha | ha
  · have hreindex : ∑ i ∈ Finset.range window, excess window (3 + i) =
        ∑ k ∈ Finset.Ico 3 (3 + window), excess window k := by
      rw [Finset.sum_Ico_eq_sum_range, Nat.add_sub_cancel_left]
    rw [hreindex]
    refine Finset.sum_le_sum_of_ne_zero fun k hk hne => ?_
    have hk3 : ¬k ≤ 2 := fun hle => hne (if_pos hle)
    rw [Finset.mem_Ico] at hk ⊢
    omega
  · rw [Finset.sum_Ico_eq_sum_range, Nat.add_sub_cancel_left]
    calc ∑ i ∈ Finset.range n, excess window (a + i)
        ≤ ∑ i ∈ Finset.range n, excess window (3 + i) := Finset.sum_le_sum fun i _ =>
          excess_antitone hwindow (Nat.le_add_right 3 i) (Nat.add_le_add_right ha i)
      _ ≤ ∑ i ∈ Finset.range window, excess window (3 + i) :=
          Finset.sum_le_sum_of_subset (Finset.range_mono hn)

/-- That window holds every weight sum from `2` to `window - 1` once and the full one twice. -/
theorem sum_first_excess (v : ℕ) :
    ∑ i ∈ Finset.range (v + 2), excess (v + 2) (3 + i) =
      ∑ i ∈ Finset.range v, (2 ^ 256 - 1) / weights 1 (2 + i) +
        2 * ((2 ^ 256 - 1) / weights 1 (2 + v)) := by
  have hexcess : ∀ i, excess (v + 2) (3 + i) = (2 ^ 256 - 1) / weights 1 (min (2 + i) (v + 2)) := by
    intro i
    rw [excess, if_neg (by omega), show 3 + i - 1 = 2 + i by omega]
  have hearly : ∀ i ∈ Finset.range v,
      excess (v + 2) (3 + i) = (2 ^ 256 - 1) / weights 1 (2 + i) := by
    intro i hi
    rw [hexcess, min_eq_left (by rw [Finset.mem_range] at hi; omega)]
  rw [Finset.sum_range_succ, Finset.sum_range_succ, Finset.sum_congr rfl hearly, hexcess, hexcess,
    min_eq_left (by omega), min_eq_right (by omega), Nat.add_comm v 2, Nat.add_assoc, ← two_mul]

/-- The caps of a window add up below `2^256`. -/
theorem sum_cap_lt {window a n : ℕ} (htwo : 2 ≤ window) (hwindow : window ≤ 65533)
    (hn : n ≤ window) : ∑ k ∈ Finset.Ico a (a + n), cap window k < 2 ^ 256 := by
  obtain ⟨v, rfl⟩ := Nat.exists_eq_add_of_le' htwo
  have hexcess := sum_excess_le (a := a) (Nat.zero_lt_of_lt htwo) hn
  have htelescope := sum_div_weights_le (2 ^ 256 - 1) v
  rw [sum_first_excess, div_weights] at hexcess
  have hplain : ∑ _k ∈ Finset.Ico a (a + n), 2 ^ 128 = n * 2 ^ 128 := by
    rw [Finset.sum_const, Nat.card_Ico, Nat.add_sub_cancel_left, nsmul_eq_mul, Nat.cast_id]
  -- the last weight sum leaves room for the `2^128` of each block
  have hroom : 2 ^ 224 ≤ 2 * (2 ^ 256 - 1) / ((2 + v) * (2 + v + 1)) := by
    rw [Nat.le_div_iff_mul_le (Nat.mul_pos (by omega) (by omega))]
    calc 2 ^ 224 * ((2 + v) * (2 + v + 1)) ≤ 2 ^ 224 * (2 ^ 16 * 2 ^ 16) :=
          Nat.mul_le_mul_left _ (Nat.mul_le_mul (by omega) (by omega))
      _ ≤ 2 * (2 ^ 256 - 1) := by decide
  have htwice : 3 * (2 * (2 ^ 256 - 1) / ((2 + v) * (2 + v + 1))) ≤
      2 * (2 ^ 256 - 1) / (2 + v) := by
    rw [← Nat.div_div_eq_div_mul]
    calc 3 * (2 * (2 ^ 256 - 1) / (2 + v) / (2 + v + 1))
        ≤ (2 + v + 1) * (2 * (2 ^ 256 - 1) / (2 + v) / (2 + v + 1)) :=
          Nat.mul_le_mul_right _ (by omega)
      _ ≤ 2 * (2 ^ 256 - 1) / (2 + v) := Nat.mul_div_le _ _
  have hsmall : n * 2 ^ 128 ≤ 65533 * 2 ^ 128 := Nat.mul_le_mul_right _ (hn.trans hwindow)
  simp only [cap, Finset.sum_add_distrib, hplain]
  omega

theorem sum_map_range' (f : ℕ → ℕ) (a n : ℕ) :
    ((List.range' a n).map f).sum = ∑ k ∈ Finset.Ico a (a + n), f k := by
  induction n with
  | zero => rw [List.range'_zero, List.map_nil, List.sum_nil, Nat.add_zero, Finset.Ico_self,
      Finset.sum_empty]
  | succ n ih =>
    rw [List.range'_concat, List.map_append, List.sum_append, ih, ← Nat.add_assoc,
      Finset.sum_Ico_succ_top (Nat.le_add_right a n), Nat.one_mul, List.map_singleton,
      List.sum_singleton]

/-- The difficulties of stored samples with the numbers `a`, `a + 1`, … add up below `2^256`. -/
theorem sum_windowDifficulties_lt {window a : ℕ} {samples : List Sample} (htwo : 2 ≤ window)
    (hwindow : window ≤ 65533) (hlen : samples.length ≤ window + 1)
    (hcaps : List.Forall₂ (fun sample k => sample.2.toNat ≤ cap window k) samples
      (List.range' a samples.length)) :
    (windowDifficulties window samples).sum < 2 ^ 256 := by
  have htail := List.forall₂_drop 1 hcaps
  rw [List.drop_range', Nat.one_mul, ← List.forall₂_map_right_iff, ← List.forall₂_map_left_iff]
    at htail
  have hle := htail.sum_le_sum
  rw [sum_map_range'] at hle
  rw [windowDifficulties, Nat.sub_eq_zero_of_le hlen, List.drop_zero, ← List.drop_one]
  exact hle.trans_lt (sum_cap_lt htwo hwindow (by omega))

end RunLemmas

open RunLemmas

/-- What holds behind the blocks with timestamps `nows`. -/
structure RunInv (cfg : Config) (nows : List UInt64) (s : State) : Prop where
  times : s.pastSamples.val.map Prod.fst =
    nows.drop (nows.length - (cfg.blockWindow.toNat + 1))
  caps : List.Forall₂ (fun sample k => sample.2.toNat ≤ cap cfg.blockWindow.toNat k)
    s.pastSamples.val
    (List.range' (nows.length - (cfg.blockWindow.toNat + 1)) s.pastSamples.val.length)
  current : s.currentDifficulty.toNat ≤ cap cfg.blockWindow.toNat nows.length
  minimum : cfg.minDifficulty.toNat ≤ s.currentDifficulty.toNat

/-- What the hook does to a state. -/
structure Finalized (cfg : Config) (s : State) (now : UInt64) (s' : State) : Prop where
  samples : s'.pastSamples.val = (s.pastSamples.val ++ [(now, s.currentDifficulty)]).drop
    (s.pastSamples.val.length + 1 - (cfg.blockWindow.toNat + 1))
  current : s'.currentDifficulty = s.currentDifficulty ∧ s'.pastSamples.val.length < 3 ∨
    3 ≤ s'.pastSamples.val.length ∧ 2 ≤ cfg.blockWindow.toNat ∧
      s'.currentDifficulty.toNat = nextDifficulty cfg
        (windowDifficulties cfg.blockWindow.toNat s'.pastSamples.val)
        (windowTimes cfg cfg.blockWindow.toNat s'.pastSamples.val)

namespace RunLemmas

variable {cfg : Config} {nows : List UInt64} {s s' : State}

theorem RunInv.length (inv : RunInv cfg nows s) :
    s.pastSamples.val.length = min nows.length (cfg.blockWindow.toNat + 1) := by
  have h := congrArg List.length inv.times
  rw [List.length_map, List.length_drop] at h
  omega

/-- The caps of the samples behind one more block. -/
theorem RunInv.caps_push (inv : RunInv cfg nows s) (now : UInt64) :
    List.Forall₂ (fun sample k => sample.2.toNat ≤ cap cfg.blockWindow.toNat k)
      ((s.pastSamples.val ++ [(now, s.currentDifficulty)]).drop
        (s.pastSamples.val.length + 1 - (cfg.blockWindow.toNat + 1)))
      (List.range' (nows.length + 1 - (cfg.blockWindow.toNat + 1))
        (min (nows.length + 1) (cfg.blockWindow.toNat + 1))) := by
  have hlen := RunInv.length inv
  have hlast : List.Forall₂ (fun (sample : Sample) k => sample.2.toNat ≤ cap _ k)
      [(now, s.currentDifficulty)] [nows.length] := List.Forall₂.cons inv.current List.Forall₂.nil
  have hpush := List.rel_append inv.caps hlast
  have hrange : List.range' (nows.length - (cfg.blockWindow.toNat + 1)) s.pastSamples.val.length ++
      [nows.length] = List.range' (nows.length - (cfg.blockWindow.toNat + 1))
        (s.pastSamples.val.length + 1) := by
    rw [List.range'_concat, Nat.one_mul]
    congr 2
    omega
  beta_reduce at hpush
  rw [hrange] at hpush
  have hdrop := List.forall₂_drop
    (s.pastSamples.val.length + 1 - (cfg.blockWindow.toNat + 1)) hpush
  rw [List.drop_range', Nat.mul_one] at hdrop
  convert hdrop using 2 <;> omega

/-- A block behind a run cannot trap. -/
theorem onFinalize_spec (hwindow : cfg.blockWindow.toNat ≤ 65533) (inv : RunInv cfg nows s)
    (now : UInt64) : ∃ s', onFinalize cfg s now = some s' ∧ Finalized cfg s now s' := by
  have hlen := RunInv.length inv
  have hcaps := RunInv.caps_push inv now
  have hpush : (s.pastSamples.val ++ [(now, s.currentDifficulty)]).length ≤ MAX_SAMPLES := by
    rw [List.length_append, List.length_singleton]
    unfold MAX_SAMPLES
    omega
  have hforce : forcePush s.pastSamples (now, s.currentDifficulty) = some ⟨_, hpush⟩ :=
    ByteLib.BoundedVec.tryFrom_eq_some hpush
  have htrim := trim_val (cfg.blockWindow.toNat + 1) ⟨_, hpush⟩
  rw [List.length_append, List.length_singleton] at htrim
  rw [← htrim] at hcaps
  have hsize : (trim (cfg.blockWindow.toNat + 1) ⟨_, hpush⟩).val.length =
      min (nows.length + 1) (cfg.blockWindow.toNat + 1) := by
    rw [hcaps.length_eq, List.length_range']
  rw [← hsize] at hcaps
  by_cases hshort : (trim (cfg.blockWindow.toNat + 1) ⟨_, hpush⟩).val.length < 3
  · have hlwma : lwma cfg (trim (cfg.blockWindow.toNat + 1) ⟨_, hpush⟩).val cfg.blockWindow.toNat =
        some none := if_pos hshort
    refine ⟨⟨s.currentDifficulty, trim (cfg.blockWindow.toNat + 1) ⟨_, hpush⟩⟩, ?_, htrim,
      Or.inl ⟨rfl, hshort⟩⟩
    simp only [onFinalize, hforce, hlwma, Option.bind_eq_bind, Option.bind_some, Option.getD_none]
    rfl
  · have htwo : 2 ≤ cfg.blockWindow.toNat := by omega
    have hsum := sum_windowDifficulties_lt htwo hwindow (by omega) hcaps
    obtain ⟨d, hlwma, hd⟩ := @lwma_spec cfg _ _ (Nat.le_of_not_lt hshort) htwo (by omega) hsum
    refine ⟨⟨d, trim (cfg.blockWindow.toNat + 1) ⟨_, hpush⟩⟩, ?_, htrim,
      Or.inr ⟨Nat.le_of_not_lt hshort, htwo, hd⟩⟩
    simp only [onFinalize, hforce, hlwma, Option.bind_eq_bind, Option.bind_some, Option.getD_some]
    rfl

/-- The sum of the difficulties of a window fits, also when the window is too short to adjust. -/
theorem RunInv.sum_lt (hwindow : cfg.blockWindow.toNat ≤ 65533) (inv : RunInv cfg nows s) :
    (windowDifficulties cfg.blockWindow.toNat s.pastSamples.val).sum < 2 ^ 256 := by
  have hlen := RunInv.length inv
  rcases Nat.lt_or_ge cfg.blockWindow.toNat 2 with hshort | htwo
  · have hlt : ∀ d ∈ windowDifficulties cfg.blockWindow.toNat s.pastSamples.val, d ≤ 2 ^ 256 - 1 := by
      intro d hd
      obtain ⟨sample, -, rfl⟩ := List.mem_map.mp hd
      exact Nat.le_pred_of_lt sample.2.isLt
    have hsum := List.sum_le_card_nsmul _ _ hlt
    rw [length_windowDifficulties, nsmul_eq_mul, Nat.cast_id] at hsum
    omega
  · exact sum_windowDifficulties_lt htwo hwindow (by omega) inv.caps

theorem excess_eq {window k : ℕ} (h : 3 ≤ k) :
    excess window k = (2 ^ 256 - 1) / weights 1 (min (k - 1) window) :=
  if_neg (Nat.not_le_of_lt h)

/-- A result is at most `2^128` above the largest numerator over the weights. -/
theorem nextDifficulty_le_cap {ds sts : List ℕ} (hlen : sts.length = ds.length)
    (hone : ∀ st ∈ sts, 1 ≤ st) (hpos : 0 < ds.length) :
    nextDifficulty cfg ds sts ≤ 2 ^ 128 + (2 ^ 256 - 1) / weights 1 ds.length := by
  have hweights := weights_le_weighted hone
  rw [hlen] at hweights
  have hquotient := Nat.div_le_div (min_le_right
    (min (mean ds * (target cfg).toNat) (2 ^ 256 - 1) * weights 1 ds.length) (2 ^ 256 - 1))
    (hweights.trans (le_max_left _ 1)) (Nat.ne_of_gt (weights_pos hpos))
  rw [nextDifficulty]
  exact max_le (hquotient.trans (Nat.le_add_left _ _))
    (cfg.minDifficulty.isLt.le.trans (Nat.le_add_right _ _))

/-- One block keeps the invariant. -/
theorem Finalized.runInv {now : UInt64} (h : Finalized cfg s now s') (inv : RunInv cfg nows s) :
    RunInv cfg (nows ++ [now]) s' := by
  have hlen := RunInv.length inv
  have hcaps := RunInv.caps_push inv now
  rw [← h.samples] at hcaps
  have hsize := hcaps.length_eq
  rw [List.length_range'] at hsize
  have htimes : s'.pastSamples.val.map Prod.fst =
      (nows ++ [now]).drop (nows.length + 1 - (cfg.blockWindow.toNat + 1)) := by
    have hfit : nows.length - (cfg.blockWindow.toNat + 1) ≤ nows.length := Nat.sub_le _ _
    rw [h.samples, List.map_drop, List.map_append, inv.times, List.map_singleton,
      ← List.drop_append_of_le_length hfit, List.drop_drop]
    congr 1
    omega
  refine ⟨?_, ?_, ?_, ?_⟩
  · rw [htimes, List.length_append, List.length_singleton]
  · rw [hsize, List.length_append, List.length_singleton]
    exact hcaps
  · rw [List.length_append, List.length_singleton]
    cases h.current with
    | inl hsame =>
      rw [hsame.1]
      refine inv.current.trans (Nat.add_le_add_left ?_ _)
      -- either the difficulty is still the one of the genesis state, or the window never fills
      rcases Nat.lt_or_ge nows.length 3 with hfew | hmany
      · have hzero : excess cfg.blockWindow.toNat nows.length = 0 := if_pos (Nat.le_of_lt_succ hfew)
        rw [hzero]
        exact Nat.zero_le _
      · rw [excess_eq hmany, excess_eq (Nat.le_succ_of_le hmany), min_eq_right (by omega),
          min_eq_right (by omega)]
    | inr hnext =>
      obtain ⟨hthree, htwo, hd⟩ := hnext
      have hds := length_windowDifficulties cfg.blockWindow.toNat s'.pastSamples.val
      have hsts := length_windowTimes cfg cfg.blockWindow.toNat s'.pastSamples.val
      have hcap := @nextDifficulty_le_cap cfg _ _ (hsts.trans hds.symm)
        (fun st hst => (windowTimes_bounds hst).1) (by omega)
      rw [hds, ← hd] at hcap
      rw [cap, excess_eq (by omega)]
      convert hcap using 4
      omega
  · cases h.current with
    | inl hsame => rw [hsame.1]; exact inv.minimum
    | inr hnext =>
      rw [hnext.2.2, nextDifficulty]
      exact le_max_right _ _

theorem runInv_genesis (cfg : Config) (initialDifficulty : U128) :
    RunInv cfg [] (genesis cfg initialDifficulty) where
  times := List.drop_nil.symm
  caps := List.Forall₂.nil
  current := by
    rw [genesis, toNat_ofNat_of_lt ((umax initialDifficulty cfg.minDifficulty).isLt.trans
      (by decide))]
    exact (umax initialDifficulty cfg.minDifficulty).isLt.le.trans (Nat.le_add_right _ _)
  minimum := by
    rw [genesis, toNat_ofNat_of_lt ((umax initialDifficulty cfg.minDifficulty).isLt.trans
      (by decide)), toNat_umax]
    exact le_max_right _ _

theorem finalizeAll_append (cfg : Config) (s : State) (nows : List UInt64) (now : UInt64) :
    finalizeAll cfg s (nows ++ [now]) =
      (finalizeAll cfg s nows).bind fun s => onFinalize cfg s now := by
  induction nows generalizing s with
  | nil =>
    simp only [List.nil_append, finalizeAll, Option.bind_some]
    cases onFinalize cfg s now <;> rfl
  | cons first nows ih =>
    rw [List.cons_append, finalizeAll, finalizeAll, Option.bind_assoc]
    exact congrArg _ (funext fun s => ih s)

/-- What one block keeps holds behind every run, and no run traps. -/
theorem run_induction {initialDifficulty : U128} {motive : List UInt64 → State → Prop}
    (hwindow : cfg.blockWindow.toNat ≤ 65533) (hgenesis : motive [] (genesis cfg initialDifficulty))
    (hstep : ∀ nows now s s', RunInv cfg nows s → RunInv cfg (nows ++ [now]) s' →
      Finalized cfg s now s' → motive nows s → motive (nows ++ [now]) s') (nows : List UInt64) :
    ∃ s, finalizeAll cfg (genesis cfg initialDifficulty) nows = some s ∧ RunInv cfg nows s ∧
      motive nows s := by
  induction nows using List.reverseRecOn with
  | nil => exact ⟨_, rfl, runInv_genesis cfg initialDifficulty, hgenesis⟩
  | append_singleton nows now ih =>
    obtain ⟨s, hrun, inv, hmotive⟩ := ih
    obtain ⟨s', hfinalize, hfinalized⟩ := onFinalize_spec hwindow inv now
    have inv' := Finalized.runInv hfinalized inv
    refine ⟨s', ?_, inv', hstep nows now s s' inv inv' hfinalized hmotive⟩
    rw [finalizeAll_append, hrun, Option.bind_some, hfinalize]

end RunLemmas

/-- No run of the hook traps. The window holds at most one sample more than its length, the
difficulties it adds up fit 256 bits and the weighted solve times 128, and the difficulty never
falls below the minimum. -/
theorem finalizeAll_total (cfg : Config) (initialDifficulty : U128)
    (hwindow : cfg.blockWindow.toNat ≤ 65533) (nows : List UInt64) :
    ∃ s, finalizeAll cfg (genesis cfg initialDifficulty) nows = some s ∧
      s.pastSamples.val.length ≤ cfg.blockWindow.toNat + 1 ∧
      (windowDifficulties cfg.blockWindow.toNat s.pastSamples.val).sum < 2 ^ 256 ∧
      weighted 1 (windowTimes cfg cfg.blockWindow.toNat s.pastSamples.val) < 2 ^ 128 ∧
      cfg.minDifficulty.toNat ≤ s.currentDifficulty.toNat := by
  obtain ⟨s, hrun, inv, -⟩ := @run_induction cfg initialDifficulty (fun _ _ => True) hwindow trivial
    (fun _ _ _ _ _ _ _ _ => trivial) nows
  have hlen := RunInv.length inv
  refine ⟨s, hrun, by omega, RunInv.sum_lt hwindow inv, ?_, inv.minimum⟩
  exact (weighted_windowTimes_lt cfg _ (by omega)).trans (by decide)

/-- A run whose clock goes backwards. -/
theorem finalizeAll_total_backwards :
    ∃ s, finalizeAll ⟨60000, 90, 1⟩ (genesis ⟨60000, 90, 1⟩ 600) [7000, 5000, 5000, 0] = some s ∧
      s.pastSamples.val.length ≤ 91 ∧ 1 ≤ s.currentDifficulty.toNat := by
  obtain ⟨s, hrun, hlen, -, -, hmin⟩ :=
    finalizeAll_total ⟨60000, 90, 1⟩ 600 (by decide) [7000, 5000, 5000, 0]
  exact ⟨s, hrun, hlen, hmin⟩

/-! ## Direction -/

namespace RunLemmas

variable {cfg : Config}

/-- A property of every gap of a chain of timestamps is one of every solve time. -/
theorem solvetimes_of_isChain {R : UInt64 → UInt64 → Prop} {Q : ℕ → Prop}
    (hgap : ∀ prev cur, R prev cur →
      Q (min (max (cur.toNat - prev.toNat) 1) (maxSolvetime cfg).toNat))
    {prev : UInt64} {samples : List Sample} (hchain : (prev :: samples.map Prod.fst).IsChain R) :
    ∀ st ∈ solvetimes cfg prev samples, Q st := by
  induction samples generalizing prev with
  | nil =>
    intro st hst
    cases hst
  | cons sample samples ih =>
    rw [List.map_cons, List.isChain_cons_cons] at hchain
    intro st hst
    rw [solvetimes, List.mem_cons] at hst
    cases hst with
    | inl heq => exact heq ▸ hgap prev sample.1 hchain.1
    | inr hmem => exact ih hchain.2 st hmem

theorem windowTimes_of_isChain {R : UInt64 → UInt64 → Prop} {Q : ℕ → Prop}
    (hgap : ∀ prev cur, R prev cur →
      Q (min (max (cur.toNat - prev.toNat) 1) (maxSolvetime cfg).toNat))
    {window : ℕ} {samples : List Sample} (hchain : (samples.map Prod.fst).IsChain R) :
    ∀ st ∈ windowTimes cfg window samples, Q st := by
  have hdrop := hchain.drop (samples.length - (window + 1))
  rw [← List.map_drop] at hdrop
  unfold windowTimes
  cases h : samples.drop (samples.length - (window + 1)) with
  | nil =>
    intro st hst
    cases hst
  | cons first deltas =>
    rw [h] at hdrop
    exact solvetimes_of_isChain hgap hdrop

/-- A property of difficulties that each adjustment passes on holds behind every run whose gaps are
of the kind the adjustment asks for. -/
theorem run_difficulty {initialDifficulty : U128} {R : UInt64 → UInt64 → Prop} {P Q : ℕ → Prop}
    (hwindow : cfg.blockWindow.toNat ≤ 65533)
    (hgap : ∀ prev cur, R prev cur →
      Q (min (max (cur.toNat - prev.toNat) 1) (maxSolvetime cfg).toNat))
    (hgenesis : P (max initialDifficulty.toNat cfg.minDifficulty.toNat))
    (hadjust : ∀ ds sts : List ℕ, sts.length = ds.length → 0 < ds.length → ds.length < 2 ^ 16 →
      (∀ d ∈ ds, P d) → (∀ st ∈ sts, Q st) → P (nextDifficulty cfg ds sts))
    {nows : List UInt64} (hchain : nows.IsChain R) :
    ∃ s, finalizeAll cfg (genesis cfg initialDifficulty) nows = some s ∧
      P s.currentDifficulty.toNat := by
  have hbase : ([] : List UInt64).IsChain R →
      (∀ sample ∈ (genesis cfg initialDifficulty).pastSamples.val, P sample.2.toNat) ∧
        P (genesis cfg initialDifficulty).currentDifficulty.toNat := by
    intro _
    refine ⟨fun sample hsample => absurd hsample List.not_mem_nil, ?_⟩
    rw [genesis, toNat_ofNat_of_lt ((umax initialDifficulty cfg.minDifficulty).isLt.trans
      (by decide)), toNat_umax]
    exact hgenesis
  have hall := run_induction (motive := fun nows s => nows.IsChain R →
    (∀ sample ∈ s.pastSamples.val, P sample.2.toNat) ∧ P s.currentDifficulty.toNat)
    hwindow hbase ?step nows
  case step =>
    intro nows now s s' inv inv' hfinalized ih hchain
    obtain ⟨hsamples, hcurrent⟩ := ih hchain.left_of_append
    have hsamples' : ∀ sample ∈ s'.pastSamples.val, P sample.2.toNat := by
      intro sample hsample
      rw [hfinalized.samples] at hsample
      rcases List.mem_append.mp (List.mem_of_mem_drop hsample) with hold | hnew
      · exact hsamples sample hold
      · rw [List.mem_singleton.mp hnew]
        exact hcurrent
    refine ⟨hsamples', ?_⟩
    cases hfinalized.current with
    | inl hsame =>
      rw [hsame.1]
      exact hcurrent
    | inr hnext =>
      obtain ⟨hthree, htwo, hd⟩ := hnext
      have hlen := RunInv.length inv'
      have hds := length_windowDifficulties cfg.blockWindow.toNat s'.pastSamples.val
      have hsts := length_windowTimes cfg cfg.blockWindow.toNat s'.pastSamples.val
      rw [hd]
      refine hadjust _ _ (hsts.trans hds.symm) (by omega) (by omega) ?_ ?_
      · intro d hmem
        obtain ⟨sample, hsample, rfl⟩ := List.mem_map.mp hmem
        exact hsamples' sample (List.mem_of_mem_drop (List.mem_of_mem_tail hsample))
      · refine windowTimes_of_isChain hgap ?_
        rw [inv'.times]
        exact hchain.drop _
  obtain ⟨s, hrun, -, hmotive⟩ := hall
  exact ⟨s, hrun, (hmotive hchain).2⟩

/-- Blocks that are never late keep the difficulty at `c` or above. -/
theorem nextDifficulty_ge {c : ℕ} (hc : c < 2 ^ 128) {ds sts : List ℕ}
    (hlen : sts.length = ds.length) (hpos : 0 < ds.length) (hshort : ds.length < 2 ^ 16)
    (hds : ∀ d ∈ ds, c ≤ d) (hsts : ∀ st ∈ sts, st ≤ (target cfg).toNat) :
    c ≤ nextDifficulty cfg ds sts := by
  have hmean := le_mean (List.length_pos_iff.mp hpos) hds
  have hweighted := weighted_le hsts 1
  rw [hlen] at hweighted
  have hweights : weights 1 ds.length < 2 ^ 32 := by
    have h := two_mul_weights_one ds.length
    have hsquare : ds.length * (ds.length + 1) ≤ 2 ^ 16 * 2 ^ 16 :=
      Nat.mul_le_mul (by omega) (by omega)
    omega
  have hdivisor : max (weighted 1 sts) 1 ≤ (target cfg).toNat * weights 1 ds.length :=
    max_le hweighted (Nat.mul_pos (target_pos cfg) (weights_pos hpos))
  have hinner : c * (target cfg).toNat ≤ 2 ^ 128 * 2 ^ 64 :=
    Nat.mul_le_mul hc.le (target cfg).toNat_lt.le
  have hfits : c * (target cfg).toNat * weights 1 ds.length ≤ 2 ^ 128 * 2 ^ 64 * 2 ^ 32 :=
    Nat.mul_le_mul hinner hweights.le
  have hnumerator : c * (target cfg).toNat * weights 1 ds.length ≤
      min (min (mean ds * (target cfg).toNat) (2 ^ 256 - 1) * weights 1 ds.length) (2 ^ 256 - 1) :=
    le_min (Nat.mul_le_mul_right _ (le_min (Nat.mul_le_mul_right _ hmean)
      (hinner.trans (by decide)))) (hfits.trans (by decide))
  have hquotient : c ≤ min (min (mean ds * (target cfg).toNat) (2 ^ 256 - 1) * weights 1 ds.length)
      (2 ^ 256 - 1) / max (weighted 1 sts) 1 := by
    rw [Nat.le_div_iff_mul_le (Nat.lt_of_lt_of_le Nat.one_pos (le_max_right _ _))]
    refine (Nat.mul_le_mul_left c hdivisor).trans ?_
    rw [← Nat.mul_assoc]
    exact hnumerator
  exact hquotient.trans (le_max_left _ _)

/-- Blocks that are never early keep the difficulty at `c` or below. -/
theorem nextDifficulty_le_of_late {c : ℕ} (hc : cfg.minDifficulty.toNat ≤ c) {ds sts : List ℕ}
    (hlen : sts.length = ds.length) (hds : ∀ d ∈ ds, d ≤ c)
    (hsts : ∀ st ∈ sts, (target cfg).toNat ≤ st) : nextDifficulty cfg ds sts ≤ c := by
  have hweighted := le_weighted hsts 1
  rw [hlen] at hweighted
  have hnumerator : min (min (mean ds * (target cfg).toNat) (2 ^ 256 - 1) * weights 1 ds.length)
      (2 ^ 256 - 1) ≤ max (weighted 1 sts) 1 * c :=
    calc min (min (mean ds * (target cfg).toNat) (2 ^ 256 - 1) * weights 1 ds.length) (2 ^ 256 - 1)
        ≤ min (mean ds * (target cfg).toNat) (2 ^ 256 - 1) * weights 1 ds.length := min_le_left _ _
      _ ≤ c * (target cfg).toNat * weights 1 ds.length :=
          Nat.mul_le_mul_right _ ((min_le_left _ _).trans (Nat.mul_le_mul_right _ (mean_le hds)))
      _ = (target cfg).toNat * weights 1 ds.length * c := by ring
      _ ≤ max (weighted 1 sts) 1 * c := Nat.mul_le_mul_right _ (hweighted.trans (le_max_left _ _))
  exact max_le (Nat.div_le_of_le_mul hnumerator) hc

end RunLemmas

/-- Over a whole run, blocks that are never later than the target never bring the difficulty below
the one of the genesis state, blocks that are never earlier never bring it above, and blocks that
are on time keep it. -/
theorem difficulty_direction (cfg : Config) (initialDifficulty : U128)
    (hwindow : cfg.blockWindow.toNat ≤ 65533) (nows : List UInt64) :
    let start := max initialDifficulty.toNat cfg.minDifficulty.toNat
    ∃ s, finalizeAll cfg (genesis cfg initialDifficulty) nows = some s ∧
      (nows.IsChain (fun prev now => now.toNat ≤ prev.toNat + (target cfg).toNat) →
        start ≤ s.currentDifficulty.toNat) ∧
      (nows.IsChain (fun prev now => prev.toNat + (target cfg).toNat ≤ now.toNat) →
        s.currentDifficulty.toNat ≤ start) ∧
      (nows.IsChain (fun prev now => now.toNat = prev.toNat + (target cfg).toNat) →
        s.currentDifficulty.toNat = start) := by
  intro start
  have htarget := target_pos cfg
  have hmax := target_le_maxSolvetime cfg
  have hstart : start < 2 ^ 128 := max_lt initialDifficulty.isLt cfg.minDifficulty.isLt
  obtain ⟨s, hrun, -, -⟩ := @run_induction cfg initialDifficulty (fun _ _ => True) hwindow trivial
    (fun _ _ _ _ _ _ _ _ => trivial) nows
  have hearly : nows.IsChain (fun prev now => now.toNat ≤ prev.toNat + (target cfg).toNat) →
      start ≤ s.currentDifficulty.toNat := by
    intro hchain
    obtain ⟨s', hrun', hge⟩ := @run_difficulty cfg initialDifficulty _ (fun d => start ≤ d)
      (fun st => st ≤ (target cfg).toNat) hwindow (fun prev cur h => by omega) le_rfl
      (fun ds sts hlen hpos hshort hds hsts => nextDifficulty_ge hstart hlen hpos hshort hds hsts)
      nows hchain
    rw [hrun] at hrun'
    cases hrun'
    exact hge
  have hlate : nows.IsChain (fun prev now => prev.toNat + (target cfg).toNat ≤ now.toNat) →
      s.currentDifficulty.toNat ≤ start := by
    intro hchain
    obtain ⟨s', hrun', hle⟩ := @run_difficulty cfg initialDifficulty _ (fun d => d ≤ start)
      (fun st => (target cfg).toNat ≤ st) hwindow (fun prev cur h => by omega) le_rfl
      (fun ds sts hlen _ _ hds hsts =>
        nextDifficulty_le_of_late (le_max_right _ _) hlen hds hsts)
      nows hchain
    rw [hrun] at hrun'
    cases hrun'
    exact hle
  refine ⟨s, hrun, hearly, hlate, ?_⟩
  intro hchain
  exact Nat.le_antisymm (hlate (hchain.imp fun _ _ h => h.ge)) (hearly (hchain.imp fun _ _ h => h.le))

/-- Four blocks on a one-minute target. -/
theorem difficulty_direction_on_time :
    ∃ s, finalizeAll ⟨60000, 90, 1⟩ (genesis ⟨60000, 90, 1⟩ 600) [5000, 65000, 125000, 185000] =
      some s ∧ s.currentDifficulty.toNat = 600 := by
  obtain ⟨s, hrun, -, -, hexact⟩ :=
    difficulty_direction ⟨60000, 90, 1⟩ 600 (by decide) [5000, 65000, 125000, 185000]
  refine ⟨s, hrun, hexact ?_⟩
  simp [target]

end Kohl.Difficulty
