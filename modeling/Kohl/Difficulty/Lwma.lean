import Kohl.Lib.LinearWeight
import Kohl.Lib.Machine
import Kohl.Pow.Mining
import Kohl.Primitives

/-!
# LWMA difficulty

`pallets/difficulty/src/lib.rs`: the linearly weighted moving average over a window of samples, the
hook that pushes a sample and adjusts the difficulty, and the genesis state. An operation that can
panic returns an `Option`; `none` is the panic.

* `lwma_spec`: the value of the average, free of traps when the difficulties of the window add up
  below `2^256`.
* `lwma_bounded_monotone`: how far one adjustment can go, and that it is monotone in the window.
-/

namespace Kohl.Difficulty

open ByteLib Machine LinearWeight
open Kohl.Pow (U256)

abbrev U128 := BitVec 128

/-- A window entry: the block's timestamp in milliseconds and the difficulty it used. -/
abbrev Sample := UInt64 × U256

structure Config where
  targetBlockTime : UInt64
  blockWindow : UInt32
  minDifficulty : U128
deriving DecidableEq

/-! ## The average -/

/-- `u64::saturating_sub`. -/
def saturatingSub (a b : UInt64) : UInt64 := if a ≤ b then 0 else a - b

/-- `u64::clamp`, which panics when the bounds are the wrong way round. -/
def clamp (x lo hi : UInt64) : Option UInt64 :=
  if hi < lo then none else if x < lo then some lo else if hi < x then some hi else some x

/-- The target, with zero read as one. -/
def target (cfg : Config) : UInt64 := if cfg.targetBlockTime < 1 then 1 else cfg.targetBlockTime

def maxSolvetime (cfg : Config) : UInt64 := saturatingMul (target cfg) 6

/-- The loop over the samples behind `prev`, from weight `i` on: the weighted solve times and the
sum of the difficulties. -/
def lwmaLoop (maxSolvetime : UInt64) : ℕ → UInt64 → List Sample → U128 → U256 → Option (U128 × U256)
  | _, _, [], weightedSolvetime, sumDifficulty => some (weightedSolvetime, sumDifficulty)
  | i, prev, (cur, difficulty) :: samples, weightedSolvetime, sumDifficulty => do
    -- a timestamp that does not increase counts as one millisecond
    let st ← clamp (saturatingSub cur prev) 1 maxSolvetime
    let term ← mul (BitVec.ofNat 128 i) (BitVec.ofNat 128 st.toNat)
    let weightedSolvetime ← add weightedSolvetime term
    let sumDifficulty ← add sumDifficulty difficulty
    lwmaLoop maxSolvetime (i + 1) cur samples weightedSolvetime sumDifficulty

/-- `Σ i` over the weights `1..=n`. -/
def weightSum (n : ℕ) : Option U128 := do
  let successor ← add (BitVec.ofNat 128 n) 1
  let product ← mul (BitVec.ofNat 128 n) successor
  div product 2

/-- `avg · T · Σi / Σ(i · st)` for `n` solve times, at least the minimum. -/
def adjust (cfg : Config) (n : ℕ) (weightedSolvetime : U128) (sumDifficulty : U256) :
    Option U256 := do
  let weightSum ← weightSum n
  let avgDifficulty ← div sumDifficulty (BitVec.ofNat 256 n)
  let numerator := Machine.saturatingMul
    (Machine.saturatingMul avgDifficulty (BitVec.ofNat 256 (target cfg).toNat))
    (BitVec.ofNat 256 weightSum.toNat)
  let next ← div numerator (BitVec.ofNat 256 (umax weightedSolvetime 1).toNat)
  return umax next (BitVec.ofNat 256 cfg.minDifficulty.toNat)

/-- The next difficulty; the inner `none` is a window that is too short to adjust yet. -/
def lwma (cfg : Config) (samples : List Sample) (window : ℕ) : Option (Option U256) :=
  if samples.length < 3 then some none
  else
    match samples.drop (samples.length - (window + 1)) with
    | [] => none
    | first :: deltas => do
      let (weightedSolvetime, sumDifficulty) ← lwmaLoop (maxSolvetime cfg) 1 first.1 deltas 0 0
      let next ← adjust cfg deltas.length weightedSolvetime sumDifficulty
      return some next

/-! ## The pallet -/

/-- The bound of the stored window, `u16::MAX`. -/
def MAX_SAMPLES : ℕ := 65535

structure State where
  currentDifficulty : U256
  pastSamples : BoundedVec Sample MAX_SAMPLES

/-- `GenesisConfig::build`. -/
def genesis (cfg : Config) (initialDifficulty : U128) : State where
  currentDifficulty := BitVec.ofNat 256 (umax initialDifficulty cfg.minDifficulty).toNat
  pastSamples := ⟨[], Nat.zero_le _⟩

/-- `force_push`. What it does past the bound is not modelled: it counts as a trap. -/
def forcePush (samples : BoundedVec Sample MAX_SAMPLES) (sample : Sample) :
    Option (BoundedVec Sample MAX_SAMPLES) :=
  BoundedVec.tryFrom (samples.val ++ [sample])

/-- `while samples.len() > bound { samples.remove(0) }`. -/
def trimLoop (bound : ℕ) : List Sample → List Sample
  | [] => []
  | sample :: samples =>
    if bound < (sample :: samples).length then trimLoop bound samples else sample :: samples

theorem trimLoop_eq (bound : ℕ) (samples : List Sample) :
    trimLoop bound samples = samples.drop (samples.length - bound) := by
  induction samples with
  | nil => rw [trimLoop, List.drop_nil]
  | cons sample samples ih =>
    rw [trimLoop, List.length_cons]
    split
    · next h => rw [ih, Nat.succ_sub (Nat.le_of_lt_succ h), List.drop_succ_cons]
    · next h => rw [Nat.sub_eq_zero_of_le (not_lt.mp h), List.drop_zero]

def trim (bound : ℕ) (samples : BoundedVec Sample MAX_SAMPLES) : BoundedVec Sample MAX_SAMPLES :=
  ⟨trimLoop bound samples.val, by
    rw [trimLoop_eq, List.length_drop]
    exact (Nat.sub_le _ _).trans samples.property⟩

theorem trim_val (bound : ℕ) (samples : BoundedVec Sample MAX_SAMPLES) :
    (trim bound samples).val = samples.val.drop (samples.val.length - bound) :=
  trimLoop_eq bound samples.val

/-- The hook of a block with timestamp `now`. -/
def onFinalize (cfg : Config) (s : State) (now : UInt64) : Option State := do
  let window := cfg.blockWindow.toNat
  let pushed ← forcePush s.pastSamples (now, s.currentDifficulty)
  let samples := trim (window + 1) pushed
  let next ← lwma cfg samples.val window
  return ⟨next.getD s.currentDifficulty, samples⟩

/-- The state behind blocks with the given timestamps. -/
def finalizeAll (cfg : Config) : State → List UInt64 → Option State
  | s, [] => some s
  | s, now :: nows => (onFinalize cfg s now).bind fun s => finalizeAll cfg s nows

/-! ## The value of the average -/

/-- The clamped solve times of the samples behind `prev`. -/
def solvetimes (cfg : Config) : UInt64 → List Sample → List ℕ
  | _, [] => []
  | prev, (cur, _) :: samples =>
    min (max (cur.toNat - prev.toNat) 1) (maxSolvetime cfg).toNat :: solvetimes cfg cur samples

/-- The solve times of the last `window` blocks. -/
def windowTimes (cfg : Config) (window : ℕ) (samples : List Sample) : List ℕ :=
  match samples.drop (samples.length - (window + 1)) with
  | [] => []
  | first :: deltas => solvetimes cfg first.1 deltas

/-- The difficulties of the last `window` blocks. -/
def windowDifficulties (window : ℕ) (samples : List Sample) : List ℕ :=
  ((samples.drop (samples.length - (window + 1))).tail).map fun s => s.2.toNat

/-- `avg · T · Σi / Σ(i · st)` with the products capped, and at least the minimum. -/
def nextDifficulty (cfg : Config) (ds sts : List ℕ) : ℕ :=
  max (min (min (mean ds * (target cfg).toNat) (2 ^ 256 - 1) * weights 1 ds.length) (2 ^ 256 - 1) /
    max (weighted 1 sts) 1) cfg.minDifficulty.toNat

namespace LwmaLemmas

variable {cfg : Config}

theorem target_pos (cfg : Config) : 0 < (target cfg).toNat := by
  unfold target
  split
  · decide
  · next h => exact Nat.pos_of_ne_zero fun hzero => h (UInt64.lt_iff_toNat_lt.mpr (by simp [hzero]))

theorem toNat_maxSolvetime (cfg : Config) :
    (maxSolvetime cfg).toNat = min ((target cfg).toNat * 6) (2 ^ 64 - 1) :=
  toNat_saturatingMul _ _

theorem target_le_maxSolvetime (cfg : Config) : (target cfg).toNat ≤ (maxSolvetime cfg).toNat := by
  have hlt := (target cfg).toNat_lt
  rw [toNat_maxSolvetime]
  omega

theorem clamp_saturatingSub (cfg : Config) (cur prev : UInt64) :
    ∃ st, clamp (saturatingSub cur prev) 1 (maxSolvetime cfg) = some st ∧
      st.toNat = min (max (cur.toNat - prev.toNat) 1) (maxSolvetime cfg).toNat := by
  have hpos := target_pos cfg
  have hle := target_le_maxSolvetime cfg
  have hone : (1 : UInt64).toNat = 1 := rfl
  have hsub : (saturatingSub cur prev).toNat = cur.toNat - prev.toNat := by
    unfold saturatingSub
    split
    · next h =>
      have h' := UInt64.le_iff_toNat_le.mp h
      exact (Nat.sub_eq_zero_of_le h').symm
    · next h =>
      exact UInt64.toNat_sub_of_le _ _ (UInt64.le_of_lt (UInt64.not_le.mp h))
  unfold clamp
  rw [if_neg (by rw [UInt64.lt_iff_toNat_lt]; omega)]
  split
  · next h =>
    rw [UInt64.lt_iff_toNat_lt, hsub] at h
    exact ⟨1, rfl, by omega⟩
  split
  · next h1 h2 =>
    rw [UInt64.lt_iff_toNat_lt, hsub] at h1 h2
    exact ⟨_, rfl, by omega⟩
  · next h1 h2 =>
    rw [UInt64.lt_iff_toNat_lt, hsub] at h1 h2
    exact ⟨_, rfl, by omega⟩

@[simp] theorem length_solvetimes (prev : UInt64) (samples : List Sample) :
    (solvetimes cfg prev samples).length = samples.length := by
  induction samples generalizing prev with
  | nil => rfl
  | cons sample samples ih => rw [solvetimes, List.length_cons, List.length_cons, ih]

/-- Solve times lie between one and the cap. -/
theorem solvetime_bounds {prev : UInt64} {samples : List Sample} {st : ℕ}
    (h : st ∈ solvetimes cfg prev samples) : 1 ≤ st ∧ st ≤ (maxSolvetime cfg).toNat := by
  have hpos := target_pos cfg
  have hle := target_le_maxSolvetime cfg
  induction samples generalizing prev with
  | nil => cases h
  | cons sample samples ih =>
    rw [solvetimes, List.mem_cons] at h
    cases h with
    | inl heq => omega
    | inr hmem => exact ih hmem

/-- The loop adds up the weighted solve times and the difficulties. -/
theorem lwmaLoop_spec (samples : List Sample) {i : ℕ} {prev : UInt64} {ws : U128} {sum : U256}
    (hws : ws.toNat + weighted i (solvetimes cfg prev samples) < 2 ^ 128)
    (hsum : sum.toNat + (samples.map fun s => s.2.toNat).sum < 2 ^ 256)
    (hi : i + samples.length < 2 ^ 64) :
    ∃ ws' sum', lwmaLoop (maxSolvetime cfg) i prev samples ws sum = some (ws', sum') ∧
      ws'.toNat = ws.toNat + weighted i (solvetimes cfg prev samples) ∧
      sum'.toNat = sum.toNat + (samples.map fun s => s.2.toNat).sum := by
  induction samples generalizing i prev ws sum with
  | nil => exact ⟨ws, sum, rfl, rfl, rfl⟩
  | cons sample samples ih =>
    obtain ⟨cur, d⟩ := sample
    rw [solvetimes, weighted] at hws
    simp only [List.map_cons, List.sum_cons] at hsum
    rw [List.length_cons] at hi
    obtain ⟨st, hclamp, hst⟩ := clamp_saturatingSub cfg cur prev
    rw [← hst] at hws
    have hstlt := st.toNat_lt
    have hi128 : (BitVec.ofNat 128 i).toNat = i := toNat_ofNat_of_lt (by omega)
    have hst128 : (BitVec.ofNat 128 st.toNat).toNat = st.toNat := toNat_ofNat_of_lt (by omega)
    obtain ⟨term, hmul, hterm⟩ := exists_mul (a := BitVec.ofNat 128 i)
      (b := BitVec.ofNat 128 st.toNat) (by rw [hi128, hst128]; omega)
    rw [hi128, hst128] at hterm
    obtain ⟨ws₁, hadd, hws₁⟩ := exists_add (a := ws) (b := term) (by omega)
    obtain ⟨sum₁, hadd', hsum₁⟩ := exists_add (a := sum) (b := d) (by omega)
    obtain ⟨ws', sum', hloop, hws', hsum'⟩ := @ih (i + 1) cur ws₁ sum₁ (by omega) (by omega)
      (by omega)
    refine ⟨ws', sum', ?_, ?_, ?_⟩
    · simp only [lwmaLoop, hclamp, hmul, hadd, hadd', hloop, Option.bind_eq_bind, Option.bind_some]
    · rw [hws', hws₁, hterm, solvetimes, weighted, ← hst, Nat.add_assoc]
    · rw [hsum', hsum₁, List.map_cons, List.sum_cons, Nat.add_assoc]

/-- The weights of a window add up below `2^63`, so the weighted solve times stay below `2^127`. -/
theorem weighted_solvetimes_lt (cfg : Config) (prev : UInt64) {samples : List Sample}
    (hlen : samples.length < 2 ^ 32) : weighted 1 (solvetimes cfg prev samples) < 2 ^ 127 := by
  have hcap : ∀ st ∈ solvetimes cfg prev samples, st ≤ 2 ^ 64 - 1 := fun st hst =>
    (solvetime_bounds hst).2.trans (Nat.le_pred_of_lt (maxSolvetime cfg).toNat_lt)
  have hle := weighted_le hcap 1
  rw [length_solvetimes] at hle
  have hweights : 2 * weights 1 samples.length = _ := two_mul_weights 0 samples.length
  have hsquare : samples.length * (2 * 0 + samples.length + 1) ≤ (2 ^ 32 - 1) * 2 ^ 32 :=
    Nat.mul_le_mul (by omega) (by omega)
  calc weighted 1 (solvetimes cfg prev samples) ≤ (2 ^ 64 - 1) * weights 1 samples.length := hle
    _ ≤ (2 ^ 64 - 1) * 2 ^ 63 := Nat.mul_le_mul_left _ (by omega)
    _ < 2 ^ 127 := by decide

theorem weighted_windowTimes_lt (cfg : Config) (window : ℕ) {samples : List Sample}
    (hlen : samples.length < 2 ^ 32) : weighted 1 (windowTimes cfg window samples) < 2 ^ 127 := by
  unfold windowTimes
  cases h : samples.drop (samples.length - (window + 1)) with
  | nil => exact Nat.two_pow_pos 127
  | cons first deltas =>
    have hdrop := congrArg List.length h
    rw [List.length_drop, List.length_cons] at hdrop
    exact weighted_solvetimes_lt cfg first.1 (by omega)

/-- A window of at least three samples has a first sample and at least two behind it. -/
theorem exists_window {samples : List Sample} {window : ℕ} (hlen : 3 ≤ samples.length)
    (hwindow : 2 ≤ window) : ∃ first deltas,
      samples.drop (samples.length - (window + 1)) = first :: deltas ∧ 2 ≤ deltas.length ∧
        deltas.length = min (samples.length - 1) window := by
  have hdrop : (samples.drop (samples.length - (window + 1))).length =
      min samples.length (window + 1) := by
    rw [List.length_drop]
    omega
  cases h : samples.drop (samples.length - (window + 1)) with
  | nil =>
    rw [h, List.length_nil] at hdrop
    omega
  | cons first deltas =>
    rw [h, List.length_cons] at hdrop
    exact ⟨first, deltas, rfl, by omega, by omega⟩

theorem weightSum_spec {n : ℕ} (hn : n < 2 ^ 32) :
    ∃ m, weightSum n = some m ∧ m.toNat = weights 1 n := by
  have hn128 : (BitVec.ofNat 128 n).toNat = n := toNat_ofNat_of_lt (by omega)
  have hone : (1 : U128).toNat = 1 := rfl
  obtain ⟨successor, hadd, hsucc⟩ := exists_add (a := BitVec.ofNat 128 n) (b := (1 : U128))
    (by rw [hn128, hone]; omega)
  rw [hn128, hone] at hsucc
  have hbound : n * (n + 1) ≤ 2 ^ 32 * 2 ^ 32 := Nat.mul_le_mul (by omega) (by omega)
  obtain ⟨product, hmul, hproduct⟩ := exists_mul (a := BitVec.ofNat 128 n) (b := successor)
    (by rw [hn128, hsucc]; omega)
  obtain ⟨m, hdiv, hm⟩ := exists_div (a := product) (b := (2 : U128)) (by decide)
  refine ⟨m, ?_, ?_⟩
  · unfold weightSum
    rw [hadd, Option.bind_eq_bind, Option.bind_some, hmul, Option.bind_some]
    exact hdiv
  · rw [hm, hproduct, hn128, hsucc, weights_one]
    rfl

theorem adjust_spec {n : ℕ} (hpos : 0 < n) (hn : n < 2 ^ 32) (ws : U128) (sum : U256) :
    ∃ d, adjust cfg n ws sum = some d ∧
      d.toNat = max (min (min (sum.toNat / n * (target cfg).toNat) (2 ^ 256 - 1) * weights 1 n)
        (2 ^ 256 - 1) / max ws.toNat 1) cfg.minDifficulty.toNat := by
  have hn256 : (BitVec.ofNat 256 n).toNat = n := toNat_ofNat_of_lt (by omega)
  obtain ⟨m, hweight, hm⟩ := weightSum_spec hn
  obtain ⟨avg, havg, havg'⟩ := exists_div (a := sum) (b := BitVec.ofNat 256 n)
    (by rw [hn256]; exact hpos)
  have htarget : (BitVec.ofNat 256 (target cfg).toNat).toNat = (target cfg).toNat :=
    toNat_ofNat_of_lt ((target cfg).toNat_lt.trans (by decide))
  have hm256 : (BitVec.ofNat 256 m.toNat).toNat = m.toNat :=
    toNat_ofNat_of_lt (m.isLt.trans (by decide))
  have hdivisor : (BitVec.ofNat 256 (umax ws 1).toNat).toNat = max ws.toNat 1 := by
    rw [toNat_ofNat_of_lt ((umax ws 1).isLt.trans (by decide)), toNat_umax]
    rfl
  have hmin : (BitVec.ofNat 256 cfg.minDifficulty.toNat).toNat = cfg.minDifficulty.toNat :=
    toNat_ofNat_of_lt (cfg.minDifficulty.isLt.trans (by decide))
  obtain ⟨next, hnext, hnext'⟩ := exists_div
    (a := Machine.saturatingMul (Machine.saturatingMul avg (BitVec.ofNat 256 (target cfg).toNat))
      (BitVec.ofNat 256 m.toNat))
    (b := BitVec.ofNat 256 (umax ws 1).toNat) (by rw [hdivisor]; omega)
  refine ⟨umax next (BitVec.ofNat 256 cfg.minDifficulty.toNat), ?_, ?_⟩
  · simp only [adjust, hweight, havg, hnext, Option.bind_eq_bind, Option.bind_some]
    rfl
  · rw [toNat_umax, hmin, hnext', Machine.toNat_saturatingMul, Machine.toNat_saturatingMul, htarget,
      hm256, hdivisor, hm, havg', hn256]

end LwmaLemmas

open LwmaLemmas

/-- The average of a window of at least three samples whose difficulties add up below `2^256`: no
operation traps, whatever the timestamps are. -/
theorem lwma_spec {cfg : Config} {samples : List Sample} {window : ℕ} (hlen : 3 ≤ samples.length)
    (hwindow : 2 ≤ window) (hwide : window < 2 ^ 32)
    (hsum : (windowDifficulties window samples).sum < 2 ^ 256) :
    ∃ d, lwma cfg samples window = some (some d) ∧
      d.toNat = nextDifficulty cfg (windowDifficulties window samples)
        (windowTimes cfg window samples) := by
  obtain ⟨first, deltas, hdrop, htwo, hn⟩ := exists_window hlen hwindow
  rw [windowDifficulties, hdrop, List.tail_cons] at hsum
  have hsmall : deltas.length < 2 ^ 32 := by omega
  have hws := weighted_solvetimes_lt cfg first.1 hsmall
  have hzero : ∀ w, (0 : BitVec w).toNat = 0 := fun w => BitVec.toNat_zero
  obtain ⟨ws, sum, hloop, hws', hsum'⟩ := @lwmaLoop_spec cfg deltas 1 first.1 0 0
    (by rw [hzero]; omega) (by rw [hzero]; omega) (by omega)
  rw [hzero, Nat.zero_add] at hws' hsum'
  obtain ⟨d, hadjust, hd⟩ := @adjust_spec cfg _ (Nat.zero_lt_of_lt htwo) hsmall ws sum
  refine ⟨d, ?_, ?_⟩
  · unfold lwma
    rw [if_neg (by omega)]
    simp only [hdrop, hloop, hadjust, Option.bind_eq_bind, Option.bind_some]
    rfl
  · rw [hd, hws', hsum', nextDifficulty, windowDifficulties, windowTimes, hdrop, List.tail_cons, mean,
      List.length_map]

/-! ## One step -/

namespace LwmaLemmas

variable {cfg : Config}

theorem length_windowDifficulties (window : ℕ) (samples : List Sample) :
    (windowDifficulties window samples).length = min (samples.length - 1) window := by
  rw [windowDifficulties, List.length_map, List.length_tail, List.length_drop]
  omega

theorem length_windowTimes (cfg : Config) (window : ℕ) (samples : List Sample) :
    (windowTimes cfg window samples).length = min (samples.length - 1) window := by
  rw [← length_windowDifficulties, windowTimes, windowDifficulties]
  cases samples.drop (samples.length - (window + 1)) with
  | nil => rfl
  | cons first deltas => rw [length_solvetimes, List.tail_cons, List.length_map]

theorem windowTimes_bounds {window : ℕ} {samples : List Sample} {st : ℕ}
    (h : st ∈ windowTimes cfg window samples) : 1 ≤ st ∧ st ≤ (maxSolvetime cfg).toNat := by
  rw [windowTimes] at h
  cases hdrop : samples.drop (samples.length - (window + 1)) with
  | nil =>
    rw [hdrop] at h
    cases h
  | cons first deltas =>
    rw [hdrop] at h
    exact solvetime_bounds h

/-- The weights of a window add up to at most its weighted solve times. -/
theorem weights_le_weighted {sts : List ℕ} (hone : ∀ st ∈ sts, 1 ≤ st) :
    weights 1 sts.length ≤ weighted 1 sts := by
  have h := le_weighted hone 1
  rwa [Nat.one_mul] at h

theorem nextDifficulty_le {ds sts : List ℕ} (hlen : sts.length = ds.length)
    (hone : ∀ st ∈ sts, 1 ≤ st) :
    nextDifficulty cfg ds sts ≤ max cfg.minDifficulty.toNat (mean ds * (target cfg).toNat) := by
  have hweights := weights_le_weighted hone
  rw [hlen] at hweights
  have hquotient : min (min (mean ds * (target cfg).toNat) (2 ^ 256 - 1) * weights 1 ds.length)
      (2 ^ 256 - 1) / max (weighted 1 sts) 1 ≤ mean ds * (target cfg).toNat := by
    refine Nat.div_le_of_le_mul ((min_le_left _ _).trans ?_)
    rw [Nat.mul_comm]
    exact Nat.mul_le_mul (hweights.trans (le_max_left _ _)) (min_le_left _ _)
  rw [nextDifficulty, max_comm]
  exact max_le_max_left _ hquotient

theorem le_nextDifficulty {ds sts : List ℕ} (hlen : sts.length = ds.length)
    (hcap : ∀ st ∈ sts, st ≤ (maxSolvetime cfg).toNat) (hpos : 0 < weights 1 ds.length)
    (hfits : mean ds * (target cfg).toNat * weights 1 ds.length < 2 ^ 256) :
    max cfg.minDifficulty.toNat (mean ds / 6) ≤ nextDifficulty cfg ds sts := by
  have htarget := target_pos cfg
  have hsix : ∀ st ∈ sts, st ≤ (target cfg).toNat * 6 := by
    intro st hst
    have h := hcap st hst
    rw [toNat_maxSolvetime] at h
    exact h.trans (min_le_left _ _)
  have hweighted := weighted_le hsix 1
  rw [hlen] at hweighted
  have hinner : mean ds * (target cfg).toNat ≤ 2 ^ 256 - 1 :=
    (Nat.le_mul_of_pos_right _ hpos).trans (Nat.le_pred_of_lt hfits)
  have hdivisor : max (weighted 1 sts) 1 ≤ (target cfg).toNat * 6 * weights 1 ds.length :=
    max_le hweighted (Nat.mul_pos (Nat.mul_pos htarget (by decide)) hpos)
  have houter : mean ds * (target cfg).toNat * weights 1 ds.length ≤ 2 ^ 256 - 1 :=
    Nat.le_pred_of_lt hfits
  have hquotient : mean ds / 6 ≤ mean ds * (target cfg).toNat * weights 1 ds.length /
      max (weighted 1 sts) 1 := by
    rw [Nat.le_div_iff_mul_le (Nat.lt_of_lt_of_le Nat.one_pos (le_max_right _ _))]
    calc mean ds / 6 * max (weighted 1 sts) 1
        ≤ mean ds / 6 * ((target cfg).toNat * 6 * weights 1 ds.length) :=
          Nat.mul_le_mul_left _ hdivisor
      _ = mean ds / 6 * 6 * ((target cfg).toNat * weights 1 ds.length) := by ring
      _ ≤ mean ds * ((target cfg).toNat * weights 1 ds.length) :=
          Nat.mul_le_mul_right _ (Nat.div_mul_le_self _ _)
      _ = mean ds * (target cfg).toNat * weights 1 ds.length := (Nat.mul_assoc _ _ _).symm
  rw [nextDifficulty, min_eq_left hinner, min_eq_left houter, max_comm]
  exact max_le_max_right _ hquotient

theorem nextDifficulty_mono {ds ds' sts sts' : List ℕ} (hds : List.Forall₂ (· ≤ ·) ds' ds)
    (hsts : List.Forall₂ (· ≤ ·) sts sts') :
    nextDifficulty cfg ds' sts' ≤ nextDifficulty cfg ds sts := by
  have hnumerator : min (min (mean ds' * (target cfg).toNat) (2 ^ 256 - 1) * weights 1 ds'.length)
      (2 ^ 256 - 1) ≤ min (min (mean ds * (target cfg).toNat) (2 ^ 256 - 1) * weights 1 ds.length)
      (2 ^ 256 - 1) := by
    rw [hds.length_eq]
    exact min_le_min_right _ (Nat.mul_le_mul_right _
      (min_le_min_right _ (Nat.mul_le_mul_right _ (mean_mono hds))))
  have hdivisor : max (weighted 1 sts) 1 ≤ max (weighted 1 sts') 1 :=
    max_le_max_right _ (weighted_mono hsts 1)
  rw [nextDifficulty, nextDifficulty]
  exact max_le_max_right _ (Nat.div_le_div hnumerator hdivisor
    (Nat.ne_of_gt (Nat.lt_of_lt_of_le Nat.one_pos (le_max_right _ _))))

end LwmaLemmas

open LwmaLemmas

/-- One adjustment stays between a sixth of the window's mean and the mean times the target, and a
window with slower or easier blocks never gives the larger result. -/
theorem lwma_bounded_monotone (cfg : Config) (samples : List Sample) (hlen : 3 ≤ samples.length)
    (hwindow : 2 ≤ cfg.blockWindow.toNat)
    (hsum : (windowDifficulties cfg.blockWindow.toNat samples).sum < 2 ^ 256) :
    let window := cfg.blockWindow.toNat
    let n := min (samples.length - 1) window
    let avg := mean (windowDifficulties window samples)
    ∃ d, lwma cfg samples window = some (some d) ∧
      d.toNat ≤ max cfg.minDifficulty.toNat (avg * (target cfg).toNat) ∧
      (avg * (target cfg).toNat * (n * (n + 1) / 2) < 2 ^ 256 →
        max cfg.minDifficulty.toNat (avg / 6) ≤ d.toNat) ∧
      ∀ samples', samples'.length = samples.length →
        List.Forall₂ (· ≤ ·) (windowTimes cfg window samples) (windowTimes cfg window samples') →
        List.Forall₂ (· ≥ ·) (windowDifficulties window samples)
          (windowDifficulties window samples') →
        ∃ d', lwma cfg samples' window = some (some d') ∧ d'.toNat ≤ d.toNat := by
  intro window n avg
  have hwide : window < 2 ^ 32 := cfg.blockWindow.toNat_lt
  have hn : (windowDifficulties window samples).length = n := length_windowDifficulties _ _
  have hlens : (windowTimes cfg window samples).length =
      (windowDifficulties window samples).length :=
    (length_windowTimes cfg window samples).trans hn.symm
  have hpos : 0 < n := by omega
  obtain ⟨d, hlwma, hd⟩ := @lwma_spec cfg samples window hlen hwindow hwide hsum
  refine ⟨d, hlwma, ?_, ?_, ?_⟩
  · rw [hd]
    exact nextDifficulty_le hlens fun st hst => (windowTimes_bounds hst).1
  · intro hfits
    rw [← weights_one, ← hn] at hfits
    rw [hd]
    exact le_nextDifficulty hlens (fun st hst => (windowTimes_bounds hst).2)
      (by rw [hn]; exact weights_pos hpos) hfits
  · intro samples' hlen' htimes hdifficulties
    have hds := hdifficulties.flip
    have hsum' := Nat.lt_of_le_of_lt hds.sum_le_sum hsum
    obtain ⟨d', hlwma', hd'⟩ := @lwma_spec cfg samples' window (hlen' ▸ hlen) hwindow hwide hsum'
    refine ⟨d', hlwma', ?_⟩
    rw [hd, hd']
    exact nextDifficulty_mono hds htimes

/-- Two windows on a one-minute target: half a minute and a minute and a half a block. -/
theorem lwma_bounded_monotone_minutes :
    ∃ d d', lwma ⟨60000, 2, 1⟩ [(0, 600), (30000, 600), (60000, 600)] 2 = some (some d) ∧
      lwma ⟨60000, 2, 1⟩ [(0, 600), (90000, 600), (180000, 500)] 2 = some (some d') ∧
      100 ≤ d.toNat ∧ d.toNat ≤ 36000000 ∧ d'.toNat ≤ d.toNat := by
  obtain ⟨d, hlwma, hhigh, hlow, hmono⟩ := lwma_bounded_monotone ⟨60000, 2, 1⟩
    [(0, 600), (30000, 600), (60000, 600)] (by decide) (by decide) (by decide)
  obtain ⟨d', hlwma', hle⟩ := hmono [(0, 600), (90000, 600), (180000, 500)] rfl (by decide)
    (by decide)
  exact ⟨d, d', hlwma, hlwma', hlow (by decide), hhigh, hle⟩

end Kohl.Difficulty
