import Kohl.Lib.Stride
import Kohl.Pow.Seed

/-!
# The miner's thread

The thread of `node/src/service.rs` that searches nonces: in every turn it is told the block to seal, finds the
seed of its parent, tries 100,000 nonces and submits the first winning seal. It keeps the nonce it goes on from,
also when the block to seal changes, and starts again at zero behind a seal. The last nonce of a `u64` is in no
range it tries, and from lap to lap the ranges are other ones.

* `mine_spec`: a round finds the least winning nonce of its range.
* `miner_exact`: whatever the thread submits is accepted; as long as the work stays the same it submits a seal if
  and only if a nonce below the last one wins, and the first seal from nonce zero is the least one.
-/

namespace Kohl.Pow

open ByteLib

/-- The nonces of a turn. -/
def ROUNDS : UInt64 := 100000

/-- What the thread reads off the block to seal. -/
structure MiningMetadata where
  bestHash : Bytes32
  preHash : Bytes32
  difficulty : U256

/-- What a turn is told: the client as it is then, and the block to seal if there is one. -/
structure Poll (N : Type) where
  client : HeaderBackend N
  metadata : Option MiningMetadata

section

variable {N : Type} [BlockNumber N]

/-- A turn: the nonce to go on from, and the seal it submits. -/
def minerTurn (hasher : Hasher) (nonceStart : UInt64) (poll : Poll N) : UInt64 × Option Bytes :=
  match poll.metadata with
  | none => (nonceStart, none)
  | some m =>
    match mineRound ⟨poll.client, hasher⟩ m.bestHash m.preHash m.difficulty nonceStart ROUNDS with
    -- the thread logs the error and tries again
    | .error _ => (nonceStart, none)
    | .ok (some s) => (0, some (encodeSeal s))
    | .ok none => (nonceStart + ROUNDS, none)

/-- The turns from a nonce on: the nonce behind them, and what each of them submits. -/
def minerRun (hasher : Hasher) : UInt64 → List (Poll N) → UInt64 × List (Option Bytes)
  | nonce, [] => (nonce, [])
  | nonce, p :: ps =>
    let t := minerTurn hasher nonce p
    let r := minerRun hasher t.1 ps
    (r.1, t.2 :: r.2)

/-! ## The work of a turn -/

/-- What the nonces of a turn are tried on. -/
structure Work where
  preHash : Bytes
  seed : Bytes
  difficulty : U256

/-- The work of a turn, if there is a block to seal and its seed is found. -/
def Poll.work (p : Poll N) : Option Work :=
  p.metadata.bind fun m =>
    (seedForParent p.client m.bestHash).toOption.map fun seed => ⟨m.preHash.val, seed, m.difficulty⟩

/-- A nonce wins. -/
def Work.Wins (w : Work) (hasher : Hasher) (nonce : UInt64) : Prop :=
  hashMeetsDifficulty (hasher w.preHash w.seed nonce) w.difficulty = true

/-- The seal of a nonce. -/
def Work.seal (w : Work) (hasher : Hasher) (nonce : UInt64) : Seal :=
  ⟨nonce, hasher w.preHash w.seed nonce⟩

/-- The turns have this work or none. -/
def Steady (w : Work) (polls : List (Poll N)) : Prop :=
  ∀ p ∈ polls, p.work = none ∨ p.work = some w

/-- The turns that try nonces. -/
def effective (polls : List (Poll N)) : ℕ := polls.countP fun p => p.work.isSome

namespace MinerLemmas

/-! ## One round -/

/-- The loop finds the least winning nonce of its range. -/
theorem mineFrom_spec {hasher : Hasher} {w : Work} {rounds : ℕ} {nonce : UInt64}
    (hfits : nonce.toNat + rounds < 2 ^ 64) :
    (mineFrom hasher w.preHash w.seed w.difficulty rounds nonce = none ∧
      ∀ v : UInt64, nonce.toNat ≤ v.toNat → v.toNat < nonce.toNat + rounds → ¬w.Wins hasher v) ∨
    ∃ v : UInt64, mineFrom hasher w.preHash w.seed w.difficulty rounds nonce =
        some (w.seal hasher v) ∧ w.Wins hasher v ∧ nonce.toNat ≤ v.toNat ∧
      v.toNat < nonce.toNat + rounds ∧
      ∀ u : UInt64, nonce.toNat ≤ u.toNat → u.toNat < v.toNat → ¬w.Wins hasher u := by
  induction rounds generalizing nonce with
  | zero =>
    left
    refine ⟨rfl, fun v hle hlt => ?_⟩
    omega
  | succ rounds ih =>
    rw [mineFrom]
    by_cases hwins : hashMeetsDifficulty (hasher w.preHash w.seed nonce) w.difficulty = true
    · right
      refine ⟨nonce, ?_, hwins, le_rfl, by omega, fun u hle hlt => absurd hlt (Nat.not_lt.mpr hle)⟩
      rw [if_pos hwins]
      rfl
    · have hnext : (nonce + 1).toNat = nonce.toNat + 1 := by
        rw [UInt64.toNat_add, UInt64.toNat_one, Nat.mod_eq_of_lt (by omega)]
      have hstep : ∀ u : UInt64, nonce.toNat ≤ u.toNat → ¬nonce.toNat + 1 ≤ u.toNat →
          ¬w.Wins hasher u := by
        intro u hle hgt
        have heq : u = nonce := UInt64.toNat_inj.mp (by omega)
        rw [heq]
        exact hwins
      rw [if_neg hwins]
      have hfits' : (nonce + 1).toNat + rounds < 2 ^ 64 := by omega
      rcases ih hfits' with ⟨hnone, hall⟩ | ⟨v, hsome, hv, hle, hlt, hleast⟩
      · left
        refine ⟨hnone, fun u hu hult => ?_⟩
        by_cases hgt : nonce.toNat + 1 ≤ u.toNat
        · exact hall u (by omega) (by omega)
        · exact hstep u hu hgt
      · right
        refine ⟨v, hsome, hv, by omega, by omega, fun u hu hult => ?_⟩
        by_cases hgt : nonce.toNat + 1 ≤ u.toNat
        · exact hleast u (by omega) hult
        · exact hstep u hu hgt

/-- The end of the range of a turn; the last nonce is never inside. -/
def rangeEnd (start : UInt64) : ℕ := min (start.toNat + ROUNDS.toNat) (2 ^ 64 - 1)

/-- A round finds the least winning nonce of its range. -/
theorem mine_spec (hasher : Hasher) (w : Work) (start : UInt64) :
    (mine hasher w.preHash w.seed w.difficulty start ROUNDS = none ∧
      ∀ v : UInt64, start.toNat ≤ v.toNat → v.toNat < rangeEnd start → ¬w.Wins hasher v) ∨
    ∃ v : UInt64, mine hasher w.preHash w.seed w.difficulty start ROUNDS = some (w.seal hasher v) ∧
      w.Wins hasher v ∧ start.toNat ≤ v.toNat ∧ v.toNat < rangeEnd start ∧
      ∀ u : UInt64, start.toNat ≤ u.toNat → u.toNat < v.toNat → ¬w.Wins hasher u := by
  have hstart := start.toNat_lt
  have hle : start.toNat ≤ rangeEnd start := Nat.le_min.mpr ⟨Nat.le_add_right _ _, by omega⟩
  have hend : start.toNat + (rangeEnd start - start.toNat) = rangeEnd start := Nat.add_sub_cancel' hle
  have hfits : start.toNat + (rangeEnd start - start.toNat) < 2 ^ 64 := by
    rw [hend]
    exact (Nat.min_le_right _ _).trans_lt (Nat.sub_lt (Nat.two_pow_pos 64) Nat.one_pos)
  have hspec := @mineFrom_spec hasher w (rangeEnd start - start.toNat) start hfits
  rw [hend] at hspec
  exact hspec

/-- A turn without work keeps its nonce. -/
theorem minerTurn_idle {hasher : Hasher} {nonce : UInt64} {p : Poll N} (h : p.work = none) :
    minerTurn hasher nonce p = (nonce, none) := by
  unfold minerTurn
  unfold Poll.work at h
  split
  · rfl
  · next m hm =>
    rw [hm, Option.bind_some, Option.map_eq_none_iff] at h
    unfold mineRound
    cases hseed : seedForParent p.client m.bestHash with
    | error e => rfl
    | ok seed =>
      rw [hseed] at h
      cases h

/-- A turn with work submits the seal of its round, or goes on behind its range. -/
theorem minerTurn_work {hasher : Hasher} {nonce : UInt64} {p : Poll N} {w : Work}
    (h : p.work = some w) : minerTurn hasher nonce p =
      match mine hasher w.preHash w.seed w.difficulty nonce ROUNDS with
      | some s => (0, some (encodeSeal s))
      | none => (nonce + ROUNDS, none) := by
  obtain ⟨m, hm, h⟩ := Option.bind_eq_some_iff.mp h
  obtain ⟨seed, hseed, rfl⟩ := Option.map_eq_some_iff.mp h
  unfold minerTurn mineRound
  rw [hm]
  cases hfound : seedForParent p.client m.bestHash with
  | error e =>
    rw [hfound] at hseed
    cases hseed
  | ok seed' =>
    rw [hfound] at hseed
    cases hseed
    simp only [bind, Except.bind, pure, Except.pure, hfound]
    cases mine hasher m.preHash.val seed m.difficulty nonce ROUNDS with
    | none => rfl
    | some s => rfl

theorem steady_tail {w : Work} {p : Poll N} {polls : List (Poll N)} (h : Steady w (p :: polls)) :
    Steady w polls := fun q hq => h q (List.mem_cons_of_mem p hq)

/-! ## Safety -/

/-- What a turn submits is the seal of a winning nonce below the last one. -/
theorem minerTurn_submits {hasher : Hasher} {nonce : UInt64} {p : Poll N} {b : Bytes}
    (h : (minerTurn hasher nonce p).2 = some b) : ∃ w v, p.work = some w ∧ w.Wins hasher v ∧
      v.toNat < 2 ^ 64 - 1 ∧ b = encodeSeal (w.seal hasher v) := by
  cases hwork : p.work with
  | none =>
    rw [minerTurn_idle hwork] at h
    cases h
  | some w =>
    rw [minerTurn_work hwork] at h
    rcases mine_spec hasher w nonce with ⟨hnone, -⟩ | ⟨v, hsome, hwins, -, hlt, -⟩
    · rw [hnone] at h
      cases h
    · rw [hsome] at h
      exact ⟨w, v, rfl, hwins, hlt.trans_le (Nat.min_le_right _ _), (Option.some.inj h).symm⟩

theorem minerRun_submits {hasher : Hasher} {nonce : UInt64} {polls : List (Poll N)} {i : ℕ} {b : Bytes}
    (h : (minerRun hasher nonce polls).2[i]? = some (some b)) : ∃ p w v, polls[i]? = some p ∧
      p.work = some w ∧ w.Wins hasher v ∧ v.toNat < 2 ^ 64 - 1 ∧ b = encodeSeal (w.seal hasher v) := by
  induction polls generalizing nonce i with
  | nil => cases h
  | cons p polls ih =>
    cases i with
    | zero =>
      rw [minerRun, List.getElem?_cons_zero, Option.some.injEq] at h
      obtain ⟨w, v, hrest⟩ := minerTurn_submits h
      exact ⟨p, w, v, rfl, hrest⟩
    | succ i =>
      rw [minerRun, List.getElem?_cons_succ] at h
      exact ih h

/-- The importer accepts the seal of a winning nonce when it finds the same seed. -/
theorem verify_of_work {hasher : Hasher} {p : Poll N} {w : Work} (hwork : p.work = some w)
    {v : UInt64} (hwins : w.Wins hasher v) : ∃ m, p.metadata = some m ∧ ∀ preDigest,
      (KohlPow.mk p.client hasher).verify (.hash m.bestHash) m.preHash preDigest
        (encodeSeal (w.seal hasher v)) m.difficulty = .ok true := by
  obtain ⟨m, hm, hwork⟩ := Option.bind_eq_some_iff.mp hwork
  obtain ⟨seed, hseed, rfl⟩ := Option.map_eq_some_iff.mp hwork
  have hfound : seedForParent p.client m.bestHash = .ok seed := by
    cases hcase : seedForParent p.client m.bestHash with
    | error e =>
      rw [hcase] at hseed
      cases hseed
    | ok seed' =>
      rw [hcase] at hseed
      cases hseed
      rfl
  refine ⟨m, hm, fun preDigest => ?_⟩
  simp only [KohlPow.verify, pure, Except.pure, bind, Except.bind, hfound]
  exact congrArg Except.ok (verifySeal_encodeSeal hwins)

/-! ## The nonces of a run -/

theorem toNat_rounds : ROUNDS.toNat = 100000 := rfl

/-- The stride and the ring of nonces have the factor 32 in common. -/
theorem gcd_rounds : Nat.gcd 100000 (2 ^ 64) = 32 := rfl

theorem toNat_add_rounds (nonce : UInt64) :
    (nonce + ROUNDS).toNat = (nonce.toNat + 100000) % 2 ^ 64 := by
  rw [UInt64.toNat_add, toNat_rounds]

theorem dvd_minerTurn {hasher : Hasher} {nonce : UInt64} (h : 32 ∣ nonce.toNat) (p : Poll N) :
    32 ∣ (minerTurn hasher nonce p).1.toNat := by
  cases hwork : p.work with
  | none =>
    rw [minerTurn_idle hwork]
    exact h
  | some w =>
    rw [minerTurn_work hwork]
    split
    · exact Nat.dvd_zero 32
    · rw [toNat_add_rounds]
      omega

/-- The thread goes on from multiples of 32 only. -/
theorem dvd_minerRun {hasher : Hasher} {nonce : UInt64} (h : 32 ∣ nonce.toNat) (polls : List (Poll N)) :
    32 ∣ (minerRun hasher nonce polls).1.toNat := by
  induction polls generalizing nonce with
  | nil => exact h
  | cons p polls ih => exact ih (dvd_minerTurn h p)

/-- Without a seal the turns go round the nonces in strides, and no nonce of their ranges wins. -/
theorem no_win_of_silent {hasher : Hasher} {w : Work} {nonce : UInt64} {polls : List (Poll N)}
    (hsteady : Steady w polls) (hsilent : ∀ o ∈ (minerRun hasher nonce polls).2, o = none) {k : ℕ}
    (hk : k < effective polls) {v : UInt64}
    (hle : Stride.place (2 ^ 64) 100000 nonce.toNat k ≤ v.toNat)
    (hlt : v.toNat < min (Stride.place (2 ^ 64) 100000 nonce.toNat k + 100000) (2 ^ 64 - 1)) :
    ¬w.Wins hasher v := by
  induction polls generalizing nonce k with
  | nil => exact absurd hk (Nat.not_lt_zero k)
  | cons p polls ih =>
    have hturn : (minerTurn hasher nonce p).2 = none := hsilent _ List.mem_cons_self
    have hrest : ∀ o ∈ (minerRun hasher (minerTurn hasher nonce p).1 polls).2, o = none :=
      fun o ho => hsilent o (List.mem_cons_of_mem _ ho)
    rcases hsteady p List.mem_cons_self with hwork | hwork
    · rw [minerTurn_idle hwork] at hrest
      rw [effective, List.countP_cons_of_neg (by rw [hwork]; exact Bool.false_ne_true)] at hk
      exact ih (steady_tail hsteady) hrest hk hle hlt
    · rw [minerTurn_work hwork] at hturn hrest
      rw [effective, List.countP_cons_of_pos (by rw [hwork]; rfl)] at hk
      rcases mine_spec hasher w nonce with ⟨hnone, hall⟩ | ⟨u, hsome, -⟩
      · rw [hnone] at hrest
        cases k with
        | zero =>
          have hplace : Stride.place (2 ^ 64) 100000 nonce.toNat 0 = nonce.toNat := by
            rw [Stride.place, Nat.zero_mul, Nat.add_zero, Nat.mod_eq_of_lt nonce.toNat_lt]
          rw [hplace] at hle hlt
          exact hall v hle hlt
        | succ k =>
          rw [Stride.place_succ, ← toNat_add_rounds] at hle hlt
          exact ih (steady_tail hsteady) hrest (Nat.lt_of_succ_lt_succ hk) hle hlt
      · rw [hsome] at hturn
        cases hturn

/-- From a multiple of 32 on, every nonce below the last one is in the range of one of `2 ^ 59` turns. -/
theorem exists_turn {start v : ℕ} (hstart : 32 ∣ start) (hv : v < 2 ^ 64 - 1) : ∃ k < 2 ^ 59,
    Stride.place (2 ^ 64) 100000 start k ≤ v ∧
      v < min (Stride.place (2 ^ 64) 100000 start k + 100000) (2 ^ 64 - 1) := by
  have htarget : v - v % 32 < 2 ^ 64 := by omega
  have hmod : start ≡ v - v % 32 [MOD Nat.gcd 100000 (2 ^ 64)] := by
    rw [gcd_rounds]
    show start % 32 = (v - v % 32) % 32
    omega
  obtain ⟨k, hk, hplace⟩ := Stride.exists_place_eq htarget hmod
  refine ⟨k, ?_, ?_, ?_⟩
  · rw [gcd_rounds] at hk
    exact hk
  · rw [hplace]
    exact Nat.sub_le v _
  · rw [hplace]
    have hrest := Nat.mod_lt v (Nat.zero_lt_succ 31)
    omega

/-- From a nonce on, the first seal is the one of the least nonce that wins, if it comes before the end of the
ring. -/
theorem first_seal {hasher : Hasher} {w : Work} {nonce v : UInt64} {polls : List (Poll N)}
    (hsteady : Steady w polls) (hv : v.toNat < 2 ^ 64 - 1) (hle : nonce.toNat ≤ v.toNat)
    (hwins : w.Wins hasher v)
    (hleast : ∀ u : UInt64, nonce.toNat ≤ u.toNat → u.toNat < v.toNat → ¬w.Wins hasher u)
    (hcount : (v.toNat - nonce.toNat) / 100000 < effective polls) :
    ((minerRun hasher nonce polls).2.filterMap id).head? = some (encodeSeal (w.seal hasher v)) := by
  induction polls generalizing nonce with
  | nil => exact absurd hcount (Nat.not_lt_zero _)
  | cons p polls ih =>
    rw [minerRun]
    rcases hsteady p List.mem_cons_self with hwork | hwork
    · rw [effective, List.countP_cons_of_neg (by rw [hwork]; exact Bool.false_ne_true)] at hcount
      rw [minerTurn_idle hwork, List.filterMap_cons_none rfl]
      exact ih (steady_tail hsteady) hle hleast hcount
    · rw [effective, List.countP_cons_of_pos (by rw [hwork]; rfl)] at hcount
      rw [minerTurn_work hwork]
      rcases mine_spec hasher w nonce with ⟨hnone, hall⟩ | ⟨u, hsome, hu, hule, -, hbefore⟩
      · -- the least nonce is behind the range
        have hbehind : nonce.toNat + 100000 ≤ v.toNat := by
          by_contra hin
          have hend : v.toNat < rangeEnd nonce := by
            rw [rangeEnd, toNat_rounds]
            omega
          exact hall v hle hend hwins
        have hnext : (nonce + ROUNDS).toNat = nonce.toNat + 100000 := by
          rw [toNat_add_rounds, Nat.mod_eq_of_lt (by omega)]
        rw [hnone, List.filterMap_cons_none rfl]
        show ((minerRun hasher (nonce + ROUNDS) polls).2.filterMap id).head? = _
        refine ih (steady_tail hsteady) (by omega) (fun u hu hlt => hleast u (by omega) hlt) ?_
        rw [hnext]
        show _ < effective polls
        unfold effective
        omega
      · -- the nonce of the round is the least one
        have heq : u = v := by
          rcases lt_trichotomy u.toNat v.toNat with hlt | heq | hgt
          · exact absurd hu (hleast u hule hlt)
          · exact UInt64.toNat_inj.mp heq
          · exact absurd hwins (hbefore v hle hgt)
        rw [hsome, heq]
        rfl

end MinerLemmas

open MinerLemmas

/-- The thread over any turns, whatever the client answers and however often the block to seal changes.
Whatever it submits in a turn is accepted by the algorithm on the parent, the pre-hash and the difficulty of that
turn. If from some turn on the work stays the same, then among any `2 ^ 59` turns that try nonces one submits a
seal exactly when some nonce below the last one wins: the last nonce is never tried, and no other one is left out
for good although the thread does not go back to zero when the work changes. From nonce zero on, the first seal
is the one of the least winning nonce `v`, and it takes `v / 100000 + 1` of these turns. -/
theorem miner_exact (hasher : Hasher) :
    (∀ (polls : List (Poll N)) (i : ℕ) (b : Bytes), (minerRun hasher 0 polls).2[i]? = some (some b) →
      ∃ (p : Poll N) (m : MiningMetadata), polls[i]? = some p ∧ p.metadata = some m ∧ ∀ preDigest,
        (KohlPow.mk p.client hasher).verify (.hash m.bestHash) m.preHash preDigest b m.difficulty =
          .ok true) ∧
    (∀ (earlier polls : List (Poll N)) (w : Work), Steady w polls → 2 ^ 59 ≤ effective polls →
      ((∃ b, some b ∈ (minerRun hasher (minerRun hasher 0 earlier).1 polls).2) ↔
        ∃ v : UInt64, v.toNat < 2 ^ 64 - 1 ∧ w.Wins hasher v)) ∧
    ∀ (polls : List (Poll N)) (w : Work) (v : UInt64), Steady w polls → v.toNat < 2 ^ 64 - 1 →
      w.Wins hasher v → (∀ u < v, ¬w.Wins hasher u) → v.toNat / 100000 < effective polls →
      ((minerRun hasher 0 polls).2.filterMap id).head? = some (encodeSeal (w.seal hasher v)) := by
  refine ⟨fun polls i b h => ?_, fun earlier polls w hsteady hcount => ⟨?_, ?_⟩,
    fun polls w v hsteady hv hwins hleast hcount => ?_⟩
  · obtain ⟨p, w, v, hp, hwork, hwins, -, rfl⟩ := minerRun_submits h
    obtain ⟨m, hm, hverify⟩ := verify_of_work hwork hwins
    exact ⟨p, m, hp, hm, hverify⟩
  · rintro ⟨b, hb⟩
    obtain ⟨i, hi⟩ := List.getElem?_of_mem hb
    obtain ⟨p, w', v, hp, hwork, hwins, hv, -⟩ := minerRun_submits hi
    rcases hsteady p (List.mem_of_getElem? hp) with hnone | hsome
    · rw [hwork] at hnone
      cases hnone
    · rw [hwork, Option.some.injEq] at hsome
      exact ⟨v, hv, hsome ▸ hwins⟩
  · rintro ⟨v, hv, hwins⟩
    by_contra hsilent
    have hnone : ∀ o ∈ (minerRun hasher (minerRun hasher 0 earlier).1 polls).2, o = none := by
      intro o ho
      cases o with
      | none => rfl
      | some b => exact absurd ⟨b, ho⟩ hsilent
    have hdvd := @dvd_minerRun N _ hasher 0 (Nat.dvd_zero 32) earlier
    obtain ⟨k, hk, hle, hlt⟩ := exists_turn hdvd hv
    exact no_win_of_silent hsteady hnone (hk.trans_le hcount) hle hlt hwins
  · exact first_seal hsteady hv (Nat.zero_le _) hwins
      (fun u _ hlt => hleast u (UInt64.lt_iff_toNat_lt.mpr hlt)) hcount

end

/-- A turn with the genesis block to build on, at difficulty one. -/
def easyPoll : Poll UInt32 :=
  ⟨⟨fun _ => .ok (some 0), fun _ => .ok none⟩,
    some ⟨⟨List.replicate 32 10, rfl⟩, ⟨List.replicate 32 11, rfl⟩, 1⟩⟩

def easyWork : Work := ⟨List.replicate 32 11, DEFAULT_SEED, 1⟩

theorem miner_exact_easy :
    (∃ b, some b ∈ (minerRun blakeHasher (minerRun blakeHasher 0 [easyPoll]).1
      (List.replicate (2 ^ 59) easyPoll)).2) ∧
    ((minerRun blakeHasher 0 [easyPoll]).2.filterMap id).head? =
      some (encodeSeal (easyWork.seal blakeHasher 0)) := by
  have hwork : easyPoll.work = some easyWork := rfl
  have hwins : easyWork.Wins blakeHasher 0 := by
    unfold Work.Wins
    decide +kernel
  obtain ⟨-, hlive, hfirst⟩ := @miner_exact UInt32 _ blakeHasher
  refine ⟨(hlive [easyPoll] _ easyWork (fun p hp => ?_) ?_).mpr ⟨0, by decide, hwins⟩,
    hfirst [easyPoll] easyWork 0 (fun p hp => ?_) (by decide) hwins (fun u hu => ?_) ?_⟩
  · rw [List.eq_of_mem_replicate hp]
    exact Or.inr hwork
  · rw [effective, List.countP_replicate, hwork]
    exact le_rfl
  · rw [List.mem_singleton.mp hp]
    exact Or.inr hwork
  · exact absurd hu (UInt64.not_lt.mpr UInt64.zero_le)
  · exact Nat.zero_lt_one

end Kohl.Pow
