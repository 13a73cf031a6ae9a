import Mathlib.Algebra.BigOperators.Group.List.Basic
import Mathlib.Algebra.BigOperators.Intervals
import Mathlib.Algebra.Order.BigOperators.Group.Finset
import Mathlib.Data.List.GetD
import Kohl.Lib.StorageMap

/-!
# Ledgers of coins

An abstract currency. A ledger holds the values of all coins ever created, the indices of the spent
ones, the fees waiting for the next mint and the amount emitted so far. A transfer spends coins and
creates others of the same total value less the fee; a mint creates coins for a reward and the
waiting fees.

* `Sound`: no coin is spent twice, only existing coins are spent, and the unspent value and the
  waiting fees together are the emission.
* `sound_run`: every run of admissible events keeps it.
* `Sound.fees_add_le`: fees never exceed the emission.
-/

structure CoinLedger where
  coins : List ℕ
  spent : List ℕ
  fees : ℕ
  emitted : ℕ

namespace CoinLedger

open Run

def empty : CoinLedger := ⟨[], [], 0, 0⟩

/-- The value of the coin at an index. -/
def value (s : CoinLedger) (i : ℕ) : ℕ := s.coins.getD i 0

/-- The index of the coin spent at a position. -/
def spentAt (s : CoinLedger) (k : ℕ) : ℕ := s.spent.getD k 0

inductive Event
  | idle
  | transfer (inputs outputs : List ℕ) (fee : ℕ)
  | mint (outputs : List ℕ) (reward : ℕ)

def apply (s : CoinLedger) : Event → CoinLedger
  | .idle => s
  | .transfer inputs outputs fee =>
    { s with coins := s.coins ++ outputs, spent := s.spent ++ inputs, fees := s.fees + fee }
  | .mint outputs reward =>
    { s with coins := s.coins ++ outputs, fees := 0, emitted := s.emitted + reward }

/-- When an event may happen. -/
inductive Admissible (s : CoinLedger) : Event → Prop
  | idle : Admissible s .idle
  | transfer (inputs outputs : List ℕ) (fee : ℕ) (stored : ∀ i ∈ inputs, i < s.coins.length)
      (fresh : (s.spent ++ inputs).Nodup)
      (balanced : (inputs.map s.value).sum = outputs.sum + fee) :
      Admissible s (.transfer inputs outputs fee)
  | mint (outputs : List ℕ) (reward : ℕ) (entitled : outputs.sum = reward + s.fees) :
      Admissible s (.mint outputs reward)

/-- Nothing is created but by a mint and nothing is spent twice. -/
structure Sound (s : CoinLedger) : Prop where
  stored : ∀ i ∈ s.spent, i < s.coins.length
  nodup : s.spent.Nodup
  conserved : s.coins.sum + s.fees = s.emitted + (s.spent.map s.value).sum

theorem sound_empty : Sound empty :=
  ⟨fun _ hi => absurd hi List.not_mem_nil, List.nodup_nil, rfl⟩

/-- New coins do not change the values of the old ones. -/
theorem value_stable {s s' : CoinLedger} (h : s.coins <+: s'.coins) {i : ℕ}
    (hi : i < s.coins.length) : s'.value i = s.value i := by
  obtain ⟨new, hnew⟩ := h
  unfold value
  rw [← hnew, List.getD_append _ _ _ _ hi]

theorem map_value_stable {s s' : CoinLedger} (h : s.coins <+: s'.coins) {is : List ℕ}
    (his : ∀ i ∈ is, i < s.coins.length) : is.map s'.value = is.map s.value :=
  List.map_congr_left fun i hi => value_stable h (his i hi)

/-- One admissible event keeps the ledger sound. -/
theorem sound_apply {s : CoinLedger} {e : Event} (h : Sound s) (he : Admissible s e) :
    Sound (s.apply e) := by
  cases he with
  | idle => exact h
  | transfer inputs outputs fee stored fresh balanced =>
    have hall : ∀ i ∈ s.spent ++ inputs, i < s.coins.length := by
      intro i hi
      rcases List.mem_append.mp hi with hi | hi
      · exact h.stored i hi
      · exact stored i hi
    refine ⟨?_, fresh, ?_⟩
    · intro i hi
      exact Nat.lt_of_lt_of_le (hall i hi) (List.prefix_append s.coins outputs).length_le
    · have hvalues := @map_value_stable s (s.apply (.transfer inputs outputs fee))
        (List.prefix_append _ _) _ hall
      have hconserved := h.conserved
      show (s.coins ++ outputs).sum + (s.fees + fee) =
        s.emitted + ((s.spent ++ inputs).map (s.apply (.transfer inputs outputs fee)).value).sum
      rw [hvalues, List.map_append, List.sum_append, List.sum_append, balanced]
      omega
  | mint outputs reward entitled =>
    refine ⟨?_, h.nodup, ?_⟩
    · intro i hi
      exact Nat.lt_of_lt_of_le (h.stored i hi) (List.prefix_append s.coins outputs).length_le
    · have hvalues := @map_value_stable s (s.apply (.mint outputs reward))
        (List.prefix_append _ _) _ h.stored
      have hconserved := h.conserved
      show (s.coins ++ outputs).sum + 0 =
        s.emitted + reward + (s.spent.map (s.apply (.mint outputs reward)).value).sum
      rw [hvalues, List.sum_append, entitled]
      omega

/-- Every run of admissible events keeps the ledger sound. -/
theorem sound_run {es : List Event}
    (h : ∀ pre e, pre ++ [e] <+: es → Admissible (run apply empty pre) e) :
    Sound (run apply empty es) := by
  induction es using List.reverseRecOn with
  | nil => exact sound_empty
  | append_singleton es e ih =>
    rw [run_concat]
    exact sound_apply (ih fun pre e' hpre => h pre e' (hpre.trans (List.prefix_append _ _)))
      (h es e (List.prefix_refl _))

theorem sound_run_take {es : List Event}
    (h : ∀ pre e, pre ++ [e] <+: es → Admissible (run apply empty pre) e) (n : ℕ) :
    Sound (run apply empty (es.take n)) :=
  sound_run fun pre e hpre => h pre e (hpre.trans (List.take_prefix _ _))

/-- Coins and spends are only ever added. -/
theorem prefix_run (s : CoinLedger) (es : List Event) :
    s.coins <+: (run apply s es).coins ∧ s.spent <+: (run apply s es).spent := by
  refine run_invariant (P := fun s' : CoinLedger => s.coins <+: s'.coins ∧ s.spent <+: s'.spent)
    ⟨List.prefix_refl _, List.prefix_refl _⟩ ?_ es
  rintro s' e ⟨hcoins, hspent⟩
  cases e with
  | idle => exact ⟨hcoins, hspent⟩
  | transfer inputs outputs fee =>
    exact ⟨hcoins.trans (List.prefix_append _ _), hspent.trans (List.prefix_append _ _)⟩
  | mint outputs reward => exact ⟨hcoins.trans (List.prefix_append _ _), hspent⟩

theorem prefix_run_take (es : List Event) (n : ℕ) :
    (run apply empty (es.take n)).coins <+: (run apply empty es).coins ∧
      (run apply empty (es.take n)).spent <+: (run apply empty es).spent := by
  have h := prefix_run (run apply empty (es.take n)) (es.drop n)
  rw [← run_append, List.take_append_drop] at h
  exact h

/-- A sum over the positions of a prefix is the sum of its elements. -/
theorem sum_range_getD (f : ℕ → ℕ) {xs ys : List ℕ} (h : xs <+: ys) :
    ∑ k ∈ Finset.range xs.length, f (ys.getD k 0) = (xs.map f).sum := by
  induction xs using List.reverseRecOn with
  | nil => rfl
  | append_singleton xs x ih =>
    obtain ⟨zs, rfl⟩ := h
    have hx : (xs ++ [x] ++ zs).getD xs.length 0 = x := by simp
    rw [List.length_append, List.length_singleton, Finset.sum_range_succ, hx,
      ih ((List.prefix_append _ _).trans (List.prefix_append _ _)), List.map_append, List.sum_append]
    simp

/-- The balance of a state of a run, with values and spends read off its last state. -/
theorem conserved_run_take {es : List Event}
    (h : ∀ pre e, pre ++ [e] <+: es → Admissible (run apply empty pre) e) (n : ℕ) :
    ∑ i ∈ Finset.range (run apply empty (es.take n)).coins.length, (run apply empty es).value i +
        (run apply empty (es.take n)).fees =
      (run apply empty (es.take n)).emitted +
        ∑ k ∈ Finset.range (run apply empty (es.take n)).spent.length,
          (run apply empty es).value ((run apply empty es).spentAt k) := by
  have hsound := sound_run_take h n
  obtain ⟨hcoins, hspent⟩ := prefix_run_take es n
  have hsum : ∑ i ∈ Finset.range (run apply empty (es.take n)).coins.length,
      (run apply empty es).value i = (run apply empty (es.take n)).coins.sum := by
    have hid := sum_range_getD id hcoins
    rw [List.map_id] at hid
    exact hid
  have hspents := sum_range_getD (run apply empty es).value hspent
  rw [map_value_stable hcoins hsound.stored] at hspents
  rw [hsum, hsound.conserved, ← hspents]
  rfl

theorem spentAt_run {es : List Event} {n k i : ℕ}
    (h : (run apply empty (es.take n)).spent[k]? = some i) : (run apply empty es).spentAt k = i := by
  obtain ⟨new, hnew⟩ := (prefix_run_take es n).2
  rw [spentAt, ← hnew, List.getD_eq_getElem?_getD,
    List.getElem?_append_left (List.getElem?_eq_some_iff.mp h).1, h]
  rfl

/-- No coin is spent at two positions. -/
theorem Sound.spentAt_inj {s : CoinLedger} (h : Sound s) {k k' : ℕ} (hk : k < s.spent.length)
    (hk' : k' < s.spent.length) (heq : s.spentAt k = s.spentAt k') : k = k' := by
  rw [spentAt, spentAt, List.getD_eq_getElem _ _ hk, List.getD_eq_getElem _ _ hk'] at heq
  exact h.nodup.getElem_inj_iff.mp heq

/-- What an admissible event spends existed before. -/
theorem stored_of_spent {s : CoinLedger} {e : Event} (he : Admissible s e) {k i : ℕ}
    (hk : s.spent.length ≤ k) (hi : (s.apply e).spent[k]? = some i) : i < s.coins.length := by
  cases he with
  | idle =>
    rw [apply, List.getElem?_eq_none hk] at hi
    cases hi
  | transfer inputs outputs fee stored fresh balanced =>
    rw [apply, List.getElem?_append_right hk] at hi
    exact stored i (List.mem_of_getElem? hi)
  | mint outputs reward entitled =>
    rw [apply, List.getElem?_eq_none hk] at hi
    cases hi

/-- Different coins of a ledger are worth at most all its coins. -/
theorem sum_value_le {s : CoinLedger} {is : List ℕ} (hnodup : is.Nodup)
    (hstored : ∀ i ∈ is, i < s.coins.length) : (is.map s.value).sum ≤ s.coins.sum := by
  have hall : ∑ i ∈ Finset.range s.coins.length, s.value i = s.coins.sum := by
    have hid := sum_range_getD id (List.prefix_refl s.coins)
    rw [List.map_id] at hid
    exact hid
  rw [← List.sum_toFinset s.value hnodup, ← hall]
  refine Finset.sum_le_sum_of_subset ?_
  intro i hi
  exact Finset.mem_range.mpr (hstored i (List.mem_toFinset.mp hi))

/-- The waiting fees were emitted. -/
theorem Sound.fees_le {s : CoinLedger} (h : Sound s) : s.fees ≤ s.emitted := by
  have hspent := sum_value_le h.nodup h.stored
  have hconserved := h.conserved
  omega

/-- So is the fee of a transfer that may happen, on top of them: it is paid out of unspent coins. -/
theorem Sound.fees_add_le {s : CoinLedger} (h : Sound s) {inputs outputs : List ℕ} {fee : ℕ}
    (he : Admissible s (.transfer inputs outputs fee)) : s.fees + fee ≤ s.emitted := by
  cases he with
  | transfer _ _ _ stored fresh balanced =>
    have hall := sum_value_le fresh fun i hi => by
      rcases List.mem_append.mp hi with hi | hi
      · exact h.stored i hi
      · exact stored i hi
    rw [List.map_append, List.sum_append, balanced] at hall
    have hconserved := h.conserved
    omega

/-- Different unspent coins and the waiting fees were emitted. -/
theorem Sound.unspent_add_le {s : CoinLedger} (h : Sound s) {is : List ℕ} (fresh : (s.spent ++ is).Nodup)
    (stored : ∀ i ∈ is, i < s.coins.length) : (is.map s.value).sum + s.fees ≤ s.emitted := by
  have hall := sum_value_le fresh fun i hi => by
    rcases List.mem_append.mp hi with hi | hi
    · exact h.stored i hi
    · exact stored i hi
  rw [List.map_append, List.sum_append] at hall
  have hconserved := h.conserved
  omega

end CoinLedger
