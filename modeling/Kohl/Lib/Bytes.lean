import Mathlib.Data.List.Lex
import Mathlib.Data.List.GetD
import Mathlib.Order.Basic
import Mathlib.Tactic.Ring

/-!
# Byte strings

Byte strings as lists of `UInt8`, fixed 32-byte arrays with the lexicographic order, the
little-endian codecs of fixed width, `chunks_exact`, and the fallible `collect`.

* `leNat_leBytes`, `leBytes_leNat`: the little-endian codecs are inverse at a fixed width.
* `chunksExact_flatten`: cutting a concatenation of equally long pieces gives the pieces back.
* `collect_eq_some_iff`: `collect` succeeds exactly when every element does.
-/

namespace ByteLib

abbrev Bytes := List UInt8

/-- The bytes of an ASCII literal. -/
def ascii (s : String) : Bytes := s.toList.map fun c => UInt8.ofNat c.toNat

/-- A vector of at most `n` elements. -/
abbrev BoundedVec (α : Type*) (n : ℕ) := {l : List α // l.length ≤ n}

namespace BoundedVec

/-- `BoundedVec::try_from`. -/
def tryFrom {α : Type*} {n : ℕ} (l : List α) : Option (BoundedVec α n) :=
  if h : l.length ≤ n then some ⟨l, h⟩ else none

theorem tryFrom_eq_some {α : Type*} {n : ℕ} {l : List α} (h : l.length ≤ n) :
    (tryFrom l : Option (BoundedVec α n)) = some ⟨l, h⟩ := by
  simp [tryFrom, h]

end BoundedVec

/-! ## Fixed arrays -/

/-- A byte array of exactly 32 bytes. -/
abbrev Bytes32 := {b : Bytes // b.length = 32}

namespace Bytes32

@[simp] theorem length_val (b : Bytes32) : b.val.length = 32 := b.property

/-- The numbers of the bytes, the key of the lexicographic order. -/
def key (b : Bytes32) : List ℕ := b.val.map UInt8.toNat

theorem key_injective : Function.Injective key := by
  intro a b h
  apply Subtype.ext
  exact List.map_injective_iff.mpr (fun _ _ => UInt8.toNat_inj.mp) h

/-- Arrays compare lexicographically by byte. -/
instance linearOrder : LinearOrder Bytes32 := LinearOrder.lift' key key_injective

-- the order of the numbers, not the one a subtype inherits from the order of lists
instance (priority := 2000) : LT Bytes32 := linearOrder.toLT
instance (priority := 2000) : LE Bytes32 := linearOrder.toLE

/-- A byte string of the right length as an array. -/
def ofBytes (b : Bytes) : Option Bytes32 :=
  if h : b.length = 32 then some ⟨b, h⟩ else none

@[simp] theorem ofBytes_val (b : Bytes32) : ofBytes b.val = some b := by
  simp [ofBytes]

theorem ofBytes_eq_some {b : Bytes} {a : Bytes32} : ofBytes b = some a ↔ a.val = b := by
  unfold ofBytes
  split
  · next h =>
    rw [Option.some.injEq]
    exact ⟨fun e => e ▸ rfl, fun e => Subtype.ext e.symm⟩
  · next h =>
    refine ⟨fun e => (by cases e), fun e => absurd ?_ h⟩
    rw [← e]
    exact a.property

/-- Two arrays written one after the other are determined by the concatenation. -/
theorem append_inj {a b c d : Bytes32} (h : a.val ++ b.val = c.val ++ d.val) : a = c ∧ b = d := by
  have hl : a.val.length = c.val.length := by simp
  obtain ⟨h1, h2⟩ := List.append_inj h hl
  exact ⟨Subtype.ext h1, Subtype.ext h2⟩

end Bytes32

/-! ## Little-endian integers -/

/-- The `w` low bytes of `n`, least significant first. -/
def leBytes : ℕ → ℕ → Bytes
  | 0, _ => []
  | w + 1, n => UInt8.ofNat n :: leBytes w (n / 256)

/-- The number a little-endian byte string stands for. -/
def leNat : Bytes → ℕ
  | [] => 0
  | b :: bs => b.toNat + 256 * leNat bs

@[simp] theorem length_leBytes (w n : ℕ) : (leBytes w n).length = w := by
  induction w generalizing n with
  | zero => rfl
  | succ w ih => simp [leBytes, ih]

theorem leNat_lt (bs : Bytes) : leNat bs < 256 ^ bs.length := by
  induction bs with
  | nil => simp [leNat]
  | cons b bs ih =>
    have hb := b.toNat_lt
    simp only [leNat, List.length_cons, pow_succ]
    omega

theorem leNat_leBytes (w n : ℕ) : leNat (leBytes w n) = n % 256 ^ w := by
  induction w generalizing n with
  | zero => simp [leBytes, leNat, Nat.mod_one]
  | succ w ih =>
    have hsplit : n % (256 * 256 ^ w) = n % 256 + 256 * (n / 256 % 256 ^ w) := Nat.mod_mul
    simp only [leBytes, leNat, ih, UInt8.toNat_ofNat', pow_succ', hsplit]
    omega

theorem leNat_leBytes_of_lt {w n : ℕ} (h : n < 256 ^ w) : leNat (leBytes w n) = n := by
  rw [leNat_leBytes, Nat.mod_eq_of_lt h]

theorem leBytes_leNat (bs : Bytes) : leBytes bs.length (leNat bs) = bs := by
  induction bs with
  | nil => rfl
  | cons b bs ih =>
    have hb := b.toNat_lt
    have hdiv : (b.toNat + 256 * leNat bs) / 256 = leNat bs := by omega
    have hmod : UInt8.ofNat (b.toNat + 256 * leNat bs) = b := by
      apply UInt8.toNat_inj.mp
      rw [UInt8.toNat_ofNat']
      omega
    simp only [List.length_cons, leBytes, leNat, hdiv, hmod, ih]

theorem Bytes32.leNat_injective {a b : Bytes32} (h : leNat a.val = leNat b.val) : a = b := by
  have ha := leBytes_leNat a.val
  have hb := leBytes_leNat b.val
  rw [Bytes32.length_val] at ha hb
  exact Subtype.ext (ha.symm.trans ((congrArg (leBytes 32) h).trans hb))

/-- `u64::to_le_bytes`. -/
def u64LeBytes (x : UInt64) : Bytes := leBytes 8 x.toNat

/-- `u64::from_le_bytes`; only strings of eight bytes are ever passed. -/
def u64FromLeBytes (b : Bytes) : UInt64 := UInt64.ofNat (leNat b)

@[simp] theorem length_u64LeBytes (x : UInt64) : (u64LeBytes x).length = 8 :=
  length_leBytes _ _

@[simp] theorem u64FromLeBytes_u64LeBytes (x : UInt64) : u64FromLeBytes (u64LeBytes x) = x := by
  apply UInt64.toNat_inj.mp
  have hx := x.toNat_lt
  rw [u64FromLeBytes, u64LeBytes, leNat_leBytes, UInt64.toNat_ofNat']
  omega

theorem u64LeBytes_u64FromLeBytes {b : Bytes} (h : b.length = 8) :
    u64LeBytes (u64FromLeBytes b) = b := by
  have hb := leNat_lt b
  rw [h] at hb
  rw [u64LeBytes, u64FromLeBytes, UInt64.toNat_ofNat', Nat.mod_eq_of_lt (by omega)]
  rw [← h]
  exact leBytes_leNat b

/-! ## Chunks -/

/-- The full chunks of `k` elements, in order; a shorter rest is dropped (`chunks_exact`). -/
def chunksExact {α : Type*} (k : ℕ) (l : List α) : List (List α) :=
  (List.range (l.length / k)).map fun i => (l.drop (i * k)).take k

@[simp] theorem chunksExact_nil {α : Type*} (k : ℕ) : chunksExact k ([] : List α) = [] := by
  simp [chunksExact]

theorem chunksExact_append {α : Type*} {k : ℕ} (hk : 0 < k) {a : List α} (ha : a.length = k)
    (b : List α) : chunksExact k (a ++ b) = a :: chunksExact k b := by
  have hdiv : (a ++ b).length / k = b.length / k + 1 := by
    rw [List.length_append, ha, Nat.add_div_left _ hk]
  unfold chunksExact
  rw [hdiv, List.range_succ_eq_map, List.map_cons, List.map_map]
  congr 1
  · simp [← ha]
  · apply List.map_congr_left
    intro i _
    have hi : (i + 1) * k = a.length + i * k := by rw [ha]; ring
    simp only [Function.comp_apply, hi, ← List.drop_drop, List.drop_left]

/-- Cutting a concatenation of pieces of length `k` gives the pieces back. -/
theorem chunksExact_flatten {α : Type*} {k : ℕ} (hk : 0 < k) {ls : List (List α)}
    (h : ∀ l ∈ ls, l.length = k) : chunksExact k ls.flatten = ls := by
  induction ls with
  | nil => simp
  | cons a ls ih =>
    rw [List.flatten_cons, chunksExact_append hk (h a (by simp))]
    rw [ih fun l hl => h l (by simp [hl])]

theorem length_of_mem_chunksExact {α : Type*} {k : ℕ} {l c : List α}
    (h : c ∈ chunksExact k l) : c.length = k := by
  obtain ⟨i, hi, rfl⟩ := List.mem_map.mp h
  rw [List.mem_range] at hi
  have hle : (i + 1) * k ≤ l.length :=
    le_trans (Nat.mul_le_mul_right k hi) (Nat.div_mul_le_self _ _)
  have hring : (i + 1) * k = i * k + k := by ring
  simp only [List.length_take, List.length_drop]
  omega

@[simp] theorem length_chunksExact {α : Type*} (k : ℕ) (l : List α) :
    (chunksExact k l).length = l.length / k := by
  simp [chunksExact]

/-- A string of a whole number of chunks is the concatenation of its chunks. -/
theorem flatten_chunksExact {α : Type*} {k : ℕ} (hk : 0 < k) {l : List α} (h : k ∣ l.length) :
    (chunksExact k l).flatten = l := by
  obtain ⟨n, hn⟩ := h
  induction n generalizing l with
  | zero =>
    have hl : l = [] := List.length_eq_zero_iff.mp (by simpa using hn)
    simp [hl]
  | succ n ih =>
    have hlen : (l.take k).length = k := by
      rw [List.length_take, hn]
      exact min_eq_left (Nat.le_mul_of_pos_right k n.succ_pos)
    have hdrop : (l.drop k).length = k * n := by
      rw [List.length_drop, hn, Nat.mul_succ, Nat.add_sub_cancel]
    have hsplit := chunksExact_append hk hlen (l.drop k)
    rw [List.take_append_drop] at hsplit
    rw [hsplit, List.flatten_cons, ih hdrop, List.take_append_drop]

/-! ## Fallible maps -/

/-- `iter().map(f).collect::<Option<Vec<_>>>()`. -/
def collect {α β : Type*} (f : α → Option β) : List α → Option (List β)
  | [] => some []
  | a :: l => (f a).bind fun b => (collect f l).map (b :: ·)

theorem collect_eq_some_iff {α β : Type*} {f : α → Option β} {l : List α} {r : List β} :
    collect f l = some r ↔ l.map f = r.map some := by
  induction l generalizing r with
  | nil => cases r <;> simp [collect]
  | cons a l ih =>
    cases r with
    | nil => simp [collect, Option.bind_eq_some_iff]
    | cons b r =>
      simp only [collect, Option.bind_eq_some_iff, Option.map_eq_some_iff, List.cons.injEq,
        List.map_cons, ← ih]
      constructor
      · rintro ⟨b', hb, r', hr, rfl, rfl⟩
        exact ⟨hb, hr⟩
      · rintro ⟨hb, hr⟩
        exact ⟨b, hb, r, hr, rfl, rfl⟩

theorem collect_map {α β γ : Type*} (f : β → Option γ) (g : α → β) (l : List α) :
    collect f (l.map g) = collect (f ∘ g) l := by
  induction l with
  | nil => rfl
  | cons a l ih => simp [collect, ih]

/-- `collect` succeeds when every element does. -/
theorem collect_eq_some_map {α β : Type*} {f : α → Option β} {g : α → β} {l : List α}
    (h : ∀ a ∈ l, f a = some (g a)) : collect f l = some (l.map g) := by
  rw [collect_eq_some_iff, List.map_map]
  exact List.map_congr_left h

/-- Collecting pairs is collecting each side. -/
theorem unzip_collect_eq_some {α β γ : Type*} {f : α → Option β} {g : α → Option γ} {l : List α}
    {xs : List β} {ys : List γ} :
    (collect (fun a => (f a).bind fun x => (g a).map fun y => (x, y)) l).map List.unzip =
      some (xs, ys) ↔ collect f l = some xs ∧ collect g l = some ys := by
  induction l generalizing xs ys with
  | nil => simp [collect, Prod.ext_iff, eq_comm]
  | cons a l ih =>
    rcases hf : f a with _ | x
    · simp [collect, hf]
    rcases hg : g a with _ | y
    · simp [collect, hf, hg]
    simp only [collect, hf, hg, Option.map_some, Option.bind_some, Option.map_map]
    simp only [Option.map_eq_some_iff] at ih ⊢
    constructor
    · rintro ⟨ps, hps, heq⟩
      rw [Function.comp_apply, List.unzip_cons, Prod.mk.injEq] at heq
      obtain ⟨hxs, hys⟩ := ih.mp ⟨ps, hps, rfl⟩
      exact ⟨⟨_, hxs, heq.1⟩, _, hys, heq.2⟩
    · rintro ⟨⟨xs', hxs, rfl⟩, ys', hys, rfl⟩
      obtain ⟨ps, hps, heq⟩ := ih.mpr ⟨hxs, hys⟩
      refine ⟨ps, hps, ?_⟩
      rw [Function.comp_apply, List.unzip_cons, heq]

theorem exists_collect {α β : Type*} {f : α → Option β} {l : List α}
    (h : ∀ a ∈ l, ∃ b, f a = some b) : ∃ r, collect f l = some r := by
  induction l with
  | nil => exact ⟨[], rfl⟩
  | cons a l ih =>
    obtain ⟨b, hb⟩ := h a List.mem_cons_self
    obtain ⟨r, hr⟩ := ih fun a ha => h a (List.mem_cons_of_mem _ ha)
    exact ⟨b :: r, by rw [collect, hb, hr]; rfl⟩

theorem getElem?_of_collect {α β : Type*} {f : α → Option β} {l : List α} {r : List β}
    (h : collect f l = some r) {i : ℕ} {a : α} (ha : l[i]? = some a) :
    ∃ b, r[i]? = some b ∧ f a = some b := by
  have hi := congrArg (·[i]?) (collect_eq_some_iff.mp h)
  simp only [List.getElem?_map, ha, Option.map_some] at hi
  obtain ⟨b, hb, hfb⟩ := Option.map_eq_some_iff.mp hi.symm
  exact ⟨b, hb, hfb.symm⟩

theorem length_of_collect {α β : Type*} {f : α → Option β} {l : List α} {r : List β}
    (h : collect f l = some r) : r.length = l.length := by
  have hl := congrArg List.length (collect_eq_some_iff.mp h)
  simpa using hl.symm

/-- If every element is the encoding of what it gives, the encodings of a `collect` are the list. -/
theorem map_of_collect {α β : Type*} {f : α → Option β} {enc : β → α} {l : List α} {r : List β}
    (henc : ∀ a ∈ l, ∀ b, f a = some b → enc b = a) (h : collect f l = some r) : r.map enc = l := by
  induction l generalizing r with
  | nil =>
    cases h
    rfl
  | cons a l ih =>
    rw [collect, Option.bind_eq_some_iff] at h
    obtain ⟨b, hb, h⟩ := h
    rw [Option.map_eq_some_iff] at h
    obtain ⟨r', hr, rfl⟩ := h
    rw [List.map_cons, henc a List.mem_cons_self b hb,
      ih (fun c hc => henc c (List.mem_cons_of_mem _ hc)) hr]

/-- A string whose chunks are the encodings of what they parse to is their concatenation. -/
theorem flatMap_of_collect_chunksExact {α β : Type*} {k : ℕ} {f : List α → Option β}
    {enc : β → List α} {l : List α} {r : List β} (hk : 0 < k) (hdvd : k ∣ l.length)
    (henc : ∀ c b, c.length = k → f c = some b → enc b = c)
    (h : collect f (chunksExact k l) = some r) : r.flatMap enc = l := by
  have hmap := map_of_collect (fun c hc b => henc c b (length_of_mem_chunksExact hc)) h
  rw [List.flatMap_def, hmap, flatten_chunksExact hk hdvd]

/-- Every element of a successful `collect` succeeds. -/
theorem exists_of_collect {α β : Type*} {f : α → Option β} {l : List α} {r : List β}
    (h : collect f l = some r) {a : α} (ha : a ∈ l) : ∃ b ∈ r, f a = some b := by
  have hm : f a ∈ r.map some := by
    rw [← collect_eq_some_iff.mp h]
    exact List.mem_map_of_mem ha
  obtain ⟨b, hb, hfb⟩ := List.mem_map.mp hm
  exact ⟨b, hb, hfb.symm⟩

theorem ok_bind {ε α β : Type} (a : α) (f : α → Except ε β) : (Except.ok a >>= f) = f a := rfl

/-- `for x in xs { out.push(f(x)?) }`: stop at the first error. -/
def tryMap {ε α β : Type*} (f : α → Except ε β) : List α → Except ε (List β)
  | [] => .ok []
  | a :: l =>
    match f a with
    | .error e => .error e
    | .ok b => (tryMap f l).map (b :: ·)

/-- `tryMap` succeeds when every element does. -/
theorem tryMap_eq_ok {ε α β : Type*} {f : α → Except ε β} {g : α → β} {l : List α}
    (h : ∀ a ∈ l, f a = .ok (g a)) : tryMap f l = .ok (l.map g) := by
  induction l with
  | nil => rfl
  | cons a l ih =>
    rw [tryMap, h a List.mem_cons_self, ih fun a ha => h a (List.mem_cons_of_mem _ ha)]
    rfl

theorem tryMap_map {ε α β γ : Type*} (f : β → Except ε γ) (g : α → β) (l : List α) :
    tryMap f (l.map g) = tryMap (f ∘ g) l := by
  induction l with
  | nil => rfl
  | cons a l ih => rw [List.map_cons, tryMap, tryMap, ih, Function.comp_apply]

/-- The results of a `tryMap` whose elements all succeed, one by one. -/
theorem exists_tryMap {ε α β : Type*} {f : α → Except ε β} {P : α → β → Prop} {l : List α}
    (h : ∀ a ∈ l, ∃ b, f a = .ok b ∧ P a b) : ∃ r, tryMap f l = .ok r ∧ List.Forall₂ P l r := by
  induction l with
  | nil => exact ⟨[], rfl, .nil⟩
  | cons a l ih =>
    obtain ⟨b, hb, hP⟩ := h a List.mem_cons_self
    obtain ⟨r, hr, hall⟩ := ih fun a ha => h a (List.mem_cons_of_mem _ ha)
    exact ⟨b :: r, by rw [tryMap, hb, hr]; rfl, .cons hP hall⟩

/-- What a `tryMap` that succeeds returns, one by one. -/
theorem forall₂_of_tryMap {ε α β : Type*} {f : α → Except ε β} {l : List α} {r : List β}
    (h : tryMap f l = .ok r) : List.Forall₂ (fun a b => f a = .ok b) l r := by
  induction l generalizing r with
  | nil =>
    cases h
    exact .nil
  | cons a l ih =>
    rw [tryMap] at h
    split at h
    · cases h
    · next b hb =>
      cases hl : tryMap f l with
      | error e =>
        rw [hl] at h
        cases h
      | ok r' =>
        rw [hl] at h
        cases h
        exact .cons hb (ih hl)

theorem exists_of_tryMap_error {ε α β : Type*} {f : α → Except ε β} {l : List α} {e : ε}
    (h : tryMap f l = .error e) : ∃ a ∈ l, f a = .error e := by
  induction l with
  | nil => cases h
  | cons a l ih =>
    rw [tryMap] at h
    split at h
    · next e' he' =>
      cases h
      exact ⟨a, List.mem_cons_self, he'⟩
    · cases hl : tryMap f l with
      | ok r =>
        rw [hl] at h
        cases h
      | error e' =>
        rw [hl] at h
        cases h
        obtain ⟨a', ha', hf⟩ := ih hl
        exact ⟨a', List.mem_cons_of_mem _ ha', hf⟩

theorem map_eq_of_forall₂ {α β γ : Type*} {P : α → β → Prop} {f : α → γ} {g : β → γ} {l : List α}
    {r : List β} (h : List.Forall₂ P l r) (hfg : ∀ a b, P a b → g b = f a) : r.map g = l.map f := by
  induction h with
  | nil => rfl
  | cons hP _ ih => rw [List.map_cons, List.map_cons, hfg _ _ hP, ih]

theorem exists_of_forall₂ {α β : Type*} {P : α → β → Prop} {l : List α} {r : List β}
    (h : List.Forall₂ P l r) {b : β} (hb : b ∈ r) : ∃ a ∈ l, P a b := by
  induction h with
  | nil => exact absurd hb List.not_mem_nil
  | cons hP _ ih =>
    rcases List.mem_cons.mp hb with rfl | hb
    · exact ⟨_, List.mem_cons_self, hP⟩
    · obtain ⟨a, ha, hPa⟩ := ih hb
      exact ⟨a, List.mem_cons_of_mem _ ha, hPa⟩

theorem getElem?_of_forall₂ {α β : Type*} {P : α → β → Prop} {l : List α} {r : List β}
    (h : List.Forall₂ P l r) {k : ℕ} {a : α} (hk : l[k]? = some a) : ∃ b, r[k]? = some b ∧ P a b := by
  induction h generalizing k with
  | nil => cases hk
  | cons hP _ ih =>
    cases k with
    | zero =>
      cases hk
      exact ⟨_, rfl, hP⟩
    | succ k => exact ih hk

/-- Choosing a partner for every element. -/
theorem exists_forall₂ {α β : Type*} {P : α → β → Prop} {l : List α} (h : ∀ a ∈ l, ∃ b, P a b) :
    ∃ r, List.Forall₂ P l r := by
  induction l with
  | nil => exact ⟨[], .nil⟩
  | cons a l ih =>
    obtain ⟨b, hb⟩ := h a List.mem_cons_self
    obtain ⟨r, hr⟩ := ih fun a ha => h a (List.mem_cons_of_mem _ ha)
    exact ⟨b :: r, .cons hb hr⟩

/-- If an element has at most one partner up to `f`, and `f` separates the partners, then no element
is taken twice. -/
theorem nodup_of_forall₂ {α β γ : Type*} {P : α → β → Prop} {f : α → γ} {l : List α} {r : List β}
    (h : List.Forall₂ P l r) (hf : ∀ a a' b, P a b → P a' b → f a = f a')
    (hnodup : (l.map f).Nodup) : r.Nodup := by
  induction h with
  | nil => exact List.nodup_nil
  | @cons a b l r hP hall ih =>
    rw [List.map_cons, List.nodup_cons] at hnodup
    refine List.nodup_cons.mpr ⟨fun hb => hnodup.1 ?_, ih hnodup.2⟩
    obtain ⟨a', ha', hP'⟩ := exists_of_forall₂ hall hb
    rw [hf a a' b hP hP']
    exact List.mem_map_of_mem ha'

/-! ## Windows -/

/-- `windows(2).all(..)`: the relation holds between all neighbours. -/
def windowsAll {α : Type*} (p : α → α → Bool) (l : List α) : Bool :=
  (l.zip l.tail).all fun w => p w.1 w.2

theorem windowsAll_iff_isChain {α : Type*} {p : α → α → Bool} {l : List α} :
    windowsAll p l = true ↔ l.IsChain (p · ·) := by
  induction l with
  | nil => simp [windowsAll]
  | cons a l ih =>
    cases l with
    | nil => simp [windowsAll]
    | cons b l =>
      rw [List.isChain_cons_cons, ← ih]
      simp [windowsAll]

/-- Under a transitive relation the neighbours decide about all pairs. -/
theorem windowsAll_iff_pairwise {α : Type*} {p : α → α → Bool}
    (htrans : ∀ a b c, p a b = true → p b c = true → p a c = true) {l : List α} :
    windowsAll p l = true ↔ l.Pairwise (p · ·) := by
  rw [windowsAll_iff_isChain]
  have : IsTrans α (p · ·) := ⟨htrans⟩
  exact List.isChain_iff_pairwise

end ByteLib
