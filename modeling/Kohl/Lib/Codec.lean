import Kohl.Lib.Delimited

/-!
# Exact decoders

A decoder reads a value off the front of the input and returns what is left; decoders of records are
written one field after the other. A decoder is exact when it accepts the encodings of valid values,
whatever follows them, and nothing else. Exact decoders compose: the fields of a record, vectors,
vectors of bounded length and options.

* `Exact.bind_iff`: what a record decoder has read, one field at a time.
* `Exact.vec`, `Exact.boundedVec`, `Exact.option`: the composed decoders are exact.
* `Exact.selfDelimiting`: an encoding with an exact decoder says where it ends.
-/

namespace Scale

open ByteLib

abbrev Decoder (α : Type) := StateT Bytes Option α

/-- The decoder accepts the encodings of valid values, leaves what follows them, and accepts nothing
else. -/
def Exact {α : Type} (valid : α → Prop) (enc : α → Bytes) (dec : Decoder α) : Prop :=
  ∀ b a rest, dec b = some (a, rest) ↔ valid a ∧ b = enc a ++ rest

/-- Every value is valid. -/
def always {α : Type} (_ : α) : Prop := True

/-! ## Decoders -/

def fail {α : Type} : Decoder α := fun _ => none

/-- `u8::decode`. -/
def decodeU8 : Decoder UInt8
  | [] => none
  | b :: rest => some (b, rest)

/-- `u32::decode`, as a number. -/
def decodeU32 : Decoder ℕ := fun b =>
  if b.length < 4 then none else some (leNat (b.take 4), b.drop 4)

def encodeBool (x : Bool) : Bytes := if x then [1] else [0]

/-- `bool::decode`: any byte but zero and one is refused. -/
def decodeBool : Decoder Bool := do
  let b ← decodeU8
  if b = 0 then return false else if b = 1 then return true else fail

def encodeOption {α : Type} (enc : α → Bytes) : Option α → Bytes
  | none => [0]
  | some a => 1 :: enc a

/-- `Option::<T>::decode`. -/
def decodeOption {α : Type} (dec : Decoder α) : Decoder (Option α) := do
  let b ← decodeU8
  if b = 0 then return none else if b = 1 then return some (← dec) else fail

/-- `n` elements, one after the other. -/
def decodeMany {α : Type} (dec : Decoder α) : ℕ → Decoder (List α)
  | 0 => return []
  | n + 1 => do
    let a ← dec
    let as ← decodeMany dec n
    return a :: as

/-- `Vec::<T>::decode`. -/
def decodeVec {α : Type} (dec : Decoder α) : Decoder (List α) := do
  let n ← decodeCompactU32
  decodeMany dec n

/-- `BoundedVec::<T, N>::decode`: the length is checked before an element is read. -/
def decodeBoundedVec {α : Type} (max : ℕ) (dec : Decoder α) : Decoder (BoundedVec α max) := do
  let n ← decodeCompactU32
  if max < n then fail
  else
    let as ← decodeMany dec n
    if h : as.length ≤ max then return ⟨as, h⟩ else fail

/-! ## What a decoder has read -/

namespace Exact

variable {α β : Type} {valid : α → Prop} {enc : α → Bytes} {dec : Decoder α}

/-- The decoder reads an encoding back. -/
theorem decode_encode (h : Exact valid enc dec) {a : α} (ha : valid a) (rest : Bytes) :
    dec (enc a ++ rest) = some (a, rest) := (h _ _ _).mpr ⟨ha, rfl⟩

/-- A record decoder has read its first field, and goes on behind it. -/
theorem bind_iff (h : Exact valid enc dec) {k : α → Decoder β} {b : Bytes} {r : β × Bytes} :
    (dec >>= k) b = some r ↔ ∃ a rest, (valid a ∧ b = enc a ++ rest) ∧ k a rest = some r := by
  show (dec b).bind (fun x => k x.1 x.2) = some r ↔ _
  rw [Option.bind_eq_some_iff]
  constructor
  · rintro ⟨⟨a, rest⟩, hdec, hk⟩
    exact ⟨a, rest, (h b a rest).mp hdec, hk⟩
  · rintro ⟨a, rest, hread, hk⟩
    exact ⟨(a, rest), (h b a rest).mpr hread, hk⟩

/-- What follows an encoding is determined by the bytes, and so is what was encoded. -/
theorem inj (h : Exact valid enc dec) {a a' : α} (ha : valid a) (ha' : valid a') {r s : Bytes}
    (heq : enc a ++ r = enc a' ++ s) : a = a' ∧ r = s := by
  have hleft := h.decode_encode ha r
  rw [heq, h.decode_encode ha' s, Option.some.injEq, Prod.mk.injEq] at hleft
  exact ⟨hleft.1.symm, hleft.2.symm⟩

/-- An encoding with an exact decoder for all values is self-delimiting. -/
theorem selfDelimiting (h : Exact always enc dec) : SelfDelimiting enc := by
  intro a a' r s heq
  exact h.inj trivial trivial heq

/-- A decoder that is exact for fewer values. -/
theorem of_iff {valid' : α → Prop} {enc' : α → Bytes} (h : Exact valid enc dec)
    (hvalid : ∀ a, valid' a ↔ valid a) (henc : ∀ a, enc' a = enc a) : Exact valid' enc' dec := by
  intro b a rest
  rw [hvalid, henc]
  exact h b a rest

end Exact

@[simp] theorem pure_run {α : Type} (a : α) (b : Bytes) (r : α × Bytes) :
    ((pure a : Decoder α) b = some r) ↔ (a, b) = r := by
  show some (a, b) = some r ↔ _
  rw [Option.some.injEq]

/-! ## Fixed-width values -/

theorem exact_u8 : Exact always (fun x => [x]) decodeU8 := by
  intro b a rest
  cases b with
  | nil =>
    constructor
    · intro h
      cases h
    · rintro ⟨-, h⟩
      cases h
  | cons x xs =>
    show some (x, xs) = some (a, rest) ↔ _
    simp only [always, Option.some.injEq, Prod.mk.injEq, true_and, List.singleton_append,
      List.cons.injEq]

theorem exact_array32 : Exact always (Subtype.val : Bytes32 → Bytes) decodeArray32 := by
  intro b a rest
  show (Bytes32.ofBytes (b.take 32)).map _ = some (a, rest) ↔ _
  rw [Option.map_eq_some_iff]
  constructor
  · rintro ⟨a', ha', heq⟩
    rw [Prod.mk.injEq] at heq
    obtain ⟨rfl, rfl⟩ := heq
    rw [Bytes32.ofBytes_eq_some.mp ha', List.take_append_drop]
    exact ⟨trivial, rfl⟩
  · rintro ⟨-, rfl⟩
    have hlen := a.property
    refine ⟨a, Bytes32.ofBytes_eq_some.mpr ?_, ?_⟩
    · rw [List.take_left' hlen]
    · rw [List.drop_left' hlen]

/-- A value of a fixed width, read off as many bytes. -/
theorem exact_fixed {α : Type} {w : ℕ} {valid : α → Prop} {enc : α → Bytes} {read : Bytes → α}
    (hlen : ∀ a, (enc a).length = w)
    (hread : ∀ c, c.length = w → valid (read c) ∧ enc (read c) = c)
    (hback : ∀ a, valid a → read (enc a) = a) :
    Exact valid enc fun b => if b.length < w then none else some (read (b.take w), b.drop w) := by
  intro b a rest
  dsimp only
  split
  · next hshort =>
    constructor
    · intro h
      cases h
    · rintro ⟨-, rfl⟩
      rw [List.length_append, hlen] at hshort
      omega
  · next hlong =>
    rw [Option.some.injEq, Prod.mk.injEq]
    constructor
    · rintro ⟨rfl, rfl⟩
      obtain ⟨hvalid, henc⟩ := hread (b.take w) (by rw [List.length_take]; omega)
      rw [henc, List.take_append_drop]
      exact ⟨hvalid, rfl⟩
    · rintro ⟨hvalid, rfl⟩
      rw [List.take_left' (hlen a), List.drop_left' (hlen a)]
      exact ⟨hback a hvalid, rfl⟩

theorem exact_u64 : Exact always u64LeBytes decodeU64 :=
  exact_fixed length_u64LeBytes (fun _ hc => ⟨trivial, u64LeBytes_u64FromLeBytes hc⟩)
    fun a _ => u64FromLeBytes_u64LeBytes a

theorem exact_u32 : Exact (fun n => n < 2 ^ 32) (leBytes 4) decodeU32 := by
  refine exact_fixed (length_leBytes 4) (fun c hc => ?_) fun a ha => leNat_leBytes_of_lt ha
  have hlt := leNat_lt c
  have hback := leBytes_leNat c
  rw [hc] at hlt hback
  exact ⟨hlt, hback⟩

theorem exact_bool : Exact always encodeBool decodeBool := by
  intro b a rest
  unfold decodeBool
  rw [exact_u8.bind_iff]
  constructor
  · rintro ⟨x, rest', ⟨-, rfl⟩, h⟩
    split at h
    · next hx =>
      rw [pure_run, Prod.mk.injEq] at h
      obtain ⟨rfl, rfl⟩ := h
      rw [hx]
      exact ⟨trivial, rfl⟩
    split at h
    · next hx =>
      rw [pure_run, Prod.mk.injEq] at h
      obtain ⟨rfl, rfl⟩ := h
      rw [hx]
      exact ⟨trivial, rfl⟩
    · cases h
  · rintro ⟨-, rfl⟩
    cases a with
    | false => exact ⟨0, rest, ⟨trivial, rfl⟩, rfl⟩
    | true => exact ⟨1, rest, ⟨trivial, rfl⟩, rfl⟩

/-! ## Composed values -/

/-- A little-endian number with its two low bits apart. -/
theorem leBytes_quarter {c : Bytes} {w m : ℕ} (hc : c.length = w) (hm : leNat c % 4 = m) :
    leBytes w (4 * (leNat c / 4) + m) = c := by
  have hsplit : 4 * (leNat c / 4) + m = leNat c := by omega
  rw [hsplit, ← hc]
  exact leBytes_leNat c

theorem leNat_cons_mod_four (x : UInt8) (c : Bytes) : leNat (x :: c) % 4 = x.toNat % 4 := by
  rw [leNat]
  omega

/-- The form with `k` bytes behind the first one: the number is what they hold, and no shorter form
holds it. -/
theorem compact_form {x : UInt8} {xs : Bytes} {k m : ℕ} (hlen : k ≤ xs.length)
    (hm : x.toNat % 4 = m) :
    x :: xs = leBytes (k + 1) (4 * (leNat (x :: xs.take k) / 4) + m) ++ xs.drop k ∧
      leNat (x :: xs.take k) < 256 ^ (k + 1) := by
  have htake : (x :: xs.take k).length = k + 1 := by
    rw [List.length_cons, List.length_take, Nat.min_eq_left hlen]
  have hlt := leNat_lt (x :: xs.take k)
  rw [htake] at hlt
  refine ⟨?_, hlt⟩
  rw [leBytes_quarter htake ((leNat_cons_mod_four x _).trans hm), List.cons_append,
    List.take_append_drop]

/-- The compact form is read back, and longer forms of small numbers are refused. -/
theorem exact_compactU32 : Exact (fun n => n < 2 ^ 32) compactU32 decodeCompactU32 := by
  intro b n rest
  constructor
  · intro h
    cases b with
    | nil => cases h
    | cons x xs =>
    rw [decodeCompactU32] at h
    split at h
    · -- one byte
      next hmode =>
      cases h
      obtain ⟨hform, hlt⟩ := compact_form (Nat.zero_le rest.length) hmode
      rw [List.take_zero, List.drop_zero] at hform
      have hx : leNat [x] = x.toNat := by
        rw [leNat, leNat]
        omega
      rw [List.take_zero] at hlt
      rw [hx] at hform hlt
      refine ⟨by omega, ?_⟩
      rw [compactU32, if_pos (by omega)]
      exact hform
    · -- two bytes
      next hmode =>
      dsimp only at h
      split at h
      · next hok =>
        cases h
        obtain ⟨hform, hlt⟩ := compact_form hok.1 hmode
        refine ⟨by omega, ?_⟩
        rw [compactU32, if_neg (by omega), if_pos (by omega)]
        exact hform
      · cases h
    · -- four bytes
      next hmode =>
      dsimp only at h
      split at h
      · next hok =>
        cases h
        obtain ⟨hform, hlt⟩ := compact_form hok.1 hmode
        refine ⟨by omega, ?_⟩
        rw [compactU32, if_neg (by omega), if_neg (by omega), if_pos (by omega)]
        exact hform
      · cases h
    · -- the big-integer form
      next h0 h1 h2 =>
      have hmode : x.toNat % 4 ≠ 0 ∧ x.toNat % 4 ≠ 1 ∧ x.toNat % 4 ≠ 2 := ⟨h0, h1, h2⟩
      dsimp only at h
      split at h
      · next hok =>
        cases h
        have htake : (xs.take 4).length = 4 := by
          rw [List.length_take]
          omega
        have hlt := leNat_lt (xs.take 4)
        have hback := leBytes_leNat (xs.take 4)
        rw [htake] at hlt hback
        have hx : x = 3 := by
          apply UInt8.toNat_inj.mp
          show x.toNat = 3
          omega
        refine ⟨hlt, ?_⟩
        rw [compactU32, if_neg (by omega), if_neg (by omega), if_neg (by omega), hback, hx,
          List.cons_append, List.take_append_drop]
      · cases h
  · rintro ⟨hn, rfl⟩
    exact decodeCompactU32_compactU32 hn rest

namespace Exact

variable {α : Type} {valid : α → Prop} {enc : α → Bytes} {dec : Decoder α}

theorem option (h : Exact valid enc dec) :
    Exact (fun o => ∀ a ∈ o, valid a) (encodeOption enc) (decodeOption dec) := by
  intro b o rest
  unfold decodeOption
  rw [exact_u8.bind_iff]
  constructor
  · rintro ⟨x, rest', ⟨-, rfl⟩, hread⟩
    split at hread
    · next hx =>
      rw [pure_run, Prod.mk.injEq] at hread
      obtain ⟨rfl, rfl⟩ := hread
      rw [hx]
      refine ⟨fun a ha => ?_, rfl⟩
      cases ha
    split at hread
    · next hx =>
      rw [h.bind_iff] at hread
      obtain ⟨a, rest'', ⟨ha, rfl⟩, hread⟩ := hread
      rw [pure_run, Prod.mk.injEq] at hread
      obtain ⟨rfl, rfl⟩ := hread
      rw [hx]
      refine ⟨fun a' ha' => ?_, rfl⟩
      cases ha'
      exact ha
    · cases hread
  · rintro ⟨hvalid, rfl⟩
    cases o with
    | none => exact ⟨0, rest, ⟨trivial, rfl⟩, rfl⟩
    | some a =>
      refine ⟨1, enc a ++ rest, ⟨trivial, rfl⟩, ?_⟩
      rw [if_neg (by decide), if_pos rfl, h.bind_iff]
      exact ⟨a, rest, ⟨hvalid a rfl, rfl⟩, rfl⟩

/-- As many elements as asked for. -/
theorem many (h : Exact valid enc dec) (n : ℕ) :
    Exact (fun as => as.length = n ∧ ∀ a ∈ as, valid a) (List.flatMap enc) (decodeMany dec n) := by
  induction n with
  | zero =>
    intro b as rest
    rw [decodeMany, pure_run, Prod.mk.injEq]
    constructor
    · rintro ⟨rfl, rfl⟩
      exact ⟨⟨rfl, fun a ha => absurd ha List.not_mem_nil⟩, rfl⟩
    · rintro ⟨⟨hlen, -⟩, rfl⟩
      rw [List.length_eq_zero_iff.mp hlen]
      exact ⟨rfl, rfl⟩
  | succ n ih =>
    intro b as rest
    rw [decodeMany, h.bind_iff]
    constructor
    · rintro ⟨a, rest₁, ⟨ha, rfl⟩, hread⟩
      rw [ih.bind_iff] at hread
      obtain ⟨as', rest₂, ⟨⟨hlen, has'⟩, rfl⟩, hread⟩ := hread
      rw [pure_run, Prod.mk.injEq] at hread
      obtain ⟨rfl, rfl⟩ := hread
      refine ⟨⟨congrArg Nat.succ hlen, List.forall_mem_cons.mpr ⟨ha, has'⟩⟩, ?_⟩
      rw [List.flatMap_cons, List.append_assoc]
    · rintro ⟨⟨hlen, has⟩, rfl⟩
      cases as with
      | nil => cases hlen
      | cons a as =>
        rw [List.forall_mem_cons] at has
        refine ⟨a, as.flatMap enc ++ rest, ⟨has.1, ?_⟩, ?_⟩
        · rw [List.flatMap_cons, List.append_assoc]
        · rw [ih.bind_iff]
          exact ⟨as, rest, ⟨⟨Nat.succ.inj hlen, has.2⟩, rfl⟩, rfl⟩

theorem vec (h : Exact valid enc dec) :
    Exact (fun as => as.length < 2 ^ 32 ∧ ∀ a ∈ as, valid a) (vec enc) (decodeVec dec) := by
  intro b as rest
  rw [decodeVec, exact_compactU32.bind_iff]
  constructor
  · rintro ⟨n, rest', ⟨hn, rfl⟩, hread⟩
    obtain ⟨⟨rfl, has⟩, rfl⟩ := (h.many n _ _ _).mp hread
    exact ⟨⟨hn, has⟩, (List.append_assoc _ _ _).symm⟩
  · rintro ⟨⟨hlen, has⟩, rfl⟩
    exact ⟨as.length, as.flatMap enc ++ rest, ⟨hlen, List.append_assoc _ _ _⟩,
      (h.many _ _ _ _).mpr ⟨⟨rfl, has⟩, rfl⟩⟩

theorem boundedVec (h : Exact valid enc dec) {m : ℕ} (hm : m < 2 ^ 32) :
    Exact (fun as : BoundedVec α m => ∀ a ∈ as.val, valid a) (fun as => Scale.vec enc as.val)
      (decodeBoundedVec m dec) := by
  intro b as rest
  rw [decodeBoundedVec, exact_compactU32.bind_iff]
  constructor
  · rintro ⟨n, rest', ⟨hn, rfl⟩, hread⟩
    split at hread
    · cases hread
    rw [(h.many n).bind_iff] at hread
    obtain ⟨as', rest'', ⟨⟨rfl, has'⟩, rfl⟩, hread⟩ := hread
    split at hread
    · rw [pure_run, Prod.mk.injEq] at hread
      obtain ⟨rfl, rfl⟩ := hread
      exact ⟨has', (List.append_assoc _ _ _).symm⟩
    · cases hread
  · rintro ⟨has, rfl⟩
    refine ⟨as.val.length, as.val.flatMap enc ++ rest,
      ⟨Nat.lt_of_le_of_lt as.property hm, List.append_assoc _ _ _⟩, ?_⟩
    rw [if_neg (Nat.not_lt.mpr as.property), (h.many _).bind_iff]
    exact ⟨as.val, rest, ⟨⟨rfl, has⟩, rfl⟩, by rw [dif_pos as.property]; rfl⟩

end Exact

end Scale
