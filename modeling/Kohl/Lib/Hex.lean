import Kohl.Lib.Bytes

/-!
# Hexadecimal text

Text is its UTF-8 bytes. Bytes are written as two lower-case digits each and read back from digits of
either case; `stripAll` removes patterns from the front of a text as often as they stand there.

* `decode_eq_ok`: what is read back is the text, up to the case of its digits.
* `fromStrRadix16_numeral`: a number is read back from its digits.
* `stripAll_flatten`, `exists_of_stripAll`: what is removed is a run of patterns, and all of it.
-/

namespace Hex

open ByteLib

/-! ## Digits -/

/-- The lower-case digit of a number below sixteen. -/
def digit (n : ℕ) : UInt8 := UInt8.ofNat (if n < 10 then 48 + n else 87 + n)

/-- `hex::encode`. -/
def encode (b : Bytes) : Bytes := b.flatMap fun x => [digit (x.toNat / 16), digit (x.toNat % 16)]

inductive FromHexError
  | oddLength
  | invalidHexCharacter (c : UInt8) (index : ℕ)
deriving DecidableEq, Repr

/-- The value of a digit of either case. -/
def val (c : UInt8) (index : ℕ) : Except FromHexError ℕ :=
  if 65 ≤ c.toNat ∧ c.toNat ≤ 70 then .ok (c.toNat - 55)
  else if 97 ≤ c.toNat ∧ c.toNat ≤ 102 then .ok (c.toNat - 87)
  else if 48 ≤ c.toNat ∧ c.toNat ≤ 57 then .ok (c.toNat - 48)
  else .error (.invalidHexCharacter c index)

/-- The bytes of the pairs of digits, the first of which has the given index. -/
def decodePairs : ℕ → Bytes → Except FromHexError Bytes
  | i, hi :: lo :: rest => do
    let h ← val hi i
    let l ← val lo (i + 1)
    let bytes ← decodePairs (i + 2) rest
    .ok (UInt8.ofNat (16 * h + l) :: bytes)
  | _, _ => .ok []

/-- `hex::decode`. -/
def decode (s : Bytes) : Except FromHexError Bytes :=
  if s.length % 2 ≠ 0 then .error .oddLength else decodePairs 0 s

/-- `to_ascii_lowercase` on one byte. -/
def lower (c : UInt8) : UInt8 := if 65 ≤ c.toNat ∧ c.toNat ≤ 90 then c + 32 else c

theorem toNat_digit {n : ℕ} (h : n < 16) :
    (digit n).toNat = if n < 10 then 48 + n else 87 + n := by
  rw [digit, UInt8.toNat_ofNat']
  split <;> omega

theorem toNat_lower (c : UInt8) :
    (lower c).toNat = if 65 ≤ c.toNat ∧ c.toNat ≤ 90 then c.toNat + 32 else c.toNat := by
  unfold lower
  split
  · next hupper =>
    rw [UInt8.toNat_add]
    show (c.toNat + 32) % 256 = _
    omega
  · rfl

/-- A digit has the value of the lower-case digit it is. -/
theorem val_eq_ok {c : UInt8} {i n : ℕ} : val c i = .ok n ↔ n < 16 ∧ lower c = digit n := by
  have hc := c.toNat_lt
  have hdigit : ∀ m, m < 16 → (lower c = digit m ↔ (lower c).toNat = (digit m).toNat) :=
    fun m _ => UInt8.toNat_inj.symm
  unfold val
  split_ifs with hupper hlower hnumber
  · rw [Except.ok.injEq]
    constructor
    · rintro rfl
      refine ⟨by omega, ?_⟩
      rw [hdigit _ (by omega), toNat_lower, toNat_digit (by omega), if_pos (by omega),
        if_neg (by omega)]
      omega
    · rintro ⟨hn, heq⟩
      rw [hdigit _ hn, toNat_lower, toNat_digit hn, if_pos (by omega)] at heq
      split at heq <;> omega
  · rw [Except.ok.injEq]
    constructor
    · rintro rfl
      refine ⟨by omega, ?_⟩
      rw [hdigit _ (by omega), toNat_lower, toNat_digit (by omega), if_neg (by omega),
        if_neg (by omega)]
      omega
    · rintro ⟨hn, heq⟩
      rw [hdigit _ hn, toNat_lower, toNat_digit hn, if_neg (by omega)] at heq
      split at heq <;> omega
  · rw [Except.ok.injEq]
    constructor
    · rintro rfl
      refine ⟨by omega, ?_⟩
      rw [hdigit _ (by omega), toNat_lower, toNat_digit (by omega), if_neg (by omega),
        if_pos (by omega)]
      omega
    · rintro ⟨hn, heq⟩
      rw [hdigit _ hn, toNat_lower, toNat_digit hn, if_neg (by omega)] at heq
      split at heq <;> omega
  · constructor
    · intro h
      cases h
    · rintro ⟨hn, heq⟩
      rw [hdigit _ hn, toNat_lower, toNat_digit hn] at heq
      split at heq <;> split at heq <;> omega

/-! ## Bytes -/

theorem digits_of_byte {h l : ℕ} (hh : h < 16) (hl : l < 16) :
    (UInt8.ofNat (16 * h + l)).toNat / 16 = h ∧ (UInt8.ofNat (16 * h + l)).toNat % 16 = l := by
  rw [UInt8.toNat_ofNat']
  omega

theorem byte_of_digits (x : UInt8) : UInt8.ofNat (16 * (x.toNat / 16) + x.toNat % 16) = x := by
  rw [Nat.div_add_mod, UInt8.ofNat_toNat]

theorem encode_cons (x : UInt8) (b : Bytes) :
    encode (x :: b) = digit (x.toNat / 16) :: digit (x.toNat % 16) :: encode b := rfl

@[simp] theorem length_encode (b : Bytes) : (encode b).length = 2 * b.length := by
  induction b with
  | nil => rfl
  | cons x b ih =>
    rw [encode_cons, List.length_cons, List.length_cons, ih, List.length_cons]
    omega

theorem digit_inj {m n : ℕ} (hm : m < 16) (hn : n < 16) (h : digit m = digit n) : m = n := by
  have hnat := congrArg UInt8.toNat h
  rw [toNat_digit hm, toNat_digit hn] at hnat
  split at hnat <;> split at hnat <;> omega

theorem encode_append (a b : Bytes) : encode (a ++ b) = encode a ++ encode b :=
  List.flatMap_append

theorem encode_injective : Function.Injective encode := by
  intro a
  induction a with
  | nil =>
    intro b h
    have hlen := congrArg List.length h
    rw [length_encode, length_encode, List.length_nil] at hlen
    exact (List.length_eq_zero_iff.mp (by omega)).symm
  | cons x a ih =>
    intro b h
    cases b with
    | nil => cases h
    | cons y b =>
      rw [encode_cons, encode_cons, List.cons.injEq, List.cons.injEq] at h
      obtain ⟨hhigh, hlow, hrest⟩ := h
      have hx := x.toNat_lt
      have hy := y.toNat_lt
      have hdiv := digit_inj (by omega) (by omega) hhigh
      have hmod := digit_inj (by omega) (by omega) hlow
      have hxy : x = y := by rw [← byte_of_digits x, hdiv, hmod, byte_of_digits]
      rw [hxy, ih hrest]

theorem decodePairs_eq_ok (i : ℕ) {s b : Bytes} (hs : s.length % 2 = 0) :
    decodePairs i s = .ok b ↔ s.map lower = encode b := by
  induction i, s using decodePairs.induct generalizing b with
  | case1 i hi lo rest ih =>
    have hrest : rest.length % 2 = 0 := by
      simp only [List.length_cons] at hs
      omega
    rw [decodePairs]
    constructor
    · intro h
      cases hhi : val hi i with
      | error e =>
        rw [hhi] at h
        cases h
      | ok m =>
      cases hlo : val lo (i + 1) with
      | error e =>
        rw [hhi, hlo] at h
        cases h
      | ok n =>
      cases hbytes : decodePairs (i + 2) rest with
      | error e =>
        rw [hhi, hlo, hbytes] at h
        cases h
      | ok bytes =>
        rw [hhi, hlo, hbytes] at h
        cases h
        obtain ⟨hm, hmdigit⟩ := val_eq_ok.mp hhi
        obtain ⟨hn, hndigit⟩ := val_eq_ok.mp hlo
        obtain ⟨hdiv, hmod⟩ := digits_of_byte hm hn
        rw [encode_cons, hdiv, hmod, List.map_cons, List.map_cons, hmdigit, hndigit,
          (ih hrest).mp hbytes]
    · intro h
      cases b with
      | nil => cases h
      | cons x b =>
        rw [encode_cons, List.map_cons, List.map_cons, List.cons.injEq, List.cons.injEq] at h
        obtain ⟨hhigh, hlow, htail⟩ := h
        have hx := x.toNat_lt
        rw [@val_eq_ok hi i (x.toNat / 16) |>.mpr ⟨by omega, hhigh⟩,
          @val_eq_ok lo (i + 1) (x.toNat % 16) |>.mpr ⟨by omega, hlow⟩, (ih hrest).mpr htail]
        show Except.ok (UInt8.ofNat (16 * (x.toNat / 16) + x.toNat % 16) :: b) = _
        rw [byte_of_digits]
  | case2 s i hshort =>
    cases s with
    | nil =>
      show Except.ok [] = Except.ok b ↔ [] = encode b
      rw [Except.ok.injEq]
      constructor
      · rintro rfl
        rfl
      · intro h
        exact encode_injective h
    | cons x s =>
      cases s with
      | nil => simp at hs
      | cons y s => exact absurd rfl (hshort x y s)

/-- The bytes are read from the text that they are written as, in either case. -/
theorem decode_eq_ok {s b : Bytes} : decode s = .ok b ↔ s.map lower = encode b := by
  unfold decode
  split
  · next hodd =>
    constructor
    · intro h
      cases h
    · intro h
      have hlen := congrArg List.length h
      rw [List.length_map, length_encode] at hlen
      omega
  · next heven => exact decodePairs_eq_ok 0 (not_not.mp heven)

theorem lower_digit {n : ℕ} (h : n < 16) : lower (digit n) = digit n := by
  apply UInt8.toNat_inj.mp
  have hn := toNat_digit h
  rw [toNat_lower, if_neg]
  rw [hn]
  split <;> omega

theorem map_lower_encode (b : Bytes) : (encode b).map lower = encode b := by
  induction b with
  | nil => rfl
  | cons x b ih =>
    have hx := x.toNat_lt
    rw [encode_cons, List.map_cons, List.map_cons, ih, lower_digit (by omega),
      lower_digit (by omega)]

/-- What is written is read back. -/
theorem decode_encode (b : Bytes) : decode (encode b) = .ok b :=
  decode_eq_ok.mpr (map_lower_encode b)

/-! ## Numbers -/

/-- A number in as few digits as possible, the most significant first. -/
def numeral (n : ℕ) : Bytes :=
  if n < 16 then [digit n] else numeral (n / 16) ++ [digit (n % 16)]

/-- The digits of a `u32`, read on from `acc`. -/
def radixLoop : Bytes → ℕ → Option ℕ
  | [], acc => some acc
  | c :: cs, acc =>
    match val c 0 with
    | .error _ => none
    | .ok d => if 16 * acc + d < 2 ^ 32 then radixLoop cs (16 * acc + d) else none

/-- `u32::from_str_radix` for digits in base sixteen; a plus sign may stand in front of digits. -/
def fromStrRadix16 : Bytes → Option ℕ
  | [] => none
  | [c] => if c = 43 ∨ c = 45 then none else radixLoop [c] 0
  | c :: cs => if c = 43 then radixLoop cs 0 else radixLoop (c :: cs) 0

theorem exists_head_numeral (n : ℕ) : ∃ d t, d < 16 ∧ numeral n = digit d :: t := by
  induction n using Nat.strongRecOn with
  | ind n ih =>
    rw [numeral]
    split
    · next h => exact ⟨n, [], h, rfl⟩
    · next h =>
      obtain ⟨d, t, hd, heq⟩ := ih (n / 16) (by omega)
      exact ⟨d, t ++ [digit (n % 16)], hd, by rw [heq, List.cons_append]⟩

theorem mem_numeral {n : ℕ} {c : UInt8} (h : c ∈ numeral n) : ∃ d < 16, c = digit d := by
  induction n using Nat.strongRecOn with
  | ind n ih =>
    rw [numeral] at h
    split at h
    · next hn => exact ⟨n, hn, List.mem_singleton.mp h⟩
    · next hn =>
      rcases List.mem_append.mp h with h | h
      · exact ih (n / 16) (by omega) h
      · exact ⟨n % 16, by omega, List.mem_singleton.mp h⟩

theorem radixLoop_digit {d acc : ℕ} (hd : d < 16) (cs : Bytes) :
    radixLoop (digit d :: cs) acc =
      if 16 * acc + d < 2 ^ 32 then radixLoop cs (16 * acc + d) else none := by
  rw [radixLoop, val_eq_ok.mpr ⟨hd, lower_digit hd⟩]

theorem radixLoop_numeral {n : ℕ} (h : n < 2 ^ 32) (cs : Bytes) :
    radixLoop (numeral n ++ cs) 0 = radixLoop cs n := by
  induction n using Nat.strongRecOn generalizing cs with
  | ind n ih =>
    rw [numeral]
    split
    · next hn =>
      rw [List.singleton_append, radixLoop_digit hn, if_pos (by omega)]
      congr 1
      omega
    · next hn =>
      have hsplit : 16 * (n / 16) + n % 16 = n := Nat.div_add_mod n 16
      rw [List.append_assoc, ih (n / 16) (by omega) (by omega), List.singleton_append,
        radixLoop_digit (by omega), hsplit, if_pos h]

/-- A written number is read back. -/
theorem fromStrRadix16_numeral {n : ℕ} (h : n < 2 ^ 32) : fromStrRadix16 (numeral n) = some n := by
  have hloop := radixLoop_numeral h []
  rw [List.append_nil] at hloop
  obtain ⟨d, t, hd, heq⟩ := exists_head_numeral n
  have hplus : digit d ≠ 43 ∧ digit d ≠ 45 := by
    constructor
    · intro hc
      have hnat := congrArg UInt8.toNat hc
      rw [toNat_digit hd] at hnat
      have h43 : (43 : UInt8).toNat = 43 := rfl
      split at hnat <;> omega
    · intro hc
      have hnat := congrArg UInt8.toNat hc
      rw [toNat_digit hd] at hnat
      have h45 : (45 : UInt8).toNat = 45 := rfl
      split at hnat <;> omega
  rw [heq] at hloop ⊢
  cases t with
  | nil =>
    show (if digit d = 43 ∨ digit d = 45 then none else radixLoop [digit d] 0) = some n
    rw [if_neg (not_or.mpr hplus)]
    exact hloop
  | cons c t =>
    show (if digit d = 43 then radixLoop (c :: t) 0 else radixLoop (digit d :: c :: t) 0) = some n
    rw [if_neg hplus.1]
    exact hloop

/-! ## Stripping patterns -/

/-- Remove the patterns from the front as often as one of them stands there, `fuel` times at most. -/
def stripAll (pats : List Bytes) : ℕ → Bytes → Bytes
  | 0, s => s
  | fuel + 1, s =>
    match pats.find? fun p => p.isPrefixOf s with
    | none => s
    | some p => stripAll pats fuel (s.drop p.length)

/-- No pattern is the beginning of another, and none is empty. -/
def PatternCode (pats : List Bytes) : Prop :=
  [] ∉ pats ∧ ∀ p ∈ pats, ∀ q ∈ pats, p.isPrefixOf q = true → p = q

instance (pats : List Bytes) : Decidable (PatternCode pats) := by
  unfold PatternCode
  infer_instance

/-- None of the patterns stands in front. -/
def Bare (pats : List Bytes) (s : Bytes) : Prop := ∀ p ∈ pats, ¬p <+: s

variable {pats : List Bytes}

theorem stripAll_of_bare {s : Bytes} (h : Bare pats s) (fuel : ℕ) : stripAll pats fuel s = s := by
  cases fuel with
  | zero => rfl
  | succ fuel =>
    have hnone : (pats.find? fun p => p.isPrefixOf s) = none := by
      rw [List.find?_eq_none]
      intro p hp hpre
      exact h p hp (List.isPrefixOf_iff_prefix.mp hpre)
    rw [stripAll, hnone]

/-- A run of patterns in front of a bare text is removed. -/
theorem stripAll_flatten (hcode : PatternCode pats) {front : List Bytes}
    (hfront : ∀ p ∈ front, p ∈ pats) {s : Bytes} (hbare : Bare pats s) {fuel : ℕ}
    (hfuel : front.length ≤ fuel) : stripAll pats fuel (front.flatten ++ s) = s := by
  induction front generalizing fuel with
  | nil => exact stripAll_of_bare hbare fuel
  | cons p front ih =>
    cases fuel with
    | zero => cases hfuel
    | succ fuel =>
    rw [List.forall_mem_cons] at hfront
    rw [List.flatten_cons, List.append_assoc, stripAll]
    cases hfind : pats.find? fun q => q.isPrefixOf (p ++ (front.flatten ++ s)) with
    | none =>
      have hno := List.find?_eq_none.mp hfind p hfront.1
      exact absurd (List.isPrefixOf_iff_prefix.mpr (List.prefix_append _ _)) hno
    | some q =>
      have hq := List.find?_some hfind
      have hmem := List.mem_of_find?_eq_some hfind
      have hpre := List.isPrefixOf_iff_prefix.mp hq
      have hpq : p = q := by
        rcases List.prefix_or_prefix_of_prefix (List.prefix_append p _) hpre with h | h
        · exact hcode.2 p hfront.1 q hmem (List.isPrefixOf_iff_prefix.mpr h)
        · exact (hcode.2 q hmem p hfront.1 (List.isPrefixOf_iff_prefix.mpr h)).symm
      show stripAll pats fuel ((p ++ (front.flatten ++ s)).drop q.length) = s
      rw [← hpq, List.drop_left]
      exact ih hfront.2 (Nat.le_of_succ_le_succ hfuel)

/-- What is removed is a run of patterns. -/
theorem exists_of_stripAll (pats : List Bytes) (fuel : ℕ) (s : Bytes) :
    ∃ front : List Bytes, (∀ p ∈ front, p ∈ pats) ∧ s = front.flatten ++ stripAll pats fuel s := by
  induction fuel generalizing s with
  | zero => exact ⟨[], fun p hp => absurd hp List.not_mem_nil, rfl⟩
  | succ fuel ih =>
    rw [stripAll]
    cases hfind : pats.find? fun q => q.isPrefixOf s with
    | none => exact ⟨[], fun p hp => absurd hp List.not_mem_nil, rfl⟩
    | some q =>
      have hq := List.find?_some hfind
      obtain ⟨rest, hrest⟩ := List.isPrefixOf_iff_prefix.mp hq
      obtain ⟨front, hfront, heq⟩ := ih (s.drop q.length)
      refine ⟨q :: front, List.forall_mem_cons.mpr ⟨List.mem_of_find?_eq_some hfind, hfront⟩, ?_⟩
      show s = (q :: front).flatten ++ stripAll pats fuel (s.drop q.length)
      rw [List.flatten_cons, List.append_assoc, ← heq, ← hrest, List.drop_left]

end Hex
