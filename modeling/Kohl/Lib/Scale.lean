import Kohl.Lib.Bytes

/-!
# SCALE encoding

The parts of the SCALE codec that fixed-layout records use: the compact length prefix, vectors,
and the decoder of vectors of 32-byte arrays. Fixed arrays and integers are written raw, a
structure is the concatenation of its fields.

* `decodeCompactU32_compactU32`, `decodeVec32_vec`: decoding inverts encoding and leaves the rest.
* `length_vec_le`: the size of a vector, from a bound on its elements.
-/

namespace Scale

open ByteLib

/-- The compact form of a length: the two low bits of the first byte say how many bytes follow. -/
def compactU32 (n : ℕ) : Bytes :=
  if n < 2 ^ 6 then leBytes 1 (4 * n)
  else if n < 2 ^ 14 then leBytes 2 (4 * n + 1)
  else if n < 2 ^ 30 then leBytes 4 (4 * n + 2)
  else 3 :: leBytes 4 n

/-- A vector: the compact length, then the elements. -/
def vec {α : Type*} (enc : α → Bytes) (xs : List α) : Bytes :=
  compactU32 xs.length ++ xs.flatMap enc

/-- A vector of bytes. -/
def byteVec (b : Bytes) : Bytes := compactU32 b.length ++ b

/-- Read a compact length; longer forms of small numbers are refused. -/
def decodeCompactU32 : Bytes → Option (ℕ × Bytes)
  | [] => none
  | b :: rest =>
    match b.toNat % 4 with
    | 0 => some (b.toNat / 4, rest)
    | 1 =>
      let x := leNat (b :: rest.take 1) / 4
      if 1 ≤ rest.length ∧ 2 ^ 6 ≤ x then some (x, rest.drop 1) else none
    | 2 =>
      let x := leNat (b :: rest.take 3) / 4
      if 3 ≤ rest.length ∧ 2 ^ 14 ≤ x then some (x, rest.drop 3) else none
    | _ =>
      let x := leNat (rest.take 4)
      if b.toNat / 4 = 0 ∧ 4 ≤ rest.length ∧ 2 ^ 30 ≤ x then some (x, rest.drop 4) else none

/-- `u64::decode`: the number and what is left. -/
def decodeU64 (b : Bytes) : Option (UInt64 × Bytes) :=
  if b.length < 8 then none else some (u64FromLeBytes (b.take 8), b.drop 8)

/-- `<[u8; 32]>::decode`: the array and what is left. -/
def decodeArray32 (b : Bytes) : Option (Bytes32 × Bytes) :=
  (Bytes32.ofBytes (b.take 32)).map fun a => (a, b.drop 32)

/-- `Vec::<[u8; 32]>::decode`; bytes behind the vector are left. -/
def decodeVec32 (b : Bytes) : Option (List Bytes32) :=
  (decodeCompactU32 b).bind fun (n, rest) =>
    if rest.length < 32 * n then none
    else collect Bytes32.ofBytes (chunksExact 32 (rest.take (32 * n)))

theorem decodeCompactU32_compactU32 {n : ℕ} (h : n < 2 ^ 32) (rest : Bytes) :
    decodeCompactU32 (compactU32 n ++ rest) = some (n, rest) := by
  unfold compactU32
  split_ifs with h6 h14 h30
  · -- one byte
    have hb : (UInt8.ofNat (4 * n)).toNat = 4 * n := by
      rw [UInt8.toNat_ofNat']
      omega
    have hmod : 4 * n % 4 = 0 := by omega
    have hdiv : 4 * n / 4 = n := by omega
    simp only [leBytes, List.cons_append, List.nil_append, decodeCompactU32, hb, hmod, hdiv]
  · -- two bytes
    have hb : (UInt8.ofNat (4 * n + 1)).toNat % 4 = 1 := by
      rw [UInt8.toNat_ofNat']
      omega
    have hx : leNat (leBytes 2 (4 * n + 1)) / 4 = n := by
      rw [leNat_leBytes_of_lt (by omega)]
      omega
    simp only [leBytes] at hx
    simp only [leBytes, List.cons_append, List.nil_append, decodeCompactU32, hb, List.take_succ_cons,
      List.take_zero, List.drop_succ_cons, List.drop_zero, hx, List.length_cons]
    rw [if_pos (by omega)]
  · -- four bytes
    have hb : (UInt8.ofNat (4 * n + 2)).toNat % 4 = 2 := by
      rw [UInt8.toNat_ofNat']
      omega
    have hx : leNat (leBytes 4 (4 * n + 2)) / 4 = n := by
      rw [leNat_leBytes_of_lt (by omega)]
      omega
    simp only [leBytes] at hx
    simp only [leBytes, List.cons_append, List.nil_append, decodeCompactU32, hb, List.take_succ_cons,
      List.take_zero, List.drop_succ_cons, List.drop_zero, hx, List.length_cons]
    rw [if_pos (by omega)]
  · -- the big-integer form
    have hx : leNat (leBytes 4 n) = n := leNat_leBytes_of_lt (by omega)
    simp only [leBytes] at hx
    have hb : (3 : UInt8).toNat = 3 := rfl
    simp only [leBytes, List.cons_append, List.nil_append, decodeCompactU32, List.take_succ_cons,
      List.take_zero, List.drop_succ_cons, List.drop_zero, hx, List.length_cons, hb]
    rw [if_pos ⟨trivial, by omega, by omega⟩]

theorem decodeVec32_vec {xs : List Bytes32} (h : xs.length < 2 ^ 32) (rest : Bytes) :
    decodeVec32 (vec Subtype.val xs ++ rest) = some xs := by
  have hflat : (xs.map Subtype.val).flatten.length = 32 * xs.length := by
    induction xs with
    | nil => rfl
    | cons x xs ih =>
      have := ih (by rw [List.length_cons] at h; omega)
      simp only [List.map_cons, List.flatten_cons, List.length_append, List.length_cons,
        Bytes32.length_val, this]
      ring
  rw [decodeVec32, vec, List.append_assoc, decodeCompactU32_compactU32 h, Option.bind_some,
    List.flatMap_def]
  have hlen : ¬((xs.map Subtype.val).flatten ++ rest).length < 32 * xs.length := by
    rw [List.length_append, hflat]
    omega
  show (if ((xs.map Subtype.val).flatten ++ rest).length < 32 * xs.length then none else
    collect Bytes32.ofBytes (chunksExact 32
      (((xs.map Subtype.val).flatten ++ rest).take (32 * xs.length)))) = some xs
  rw [if_neg hlen, ← hflat, List.take_left, chunksExact_flatten (by omega) (by simp +contextual),
    collect_map]
  rw [collect_eq_some_map (g := id) (by simp), List.map_id]

/-- A compact length takes at most five bytes. -/
theorem length_compactU32_le (n : ℕ) : (compactU32 n).length ≤ 5 := by
  unfold compactU32
  split_ifs <;> simp

theorem length_byteVec_le (b : Bytes) : (byteVec b).length ≤ 5 + b.length := by
  rw [byteVec, List.length_append]
  exact Nat.add_le_add_right (length_compactU32_le _) _

theorem length_vec_le {α : Type*} {enc : α → Bytes} {bound : ℕ} {xs : List α}
    (h : ∀ x ∈ xs, (enc x).length ≤ bound) : (vec enc xs).length ≤ 5 + xs.length * bound := by
  have hflat : (xs.flatMap enc).length ≤ xs.length * bound := by
    induction xs with
    | nil => exact Nat.zero_le _
    | cons x xs ih =>
      rw [List.forall_mem_cons] at h
      rw [List.flatMap_cons, List.length_append, List.length_cons, Nat.succ_mul, Nat.add_comm]
      exact Nat.add_le_add (ih h.2) h.1
  rw [vec, List.length_append]
  exact Nat.add_le_add (length_compactU32_le _) hflat

end Scale
