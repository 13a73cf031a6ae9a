import Kohl.Lib.Bytes

/-!
# BLAKE2b with a 32-byte digest

The unkeyed hash, executable by the kernel: words are natural numbers below `2^64`, the state is the
list of the eight chaining words.
-/

namespace Blake2b

open ByteLib

/-- The modulus of the word arithmetic. -/
def wordSize : ℕ := 2 ^ 64

/-- Rotate a word to the right. -/
def rotr (x n : ℕ) : ℕ := (x >>> n) ||| ((x <<< (64 - n)) % wordSize)

/-- The initialization vector. -/
def IV : List ℕ :=
  [0x6a09e667f3bcc908, 0xbb67ae8584caa73b, 0x3c6ef372fe94f82b, 0xa54ff53a5f1d36f1,
    0x510e527fade682d1, 0x9b05688c2b3e6c1f, 0x1f83d9abfb41bd6b, 0x5be0cd19137e2179]

/-- The message schedule of the twelve rounds. -/
def SIGMA : List (List ℕ) :=
  [[0, 1, 2, 3, 4, 5, 6, 7, 8, 9, 10, 11, 12, 13, 14, 15],
    [14, 10, 4, 8, 9, 15, 13, 6, 1, 12, 0, 2, 11, 7, 5, 3],
    [11, 8, 12, 0, 5, 2, 15, 13, 10, 14, 3, 6, 7, 1, 9, 4],
    [7, 9, 3, 1, 13, 12, 11, 14, 2, 6, 5, 10, 4, 0, 15, 8],
    [9, 0, 5, 7, 2, 4, 10, 15, 14, 1, 11, 12, 6, 8, 3, 13],
    [2, 12, 6, 10, 0, 11, 8, 3, 4, 13, 7, 5, 15, 14, 1, 9],
    [12, 5, 1, 15, 14, 13, 4, 10, 0, 7, 6, 3, 9, 2, 8, 11],
    [13, 11, 7, 14, 12, 1, 3, 9, 5, 0, 15, 4, 8, 6, 2, 10],
    [6, 15, 14, 9, 11, 3, 0, 8, 12, 2, 13, 7, 1, 4, 10, 5],
    [10, 2, 8, 4, 7, 6, 1, 5, 15, 11, 9, 14, 3, 12, 13, 0],
    [0, 1, 2, 3, 4, 5, 6, 7, 8, 9, 10, 11, 12, 13, 14, 15],
    [14, 10, 4, 8, 9, 15, 13, 6, 1, 12, 0, 2, 11, 7, 5, 3]]

/-- The mixing function `G` on the words at four positions, with two message words. -/
def mix (v : List ℕ) (a b c d x y : ℕ) : List ℕ :=
  let va := (v.getD a 0 + v.getD b 0 + x) % wordSize
  let vd := rotr (v.getD d 0 ^^^ va) 32
  let vc := (v.getD c 0 + vd) % wordSize
  let vb := rotr (v.getD b 0 ^^^ vc) 24
  let va := (va + vb + y) % wordSize
  let vd := rotr (vd ^^^ va) 16
  let vc := (vc + vd) % wordSize
  let vb := rotr (vb ^^^ vc) 63
  (((v.set a va).set b vb).set c vc).set d vd

/-- One round: the columns, then the diagonals. -/
def round (m v s : List ℕ) : List ℕ :=
  let w := fun i => m.getD (s.getD i 0) 0
  let v := mix v 0 4 8 12 (w 0) (w 1)
  let v := mix v 1 5 9 13 (w 2) (w 3)
  let v := mix v 2 6 10 14 (w 4) (w 5)
  let v := mix v 3 7 11 15 (w 6) (w 7)
  let v := mix v 0 5 10 15 (w 8) (w 9)
  let v := mix v 1 6 11 12 (w 10) (w 11)
  let v := mix v 2 7 8 13 (w 12) (w 13)
  mix v 3 4 9 14 (w 14) (w 15)

/-- The compression function; `t` counts the bytes up to the end of the block. -/
def compress (h : List ℕ) (block : Bytes) (t : ℕ) (last : Bool) : List ℕ :=
  let m := (chunksExact 8 block).map leNat
  let v := h ++ IV
  let v := v.set 12 (v.getD 12 0 ^^^ t)
  let v := if last then v.set 14 (v.getD 14 0 ^^^ (wordSize - 1)) else v
  let v := SIGMA.foldl (round m) v
  (List.range 8).map fun i => h.getD i 0 ^^^ v.getD i 0 ^^^ v.getD (i + 8) 0

/-- Absorb the message block by block; the last block is filled up with zeros. -/
def absorb : ℕ → List ℕ → Bytes → ℕ → List ℕ
  | 0, h, _, _ => h
  | fuel + 1, h, b, t =>
    if b.length ≤ 128 then
      compress h (b ++ List.replicate (128 - b.length) 0) (t + b.length) true
    else absorb fuel (compress h (b.take 128) (t + 128) false) (b.drop 128) (t + 128)

/-- The digest: the first four chaining words in little-endian order. -/
def hash256 (b : Bytes) : Bytes32 :=
  let h := absorb (b.length / 128 + 1) (IV.set 0 (IV.getD 0 0 ^^^ 0x01010020)) b 0
  ⟨leBytes 32 (h.getD 0 0 + wordSize * (h.getD 1 0 + wordSize * (h.getD 2 0 +
    wordSize * h.getD 3 0))), length_leBytes _ _⟩

/-- The published digest of the empty message starts with `0e5751c0`. -/
example : (hash256 []).val.take 4 = [0x0e, 0x57, 0x51, 0xc0] := by decide +kernel

end Blake2b
