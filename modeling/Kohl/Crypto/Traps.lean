import Kohl.Lib.Trapping
import Kohl.Crypto.Fcmp

/-!
# Verification does not panic

Proofs come from anyone, and every node parses them. `fcmp::verify` and `clsag::verify_with_max` are
translated once more, with every slice, index, copy and sum as the operation that panics out of its
bounds, and compared with the definitions that take the bounds for granted. Lengths and counts are
those of a 64-bit host; a slice has fewer than `2^63` bytes.

* `Clsag.Traps.verifyWithMax_eq`: the ring signature.
* `Fcmp.Traps.decode_eq`, `Fcmp.Traps.rootFromLeaves_eq`: the proof and the root of its digests.
* `Fcmp.Traps.verify_total_on_hostile_bytes`: both verifiers return, and return what they should.
-/

namespace Kohl

open ByteLib Trapping

variable {l : ℕ} {Point : Type} [AddCommGroup Point] [Module (ZMod l) Point]

/-! ## The ring signature -/

namespace Clsag.Traps

def parsePair (E : CryptoLib l Point) (pair : Bytes) : Except Panic (Option (Point × Point)) := do
  let keyBytes ← sliceTo pair 32
  match decompress E keyBytes with
  | none => .ok none
  | some key => do
    let commitmentBytes ← sliceFrom pair 32
    .ok ((decompress E commitmentBytes).map fun commitment => (key, commitment))

def parseRing (E : CryptoLib l Point) (blob : Bytes) (maxN : ℕ) :
    Except Panic (Option (List Point × List Point)) :=
  if blob.isEmpty || decide (blob.length % 64 ≠ 0) then .ok none
  else
    let n := blob.length / 64
    if n = 0 ∨ maxN < n then .ok none
    else (tryCollect (parsePair E) (chunksExact 64 blob)).map (Option.map List.unzip)

def ringStep (E : CryptoLib l Point) (ctx : Context l Point) (s : List (ZMod l)) (i : ℕ) (c : ZMod l) :
    Except Panic (ZMod l) := do
  let start ← mul i 64
  let stop ← add start 32
  let keyBytes ← sliceRange ctx.ringBlob start stop
  let key ← index ctx.keys i
  let commitment ← index ctx.commitments i
  let response ← index s i
  let wI := ctx.muP • key + ctx.muC • (commitment - ctx.pseudoPoint)
  let lPoint := response • E.G + c • wI
  let rPoint := response • hp E keyBytes + c • ctx.wTilde
  .ok (roundChallenge E ctx.ringBlob ctx.pseudo ctx.msg (E.compress lPoint).val (E.compress rPoint).val)

/-- The loop over the positions `i, …, i + k - 1`. -/
def walk (E : CryptoLib l Point) (ctx : Context l Point) (s : List (ZMod l)) :
    ℕ → ℕ → ZMod l → Except Panic (ZMod l)
  | _, 0, c => .ok c
  | i, k + 1, c => do
    let c ← ringStep E ctx s i c
    walk E ctx s (i + 1) k c

/-- `verify_with_max` behind the checks of the lengths. -/
def verifySignature [DecidableEq Point] (E : CryptoLib l Point)
    (msg ringBlob pseudo keyImage sig : Bytes) (keys commitments : List Point) : Except Panic Bool := do
  let n := keys.length
  let challenge ← sliceTo sig 32
  match scalar E challenge with
  | none => .ok false
  | some c0 => do
    let next ← add n 1
    let auxStart ← mul 32 next
    let responses ← sliceRange sig 32 auxStart
    match collect (scalar E) (chunksExact 32 responses) with
    | none => .ok false
    | some s => do
      let auxImage ← sliceFrom sig auxStart
      match decompress E auxImage, decompress E pseudo, decompress E keyImage with
      | some dPoint, some pseudoPoint, some iPoint =>
        if iPoint = 0 then .ok false
        else do
          let ctx := context E msg ringBlob pseudo keyImage auxImage keys commitments pseudoPoint iPoint
            dPoint
          let c ← walk E ctx s 0 n c0
          .ok (decide (c = c0))
      | _, _, _ => .ok false

def verifyWithMax [DecidableEq Point] (E : CryptoLib l Point) (msg ringBlob pseudo keyImage sig : Bytes)
    (maxN : ℕ) : Except Panic Bool :=
  if msg.length ≠ 32 ∨ pseudo.length ≠ 32 ∨ keyImage.length ≠ 32 then .ok false
  else do
    match ← parseRing E ringBlob maxN with
    | none => .ok false
    | some (keys, commitments) => do
      let count ← add keys.length 2
      let sigLen ← mul 32 count
      if sig.length ≠ sigLen then .ok false
      else verifySignature E msg ringBlob pseudo keyImage sig keys commitments

variable {E : CryptoLib l Point}

omit [AddCommGroup Point] [Module (ZMod l) Point] in
theorem parsePair_eq {pair : Bytes} (h : pair.length = 64) :
    parsePair E pair = .ok (Clsag.parsePair E pair) := by
  unfold parsePair Clsag.parsePair
  rw [sliceTo_eq_ok (by omega), ok_bind]
  cases decompress E (pair.take 32) with
  | none => rfl
  | some key =>
    show (sliceFrom pair 32 >>= _) = _
    rw [sliceFrom_eq_ok (by omega), ok_bind, Option.bind_some]

omit [AddCommGroup Point] [Module (ZMod l) Point] in
theorem parseRing_eq (blob : Bytes) (maxN : ℕ) :
    parseRing E blob maxN = .ok (Clsag.parseRing E blob maxN) := by
  unfold parseRing Clsag.parseRing
  split
  · rfl
  dsimp only
  split
  · rfl
  rw [tryCollect_eq_ok fun pair hpair => parsePair_eq (length_of_mem_chunksExact hpair)]
  rfl

/-- A position of the ring is within all that is read there. -/
theorem ringStep_eq {ctx : Context l Point} {s : List (ZMod l)} {i : ℕ} (c : ZMod l)
    (hblob : i * 64 + 32 ≤ ctx.ringBlob.length) (hsize : ctx.ringBlob.length < 2 ^ 63)
    (hkeys : i < ctx.keys.length) (hcommitments : i < ctx.commitments.length) (hs : i < s.length) :
    ringStep E ctx s i c = .ok (Clsag.ringStep E ctx s i c) := by
  unfold ringStep Clsag.ringStep
  rw [mul_eq_ok (by omega), ok_bind, add_eq_ok (by omega), ok_bind,
    sliceRange_eq_ok (by omega) hblob, ok_bind, index_getD hkeys 0, ok_bind,
    index_getD hcommitments 0, ok_bind, index_getD hs 0, ok_bind, Nat.add_sub_cancel_left]
  rfl

theorem walk_eq {ctx : Context l Point} {s : List (ZMod l)} {n : ℕ}
    (hblob : n * 64 ≤ ctx.ringBlob.length) (hsize : ctx.ringBlob.length < 2 ^ 63)
    (hkeys : n ≤ ctx.keys.length) (hcommitments : n ≤ ctx.commitments.length) (hs : n ≤ s.length)
    {i k : ℕ} (hk : i + k ≤ n) (c : ZMod l) :
    walk E ctx s i k c = .ok (RingChain.walk (Clsag.ringStep E ctx s) i k c) := by
  induction k generalizing i c with
  | zero => rfl
  | succ k ih =>
    rw [walk, ringStep_eq c (by omega) hsize (by omega) (by omega) (by omega), ok_bind,
      ih (by omega), RingChain.walk_succ]

/-- A signature of the length that goes with the ring is read within its bounds. -/
theorem verifySignature_eq [DecidableEq Point] {msg ringBlob pseudo keyImage sig : Bytes}
    {keys commitments : List Point} {maxN : ℕ} (hsize : ringBlob.length < 2 ^ 63)
    (hring : Clsag.parseRing E ringBlob maxN = some (keys, commitments))
    (hlengths : ¬ (msg.length ≠ 32 ∨ pseudo.length ≠ 32 ∨ keyImage.length ≠ 32))
    (hsig : sig.length = 32 * (keys.length + 2)) :
    verifySignature E msg ringBlob pseudo keyImage sig keys commitments =
      .ok (Clsag.verifyWithMax E msg ringBlob pseudo keyImage sig maxN) := by
  obtain ⟨hkeys, hcommitments, -, -, -⟩ := ClsagLemmas.parseRing_eq_some hring
  unfold verifySignature Clsag.verifyWithMax
  rw [if_neg hlengths, hring]
  dsimp only
  rw [if_neg (not_not.mpr hsig), sliceTo_eq_ok (by omega), ok_bind]
  have hresponses : 32 * (keys.length + 1) - 32 = 32 * keys.length := by omega
  cases hc0 : scalar E (sig.take 32) with
  | none => rfl
  | some c0 =>
  dsimp only
  rw [add_eq_ok (by omega), ok_bind, mul_eq_ok (by omega), ok_bind,
    sliceRange_eq_ok (by omega) (by omega), ok_bind, hresponses]
  cases hs : collect (scalar E) (chunksExact 32 ((sig.drop 32).take (32 * keys.length))) with
  | none => rfl
  | some s =>
  have hslen : s.length = keys.length := by
    rw [length_of_collect hs, length_chunksExact, List.length_take, List.length_drop, hsig,
      min_eq_left (by omega), Nat.mul_div_cancel_left _ (by omega)]
  dsimp only
  rw [sliceFrom_eq_ok (by omega), ok_bind]
  cases decompress E (sig.drop (32 * (keys.length + 1))) with
  | none => rfl
  | some dPoint =>
  cases decompress E pseudo with
  | none => rfl
  | some pseudoPoint =>
  cases decompress E keyImage with
  | none => rfl
  | some iPoint =>
  dsimp only
  split
  · rfl
  · rw [walk_eq (n := keys.length) ?_ hsize (Nat.le_refl _) ?_ hslen.ge (Nat.zero_add _).le, ok_bind]
    · show keys.length * 64 ≤ ringBlob.length
      rw [hkeys]
      exact Nat.div_mul_le_self _ _
    · show keys.length ≤ commitments.length
      rw [hkeys, hcommitments]

theorem verifyWithMax_eq [DecidableEq Point] {msg ringBlob pseudo keyImage sig : Bytes}
    (hsize : ringBlob.length < 2 ^ 63) (maxN : ℕ) :
    verifyWithMax E msg ringBlob pseudo keyImage sig maxN =
      .ok (Clsag.verifyWithMax E msg ringBlob pseudo keyImage sig maxN) := by
  unfold verifyWithMax
  rcases Decidable.em (msg.length ≠ 32 ∨ pseudo.length ≠ 32 ∨ keyImage.length ≠ 32) with hbad | hlengths
  · unfold Clsag.verifyWithMax
    rw [if_pos hbad, if_pos hbad]
  rw [if_neg hlengths, parseRing_eq, ok_bind]
  cases hring : Clsag.parseRing E ringBlob maxN with
  | none =>
    unfold Clsag.verifyWithMax
    rw [if_neg hlengths, hring]
  | some points =>
  obtain ⟨keys, commitments⟩ := points
  obtain ⟨hkeys, -⟩ := ClsagLemmas.parseRing_eq_some hring
  dsimp only
  rw [add_eq_ok (by omega), ok_bind, mul_eq_ok (by omega), ok_bind]
  rcases Decidable.em (sig.length = 32 * (keys.length + 2)) with hsig | hsig
  · rw [if_neg (not_not.mpr hsig), verifySignature_eq hsize hring hlengths hsig]
  · unfold Clsag.verifyWithMax
    rw [if_pos hsig, if_neg hlengths, hring]
    dsimp only
    rw [if_pos hsig]

end Clsag.Traps

/-! ## The proof -/

namespace Fcmp.Traps

open MembershipTree

def parseMember (chunk : Bytes) : Except Panic (Option RingMember) := do
  let keyBytes ← sliceTo chunk 32
  let p ← copyFromSlice keyBytes
  let commitmentBytes ← sliceRange chunk 32 64
  let c ← copyFromSlice commitmentBytes
  let treeIndex ← sliceRange chunk 64 72
  -- `try_into().ok()?`
  if treeIndex.length ≠ 8 then .ok none else .ok (some ⟨p, c, u64FromLeBytes treeIndex⟩)

/-- `FcmpProof::decode` from the length of the ring on, which stands at `o`. -/
def decodeRing (proof : Bytes) (nSlots : ℕ) (digests : List Bytes32) (o : ℕ) :
    Except Panic (Option FcmpProof) := do
  let ringStart ← add o 4
  match getArray proof o ringStart 4 with
  | none => .ok none
  | some ringLength => do
    let nRing := leNat ringLength
    if nRing = 0 ∨ Clsag.MAX_FCMP_RING < nRing ∨ nSlots < nRing then .ok none
    else
      match (Trapping.checkedMul nRing 72).bind (Trapping.checkedAdd ringStart) with
      | none => .ok none
      | some ringEnd =>
        if proof.length < ringEnd then .ok none
        else do
          let members ← sliceRange proof ringStart ringEnd
          match ← tryCollect parseMember (chunksExact 72 members) with
          | none => .ok none
          | some ring => do
            let count ← add nRing 2
            let sigLen ← mul 32 count
            let total ← add ringEnd sigLen
            if proof.length ≠ total then .ok none
            else do
              let clsag ← sliceFrom proof ringEnd
              .ok (some ⟨digests, ring, clsag⟩)

/-- `FcmpProof::decode`. -/
def decode (proof : Bytes) : Except Panic (Option FcmpProof) :=
  if proof.length < 8 + 8 + 4 + 72 + 32 * 3 then .ok none
  else do
    let tag ← sliceTo proof 8
    if tag ≠ PROOF_TAG then .ok none
    else do
      let o ← add 8 8
      match getArray proof 8 o 8 with
      | none => .ok none
      | some slots => do
        let nSlots := leNat slots
        if nSlots = 0 ∨ MAX_FCMP_ANON_SET < nSlots then .ok none
        else
          match (Trapping.checkedMul nSlots 32).bind (Trapping.checkedAdd o) with
          | none => .ok none
          | some digestsEnd => do
            let least ← add digestsEnd 4
            if proof.length < least then .ok none
            else do
              let leaves ← sliceRange proof o digestsEnd
              let digests ← tryMap copyFromSlice (chunksExact 32 leaves)
              decodeRing proof nSlots digests digestsEnd

/-- `ring_blob`, with the capacity it asks for. -/
def ringBlob (ring : List RingMember) : Except Panic Bytes := do
  let _ ← mul ring.length 64
  .ok (Fcmp.ringBlob ring)

theorem parseMember_eq {chunk : Bytes} (h : chunk.length = 72) :
    parseMember chunk = .ok (Fcmp.parseMember chunk) := by
  have hp : (chunk.take 32).length = 32 := by
    rw [List.length_take]
    omega
  have hc : ((chunk.drop 32).take (64 - 32)).length = 32 := by
    rw [List.length_take, List.length_drop]
    omega
  have hindex : ((chunk.drop 64).take (72 - 64)).length = 8 := by
    rw [List.length_take, List.length_drop]
    omega
  unfold parseMember Fcmp.parseMember slice Bytes32.ofBytes
  rw [sliceTo_eq_ok (by omega), ok_bind, copyFromSlice_eq_ok hp, ok_bind,
    sliceRange_eq_ok (by omega) (by omega), ok_bind, copyFromSlice_eq_ok hc, ok_bind,
    sliceRange_eq_ok (by omega) (by omega), ok_bind, if_neg (not_not.mpr hindex), dif_pos hp,
    Option.bind_some, dif_pos hc, Option.map_some]

/-- Copying chunks of 32 bytes does not panic. -/
theorem tryMap_copyFromSlice {chunks : List Bytes} (h : ∀ c ∈ chunks, c.length = 32) :
    ∃ digests, tryMap copyFromSlice chunks = .ok digests ∧
      collect Bytes32.ofBytes chunks = some digests := by
  have hcopy : ∀ c ∈ chunks, ∃ d, copyFromSlice c = .ok d ∧ Bytes32.ofBytes c = some d := by
    intro c hc
    exact ⟨⟨c, h c hc⟩, copyFromSlice_eq_ok (h c hc), dif_pos (h c hc)⟩
  obtain ⟨digests, hmap, hall⟩ := exists_tryMap hcopy
  refine ⟨digests, hmap, collect_eq_some_iff.mpr ?_⟩
  exact (map_eq_of_forall₂ hall fun _ _ hd => hd.symm).symm

/-- The rest of the decoder, for a start that the checks before it have bounded. -/
theorem decodeRing_eq {proof : Bytes} {nSlots o : ℕ} (hslots : nSlots ≤ 64) (ho : o ≤ 16 + 64 * 32)
    (hlen : o + 4 ≤ proof.length) (digests : List Bytes32) :
    decodeRing proof nSlots digests o = .ok (
      let nRing := leNat (slice proof o (o + 4))
      if nRing = 0 ∨ Clsag.MAX_FCMP_RING < nRing ∨ nSlots < nRing then none
      else if proof.length < o + 4 + nRing * 72 then none
      else
        (collect Fcmp.parseMember (chunksExact 72 (slice proof (o + 4) (o + 4 + nRing * 72)))).bind
          fun ring =>
            if proof.length ≠ o + 4 + nRing * 72 + 32 * (nRing + 2) then none
            else some ⟨digests, ring, proof.drop (o + 4 + nRing * 72)⟩) := by
  unfold decodeRing
  rw [add_eq_ok (by omega), ok_bind, getArray_eq_some (by omega) hlen (by omega)]
  dsimp only
  show (if _ then _ else _) = _
  generalize hn : leNat ((proof.drop o).take (o + 4 - o)) = nRing
  have hn' : leNat (slice proof o (o + 4)) = nRing := hn
  rw [hn']
  split
  · rfl
  next hring =>
  rw [Trapping.checkedMul_eq_some (by omega), Option.bind_some, Trapping.checkedAdd_eq_some (by omega)]
  dsimp only
  split
  · rfl
  next hend =>
  rw [sliceRange_eq_ok (by omega) (by omega), ok_bind,
    tryCollect_eq_ok fun chunk hchunk => parseMember_eq (length_of_mem_chunksExact hchunk), ok_bind]
  show _ = Except.ok (Option.bind (collect Fcmp.parseMember (chunksExact 72
    ((proof.drop (o + 4)).take (o + 4 + nRing * 72 - (o + 4))))) _)
  cases collect Fcmp.parseMember (chunksExact 72
      ((proof.drop (o + 4)).take (o + 4 + nRing * 72 - (o + 4)))) with
  | none => rfl
  | some ring =>
  dsimp only
  rw [add_eq_ok (by omega), ok_bind, mul_eq_ok (by omega), ok_bind, add_eq_ok (by omega), ok_bind,
    Option.bind_some]
  split
  · rfl
  · rw [sliceFrom_eq_ok (by omega), ok_bind]

theorem decode_eq (proof : Bytes) : decode proof = .ok (FcmpProof.decode proof) := by
  unfold decode FcmpProof.decode
  split
  · rfl
  next hlen =>
  rw [sliceTo_eq_ok (by omega), ok_bind]
  split
  · rfl
  rw [add_eq_ok (by omega), ok_bind, getArray_eq_some (by omega) (by omega) (by omega)]
  dsimp only
  generalize hn : leNat ((proof.drop 8).take (8 + 8 - 8)) = nSlots
  have hn' : leNat (slice proof 8 16) = nSlots := hn
  rw [hn']
  have hanon : MAX_FCMP_ANON_SET = 64 := rfl
  split
  · rfl
  next hslots =>
  rw [Trapping.checkedMul_eq_some (by omega), Option.bind_some, Trapping.checkedAdd_eq_some (by omega)]
  dsimp only
  rw [add_eq_ok (by omega), ok_bind]
  split
  · rfl
  next hend =>
  rw [sliceRange_eq_ok (by omega) (by omega), ok_bind]
  have hchunks : ∀ c ∈ chunksExact 32 ((proof.drop (8 + 8)).take (8 + 8 + nSlots * 32 - (8 + 8))),
      c.length = 32 := fun _ hc => length_of_mem_chunksExact hc
  obtain ⟨digests, hcopy, hcollect⟩ := tryMap_copyFromSlice hchunks
  rw [hcopy, ok_bind, decodeRing_eq (by omega) (by omega) (by omega) digests]
  have hdigests : collect Bytes32.ofBytes (chunksExact 32 (slice proof 16 (16 + nSlots * 32))) =
      some digests := hcollect
  rw [hdigests, Option.bind_some]

/-! ## The root of the digests -/

/-- One turn of the loop over the levels: `pair[0]` and `pair[1]` of every pair. -/
def levelUp (hash : Bytes → Bytes32) (level : List Bytes32) : Except Panic (List Bytes32) :=
  tryMap (fun pair => do
    let left ← index pair 0
    let right ← index pair 1
    .ok (merkleNodeHash hash left right)) (chunksExact 2 level)

def collapse (hash : Bytes → Bytes32) : ℕ → List Bytes32 → Except Panic (List Bytes32)
  | 0, level => .ok level
  | fuel + 1, level =>
    if 1 < level.length then do
      let next ← levelUp hash level
      collapse hash fuel next
    else .ok level

/-- `usize::next_power_of_two`. -/
def nextPowerOfTwo (n : ℕ) : Except Panic ℕ :=
  if Merkle.nextPowerOfTwo n < 2 ^ 64 then .ok (Merkle.nextPowerOfTwo n) else .error .overflow

def rootFromLeaves (hash : Bytes → Bytes32) (leaves : List Bytes32) : Except Panic Bytes32 :=
  if leaves.isEmpty then .ok (merkleEmptyChild hash)
  else do
    let n ← nextPowerOfTwo leaves.length
    let level := leaves ++ List.replicate (n - leaves.length) (merkleEmptyChild hash)
    let top ← collapse hash level.length level
    index top 0

theorem levelUp_eq (hash : Bytes → Bytes32) (level : List Bytes32) :
    levelUp hash level = .ok (Merkle.levelUp (merkleNodeHash hash) level) := by
  unfold levelUp
  induction level using Merkle.levelUp.induct with
  | case1 a b rest ih =>
    have hchunks : chunksExact 2 (a :: b :: rest) = [a, b] :: chunksExact 2 rest :=
      chunksExact_append (a := [a, b]) Nat.two_pos rfl rest
    rw [hchunks, tryMap, ih]
    rfl
  | case2 level hshort =>
    cases level with
    | nil => rfl
    | cons a level =>
    cases level with
    | nil =>
      have hchunks : chunksExact 2 [a] = [] := by simp [chunksExact]
      rw [hchunks]
      rfl
    | cons b rest => exact absurd rfl (hshort a b rest)

theorem collapse_eq (hash : Bytes → Bytes32) (fuel : ℕ) (level : List Bytes32) :
    collapse hash fuel level = .ok (Merkle.collapse (merkleNodeHash hash) fuel level) := by
  induction fuel generalizing level with
  | zero => rfl
  | succ fuel ih =>
    rw [collapse, Merkle.collapse]
    split
    · rw [levelUp_eq, ok_bind, ih]
    · rfl

theorem collapse_ne_nil (node : Bytes32 → Bytes32 → Bytes32) (fuel : ℕ) {level : List Bytes32}
    (h : level ≠ []) : Merkle.collapse node fuel level ≠ [] := by
  induction fuel generalizing level with
  | zero => exact h
  | succ fuel ih =>
    rw [Merkle.collapse]
    split
    · next hlong =>
      refine ih ?_
      cases level with
      | nil => exact absurd hlong (Nat.not_lt_zero 1)
      | cons a level =>
      cases level with
      | nil => exact absurd hlong (Nat.lt_irrefl 1)
      | cons b rest => exact List.cons_ne_nil _ _
    · exact h

theorem nextPowerOfTwo_le {n : ℕ} (h : n ≤ 64) : Merkle.nextPowerOfTwo n ≤ 64 := by
  unfold Merkle.nextPowerOfTwo Merkle.depth
  split
  · decide
  · have hlog : Nat.log2 (n - 1) < 6 := (Nat.log2_lt (by omega)).mpr (by omega)
    exact Nat.pow_le_pow_right Nat.two_pos hlog

theorem rootFromLeaves_eq (hash : Bytes → Bytes32) {leaves : List Bytes32} (h : leaves.length ≤ 64) :
    rootFromLeaves hash leaves = .ok (MembershipTree.rootFromLeaves hash leaves) := by
  unfold rootFromLeaves MembershipTree.rootFromLeaves Merkle.root
  split
  · rfl
  next hne =>
  have hpow : Merkle.nextPowerOfTwo leaves.length < 2 ^ 64 :=
    Nat.lt_of_le_of_lt (nextPowerOfTwo_le h) (by decide)
  rw [nextPowerOfTwo, if_pos hpow, ok_bind]
  show (collapse hash (Merkle.padded (merkleEmptyChild hash) leaves).length
    (Merkle.padded (merkleEmptyChild hash) leaves) >>= fun top => index top 0) = _
  rw [collapse_eq, ok_bind]
  have hpadded : Merkle.padded (merkleEmptyChild hash) leaves ≠ [] := by
    intro hnil
    exact hne (List.isEmpty_iff.mpr (List.append_eq_nil_iff.mp hnil).1)
  have htop := collapse_ne_nil (merkleNodeHash hash)
    (Merkle.padded (merkleEmptyChild hash) leaves).length hpadded
  obtain ⟨root, rest, hroot⟩ := List.exists_cons_of_ne_nil htop
  rw [hroot]
  rfl

/-! ## The verifier -/

/-- The loop that counts the digests other than the placeholder. -/
def countNonEmpty (hash : Bytes → Bytes32) : List Bytes32 → ℕ → Except Panic ℕ
  | [], count => .ok count
  | d :: digests, count =>
    if d ≠ emptyLeafHash hash then do
      let count ← add count 1
      countNonEmpty hash digests count
    else countNonEmpty hash digests count

/-- The loop over the ring members, with the lookup of the digest of each. -/
def checkMembers (hash : Bytes → Bytes32) (digests : List Bytes32) :
    List RingMember → List UInt64 → Except Panic (Option (List UInt64))
  | [], seen => .ok (some seen)
  | m :: ms, seen =>
    if digests.length ≤ m.treeIndex.toNat ∨ m.treeIndex ∈ seen then .ok none
    else do
      let lh := leafHash hash m.oneTimeKey m.commitment
      let digest ← index digests m.treeIndex.toNat
      if digest ≠ lh ∨ lh = emptyLeafHash hash then .ok none
      else checkMembers hash digests ms (m.treeIndex :: seen)

/-- `ring.windows(2)`. -/
def windows (ring : List RingMember) : List (List RingMember) :=
  (ring.zip ring.tail).map fun w => [w.1, w.2]

/-- The loop over the windows, with `w[0]` and `w[1]`. -/
def strictlyIncreasing : List (List RingMember) → Except Panic Bool
  | [] => .ok true
  | w :: ws => do
    let first ← index w 0
    let second ← index w 1
    if second.treeIndex ≤ first.treeIndex then .ok false else strictlyIncreasing ws

def looksLikeTransparentPathEncoding (proof : Bytes) : Except Panic Bool :=
  if TRANSPARENT_PATH_DEBUG_TAG.length ≤ proof.length then do
    let tag ← sliceTo proof TRANSPARENT_PATH_DEBUG_TAG.length
    .ok (decide (tag = TRANSPARENT_PATH_DEBUG_TAG))
  else .ok false

/-- `verify` behind the decoder. -/
def verifyParsed [DecidableEq Point] (E : CryptoLib l Point)
    (msg membershipRoot pseudoCommitment keyImage : Bytes) (parsed : FcmpProof) : Except Panic Bool := do
  let root ← rootFromLeaves E.blake2_256 parsed.digests
  if root.val ≠ membershipRoot then .ok false
  else do
    let nonEmpty ← countNonEmpty E.blake2_256 parsed.digests 0
    if nonEmpty ≠ parsed.ring.length ∨ parsed.ring.isEmpty then .ok false
    else do
      match ← checkMembers E.blake2_256 parsed.digests parsed.ring [] with
      | none => .ok false
      | some seen => do
        let increasing ← strictlyIncreasing (windows parsed.ring)
        if ¬increasing then .ok false
        else if ¬coversEveryLeaf E.blake2_256 parsed.digests seen then .ok false
        else do
          let blob ← ringBlob parsed.ring
          let msg32 ← copyFromSlice msg
          Clsag.Traps.verifyWithMax E msg32.val blob pseudoCommitment keyImage parsed.clsag
            Clsag.MAX_FCMP_RING

def verify [DecidableEq Point] (E : CryptoLib l Point)
    (msg membershipRoot pseudoCommitment keyImage proof : Bytes) : Except Panic Bool :=
  if ¬publicInputsWellFormed msg membershipRoot pseudoCommitment keyImage proof then .ok false
  else do
    let ki ← copyFromSlice keyImage
    let cprime ← copyFromSlice pseudoCommitment
    if ¬Native.isValidPoint E ki ∨ ¬Native.isValidPoint E cprime then .ok false
    else do
      let transparent ← looksLikeTransparentPathEncoding proof
      if transparent then .ok false
      else do
        match ← decode proof with
        | none => .ok false
        | some parsed => verifyParsed E msg membershipRoot pseudoCommitment keyImage parsed

theorem countNonEmpty_eq (hash : Bytes → Bytes32) {digests : List Bytes32} {count : ℕ}
    (h : count + digests.length < 2 ^ 64) :
    countNonEmpty hash digests count = .ok (count + nonEmptyCount hash digests) := by
  induction digests generalizing count with
  | nil => rfl
  | cons d digests ih =>
    rw [List.length_cons] at h
    rw [countNonEmpty]
    unfold nonEmptyCount at ih ⊢
    split
    · next hd =>
      have hpos : decide (d ≠ emptyLeafHash hash) = true := decide_eq_true hd
      rw [add_eq_ok (by omega), ok_bind, ih (by omega), List.countP_cons, if_pos hpos, Nat.add_assoc,
        Nat.add_comm 1]
    · next hd =>
      have hneg : ¬decide (d ≠ emptyLeafHash hash) = true := mt of_decide_eq_true hd
      rw [ih (by omega), List.countP_cons, if_neg hneg, Nat.add_zero]

/-- The index of a member is below the number of digests when its digest is looked up. -/
theorem checkMembers_eq (hash : Bytes → Bytes32) (digests : List Bytes32) (ring : List RingMember)
    (seen : List UInt64) :
    checkMembers hash digests ring seen = .ok (Fcmp.checkMembers hash digests ring seen) := by
  induction ring generalizing seen with
  | nil => rfl
  | cons m ring ih =>
    rw [checkMembers, Fcmp.checkMembers]
    split
    · rfl
    next hindex =>
    have hlt : m.treeIndex.toNat < digests.length := by
      rw [not_or, Nat.not_le] at hindex
      exact hindex.1
    have hget : digests[m.treeIndex.toNat]? = some digests[m.treeIndex.toNat] :=
      List.getElem?_eq_getElem hlt
    dsimp only
    rw [index_eq_ok hget, ok_bind, hget, ih]
    simp only [ne_eq, Option.some.injEq]
    split
    · rfl
    · rfl

theorem strictlyIncreasing_eq (ring : List RingMember) :
    strictlyIncreasing (windows ring) = .ok (Fcmp.strictlyIncreasing ring) := by
  unfold windows Fcmp.strictlyIncreasing windowsAll
  induction ring.zip ring.tail with
  | nil => rfl
  | cons w ws ih =>
    rw [List.map_cons, strictlyIncreasing, List.all_cons]
    show (if w.2.treeIndex ≤ w.1.treeIndex then _ else _) =
      Except.ok (decide (w.1.treeIndex < w.2.treeIndex) && _)
    split
    · next hle => rw [decide_eq_false (UInt64.not_lt.mpr hle), Bool.false_and]
    · next hlt => rw [ih, decide_eq_true (UInt64.not_le.mp hlt), Bool.true_and]

theorem looksLikeTransparentPathEncoding_eq (proof : Bytes) :
    looksLikeTransparentPathEncoding proof = .ok (Fcmp.looksLikeTransparentPathEncoding proof) := by
  unfold looksLikeTransparentPathEncoding Fcmp.looksLikeTransparentPathEncoding
  split
  · next hlen => rw [sliceTo_eq_ok hlen, ok_bind, decide_eq_true hlen, Bool.true_and]
  · next hlen => rw [decide_eq_false hlen, Bool.false_and]

variable [DecidableEq Point] {E : CryptoLib l Point} {msg membershipRoot pseudoCommitment keyImage : Bytes}

/-- The verifier behind the decoder, on a proof the decoder accepts. -/
theorem verifyParsed_eq {proof : Bytes} {ki cprime : Bytes32} {parsed : FcmpProof}
    (hwf : publicInputsWellFormed msg membershipRoot pseudoCommitment keyImage proof = true)
    (hki : Bytes32.ofBytes keyImage = some ki) (hcprime : Bytes32.ofBytes pseudoCommitment = some cprime)
    (hvalid : ¬(¬Native.isValidPoint E ki ∨ ¬Native.isValidPoint E cprime))
    (hpath : Fcmp.looksLikeTransparentPathEncoding proof = false)
    (hdecode : FcmpProof.decode proof = some parsed) (hmsg : msg.length = 32) :
    verifyParsed E msg membershipRoot pseudoCommitment keyImage parsed =
      .ok (Fcmp.verify E msg membershipRoot pseudoCommitment keyImage proof) := by
  have hfits := FcmpLemmas.fitsWire_of_decode hdecode
  have hslots := hfits.slots_le
  have hring := hfits.ring_le
  have hblob := FcmpLemmas.length_ringBlob parsed.ring
  unfold verifyParsed Fcmp.verify
  rw [if_neg (not_not.mpr hwf), hki, hcprime]
  dsimp only
  rw [if_neg hvalid, if_neg (Bool.eq_false_iff.mp hpath), hdecode]
  dsimp only
  rw [rootFromLeaves_eq _ hslots, ok_bind]
  split
  · rfl
  rw [countNonEmpty_eq _ (by omega), ok_bind, Nat.zero_add]
  split
  · rfl
  rw [checkMembers_eq, ok_bind]
  cases Fcmp.checkMembers E.blake2_256 parsed.digests parsed.ring [] with
  | none => rfl
  | some seen =>
  dsimp only
  rw [strictlyIncreasing_eq, ok_bind]
  split
  · rfl
  split
  · rfl
  unfold ringBlob
  rw [mul_eq_ok (by omega), ok_bind, ok_bind, copyFromSlice_eq_ok hmsg, ok_bind,
    Clsag.Traps.verifyWithMax_eq (by omega)]

/-- What is refused before the digests of the proof are looked at. -/
theorem verify_eq_false {proof : Bytes} {ki cprime : Bytes32}
    (hwf : publicInputsWellFormed msg membershipRoot pseudoCommitment keyImage proof = true)
    (hki : Bytes32.ofBytes keyImage = some ki) (hcprime : Bytes32.ofBytes pseudoCommitment = some cprime)
    (h : (¬Native.isValidPoint E ki ∨ ¬Native.isValidPoint E cprime) ∨
      Fcmp.looksLikeTransparentPathEncoding proof = true ∨ FcmpProof.decode proof = none) :
    Fcmp.verify E msg membershipRoot pseudoCommitment keyImage proof = false := by
  unfold Fcmp.verify
  rw [if_neg (not_not.mpr hwf), hki, hcprime]
  dsimp only
  split
  · rfl
  next hvalid =>
  split
  · rfl
  next hpath =>
  rcases h with hbad | hbad | hnone
  · exact absurd hbad hvalid
  · exact absurd hbad hpath
  · rw [hnone]

theorem verify_eq (proof : Bytes) :
    verify E msg membershipRoot pseudoCommitment keyImage proof =
      .ok (Fcmp.verify E msg membershipRoot pseudoCommitment keyImage proof) := by
  unfold verify
  split
  · next hbad =>
    unfold Fcmp.verify
    rw [if_pos hbad]
  next hwf =>
  rw [not_not] at hwf
  have hlengths := hwf
  unfold publicInputsWellFormed at hlengths
  simp only [Bool.and_eq_true, decide_eq_true_eq] at hlengths
  obtain ⟨⟨⟨⟨hmsg, -⟩, hpseudo⟩, himage⟩, -⟩ := hlengths
  have hki : Bytes32.ofBytes keyImage = some ⟨keyImage, himage⟩ := dif_pos himage
  have hcprime : Bytes32.ofBytes pseudoCommitment = some ⟨pseudoCommitment, hpseudo⟩ := dif_pos hpseudo
  rw [copyFromSlice_eq_ok himage, ok_bind, copyFromSlice_eq_ok hpseudo, ok_bind]
  split
  · next hbad => rw [verify_eq_false hwf hki hcprime (.inl hbad)]
  next hvalid =>
  rw [looksLikeTransparentPathEncoding_eq, ok_bind]
  split
  · next hbad => rw [verify_eq_false hwf hki hcprime (.inr (.inl hbad))]
  next hpath =>
  rw [decode_eq, ok_bind]
  cases hdecode : FcmpProof.decode proof with
  | none => rw [verify_eq_false hwf hki hcprime (.inr (.inr hdecode))]
  | some parsed =>
    exact verifyParsed_eq hwf hki hcprime hvalid (Bool.eq_false_iff.mpr hpath) hdecode hmsg

/-! ## Both verifiers -/

/-- A slice of bytes of a 64-bit host, where no allocation is larger than `isize::MAX`. -/
def Slice : Type := { b : Bytes // b.length < 2 ^ 63 }

/-- Whatever bytes anyone sends, `fcmp::verify` and, for every cap on the ring, `clsag::verify_with_max`
come to their verdict: no slice or index out of range, no copy between slices of different lengths and
no overflow on the way. -/
theorem verify_total_on_hostile_bytes (E : CryptoLib l Point) :
    (∀ msg membershipRoot pseudoCommitment keyImage proof : Bytes,
      verify E msg membershipRoot pseudoCommitment keyImage proof =
        .ok (Fcmp.verify E msg membershipRoot pseudoCommitment keyImage proof)) ∧
    ∀ (msg ringBlob pseudo keyImage sig : Slice) (maxN : ℕ),
      Clsag.Traps.verifyWithMax E msg.val ringBlob.val pseudo.val keyImage.val sig.val maxN =
        .ok (Clsag.verifyWithMax E msg.val ringBlob.val pseudo.val keyImage.val sig.val maxN) := by
  constructor
  · intro msg membershipRoot pseudoCommitment keyImage proof
    exact verify_eq proof
  · intro msg ringBlob pseudo keyImage sig maxN
    exact Clsag.Traps.verifyWithMax_eq ringBlob.property maxN

end Fcmp.Traps

end Kohl
