import Kohl.Crypto.Clsag
import Kohl.MembershipTree

/-!
# FCMP0001 membership and spend proofs

`primitives/ringct-crypto/src/fcmp.rs`. A proof carries the leaf digests of the whole tree, the ring
of every filled slot and a CLSAG over that ring. The verifier recomputes the root from the digests,
checks that the ring lists exactly the filled slots, and verifies the CLSAG.

* `decode_layout`: decoding inverts the layout of a proof.
* `fitsWire_of_decode`: what is decoded has between one and 64 slots, no more ring members than slots
  and a signature of the ring's size.
* `layout_of_decode`: a string that decodes is the layout of what it decodes to.
-/

namespace Kohl.Fcmp

open ByteLib MembershipTree

variable {l : ℕ} {Point : Type} [AddCommGroup Point] [Module (ZMod l) Point]

/-! ## Public inputs -/

def PROOF_TAG : Bytes := ascii "FCMP0001"

/-- The tag of a debug transparent path, never a valid proof. -/
def TRANSPARENT_PATH_DEBUG_TAG : Bytes := ascii "TRPATH01"

def publicInputsWellFormed (msg membershipRoot pseudoCommitment keyImage proof : Bytes) : Bool :=
  decide (msg.length = 32) && decide (membershipRoot.length = 32) &&
    decide (pseudoCommitment.length = 32) && decide (keyImage.length = 32) &&
    decide (proof.length ≤ MAX_FCMP_PROOF_BYTES)

def looksLikeTransparentPathEncoding (proof : Bytes) : Bool :=
  decide (TRANSPARENT_PATH_DEBUG_TAG.length ≤ proof.length) &&
    decide (proof.take TRANSPARENT_PATH_DEBUG_TAG.length = TRANSPARENT_PATH_DEBUG_TAG)

/-! ## The proof codec -/

/-- One admitted output of the mature-set ring. -/
structure RingMember where
  oneTimeKey : Bytes32
  commitment : Bytes32
  treeIndex : UInt64
deriving DecidableEq

/-- A decoded proof. -/
structure FcmpProof where
  digests : List Bytes32
  ring : List RingMember
  clsag : Bytes
deriving DecidableEq

def memberBytes (m : RingMember) : Bytes :=
  m.oneTimeKey.val ++ m.commitment.val ++ u64LeBytes m.treeIndex

/-- The bytes of a proof, in order. -/
def FcmpProof.layout (p : FcmpProof) : Bytes :=
  PROOF_TAG ++ (leBytes 8 p.digests.length ++ (p.digests.flatMap Subtype.val ++
    (leBytes 4 p.ring.length ++ (p.ring.flatMap memberBytes ++ p.clsag))))

def FcmpProof.encode (p : FcmpProof) : Option Bytes :=
  let nSlots := p.digests.length
  let nRing := p.ring.length
  if nSlots = 0 ∨ MAX_FCMP_ANON_SET < nSlots ∨ nRing = 0 ∨ Clsag.MAX_FCMP_RING < nRing ∨
      nSlots < nRing then none
  else if p.clsag.length ≠ 32 * (nRing + 2) then none
  else if MAX_FCMP_PROOF_BYTES < p.layout.length then none
  else some p.layout

/-- The bytes `i..j`. -/
def slice (b : Bytes) (i j : ℕ) : Bytes := (b.drop i).take (j - i)

def parseMember (chunk : Bytes) : Option RingMember :=
  (Bytes32.ofBytes (chunk.take 32)).bind fun p =>
    (Bytes32.ofBytes (slice chunk 32 64)).map fun c =>
      ⟨p, c, u64FromLeBytes (slice chunk 64 72)⟩

def FcmpProof.decode (proof : Bytes) : Option FcmpProof :=
  if proof.length < 8 + 8 + 4 + 72 + 32 * 3 then none
  else if proof.take 8 ≠ PROOF_TAG then none
  else
    let nSlots := leNat (slice proof 8 16)
    if nSlots = 0 ∨ MAX_FCMP_ANON_SET < nSlots then none
    else
      let digestsEnd := 16 + nSlots * 32
      if proof.length < digestsEnd + 4 then none
      else
        (collect Bytes32.ofBytes (chunksExact 32 (slice proof 16 digestsEnd))).bind fun digests =>
        let nRing := leNat (slice proof digestsEnd (digestsEnd + 4))
        let o := digestsEnd + 4
        if nRing = 0 ∨ Clsag.MAX_FCMP_RING < nRing ∨ nSlots < nRing then none
        else
          let ringEnd := o + nRing * 72
          if proof.length < ringEnd then none
          else
            (collect parseMember (chunksExact 72 (slice proof o ringEnd))).bind fun ring =>
            if proof.length ≠ ringEnd + 32 * (nRing + 2) then none
            else some ⟨digests, ring, proof.drop ringEnd⟩

def ringBlob (ring : List RingMember) : Bytes :=
  ring.flatMap fun m => m.oneTimeKey.val ++ m.commitment.val

/-! ## Proving -/

/-- The witness of a spend of one admitted leaf in a fixed tree. -/
structure ProveWitness where
  digests : List Bytes32
  admitted : List RingMember
  realIndex : ℕ
  secretKey : Bytes32
  inputBlinding : Bytes32
  pseudoBlinding : Bytes32

structure ProveResult where
  proof : Bytes
  keyImage : Bytes32
  pseudoCommitment : Bytes32

/-- The digests other than the placeholder. -/
def nonEmptyCount (hash : Bytes → Bytes32) (digests : List Bytes32) : ℕ :=
  digests.countP fun d => decide (d ≠ emptyLeafHash hash)

/-- Every digest other than the placeholder is found in the ring at its index. -/
def findsEveryLeaf (hash : Bytes → Bytes32) (digests : List Bytes32) (ring : List RingMember) : Bool :=
  digests.zipIdx.all fun (d, i) =>
    decide (d = emptyLeafHash hash) ||
      match ring.find? fun m => m.treeIndex.toNat == i with
      | none => false
      | some m => decide (leafHash hash m.oneTimeKey m.commitment = d)

/-- The indices of a ring are strictly increasing. -/
def strictlyIncreasing (ring : List RingMember) : Bool :=
  windowsAll (fun a b => decide (a.treeIndex < b.treeIndex)) ring

/-- Build a proof for `msg` under the root of the witness's digests. -/
def prove [DecidableEq Point] (E : CryptoLib l Point) (nonces : Clsag.Nonces l) (msg : Bytes32)
    (witness : ProveWitness) : Except Clsag.Fault (Option ProveResult) :=
  let nSlots := witness.digests.length
  let nRing := witness.admitted.length
  if nSlots = 0 ∨ MAX_FCMP_ANON_SET < nSlots ∨ nRing = 0 ∨ Clsag.MAX_FCMP_RING < nRing ∨
      nRing ≤ witness.realIndex then .ok none
  else if ¬findsEveryLeaf E.blake2_256 witness.digests witness.admitted then .ok none
  else if nonEmptyCount E.blake2_256 witness.digests ≠ nRing then .ok none
  else if ¬strictlyIncreasing witness.admitted then .ok none
  else
    match Clsag.signWithMax E nonces msg.val (ringBlob witness.admitted) witness.realIndex
        witness.secretKey witness.inputBlinding witness.pseudoBlinding Clsag.MAX_FCMP_RING with
    | .error fault => .error fault
    | .ok none => .ok none
    | .ok (some clsag) =>
      match FcmpProof.encode ⟨witness.digests, witness.admitted, clsag.signature⟩ with
      | none => .ok none
      | some bytes => .ok (some ⟨bytes, clsag.keyImage, clsag.pseudoCommitment⟩)

/-! ## Verifying -/

/-- The loop over the ring members: every index is in range and new, and its digest is the leaf of
the member. `seen` holds the indices met so far; the result is the final set. -/
def checkMembers (hash : Bytes → Bytes32) (digests : List Bytes32) :
    List RingMember → List UInt64 → Option (List UInt64)
  | [], seen => some seen
  | m :: ms, seen =>
    if digests.length ≤ m.treeIndex.toNat ∨ m.treeIndex ∈ seen then none
    else
      let lh := leafHash hash m.oneTimeKey m.commitment
      if digests[m.treeIndex.toNat]? ≠ some lh ∨ lh = emptyLeafHash hash then none
      else checkMembers hash digests ms (m.treeIndex :: seen)

/-- No digest other than the placeholder is left out of the ring. -/
def coversEveryLeaf (hash : Bytes → Bytes32) (digests : List Bytes32) (seen : List UInt64) : Bool :=
  digests.zipIdx.all fun (d, i) =>
    decide (d = emptyLeafHash hash) || decide (UInt64.ofNat i ∈ seen)

/-- Verify one FCMP+SA+L proof (`verify_fcmp_v1`). -/
def verify [DecidableEq Point] (E : CryptoLib l Point)
    (msg membershipRoot pseudoCommitment keyImage proof : Bytes) : Bool :=
  if ¬publicInputsWellFormed msg membershipRoot pseudoCommitment keyImage proof then false
  else
    match Bytes32.ofBytes keyImage, Bytes32.ofBytes pseudoCommitment with
    | some ki, some cprime =>
      if ¬Native.isValidPoint E ki ∨ ¬Native.isValidPoint E cprime then false
      else if looksLikeTransparentPathEncoding proof then false
      else
        match FcmpProof.decode proof with
        | none => false
        | some parsed =>
          if (rootFromLeaves E.blake2_256 parsed.digests).val ≠ membershipRoot then false
          else if nonEmptyCount E.blake2_256 parsed.digests ≠ parsed.ring.length ∨
              parsed.ring.isEmpty then false
          else
            match checkMembers E.blake2_256 parsed.digests parsed.ring [] with
            | none => false
            | some seen =>
              if ¬strictlyIncreasing parsed.ring then false
              else if ¬coversEveryLeaf E.blake2_256 parsed.digests seen then false
              else Clsag.verifyWithMax E msg (ringBlob parsed.ring) pseudoCommitment keyImage
                parsed.clsag Clsag.MAX_FCMP_RING
    | _, _ => false

/-! ## The codec round trip -/

namespace FcmpLemmas

theorem slice_append {a b c : Bytes} {i j : ℕ} (ha : a.length = i) (hb : i + b.length = j) :
    slice (a ++ (b ++ c)) i j = b := by
  rw [slice, List.drop_left' ha, List.take_left' (by omega)]

@[simp] theorem length_memberBytes (m : RingMember) : (memberBytes m).length = 72 := by
  simp [memberBytes]

theorem length_flatMap_digests (ds : List Bytes32) :
    (ds.flatMap Subtype.val).length = ds.length * 32 := by
  rw [List.length_flatMap, List.map_congr_left (g := fun _ => 32) (by simp), List.map_const',
    List.sum_replicate, smul_eq_mul]

theorem length_flatMap_members (ring : List RingMember) :
    (ring.flatMap memberBytes).length = ring.length * 72 := by
  simp [List.length_flatMap, List.map_const', List.sum_replicate]

theorem length_ringBlob (ring : List RingMember) : (ringBlob ring).length = ring.length * 64 := by
  simp [ringBlob, List.length_flatMap, List.map_const', List.sum_replicate]

theorem parseMember_memberBytes (m : RingMember) : parseMember (memberBytes m) = some m := by
  have hp : (memberBytes m).take 32 = m.oneTimeKey.val := by
    rw [memberBytes, List.append_assoc, List.take_left' (Bytes32.length_val _)]
  have hc : slice (memberBytes m) 32 64 = m.commitment.val := by
    rw [memberBytes, List.append_assoc]
    exact slice_append (Bytes32.length_val _) (by simp)
  have hi : slice (memberBytes m) 64 72 = u64LeBytes m.treeIndex := by
    rw [memberBytes, ← List.append_nil (u64LeBytes m.treeIndex)]
    exact slice_append (by simp) (by simp)
  simp [parseMember, hp, hc, hi]

theorem length_layout (p : FcmpProof) : p.layout.length =
    8 + 8 + p.digests.length * 32 + 4 + p.ring.length * 72 + p.clsag.length := by
  have htag : PROOF_TAG.length = 8 := rfl
  simp only [FcmpProof.layout, List.length_append, length_leBytes, length_flatMap_digests,
    length_flatMap_members, htag]
  omega

/-- What a proof has that `encode` accepts. -/
structure FitsWire (p : FcmpProof) : Prop where
  slots_pos : 0 < p.digests.length
  slots_le : p.digests.length ≤ 64
  ring_pos : 0 < p.ring.length
  ring_le : p.ring.length ≤ p.digests.length
  clsag_len : p.clsag.length = 32 * (p.ring.length + 2)

theorem encode_of_fitsWire {p : FcmpProof} (h : FitsWire p) : p.encode = some p.layout := by
  obtain ⟨h1, h2, h3, h4, h5⟩ := h
  have hlen := length_layout p
  simp only [FcmpProof.encode]
  have hanon : MAX_FCMP_ANON_SET = 64 := rfl
  have hmax : Clsag.MAX_FCMP_RING = 64 := rfl
  have hbytes : MAX_FCMP_PROOF_BYTES = 12288 := rfl
  split
  · omega
  split
  · omega
  split
  · omega
  rfl

theorem fitsWire_of_encode {p : FcmpProof} {b : Bytes} (h : p.encode = some b) :
    FitsWire p ∧ b = p.layout ∧ b.length ≤ MAX_FCMP_PROOF_BYTES := by
  simp only [FcmpProof.encode] at h
  have hanon : MAX_FCMP_ANON_SET = 64 := rfl
  split at h
  · cases h
  next h1 =>
  split at h
  · cases h
  next h2 =>
  split at h
  · cases h
  next h3 =>
  rw [Option.some.injEq] at h
  subst h
  exact ⟨⟨by omega, by omega, by omega, by omega, by omega⟩, rfl, by omega⟩

/-- Decoding inverts the layout. -/
theorem decode_layout {p : FcmpProof} (h : FitsWire p) :
    FcmpProof.decode p.layout = some p := by
  obtain ⟨h1, h2, h3, h4, h5⟩ := h
  have hlen := length_layout p
  have htag : PROOF_TAG.length = 8 := rfl
  have htake : p.layout.take 8 = PROOF_TAG := List.take_left' htag
  have hslots : leNat (slice p.layout 8 16) = p.digests.length := by
    rw [FcmpProof.layout, slice_append htag (by simp), leNat_leBytes_of_lt (by omega)]
  have hdigests : slice p.layout 16 (16 + p.digests.length * 32) = p.digests.flatMap Subtype.val := by
    rw [FcmpProof.layout, ← List.append_assoc]
    exact slice_append (by simp [htag]) (by rw [length_flatMap_digests])
  have hring : leNat (slice p.layout (16 + p.digests.length * 32)
      (16 + p.digests.length * 32 + 4)) = p.ring.length := by
    rw [FcmpProof.layout, ← List.append_assoc, ← List.append_assoc, slice_append ?_ (by simp),
      leNat_leBytes_of_lt (by omega)]
    simp only [List.length_append, length_leBytes, length_flatMap_digests, htag]
  have hmembers : slice p.layout (16 + p.digests.length * 32 + 4)
      (16 + p.digests.length * 32 + 4 + p.ring.length * 72) = p.ring.flatMap memberBytes := by
    rw [FcmpProof.layout, ← List.append_assoc, ← List.append_assoc, ← List.append_assoc]
    refine slice_append ?_ (by rw [length_flatMap_members])
    simp only [List.length_append, length_leBytes, length_flatMap_digests, htag]
  have hclsag : p.layout.drop (16 + p.digests.length * 32 + 4 + p.ring.length * 72) = p.clsag := by
    rw [FcmpProof.layout, ← List.append_assoc, ← List.append_assoc, ← List.append_assoc,
      ← List.append_assoc]
    refine List.drop_left' ?_
    simp only [List.length_append, length_leBytes, length_flatMap_digests, length_flatMap_members,
      htag]
  have hcollect : collect Bytes32.ofBytes (chunksExact 32 (p.digests.flatMap Subtype.val)) =
      some p.digests := by
    rw [List.flatMap_def, chunksExact_flatten (by omega) (by simp +contextual), collect_map,
      collect_eq_some_map (g := id) (by simp), List.map_id]
  have hcollect' : collect parseMember (chunksExact 72 (p.ring.flatMap memberBytes)) =
      some p.ring := by
    rw [List.flatMap_def, chunksExact_flatten (by omega) (by simp), collect_map,
      collect_eq_some_map (g := id) (by simp [parseMember_memberBytes]), List.map_id]
  have hanon : MAX_FCMP_ANON_SET = 64 := rfl
  have hmax : Clsag.MAX_FCMP_RING = 64 := rfl
  simp only [FcmpProof.decode, htake, hslots, hdigests, hring, hmembers, hclsag, hcollect,
    hcollect', Option.bind_some, hlen]
  rw [if_neg (by omega), if_neg (by simp), if_neg (by omega), if_neg (by omega), if_neg (by omega),
    if_neg (by omega), if_neg (by omega)]

/-- The sections a decoded string is cut into. -/
structure Sections (b : Bytes) (p : FcmpProof) : Prop where
  tag : b.take 8 = PROOF_TAG
  slots : leNat (slice b 8 16) = p.digests.length
  digests : slice b 16 (16 + p.digests.length * 32) = p.digests.flatMap Subtype.val
  ringLength : leNat (slice b (16 + p.digests.length * 32) (16 + p.digests.length * 32 + 4)) =
    p.ring.length
  ring : slice b (16 + p.digests.length * 32 + 4)
    (16 + p.digests.length * 32 + 4 + p.ring.length * 72) = p.ring.flatMap memberBytes
  clsag : b.drop (16 + p.digests.length * 32 + 4 + p.ring.length * 72) = p.clsag
  length : b.length =
    16 + p.digests.length * 32 + 4 + p.ring.length * 72 + 32 * (p.ring.length + 2)
  slots_pos : 0 < p.digests.length
  slots_le : p.digests.length ≤ 64
  ring_pos : 0 < p.ring.length
  ring_le : p.ring.length ≤ p.digests.length

theorem length_slice {b : Bytes} {i j : ℕ} (hi : i ≤ j) (hj : j ≤ b.length) :
    (slice b i j).length = j - i := by
  rw [slice, List.length_take, List.length_drop, min_eq_left (by omega)]

theorem slice_append_drop {b : Bytes} {i j : ℕ} (hij : i ≤ j) : slice b i j ++ b.drop j = b.drop i := by
  obtain ⟨k, rfl⟩ := Nat.exists_eq_add_of_le hij
  rw [slice, Nat.add_sub_cancel_left, ← List.drop_drop, List.take_append_drop]

theorem memberBytes_of_parseMember {chunk : Bytes} {m : RingMember} (hlen : chunk.length = 72)
    (h : parseMember chunk = some m) : memberBytes m = chunk := by
  unfold parseMember at h
  rw [Option.bind_eq_some_iff] at h
  obtain ⟨p, hp, h⟩ := h
  rw [Option.map_eq_some_iff] at h
  obtain ⟨c, hc, rfl⟩ := h
  rw [Bytes32.ofBytes_eq_some] at hp hc
  have hindex : (slice chunk 64 72).length = 8 := length_slice (by omega) hlen.ge
  have hlast : slice chunk 64 72 = chunk.drop 64 := by
    rw [slice, List.take_of_length_le]
    rw [List.length_drop]
    omega
  rw [memberBytes, hp, hc, u64LeBytes_u64FromLeBytes hindex, hlast, List.append_assoc,
    slice_append_drop (by omega), List.take_append_drop]

/-- What a decoded proof says about its bytes. -/
theorem sections_of_decode {b : Bytes} {p : FcmpProof} (h : FcmpProof.decode b = some p) :
    Sections b p := by
  simp only [FcmpProof.decode] at h
  have hanon : MAX_FCMP_ANON_SET = 64 := rfl
  split at h
  · cases h
  split at h
  · cases h
  next htag =>
  split at h
  · cases h
  next hs =>
  split at h
  · cases h
  next hlen =>
  rw [Option.bind_eq_some_iff] at h
  obtain ⟨digests, hd, h⟩ := h
  split at h
  · cases h
  next hr =>
  split at h
  · cases h
  next hlen' =>
  rw [Option.bind_eq_some_iff] at h
  obtain ⟨ring, hring, h⟩ := h
  split at h
  · cases h
  next hlast =>
  rw [Option.some.injEq] at h
  subst h
  generalize hslots : leNat (slice b 8 16) = nSlots at *
  generalize hcount : leNat (slice b (16 + nSlots * 32) (16 + nSlots * 32 + 4)) = nRing at *
  have hdslice : (slice b 16 (16 + nSlots * 32)).length = nSlots * 32 := by
    rw [length_slice (by omega) (by omega)]
    omega
  have hrslice : (slice b (16 + nSlots * 32 + 4) (16 + nSlots * 32 + 4 + nRing * 72)).length =
      nRing * 72 := by
    rw [length_slice (by omega) (by omega)]
    omega
  have hdl : digests.length = nSlots := by
    rw [length_of_collect hd, length_chunksExact, hdslice, Nat.mul_div_cancel _ (by omega)]
  have hrl : ring.length = nRing := by
    rw [length_of_collect hring, length_chunksExact, hrslice, Nat.mul_div_cancel _ (by omega)]
  have hdbytes := flatMap_of_collect_chunksExact (by omega) (Dvd.intro_left _ hdslice.symm)
    (fun c a _ ha => Bytes32.ofBytes_eq_some.mp ha) hd
  have hrbytes := flatMap_of_collect_chunksExact (by omega) (Dvd.intro_left _ hrslice.symm)
    (fun c a hc ha => memberBytes_of_parseMember hc ha) hring
  subst hdl hrl
  exact ⟨not_not.mp htag, hslots, hdbytes.symm, hcount, hrbytes.symm, rfl, not_not.mp hlast,
    by show 0 < digests.length; omega, by show digests.length ≤ 64; omega,
    by show 0 < ring.length; omega, by show ring.length ≤ digests.length; omega⟩

/-- A decoded proof has at least one slot and at most 64, a ring that is not larger, and a CLSAG of
the ring's size. -/
theorem fitsWire_of_decode {b : Bytes} {p : FcmpProof} (h : FcmpProof.decode b = some p) :
    FitsWire p := by
  have hsec := sections_of_decode h
  refine ⟨hsec.slots_pos, hsec.slots_le, hsec.ring_pos, hsec.ring_le, ?_⟩
  rw [← hsec.clsag, List.length_drop, hsec.length]
  omega

/-- A string that decodes is the layout of what it decodes to. -/
theorem layout_of_decode {b : Bytes} {p : FcmpProof} (h : FcmpProof.decode b = some p) :
    p.layout = b := by
  have hsec := sections_of_decode h
  have hlen := hsec.length
  have hslots : leBytes 8 p.digests.length = slice b 8 16 := by
    have hback := leBytes_leNat (slice b 8 16)
    rw [length_slice (by omega) (by omega), hsec.slots] at hback
    exact hback
  have hcount : leBytes 4 p.ring.length =
      slice b (16 + p.digests.length * 32) (16 + p.digests.length * 32 + 4) := by
    have hback := leBytes_leNat
      (slice b (16 + p.digests.length * 32) (16 + p.digests.length * 32 + 4))
    rw [length_slice (by omega) (by omega), hsec.ringLength, Nat.add_sub_cancel_left] at hback
    exact hback
  rw [FcmpProof.layout, ← hsec.tag, hslots, hcount, ← hsec.digests, ← hsec.ring, ← hsec.clsag,
    slice_append_drop (by omega), slice_append_drop (by omega), slice_append_drop (by omega),
    slice_append_drop (by omega), List.take_append_drop]

theorem slice_append_left {b rest : Bytes} {i j : ℕ} (hi : i ≤ j) (hj : j ≤ b.length) :
    slice (b ++ rest) i j = slice b i j := by
  rw [slice, slice, List.drop_append_of_le_length (by omega),
    List.take_append_of_le_length (by rw [List.length_drop]; omega)]

/-- No proper extension of a string that decodes decodes: the two counts fix the length. -/
theorem eq_nil_of_decode_append {b rest : Bytes} {p q : FcmpProof}
    (hb : FcmpProof.decode b = some p) (hr : FcmpProof.decode (b ++ rest) = some q) : rest = [] := by
  have hp := sections_of_decode hb
  have hq := sections_of_decode hr
  have hlen := hp.length
  have hlen' := hq.length
  have hslots := hq.slots
  rw [slice_append_left (by omega) (by omega), hp.slots] at hslots
  have hring := hq.ringLength
  rw [← hslots, slice_append_left (by omega) (by omega), hp.ringLength] at hring
  rw [← hslots, ← hring, List.length_append, hlen] at hlen'
  exact List.length_eq_zero_iff.mp (by omega)

end FcmpLemmas

end Kohl.Fcmp
