import Mathlib.Tactic.Module
import Kohl.Crypto.Native
import Kohl.Lib.RingChain

/-!
# CLSAG linkable ring signatures

`primitives/ringct-crypto/src/clsag.rs`. A signature over a ring of pairs `(P_i, C_i)` shows
knowledge of `x` and `z` with `P_l = x·G`, key image `I = x·Hp(P_l)` and `C_l − C' = z·G` for one
undisclosed position `l`.

The signer walks the ring cyclically from behind its own position, the verifier from position `0`;
both take the same step (`ringStep`). `signWithMax_spec` says that the signer never runs out of steps,
never misses position `0`, and that what it signs verifies.
-/

namespace Kohl.Clsag

open ByteLib

variable {l : ℕ} {Point : Type} [AddCommGroup Point] [Module (ZMod l) Point]

/-! ## Hashes and decoding -/

/-- `MAX_FCMP_RING`: the cap on the ring of a full mature set. -/
def MAX_FCMP_RING : ℕ := MAX_FCMP_ANON_SET

def DOM_AGG_KEY : Bytes := ascii "kohl/clsag/agg-key/v1"
def DOM_AGG_COM : Bytes := ascii "kohl/clsag/agg-com/v1"
def DOM_ROUND : Bytes := ascii "kohl/clsag/round/v1"
def DOM_HP : Bytes := ascii "kohl/clsag/hp/v1"

/-- Hash to scalar over the concatenated parts. -/
def hs (E : CryptoLib l Point) (domain : Bytes) (parts : List Bytes) : ZMod l :=
  E.scalarFromHash (domain ++ parts.flatten)

/-- Hash to point, for key images. -/
def hp (E : CryptoLib l Point) (pointBytes : Bytes) : Point := E.pointFromHash (DOM_HP ++ pointBytes)

def scalar (E : CryptoLib l Point) (bytes : Bytes) : Option (ZMod l) :=
  (Bytes32.ofBytes bytes).bind E.scalarFromCanonicalBytes

def decompress (E : CryptoLib l Point) (bytes : Bytes) : Option Point :=
  (Bytes32.ofBytes bytes).bind E.decompress

/-- The pair of points of one ring entry `P ‖ C`. -/
def parsePair (E : CryptoLib l Point) (pair : Bytes) : Option (Point × Point) :=
  (decompress E (pair.take 32)).bind fun key =>
    (decompress E (pair.drop 32)).map fun commitment => (key, commitment)

/-- Parse a ring blob into one-time keys and commitments. -/
def parseRing (E : CryptoLib l Point) (blob : Bytes) (maxN : ℕ) :
    Option (List Point × List Point) :=
  if blob.isEmpty || decide (blob.length % 64 ≠ 0) then none
  else
    let n := blob.length / 64
    if n = 0 ∨ maxN < n then none
    else (collect (parsePair E) (chunksExact 64 blob)).map List.unzip

/-- The coefficients `μ_P` and `μ_C`. -/
def aggregationCoefficients (E : CryptoLib l Point) (ringBlob keyImage auxImage pseudo : Bytes) :
    ZMod l × ZMod l :=
  (hs E DOM_AGG_KEY [ringBlob, keyImage, auxImage, pseudo],
    hs E DOM_AGG_COM [ringBlob, keyImage, auxImage, pseudo])

/-- The next challenge `Hs(ring ‖ C' ‖ msg ‖ L ‖ R)`. -/
def roundChallenge (E : CryptoLib l Point) (ringBlob pseudo msg lBytes rBytes : Bytes) : ZMod l :=
  hs E DOM_ROUND [ringBlob, pseudo, msg, lBytes, rBytes]

/-- The bytes of the one-time key at position `i` of a ring blob. -/
def keyBytes (ringBlob : Bytes) (i : ℕ) : Bytes := (ringBlob.drop (i * 64)).take 32

/-- What every step of one signature shares. -/
structure Context (l : ℕ) (Point : Type) where
  ringBlob : Bytes
  pseudo : Bytes
  msg : Bytes
  keys : List Point
  commitments : List Point
  pseudoPoint : Point
  muP : ZMod l
  muC : ZMod l
  wTilde : Point

/-- One step round the ring: from the challenge `c` at position `i` to the next one, under the
responses `s`. -/
def ringStep (E : CryptoLib l Point) (ctx : Context l Point) (s : List (ZMod l)) (i : ℕ)
    (c : ZMod l) : ZMod l :=
  let wI := ctx.muP • ctx.keys.getD i 0 + ctx.muC • (ctx.commitments.getD i 0 - ctx.pseudoPoint)
  let lPoint := s.getD i 0 • E.G + c • wI
  let rPoint := s.getD i 0 • hp E (keyBytes ctx.ringBlob i) + c • ctx.wTilde
  roundChallenge E ctx.ringBlob ctx.pseudo ctx.msg (E.compress lPoint).val (E.compress rPoint).val

/-! ## Key images and signing -/

/-- The key image `x·Hp(x·G)` of a one-time secret. -/
def keyImage (E : CryptoLib l Point) (secretKey : Bytes32) : Option Bytes32 :=
  (E.scalarFromCanonicalBytes secretKey).map fun x =>
    E.compress (x • hp E (E.compress (x • E.G)).val)

/-- The signature `c0 ‖ s_0 … s_{n−1} ‖ D`, the key image and the pseudo-commitment. -/
structure ClsagResult where
  signature : Bytes
  keyImage : Bytes32
  pseudoCommitment : Bytes32

/-- Ways for the signer not to return: the loop does not end, or the `expect` behind it fires. -/
inductive Fault
  | outOfFuel
  | expectFailed
deriving DecidableEq, Repr

/-- The signer's random scalars: the nonce `a` and the responses `s_i`. -/
structure Nonces (l : ℕ) where
  a : ZMod l
  s : ℕ → ZMod l

def encodeSignature (E : CryptoLib l Point) (c0 : ZMod l) (s : List (ZMod l)) (auxImage : Bytes32) :
    Bytes :=
  (E.scalarToBytes c0).val ++ s.flatMap (fun si => (E.scalarToBytes si).val) ++ auxImage.val

/-- The context both sides compute from the public data and the points behind `C'`, `I` and `D`. -/
def context (E : CryptoLib l Point) (msg ringBlob pseudo keyImage auxImage : Bytes)
    (keys commitments : List Point) (pseudoPoint iPoint dPoint : Point) : Context l Point :=
  let mu := aggregationCoefficients E ringBlob keyImage auxImage pseudo
  ⟨ringBlob, pseudo, msg, keys, commitments, pseudoPoint, mu.1, mu.2,
    mu.1 • iPoint + mu.2 • dPoint⟩

/-- The signer behind its checks: `x` is the secret of the real position, `z` the difference of the
blindings. -/
def signRing (E : CryptoLib l Point) (nonces : Nonces l) (msg ringBlob : Bytes) (realIndex : ℕ)
    (keys commitments : List Point) (x z : ZMod l) : Except Fault (Option ClsagResult) :=
  let n := keys.length
  let pseudoPoint := commitments.getD realIndex 0 - z • E.G
  let hpReal := hp E (keyBytes ringBlob realIndex)
  let iPoint := x • hpReal
  let dPoint := z • hpReal
  let pseudo := E.compress pseudoPoint
  let keyImage := E.compress iPoint
  let auxImage := E.compress dPoint
  let ctx := context E msg ringBlob pseudo.val keyImage.val auxImage.val keys commitments
    pseudoPoint iPoint dPoint
  let w := ctx.muP * x + ctx.muC * z
  let s := (List.range n).map nonces.s
  -- The challenge behind the real position, seeded by the real spend.
  let c := roundChallenge E ringBlob pseudo.val msg (E.compress (nonces.a • E.G)).val
    (E.compress (nonces.a • hpReal)).val
  let cur := (realIndex + 1) % n
  match RingChain.loop (ringStep E ctx s) n realIndex n cur c (if cur = 0 then some c else none) with
  | none => .error .outOfFuel
  | some (_, none) => .error .expectFailed
  | some (c, some c0) =>
    .ok (some ⟨encodeSignature E c0 (s.set realIndex (nonces.a - c * w)) auxImage, keyImage, pseudo⟩)

/-- Sign with an explicit cap on the ring size. -/
def signWithMax [DecidableEq Point] (E : CryptoLib l Point) (nonces : Nonces l) (msg : Bytes)
    (ringBlob : Bytes) (realIndex : ℕ) (secretKey inputBlinding pseudoBlinding : Bytes32)
    (maxN : ℕ) : Except Fault (Option ClsagResult) :=
  match parseRing E ringBlob maxN with
  | none => .ok none
  | some (keys, commitments) =>
    if keys.length ≤ realIndex then .ok none
    else
      match E.scalarFromCanonicalBytes secretKey with
      | none => .ok none
      | some x =>
        if keys.getD realIndex 0 ≠ x • E.G then .ok none
        else
          match E.scalarFromCanonicalBytes inputBlinding,
            E.scalarFromCanonicalBytes pseudoBlinding with
          | some xIn, some xPseudo =>
            signRing E nonces msg ringBlob realIndex keys commitments x (xIn - xPseudo)
          | _, _ => .ok none

/-! ## Verification -/

/-- Verify with an explicit cap on the ring size. -/
def verifyWithMax [DecidableEq Point] (E : CryptoLib l Point) (msg ringBlob pseudo keyImage sig : Bytes)
    (maxN : ℕ) : Bool :=
  if msg.length ≠ 32 ∨ pseudo.length ≠ 32 ∨ keyImage.length ≠ 32 then false
  else
    match parseRing E ringBlob maxN with
    | none => false
    | some (keys, commitments) =>
      let n := keys.length
      if sig.length ≠ 32 * (n + 2) then false
      else
        match scalar E (sig.take 32),
          collect (scalar E) (chunksExact 32 ((sig.drop 32).take (32 * n))),
          decompress E (sig.drop (32 * (n + 1))), decompress E pseudo, decompress E keyImage with
        | some c0, some s, some dPoint, some pseudoPoint, some iPoint =>
          if iPoint = 0 then false
          else
            let auxImage := sig.drop (32 * (n + 1))
            let ctx := context E msg ringBlob pseudo keyImage auxImage keys commitments
              pseudoPoint iPoint dPoint
            decide (RingChain.walk (ringStep E ctx s) 0 n c0 = c0)
        | _, _, _, _, _ => false

/-! ## Parsing a ring -/

namespace ClsagLemmas

omit [AddCommGroup Point] [Module (ZMod l) Point] in
theorem parsePair_eq_some {E : CryptoLib l Point} {pair : Bytes} {key commitment : Point} :
    parsePair E pair = some (key, commitment) ↔
      decompress E (pair.take 32) = some key ∧ decompress E (pair.drop 32) = some commitment := by
  simp only [parsePair, Option.bind_eq_some_iff, Option.map_eq_some_iff, Prod.mk.injEq]
  constructor
  · rintro ⟨k, hk, c, hc, rfl, rfl⟩
    exact ⟨hk, hc⟩
  · rintro ⟨hk, hc⟩
    exact ⟨key, hk, commitment, hc, rfl, rfl⟩

omit [Module (ZMod l) Point] in
/-- What a parsed ring is: at least one pair, at most `maxN`, and every pair decompresses. -/
theorem parseRing_eq_some {E : CryptoLib l Point} {blob : Bytes} {maxN : ℕ}
    {keys commitments : List Point} (h : parseRing E blob maxN = some (keys, commitments)) :
    keys.length = blob.length / 64 ∧ commitments.length = blob.length / 64 ∧
      0 < keys.length ∧ keys.length ≤ maxN ∧
      ∀ i, i < keys.length → parsePair E ((blob.drop (i * 64)).take 64) =
        some (keys.getD i 0, commitments.getD i 0) := by
  unfold parseRing at h
  split at h
  · exact absurd h (by simp)
  dsimp only at h
  split at h
  · exact absurd h (by simp)
  next hn =>
  rw [Option.map_eq_some_iff] at h
  obtain ⟨pairs, hpairs, hunzip⟩ := h
  have hlen : pairs.length = blob.length / 64 := by
    rw [length_of_collect hpairs, length_chunksExact]
  rw [List.unzip_eq_map, Prod.mk.injEq] at hunzip
  obtain ⟨rfl, rfl⟩ := hunzip
  rw [not_or] at hn
  simp only [List.length_map, hlen]
  refine ⟨trivial, trivial, by omega, by omega, fun i hi => ?_⟩
  have hchunk : (chunksExact 64 blob)[i]? = some ((blob.drop (i * 64)).take 64) := by
    simp [chunksExact, hi]
  have hget : ((chunksExact 64 blob).map (parsePair E))[i]? = (pairs.map some)[i]? := by
    rw [collect_eq_some_iff.mp hpairs]
  rw [List.getElem?_map, hchunk, Option.map_some, List.getElem?_map,
    List.getElem?_eq_getElem (by omega), Option.map_some, Option.some.injEq] at hget
  rw [hget]
  simp [List.getD_eq_getElem?_getD, hlen, hi]

omit [Module (ZMod l) Point] in
/-- The key bytes of a parsed ring are the encoding of the key. -/
theorem keyBytes_of_parseRing {E : CryptoLib l Point} (hE : E.Canonical) {blob : Bytes} {maxN : ℕ}
    {keys commitments : List Point} (h : parseRing E blob maxN = some (keys, commitments))
    {i : ℕ} (hi : i < keys.length) : keyBytes blob i = (E.compress (keys.getD i 0)).val := by
  obtain ⟨-, -, -, -, hpair⟩ := parseRing_eq_some h
  have hkey := (parsePair_eq_some.mp (hpair i hi)).1
  rw [List.take_take, decompress, Option.bind_eq_some_iff] at hkey
  obtain ⟨b, hb, hdec⟩ := hkey
  rw [hE.compress_of_decompress hdec, Bytes32.ofBytes_eq_some.mp hb]
  rfl

/-! ## The signer and the verifier agree -/

section Encoding

omit [AddCommGroup Point] [Module (ZMod l) Point]

@[simp] theorem scalar_toBytes {E : CryptoLib l Point} (hS : E.CanonicalScalars) (x : ZMod l) :
    scalar E (E.scalarToBytes x).val = some x := by
  simp [scalar, hS x]

@[simp] theorem decompress_compress {E : CryptoLib l Point} (hE : E.Canonical) (p : Point) :
    decompress E (E.compress p).val = some p := by
  simp [decompress, hE.decompress_compress]

theorem length_flatMap_scalars (E : CryptoLib l Point) (s : List (ZMod l)) :
    (s.flatMap fun si => (E.scalarToBytes si).val).length = 32 * s.length := by
  induction s with
  | nil => rfl
  | cons a s ih =>
    rw [List.flatMap_cons, List.length_append, ih, Bytes32.length_val, List.length_cons]
    ring

@[simp] theorem length_encodeSignature (E : CryptoLib l Point) (c0 : ZMod l) (s : List (ZMod l))
    (auxImage : Bytes32) : (encodeSignature E c0 s auxImage).length = 32 * (s.length + 2) := by
  simp only [encodeSignature, List.length_append, length_flatMap_scalars, Bytes32.length_val]
  ring

/-- The three parts of an encoded signature are read back. -/
theorem encodeSignature_parts {E : CryptoLib l Point} (hS : E.CanonicalScalars) (c0 : ZMod l)
    (s : List (ZMod l)) (auxImage : Bytes32) :
    scalar E ((encodeSignature E c0 s auxImage).take 32) = some c0 ∧
    collect (scalar E) (chunksExact 32 (((encodeSignature E c0 s auxImage).drop 32).take
      (32 * s.length))) = some s ∧
    (encodeSignature E c0 s auxImage).drop (32 * (s.length + 1)) = auxImage.val := by
  have hc0 : (E.scalarToBytes c0).val.length = 32 := Bytes32.length_val _
  have hs := length_flatMap_scalars E s
  refine ⟨?_, ?_, ?_⟩
  · rw [encodeSignature, List.append_assoc, List.take_left' hc0, scalar_toBytes hS]
  · rw [encodeSignature, List.append_assoc, List.drop_left' hc0, List.take_left' hs,
      List.flatMap_def, chunksExact_flatten (by omega) (by simp), collect_map,
      collect_eq_some_map (g := id) (by simp [hS]), List.map_id]
  · have hsum : 32 * (s.length + 1) = ((E.scalarToBytes c0).val ++
        s.flatMap fun si => (E.scalarToBytes si).val).length := by
      rw [List.length_append, hs, hc0]
      ring
    rw [encodeSignature, hsum, List.drop_left]

end Encoding

/-- At its own position the signer's response sends the closing challenge to the first one: both
points collapse to the nonce's. -/
theorem ringStep_real {E : CryptoLib l Point} {msg ringBlob pseudo keyImage auxImage : Bytes}
    {keys commitments : List Point} {realIndex : ℕ} {x z a c : ZMod l} {s : List (ZMod l)}
    {ctx : Context l Point}
    (hctx : ctx = context E msg ringBlob pseudo keyImage auxImage keys commitments
      (commitments.getD realIndex 0 - z • E.G) (x • hp E (keyBytes ringBlob realIndex))
      (z • hp E (keyBytes ringBlob realIndex)))
    (hkey : keys.getD realIndex 0 = x • E.G)
    (hs : s.getD realIndex 0 = a - c * (ctx.muP * x + ctx.muC * z)) :
    ringStep E ctx s realIndex c = roundChallenge E ringBlob pseudo msg
      (E.compress (a • E.G)).val (E.compress (a • hp E (keyBytes ringBlob realIndex))).val := by
  subst hctx
  simp only [ringStep, context] at hs ⊢
  rw [hs, hkey, sub_sub_cancel]
  congr 3
  · module
  · module

/-- The signer behind its checks always returns, and what it returns verifies. -/
theorem signRing_spec [DecidableEq Point] {E : CryptoLib l Point} (nonces : Nonces l)
    {msg ringBlob : Bytes} {realIndex : ℕ} {keys commitments : List Point} {x z : ZMod l}
    (hreal : realIndex < keys.length) (hkey : keys.getD realIndex 0 = x • E.G) :
    ∃ r, signRing E nonces msg ringBlob realIndex keys commitments x z = .ok (some r) ∧
      r.keyImage = E.compress (x • hp E (keyBytes ringBlob realIndex)) ∧
      r.pseudoCommitment = E.compress (commitments.getD realIndex 0 - z • E.G) ∧
      r.signature.length = 32 * (keys.length + 2) ∧
      (E.Canonical → E.CanonicalScalars → msg.length = 32 →
        x • hp E (keyBytes ringBlob realIndex) ≠ 0 →
        ∀ maxN, parseRing E ringBlob maxN = some (keys, commitments) →
          verifyWithMax E msg ringBlob r.pseudoCommitment.val r.keyImage.val r.signature maxN =
            true) := by
  set hpReal := hp E (keyBytes ringBlob realIndex) with hhp
  set pseudoPoint := commitments.getD realIndex 0 - z • E.G with hpseudo
  set ctx := context E msg ringBlob (E.compress pseudoPoint).val (E.compress (x • hpReal)).val
    (E.compress (z • hpReal)).val keys commitments pseudoPoint (x • hpReal) (z • hpReal) with hctx
  set s := (List.range keys.length).map nonces.s with hs
  set c := roundChallenge E ringBlob (E.compress pseudoPoint).val msg
    (E.compress (nonces.a • E.G)).val (E.compress (nonces.a • hpReal)).val with hc
  obtain ⟨c0, hc0, hloop⟩ := RingChain.loop_spec (f := ringStep E ctx s) hreal c
  set cReal := RingChain.walk (ringStep E ctx s) 0 realIndex c0
  set s' := s.set realIndex (nonces.a - cReal * (ctx.muP * x + ctx.muC * z)) with hs'
  have hlen : s'.length = keys.length := by simp [hs', hs]
  refine ⟨⟨encodeSignature E c0 s' (E.compress (z • hpReal)), E.compress (x • hpReal),
    E.compress pseudoPoint⟩, ?_, rfl, rfl, ?_, ?_⟩
  · simp only [signRing, ← hhp, ← hpseudo, ← hctx, ← hs, ← hc, hloop]
    rfl
  · rw [length_encodeSignature, hlen]
  · intro hE hS hmsg hne maxN hparse
    have hclose : RingChain.walk (ringStep E ctx s') 0 keys.length c0 = c0 := by
      refine RingChain.walk_closes hreal hc0 (fun j hj => ?_) ?_
      · -- away from the real position the responses are the random ones
        funext c
        have hget : s'.getD j 0 = s.getD j 0 := by
          rw [List.getD_eq_getElem?_getD, List.getD_eq_getElem?_getD, hs',
            List.getElem?_set_ne (Ne.symm hj)]
        simp only [ringStep, hget]
      · refine ringStep_real hctx hkey ?_
        rw [List.getD_eq_getElem?_getD, hs', List.getElem?_set_self (by simpa [hs] using hreal)]
        rfl
    obtain ⟨hp0, hp1, hp2⟩ := encodeSignature_parts hS c0 s' (E.compress (z • hpReal))
    rw [hlen] at hp1 hp2
    simp only [verifyWithMax, hmsg, Bytes32.length_val, ne_eq, not_true_eq_false, or_self,
      if_false, hparse, length_encodeSignature, hlen, hp0, hp1, hp2, decompress_compress hE,
      if_neg hne]
    rw [← hctx]
    exact decide_eq_true hclose

end ClsagLemmas

open ClsagLemmas

/-- The signer always returns: its loop ends and the `expect` behind it never fires. -/
theorem signWithMax_total [DecidableEq Point] (E : CryptoLib l Point) (nonces : Nonces l)
    (msg ringBlob : Bytes) (realIndex : ℕ) (secretKey inputBlinding pseudoBlinding : Bytes32)
    (maxN : ℕ) : ∃ o, signWithMax E nonces msg ringBlob realIndex secretKey inputBlinding
      pseudoBlinding maxN = .ok o := by
  unfold signWithMax
  split
  · exact ⟨none, rfl⟩
  split
  · exact ⟨none, rfl⟩
  next hreal =>
  split
  · exact ⟨none, rfl⟩
  split
  · exact ⟨none, rfl⟩
  next hkey =>
  split
  · obtain ⟨r, hr, -⟩ := signRing_spec nonces (not_le.mp hreal) (not_not.mp hkey)
    exact ⟨some r, hr⟩
  · exact ⟨none, rfl⟩

/-- What the signer has checked when it returns a signature, and what it returns. -/
theorem signWithMax_spec [DecidableEq Point] {E : CryptoLib l Point} {nonces : Nonces l}
    {msg ringBlob : Bytes} {realIndex : ℕ} {secretKey inputBlinding pseudoBlinding : Bytes32}
    {maxN : ℕ} {r : ClsagResult}
    (h : signWithMax E nonces msg ringBlob realIndex secretKey inputBlinding pseudoBlinding maxN =
      .ok (some r)) :
    ∃ keys commitments x xIn xPseudo, parseRing E ringBlob maxN = some (keys, commitments) ∧
      realIndex < keys.length ∧ E.scalarFromCanonicalBytes secretKey = some x ∧
      keys.getD realIndex 0 = x • E.G ∧ E.scalarFromCanonicalBytes inputBlinding = some xIn ∧
      E.scalarFromCanonicalBytes pseudoBlinding = some xPseudo ∧
      r.keyImage = E.compress (x • hp E (keyBytes ringBlob realIndex)) ∧
      r.pseudoCommitment = E.compress (commitments.getD realIndex 0 - (xIn - xPseudo) • E.G) ∧
      r.signature.length = 32 * (keys.length + 2) ∧
      (E.Canonical → E.CanonicalScalars → msg.length = 32 →
        x • hp E (keyBytes ringBlob realIndex) ≠ 0 →
        verifyWithMax E msg ringBlob r.pseudoCommitment.val r.keyImage.val r.signature maxN =
          true) := by
  unfold signWithMax at h
  split at h
  · cases h
  next keys commitments hparse =>
  split at h
  · cases h
  next hreal =>
  split at h
  · cases h
  next x hx =>
  split at h
  · cases h
  next hkey =>
  split at h
  · next xIn xPseudo hIn hPseudo =>
    obtain ⟨r', hr, hki, hpc, hlen, hverify⟩ :=
      signRing_spec nonces (not_le.mp hreal) (not_not.mp hkey)
    rw [hr, Except.ok.injEq, Option.some.injEq] at h
    subst h
    exact ⟨keys, commitments, x, xIn, xPseudo, hparse, not_le.mp hreal, hx, not_not.mp hkey, hIn,
      hPseudo, hki, hpc, hlen, fun hE hS hmsg hne => hverify hE hS hmsg hne maxN hparse⟩
  · cases h

/-- The signer signs whenever the ring parses, the secret belongs to the real key and the blindings
are canonical. -/
theorem signWithMax_complete [DecidableEq Point] {E : CryptoLib l Point} (nonces : Nonces l)
    (msg : Bytes) {ringBlob : Bytes} {realIndex : ℕ} {secretKey inputBlinding pseudoBlinding : Bytes32}
    {maxN : ℕ} {keys commitments : List Point} {x xIn xPseudo : ZMod l}
    (hparse : parseRing E ringBlob maxN = some (keys, commitments))
    (hreal : realIndex < keys.length) (hx : E.scalarFromCanonicalBytes secretKey = some x)
    (hkey : keys.getD realIndex 0 = x • E.G)
    (hIn : E.scalarFromCanonicalBytes inputBlinding = some xIn)
    (hPseudo : E.scalarFromCanonicalBytes pseudoBlinding = some xPseudo) :
    ∃ r, signWithMax E nonces msg ringBlob realIndex secretKey inputBlinding pseudoBlinding maxN =
      .ok (some r) := by
  obtain ⟨r, hr⟩ : ∃ r, signRing E nonces msg ringBlob realIndex keys commitments x
      (xIn - xPseudo) = .ok (some r) :=
    (signRing_spec nonces hreal hkey).imp fun _ h => h.1
  refine ⟨r, ?_⟩
  simp only [signWithMax, hparse, if_neg (not_le.mpr hreal), hx, hkey, ne_eq, not_true_eq_false,
    if_false, hIn, hPseudo, hr]

end Kohl.Clsag
