import Kohl.Crypto.FcmpSpec

/-!
# Spend authority on an opened leaf

`primitives/ringct-crypto/src/fcmp_spike/sa_link.rs`: the open checks of a spend, without a ring. An opened leaf
passes them exactly when the prover proves the spend of that leaf, in whatever ring it stands, with the same key
image and the same pseudo-commitment.

* `openReblindOk_iff`: what the checks decide.
* `open_iff_prove`: the checks are the relation of the prover.
-/

namespace Kohl.FcmpSpike

open ByteLib MembershipTree Fcmp Fcmp.SpecLemmas

variable {l : ℕ} {Point : Type} [AddCommGroup Point] [Module (ZMod l) Point]

/-- An opened leaf with the secrets of its spend. -/
structure OpenSaLinkStatement where
  p : Bytes32
  c : Bytes32
  cPrime : Bytes32
  keyImage : Bytes32
  secretKey : Bytes32
  inputBlinding : Bytes32
  pseudoBlinding : Bytes32

/-- The key image, by the function of the ring signature. -/
def saLinkKeyImage (E : CryptoLib l Point) (secretKey : Bytes32) : Option Bytes32 :=
  Clsag.keyImage E secretKey

/-- Check the secret key, the key image and the re-blinding of an opened leaf. -/
def openReblindOk [DecidableEq Point] (E : CryptoLib l Point) (st : OpenSaLinkStatement) : Bool :=
  match E.scalarFromCanonicalBytes st.secretKey, E.decompress st.p with
  | some x, some p =>
    if p = 0 ∨ p ≠ x • E.G then false
    else
      match saLinkKeyImage E st.secretKey with
      | none => false
      | some expectedKi =>
        if expectedKi ≠ st.keyImage then false
        else
          match E.decompress st.keyImage with
          | none => false
          | some ki =>
            if ki = 0 then false
            else
              match E.decompress st.c, E.decompress st.cPrime,
                E.scalarFromCanonicalBytes st.inputBlinding,
                E.scalarFromCanonicalBytes st.pseudoBlinding with
              | some c, some cPrime, some xIn, some xP => decide (c - cPrime = (xIn - xP) • E.G)
              | _, _, _, _ => false
  | _, _ => false

/-- The statement of an amount that is committed to twice. -/
def makeOpenStatement (E : CryptoLib l Point) (amount : UInt64)
    (secretKey inputBlinding pseudoBlinding : Bytes32) : Option OpenSaLinkStatement :=
  (E.scalarFromCanonicalBytes secretKey).bind fun x =>
    (Native.commit E amount inputBlinding).bind fun c =>
      (Native.commit E amount pseudoBlinding).bind fun cPrime =>
        (saLinkKeyImage E secretKey).map fun keyImage =>
          ⟨E.compress (x • E.G), c, cPrime, keyImage, secretKey, inputBlinding, pseudoBlinding⟩

namespace SaLinkLemmas

/-- What the checks decide, in any order. -/
theorem openReblindOk_iff [DecidableEq Point] {E : CryptoLib l Point} {st : OpenSaLinkStatement} :
    openReblindOk E st = true ↔ ∃ x xIn xP ki c cPrime,
      E.scalarFromCanonicalBytes st.secretKey = some x ∧
      E.scalarFromCanonicalBytes st.inputBlinding = some xIn ∧
      E.scalarFromCanonicalBytes st.pseudoBlinding = some xP ∧
      E.decompress st.p = some (x • E.G) ∧ x • E.G ≠ 0 ∧
      Clsag.keyImage E st.secretKey = some st.keyImage ∧
      E.decompress st.keyImage = some ki ∧ ki ≠ 0 ∧
      E.decompress st.c = some c ∧ E.decompress st.cPrime = some cPrime ∧
      c - cPrime = (xIn - xP) • E.G := by
  constructor
  · intro h
    unfold openReblindOk saLinkKeyImage at h
    split at h
    · next x p hx hp =>
      split at h
      · cases h
      next hkey =>
      obtain ⟨hne, hkey⟩ := not_or.mp hkey
      rw [not_not] at hkey
      subst hkey
      split at h
      · cases h
      next expectedKi hexpected =>
      split at h
      · cases h
      next hki =>
      rw [not_not.mp hki] at hexpected
      split at h
      · cases h
      next ki hdec =>
      split at h
      · cases h
      next hkine =>
      split at h
      · next c cPrime xIn xP hc hcPrime hIn hP =>
        exact ⟨x, xIn, xP, ki, c, cPrime, hx, hIn, hP, hp, hne, hexpected, hdec, hkine, hc, hcPrime,
          of_decide_eq_true h⟩
      · cases h
    · cases h
  · rintro ⟨x, xIn, xP, ki, c, cPrime, hx, hIn, hP, hp, hne, hexpected, hdec, hkine, hc, hcPrime, heq⟩
    simp only [openReblindOk, saLinkKeyImage, hx, hp, hne, hexpected, ne_eq, not_true_eq_false,
      or_false, if_false, hdec, if_neg hkine, hc, hcPrime, hIn, hP, heq, decide_true]

theorem makeOpenStatement_eq_some {E : CryptoLib l Point} {amount : UInt64}
    {secretKey inputBlinding pseudoBlinding : Bytes32} {st : OpenSaLinkStatement}
    (h : makeOpenStatement E amount secretKey inputBlinding pseudoBlinding = some st) :
    ∃ x c cPrime keyImage, E.scalarFromCanonicalBytes secretKey = some x ∧
      Native.commit E amount inputBlinding = some c ∧
      Native.commit E amount pseudoBlinding = some cPrime ∧
      Clsag.keyImage E secretKey = some keyImage ∧
      st = ⟨E.compress (x • E.G), c, cPrime, keyImage, secretKey, inputBlinding, pseudoBlinding⟩ := by
  obtain ⟨x, hx, h⟩ := Option.bind_eq_some_iff.mp h
  obtain ⟨c, hc, h⟩ := Option.bind_eq_some_iff.mp h
  obtain ⟨cPrime, hcPrime, h⟩ := Option.bind_eq_some_iff.mp h
  obtain ⟨keyImage, hki, h⟩ := Option.map_eq_some_iff.mp h
  exact ⟨x, c, cPrime, keyImage, hx, hc, hcPrime, hki, h.symm⟩

omit [Module (ZMod l) Point] in
theorem compress_ne_zero {E : CryptoLib l Point} (hE : E.Canonical) {p : Point} :
    E.compress p ≠ E.compress 0 ↔ p ≠ 0 := by
  refine not_congr ⟨fun h => ?_, fun h => by rw [h]⟩
  have hdec := congrArg E.decompress h
  rw [hE.decompress_compress, hE.decompress_compress, Option.some.injEq] at hdec
  exact hdec

end SaLinkLemmas

open SaLinkLemmas

/-- A statement made from an amount passes unless its key or its key image is the identity. -/
theorem openReblindOk_make [DecidableEq Point] {E : CryptoLib l Point} (hE : E.Canonical)
    {amount : UInt64} {secretKey inputBlinding pseudoBlinding : Bytes32} {st : OpenSaLinkStatement}
    (h : makeOpenStatement E amount secretKey inputBlinding pseudoBlinding = some st) :
    openReblindOk E st = true ↔ st.p ≠ E.compress 0 ∧ st.keyImage ≠ E.compress 0 := by
  obtain ⟨x, c, cPrime, keyImage, hx, hc, hcPrime, hki, rfl⟩ := makeOpenStatement_eq_some h
  obtain ⟨xIn, hIn, rfl⟩ := Option.map_eq_some_iff.mp hc
  obtain ⟨xP, hP, rfl⟩ := Option.map_eq_some_iff.mp hcPrime
  have hki' := hki
  obtain ⟨x', hx', rfl⟩ := Option.map_eq_some_iff.mp hki
  rw [openReblindOk_iff]
  constructor
  · rintro ⟨y, -, -, ki, -, -, hy, -, -, -, hne, -, hdec, hkine, -⟩
    rw [hx, Option.some.injEq] at hy
    subst hy
    rw [hE.decompress_compress, Option.some.injEq] at hdec
    exact ⟨(compress_ne_zero hE).mpr hne, (compress_ne_zero hE).mpr (hdec ▸ hkine)⟩
  · rintro ⟨hne, hkine⟩
    refine ⟨x, xIn, xP, _, _, _, hx, hIn, hP, hE.decompress_compress _, (compress_ne_zero hE).mp hne,
      hki', hE.decompress_compress _, (compress_ne_zero hE).mp hkine, hE.decompress_compress _,
      hE.decompress_compress _, ?_⟩
    rw [CryptoLib.pcCommit, CryptoLib.pcCommit, add_sub_add_left_eq_sub, sub_smul]

/-- The open checks are the relation the prover proves. In any tree and any ring that the leaf is a member of, a
key image and a pseudo-commitment pass the checks for the opened leaf exactly when the prover returns a proof with
these two, and neither the key nor the key image is the identity; the proof then verifies unless the
pseudo-commitment is the identity. -/
theorem open_iff_prove [DecidableEq Point] (E : CryptoLib l Point) (hE : E.Canonical)
    (hS : E.CanonicalScalars) (nonces : Clsag.Nonces l) (msg : Bytes32) (w : ProveWitness)
    (m : RingMember) (keyImage cPrime : Bytes32)
    (hring : RingOf E.blake2_256 w.digests w.admitted) (hslots : w.digests.length ≤ 64)
    (hparse : (Clsag.parseRing E (ringBlob w.admitted) Clsag.MAX_FCMP_RING).isSome = true)
    (hm : w.admitted[w.realIndex]? = some m) :
    openReblindOk E ⟨m.oneTimeKey, m.commitment, cPrime, keyImage, w.secretKey, w.inputBlinding,
        w.pseudoBlinding⟩ = true ↔
      m.oneTimeKey ≠ E.compress 0 ∧ keyImage ≠ E.compress 0 ∧
        ∃ r, prove E nonces msg w = .ok (some r) ∧ r.keyImage = keyImage ∧
          r.pseudoCommitment = cPrime ∧
          (cPrime ≠ E.compress 0 → verify E msg.val (rootFromLeaves E.blake2_256 w.digests).val
            cPrime.val keyImage.val r.proof = true) := by
  obtain ⟨⟨keys, commitments⟩, hparse⟩ := Option.isSome_iff_exists.mp hparse
  obtain ⟨hkey, hcommitment⟩ := getD_of_parseRing hparse hm
  have hreal := (List.getElem?_eq_some_iff.mp hm).1
  rw [openReblindOk_iff]
  constructor
  · rintro ⟨x, xIn, xP, ki, c, cPrime', hx, hIn, hP, hp, hne, hki, hdec, hkine, hc, hcPrime, heq⟩
    dsimp only at hx hIn hP hp hki hdec hc hcPrime
    rw [hkey, Option.some.injEq] at hp
    rw [hcommitment, Option.some.injEq] at hc
    obtain ⟨r, hr⟩ := prove_complete nonces msg hring hslots hparse hreal hx hp hIn hP
    have hrki : r.keyImage = keyImage := by
      have hboth := keyImage_of_prove hE hr
      rw [hki, Option.some.injEq] at hboth
      exact hboth.symm
    have hrpc : r.pseudoCommitment = cPrime := by
      obtain ⟨-, clsag, hsign, -, -, hpc⟩ := prove_eq_some hr
      obtain ⟨keys', commitments', -, yIn, yP, hparse', -, -, -, hyIn, hyP, -, hC, -⟩ :=
        Clsag.signWithMax_spec hsign
      rw [hparse, Option.some.injEq, Prod.mk.injEq] at hparse'
      rw [hIn, Option.some.injEq] at hyIn
      rw [hP, Option.some.injEq] at hyP
      rw [hpc, hC, ← hparse'.2, ← hyIn, ← hyP, hc, ← heq, sub_sub_cancel]
      exact hE.compress_of_decompress hcPrime
    have hkeyImage : keyImage ≠ E.compress 0 := by
      rw [← hE.compress_of_decompress hdec]
      exact (compress_ne_zero hE).mpr hkine
    refine ⟨?_, hkeyImage, r, hr, hrki, hrpc, fun hpc => ?_⟩
    · rw [← hE.compress_of_decompress hkey, hp]
      exact (compress_ne_zero hE).mpr hne
    · have hverify := verify_of_prove hE hS hr (hrki ▸ hkeyImage) (hrpc ▸ hpc)
      rwa [hrki, hrpc] at hverify
  · rintro ⟨hne, hkine, r, hr, rfl, rfl, -⟩
    have hki := keyImage_of_prove hE hr
    obtain ⟨-, clsag, hsign, -, -, hpc⟩ := prove_eq_some hr
    obtain ⟨keys', commitments', x, xIn, xP, hparse', -, hx, hsecret, hIn, hP, -, hC, -⟩ :=
      Clsag.signWithMax_spec hsign
    rw [hparse, Option.some.injEq, Prod.mk.injEq] at hparse'
    rw [← hparse'.1] at hsecret
    rw [← hparse'.2] at hC
    rw [hsecret] at hkey
    rw [← hE.compress_of_decompress hkey] at hne
    obtain ⟨y, -, hy⟩ := Option.map_eq_some_iff.mp hki
    rw [← hy] at hkine
    refine ⟨x, xIn, xP, y • _, _, _, hx, hIn, hP, hkey, (compress_ne_zero hE).mp hne, hki, ?_,
      (compress_ne_zero hE).mp hkine, hcommitment, ?_, sub_sub_cancel _ _⟩
    · rw [← hy]
      exact hE.decompress_compress _
    · rw [hpc, hC]
      exact hE.decompress_compress _

theorem open_iff_prove_twoSlots : ∃ r, twoSlotsSpend = .ok (some r) ∧
    openReblindOk (cyclic ristrettoOrder) ⟨Cyclic.toBytes (Cyclic.scalarOf 5),
      Cyclic.commitment 3 (Cyclic.scalarOf 7), r.pseudoCommitment, r.keyImage,
      twoSlotsWitness.secretKey, twoSlotsWitness.inputBlinding, twoSlotsWitness.pseudoBlinding⟩ =
        true := by
  obtain ⟨r, hr, hkeyImage, -⟩ := exists_twoSlotsSpend
  have hl : ristrettoOrder ≤ 2 ^ 256 := by decide
  obtain ⟨hring, clsag, hsign, -⟩ := prove_eq_some hr
  obtain ⟨_, _, _, _, _, hparse, -⟩ := Clsag.signWithMax_spec hsign
  refine ⟨r, hr, (open_iff_prove (cyclic ristrettoOrder) (cyclic_canonical hl)
    (cyclic_canonicalScalars hl) ⟨Cyclic.scalarOf 11, fun _ => Cyclic.scalarOf 13⟩
    (Cyclic.toBytes (Cyclic.scalarOf 0)) twoSlotsWitness
    ⟨Cyclic.toBytes (Cyclic.scalarOf 5), Cyclic.commitment 3 (Cyclic.scalarOf 7), 1⟩ r.keyImage
    r.pseudoCommitment hring (Nat.le_of_ble_eq_true rfl) (by rw [hparse]; rfl) rfl).mpr
    ⟨?_, hkeyImage, r, hr, rfl, rfl, fun hpc => ?_⟩⟩
  · decide +kernel
  · exact verify_of_prove (cyclic_canonical hl) (cyclic_canonicalScalars hl) hr hkeyImage hpc

end Kohl.FcmpSpike
