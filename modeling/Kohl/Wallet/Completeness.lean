import Mathlib.Algebra.BigOperators.Group.List.Basic
import Kohl.Wallet.Transfer

/-!
# Transfers the wallet builds

For owned inputs that are members of the ring of a tree, enough funds and a destination whose points
decode, the construction of a transfer succeeds whatever is drawn, and the transfer passes every
check that does not depend on the chain: the inputs are ordered, their proofs verify under the
root of the snapshot, the commitments balance, and the range proof verifies.

* `makeOutput_eq_ok`, `changeOf_eq_ok`, `stage_eq_ok`: the parts of the construction.
* `skeletonTransfer_eq_ok`: the transfer before its inputs are proved.
* `buildTransferMulti_built`: the transfer is built, and what it has.
* `Built.transferValid`: it is accepted in a state whose tree is the one of the snapshot.
-/

namespace Kohl.Wallet

open ByteLib MembershipTree Fcmp SpecLemmas Pallet Stealth

variable {l : ℕ} {Point : Type} [AddCommGroup Point] [Module (ZMod l) Point]
variable {E : CryptoLib l Point}

namespace BuildLemmas

theorem okOr_some {ε α : Type} (a : α) (e : ε) : okOr (some a) e = .ok a := rfl

theorem bounded_eq_ok {α : Type} {n : ℕ} {v : List α} (h : v.length ≤ n) :
    (bounded v : Except WalletError (BoundedVec α n)) = .ok ⟨v, h⟩ := by
  rw [bounded, BoundedVec.tryFrom_eq_some h, okOr_some]

/-! ## Amounts -/

/-- The total of the inputs is the sum of their amounts, unless it overflows. -/
theorem totalIn_eq_some {inputs : List OwnedOutput} {acc total : UInt64} :
    totalIn inputs acc = some total ↔
      total.toNat = acc.toNat + (inputs.map fun i => i.amount.toNat).sum := by
  induction inputs generalizing acc with
  | nil =>
    rw [totalIn, Option.some.injEq, List.map_nil, List.sum_nil, Nat.add_zero, UInt64.toNat_inj]
    exact eq_comm
  | cons input inputs ih =>
    rw [totalIn, Option.bind_eq_some_iff, List.map_cons, List.sum_cons]
    constructor
    · rintro ⟨t, ht, htotal⟩
      rw [checkedAdd_eq_some] at ht
      rw [ih.mp htotal, ht, Nat.add_assoc]
    · intro h
      have hlt := total.toNat_lt
      have hadd : checkedAdd acc input.amount = some (acc + input.amount) := by
        rw [checkedAdd, if_pos (by omega)]
      refine ⟨_, hadd, ih.mpr ?_⟩
      rw [checkedAdd_eq_some.mp hadd, h, Nat.add_assoc]

/-- With enough funds the change is what is left. -/
theorem changeOf_eq_ok {inputs : List OwnedOutput} {sendAmount fee : UInt64}
    (hfunds : sendAmount.toNat + fee.toNat ≤ (inputs.map fun i => i.amount.toNat).sum)
    (hfits : (inputs.map fun i => i.amount.toNat).sum < 2 ^ 64) :
    ∃ change, changeOf inputs sendAmount fee = .ok change ∧
      (inputs.map fun i => i.amount.toNat).sum =
        sendAmount.toNat + fee.toNat + change.toNat := by
  have hneed : sendAmount.toNat + fee.toNat < 2 ^ 64 := hfunds.trans_lt hfits
  have htotal : totalIn inputs 0 =
      some (UInt64.ofNat (inputs.map fun i => i.amount.toNat).sum) := by
    rw [totalIn_eq_some, UInt64.toNat_ofNat_of_lt' hfits, UInt64.toNat_zero, Nat.zero_add]
  have hneeded : checkedAdd sendAmount fee = some (UInt64.ofNat (sendAmount.toNat + fee.toNat)) := by
    rw [checkedAdd_eq_some, UInt64.toNat_ofNat_of_lt' hneed]
  have hle : UInt64.ofNat (sendAmount.toNat + fee.toNat) ≤
      UInt64.ofNat (inputs.map fun i => i.amount.toNat).sum := by
    rw [UInt64.le_iff_toNat_le, UInt64.toNat_ofNat_of_lt' hneed, UInt64.toNat_ofNat_of_lt' hfits]
    exact hfunds
  refine ⟨UInt64.ofNat (inputs.map fun i => i.amount.toNat).sum -
    UInt64.ofNat (sendAmount.toNat + fee.toNat), ?_, ?_⟩
  · simp only [changeOf, htotal, hneeded]
    rw [if_neg (UInt64.not_lt.mpr hle)]
  · rw [UInt64.toNat_sub_of_le _ _ hle, UInt64.toNat_ofNat_of_lt' hfits,
      UInt64.toNat_ofNat_of_lt' hneed]
    omega

/-! ## Outputs -/

/-- An output to an address whose points decode is made, with a commitment to its amount. -/
theorem makeOutput_eq_ok (hS : E.CanonicalScalars) (r : ZMod l) {recipient : StealthAddress}
    {a b : Point} (ha : E.decompress recipient.viewPublic = some a)
    (hb : E.decompress recipient.spendPublic = some b) (li : ℕ) (amount : UInt64) :
    ∃ out β p, makeOutput E (E.scalarToBytes r) recipient li amount = .ok (out, E.scalarToBytes β) ∧
      out.commitment = E.compress (E.pcCommit (amount.toNat : ZMod l) β) ∧
      out.oneTimeKey = E.compress p := by
  have hshared : senderSharedSecret E (E.scalarToBytes r) recipient.viewPublic =
      some (E.compress (r • a)) := by
    rw [senderSharedSecret, sharedSecret, ha, Option.bind_some, hS, Option.map_some]
  have hkey : deriveOneTimeKey E (E.compress (r • a)) recipient.spendPublic li =
      some (E.compress (derivationScalar E (E.compress (r • a)) li • E.G + b),
        viewTag E (E.compress (r • a)) li) := by
    rw [deriveOneTimeKey, hb, Option.map_some]
  have hcommit : Native.commit E amount (deriveBlinding E (E.compress (r • a)) li) =
      some (E.compress (E.pcCommit (amount.toNat : ZMod l)
        (derive E DOM_BLINDING (E.compress (r • a)) li))) := by
    rw [Native.commit, deriveBlinding, hS, Option.map_some]
  have hpayload : (maskAmount E (E.compress (r • a)) li amount).length ≤ MAX_PAYLOAD_BYTES := by
    rw [length_maskAmount]
    decide
  refine ⟨⟨E.compress (derivationScalar E (E.compress (r • a)) li • E.G + b),
    E.compress (E.pcCommit (amount.toNat : ZMod l) (derive E DOM_BLINDING (E.compress (r • a)) li)),
    viewTag E (E.compress (r • a)) li, ⟨maskAmount E (E.compress (r • a)) li amount, hpayload⟩⟩,
    derive E DOM_BLINDING (E.compress (r • a)) li, _, ?_, rfl, rfl⟩
  simp only [makeOutput, hshared, hkey, hcommit, okOr_some, ok_bind, bounded_eq_ok hpayload]
  rfl

/-! ## Inputs -/

/-- The position of an input in the ring. -/
def realIndexOf (membership : MembershipSnapshot) (input : OwnedOutput) : ℕ :=
  (membership.admitted.findIdx? fun m => m.treeIndex == input.globalIndex).getD 0

/-- The pseudo-commitment of a spend as a point. -/
def pseudoPoint (E : CryptoLib l Point) (x : OwnedOutput × ZMod l) : Point :=
  E.pcCommit (x.1.amount.toNat : ZMod l) x.2

/-- An input with its pseudo-blinding as it is staged. -/
def staged (E : CryptoLib l Point) (membership : MembershipSnapshot) (x : OwnedOutput × ZMod l) :
    Staged :=
  ⟨x.1, E.scalarToBytes x.2, realIndexOf membership x.1, E.compress (pseudoPoint E x)⟩

/-- The member of an input in the snapshot. -/
def memberOf (input : OwnedOutput) : RingMember :=
  ⟨input.oneTimeKey, input.commitment, input.globalIndex⟩

/-- A ring with increasing indices has a member at one position only. -/
theorem findIdx?_of_mem {ring : List RingMember}
    (hs : ring.Pairwise fun a b => a.treeIndex < b.treeIndex) {m : RingMember} (hm : m ∈ ring) :
    ∃ j, ring.findIdx? (fun m' => m'.treeIndex == m.treeIndex) = some j ∧ ring[j]? = some m := by
  induction ring with
  | nil => exact absurd hm List.not_mem_nil
  | cons a ring ih =>
    rw [List.pairwise_cons] at hs
    rw [List.findIdx?_cons]
    rcases List.mem_cons.mp hm with rfl | hm
    · exact ⟨0, by rw [if_pos (beq_self_eq_true _)], rfl⟩
    · obtain ⟨j, hj, hget⟩ := ih hs.2 hm
      have hne : ¬(a.treeIndex == m.treeIndex) = true := by
        rw [beq_iff_eq]
        intro heq
        exact UInt64.lt_irrefl _ (heq ▸ hs.1 m hm)
      exact ⟨j + 1, by rw [if_neg hne, hj]; rfl, by rw [List.getElem?_cons_succ, hget]⟩

theorem realIndexOf_spec {membership : MembershipSnapshot} {input : OwnedOutput}
    (hs : membership.admitted.Pairwise fun a b => a.treeIndex < b.treeIndex)
    (hm : memberOf input ∈ membership.admitted) :
    (membership.admitted.findIdx? fun m => m.treeIndex == input.globalIndex) =
        some (realIndexOf membership input) ∧
      membership.admitted[realIndexOf membership input]? = some (memberOf input) := by
  obtain ⟨j, hj, hget⟩ := findIdx?_of_mem hs hm
  have hreal : realIndexOf membership input = j := by
    rw [realIndexOf]
    exact congrArg (Option.getD · 0) hj
  rw [hreal]
  exact ⟨hj, hget⟩

theorem stage_eq_ok (hS : E.CanonicalScalars) {membership : MembershipSnapshot}
    (hs : membership.admitted.Pairwise fun a b => a.treeIndex < b.treeIndex)
    {x : OwnedOutput × ZMod l} (hm : memberOf x.1 ∈ membership.admitted) :
    stage E membership (x.1, E.scalarToBytes x.2) = .ok (staged E membership x) := by
  have hcommit : Native.commit E x.1.amount (E.scalarToBytes x.2) =
      some (E.compress (pseudoPoint E x)) := by
    rw [Native.commit, hS, Option.map_some, pseudoPoint]
  simp only [stage, (realIndexOf_spec hs hm).1, hcommit, okOr_some, ok_bind]
  rfl

theorem tryMap_stage (hS : E.CanonicalScalars) {membership : MembershipSnapshot}
    (hs : membership.admitted.Pairwise fun a b => a.treeIndex < b.treeIndex)
    {inputs : List OwnedOutput} (hm : ∀ input ∈ inputs, memberOf input ∈ membership.admitted)
    (zs : List (ZMod l)) :
    tryMap (stage E membership) (inputs.zip (zs.map E.scalarToBytes)) =
      .ok ((inputs.zip zs).map (staged E membership)) := by
  rw [List.zip_map_right, tryMap_map]
  exact tryMap_eq_ok fun x hx => stage_eq_ok hS hs (hm x.1 (List.of_mem_zip hx).1)

/-- The blindings of the pseudo-commitments: the drawn ones, and the one that makes their sum
`total`. -/
def pseudoScalars (rand : TransferRandomness l) (n : ℕ) (total : ZMod l) : List (ZMod l) :=
  (List.range (n - 1)).map rand.blindings ++
    [total - ((List.range (n - 1)).map rand.blindings).sum]

theorem sum_pseudoScalars (rand : TransferRandomness l) (n : ℕ) (total : ZMod l) :
    (pseudoScalars rand n total).sum = total := by
  rw [pseudoScalars, List.sum_append, List.sum_singleton, add_sub_cancel]

theorem length_pseudoScalars (rand : TransferRandomness l) {n : ℕ} (hn : n ≠ 0) (total : ZMod l) :
    (pseudoScalars rand n total).length = n := by
  rw [pseudoScalars, List.length_append, List.length_map, List.length_range, List.length_singleton]
  omega

omit [AddCommGroup Point] [Module (ZMod l) Point] in
theorem balancingBlinding_eq_some (hS : E.CanonicalScalars) (ins outs : List (ZMod l)) :
    Native.balancingBlinding E (ins.map E.scalarToBytes) (outs.map E.scalarToBytes) =
      some (E.scalarToBytes (ins.sum - outs.sum)) := by
  have hcollect : ∀ xs : List (ZMod l),
      collect E.scalarFromCanonicalBytes (xs.map E.scalarToBytes) = some xs := by
    intro xs
    have hall := collect_eq_some_map (f := E.scalarFromCanonicalBytes ∘ E.scalarToBytes) (g := id)
      (l := xs) fun x _ => hS x
    rw [collect_map, hall, List.map_id]
  rw [Native.balancingBlinding, hcollect, hcollect, Option.bind_some, Option.map_some,
    List.sum_eq_foldl, List.sum_eq_foldl]

omit [AddCommGroup Point] [Module (ZMod l) Point] in
/-- The drawn blindings and the balancing one, as the wallet computes them. -/
theorem balancingBlinding_pseudoScalars (hS : E.CanonicalScalars) (rand : TransferRandomness l)
    (n : ℕ) (β₀ β₁ : ZMod l) :
    ∃ last, Native.balancingBlinding E [E.scalarToBytes β₀, E.scalarToBytes β₁]
        ((List.range (n - 1)).map fun i => E.scalarToBytes (rand.blindings i)) = some last ∧
      (List.range (n - 1)).map (fun i => E.scalarToBytes (rand.blindings i)) ++ [last] =
        (pseudoScalars rand n (β₀ + β₁)).map E.scalarToBytes := by
  have hlast := balancingBlinding_eq_some hS [β₀, β₁] ((List.range (n - 1)).map rand.blindings)
  rw [List.map_map, List.sum_cons, List.sum_singleton] at hlast
  refine ⟨_, hlast, ?_⟩
  rw [pseudoScalars, List.map_append, List.map_map]
  rfl

/-- The inputs with their pseudo-blindings in the order of the key images. -/
def spends (rand : TransferRandomness l) (inputs : List OwnedOutput) (total : ZMod l) :
    List (OwnedOutput × ZMod l) :=
  (inputs.zip (pseudoScalars rand inputs.length total)).mergeSort fun a b =>
    decide (a.1.keyImage ≤ b.1.keyImage)

section Spends

variable (rand : TransferRandomness l) {inputs : List OwnedOutput} (hne : inputs ≠ [])
  (total : ZMod l)

include hne in
theorem map_fst_spends : ((spends rand inputs total).map Prod.fst).Perm inputs := by
  have hlen := length_pseudoScalars rand (mt List.length_eq_zero_iff.mp hne) total
  have hperm := (List.mergeSort_perm (inputs.zip (pseudoScalars rand inputs.length total))
    fun a b => decide (a.1.keyImage ≤ b.1.keyImage)).map Prod.fst
  rwa [List.map_fst_zip hlen.ge] at hperm

include hne in
theorem map_snd_spends : ((spends rand inputs total).map Prod.snd).Perm
    (pseudoScalars rand inputs.length total) := by
  have hlen := length_pseudoScalars rand (mt List.length_eq_zero_iff.mp hne) total
  have hperm := (List.mergeSort_perm (inputs.zip (pseudoScalars rand inputs.length total))
    fun a b => decide (a.1.keyImage ≤ b.1.keyImage)).map Prod.snd
  rwa [List.map_snd_zip hlen.le] at hperm

theorem sorted_spends : (spends rand inputs total).Pairwise
    fun a b => a.1.keyImage ≤ b.1.keyImage := by
  refine (List.pairwise_mergeSort ?_ ?_ (inputs.zip (pseudoScalars rand inputs.length total))).imp
    fun h => of_decide_eq_true h
  · intro a b c hab hbc
    rw [decide_eq_true_eq] at *
    exact hab.trans hbc
  · intro a b
    rw [Bool.or_eq_true, decide_eq_true_eq, decide_eq_true_eq]
    exact le_total _ _

include hne in
theorem length_spends : (spends rand inputs total).length = inputs.length := by
  rw [← (map_fst_spends rand hne total).length_eq, List.length_map]

end Spends

/-! ## Balance and range -/

theorem sum_pseudoPoint (xs : List (OwnedOutput × ZMod l)) :
    (xs.map (pseudoPoint E)).sum =
      E.pcCommit (((xs.map fun x => x.1.amount.toNat).sum : ℕ) : ZMod l) (xs.map Prod.snd).sum := by
  induction xs with
  | nil => simp [CryptoLib.pcCommit]
  | cons x xs ih =>
    rw [List.map_cons, List.sum_cons, ih, List.map_cons, List.sum_cons, List.map_cons, List.sum_cons,
      pseudoPoint, CryptoLib.pcCommit, CryptoLib.pcCommit, CryptoLib.pcCommit, Nat.cast_add, add_smul,
      add_smul]
    abel

theorem verifyBalance_spends [DecidableEq Point] (hE : E.Canonical)
    {pairs : List (OwnedOutput × ZMod l)} (hne : pairs ≠ []) {sendAmount change fee : UInt64}
    {β₀ β₁ : ZMod l}
    (hamounts : (pairs.map fun x => x.1.amount.toNat).sum =
      sendAmount.toNat + fee.toNat + change.toNat)
    (hblindings : (pairs.map Prod.snd).sum = β₀ + β₁) :
    Native.verifyBalance E ((pairs.map fun x => E.compress (pseudoPoint E x)).flatMap Subtype.val)
      ([E.compress (E.pcCommit (sendAmount.toNat : ZMod l) β₀),
        E.compress (E.pcCommit (change.toNat : ZMod l) β₁)].flatMap Subtype.val) fee = true := by
  refine Native.verifyBalance_iff.mpr ⟨pairs.map (pseudoPoint E),
    [E.pcCommit (sendAmount.toNat : ZMod l) β₀, E.pcCommit (change.toNat : ZMod l) β₁],
    ?_, ?_, by simpa using hne, List.cons_ne_nil _ _, ?_⟩
  · rw [collect_map]
    exact collect_eq_some_map fun x _ => hE.decompress_compress _
  · simp only [collect, hE.decompress_compress, Option.bind_some, Option.map_some]
  · rw [sum_pseudoPoint, hamounts, hblindings, List.sum_cons, List.sum_singleton]
    simp only [CryptoLib.pcCommit, Nat.cast_add, add_smul]
    abel

/-- The range proof of the two outputs is made and verifies. -/
theorem proveRange_pair (hS : E.CanonicalScalars) (hR : E.RangeComplete) (rng : Bytes)
    (v₀ v₁ : UInt64) (β₀ β₁ : ZMod l) :
    ∃ r, Native.proveRange E rng [v₀, v₁] [E.scalarToBytes β₀, E.scalarToBytes β₁] = some r ∧
      r.1.length ≤ MAX_RANGE_PROOF_BYTES ∧
      Native.verifyRangeProof E r.1 ([E.compress (E.pcCommit (v₀.toNat : ZMod l) β₀),
        E.compress (E.pcCommit (v₁.toNat : ZMod l) β₁)].flatMap Subtype.val) = true := by
  have hmax : 2 ≤ MAX_OUTPUTS := by decide
  have hpow : Merkle.nextPowerOfTwo 2 = 2 := by decide
  obtain ⟨proof, hprove, hlen, hverify⟩ := hR rng [v₀, v₁] [β₀, β₁] rfl (List.cons_ne_nil _ _) hmax
    hpow
  have hscalars : collect E.scalarFromCanonicalBytes [E.scalarToBytes β₀, E.scalarToBytes β₁] =
      some [β₀, β₁] := by
    simp only [collect, hS β₀, hS β₁, Option.bind_some, Option.map_some]
  have hpad : ∀ {α : Type} (pad a b : α), Native.padToPowerOfTwo pad [a, b] = [a, b] := by
    intro α pad a b
    rfl
  have hlength : (9 + 2 * Nat.log2 (64 * 2)) * 32 ≤ MAX_RANGE_PROOF_BYTES := by decide
  refine ⟨(proof, [E.compress (E.pcCommit (v₀.toNat : ZMod l) β₀),
    E.compress (E.pcCommit (v₁.toNat : ZMod l) β₁)]), ?_, hlen.trans_le hlength, ?_⟩
  · rw [Native.proveRange, if_neg (by simp [MAX_OUTPUTS]), hscalars, Option.bind_some, hpad, hpad,
      hprove]
    rfl
  · rw [Native.verifyRangeProof, Native.parsePoints_flatMap]
    simp only [List.isEmpty_cons, Bool.false_or, hpad]
    rw [if_neg (by simp [MAX_OUTPUTS])]
    exact hverify

end BuildLemmas

open BuildLemmas

/-! ## The transfer without its proofs -/

/-- What a transfer has before and after its inputs are proved; `pairs` are the inputs with the
blindings of their pseudo-commitments. -/
structure Prepared [DecidableEq Point] (E : CryptoLib l Point) (membership : MembershipSnapshot)
    (inputs : List OwnedOutput) (fee : UInt64) (tx : TransferTx)
    (pairs : List (OwnedOutput × ZMod l)) : Prop where
  root : tx.membershipRoot = membership.root
  fee_eq : tx.fee = fee
  perm : (pairs.map Prod.fst).Perm inputs
  sorted : pairs.Pairwise fun a b => a.1.keyImage ≤ b.1.keyImage
  keyImages : tx.inputs.val.map FcmpInput.keyImage = pairs.map fun x => x.1.keyImage
  pseudos : tx.inputs.val.map FcmpInput.pseudoCommitment =
    pairs.map fun x => E.compress (pseudoPoint E x)
  txPubkey : ∃ p, tx.txPubkey = E.compress p
  outputs_ne : tx.outputs.val ≠ []
  keys : ∀ out ∈ tx.outputs.val, ∃ p, out.oneTimeKey = E.compress p
  balance : Native.verifyBalance E (pseudoCommitments tx) (outputCommitments tx) tx.fee = true
  range : Native.verifyRangeProof E tx.rangeProof.val (outputCommitments tx) = true

/-- Proofs do not matter to what is prepared, nor to the message they sign. -/
theorem Prepared.withInputs [DecidableEq Point] {membership : MembershipSnapshot}
    {inputs : List OwnedOutput} {fee : UInt64} {tx : TransferTx}
    {pairs : List (OwnedOutput × ZMod l)} (h : Prepared E membership inputs fee tx pairs)
    (proved : BoundedVec FcmpInput MAX_FCMP_INPUTS)
    (hki : proved.val.map FcmpInput.keyImage = tx.inputs.val.map FcmpInput.keyImage)
    (hpc : proved.val.map FcmpInput.pseudoCommitment =
      tx.inputs.val.map FcmpInput.pseudoCommitment) :
    Prepared E membership inputs fee { tx with inputs := proved } pairs ∧
      ∀ hash, signingHash hash { tx with inputs := proved } = signingHash hash tx := by
  have hblob : pseudoCommitments { tx with inputs := proved } = pseudoCommitments tx := by
    have := congrArg (List.flatMap Subtype.val) hpc
    rw [List.flatMap_map, List.flatMap_map] at this
    exact this
  refine ⟨⟨h.root, h.fee_eq, h.perm, h.sorted, hki.trans h.keyImages, hpc.trans h.pseudos,
    h.txPubkey, h.outputs_ne, h.keys, ?_, h.range⟩, fun hash => ?_⟩
  · rw [hblob]
    exact h.balance
  · simp only [signingHash, signingPreimage, hki, hpc]

/-- What a spend needs: owned inputs that are members of the ring of the snapshot, and a ring that
is the one of the digests and parses. -/
structure CanSpend (E : CryptoLib l Point) (membership : MembershipSnapshot)
    (inputs : List OwnedOutput) : Prop where
  inputs_ne : inputs ≠ []
  inputs_le : inputs.length ≤ MAX_FCMP_INPUTS
  slots_le : membership.digests.length ≤ MAX_FCMP_ANON_SET
  root : rootFromLeaves E.blake2_256 membership.digests = membership.root
  ring : RingOf E.blake2_256 membership.digests membership.admitted
  parses : ∃ keys commitments,
    Clsag.parseRing E (ringBlob membership.admitted) Clsag.MAX_FCMP_RING = some (keys, commitments)
  owned : ∀ input ∈ inputs, Owned E input
  member : ∀ input ∈ inputs, memberOf input ∈ membership.admitted

theorem CanSpend.checkInputs {membership : MembershipSnapshot} {inputs : List OwnedOutput}
    (h : CanSpend E membership inputs) : checkInputs E inputs membership = .ok () := by
  obtain ⟨input, hinput⟩ := List.exists_mem_of_ne_nil _ h.inputs_ne
  have hempty : membership.admitted.isEmpty = false :=
    List.isEmpty_eq_false_iff_exists_mem.mpr ⟨_, h.member input hinput⟩
  have hall : (inputs.all fun input =>
      membership.admitted.any fun m => m.treeIndex == input.globalIndex) = true := by
    rw [List.all_eq_true]
    intro i hi
    exact List.any_eq_true.mpr ⟨_, h.member i hi, beq_self_eq_true _⟩
  have hlen := h.inputs_le
  have hslots := h.slots_le
  rw [Wallet.checkInputs, if_neg, if_neg (by omega), hempty, if_neg (by simp),
    if_neg (not_not.mpr h.root), if_pos hall]
  rw [Bool.or_eq_true, List.isEmpty_iff, decide_eq_true_eq, not_or]
  exact ⟨h.inputs_ne, by omega⟩

/-- The transfer before its inputs are proved. -/
theorem skeletonTransfer_eq_ok [DecidableEq Point] (hE : E.Canonical) (hS : E.CanonicalScalars)
    (hR : E.RangeComplete) (w : Wallet E) (rand : TransferRandomness l) {inputs : List OwnedOutput}
    {membership : MembershipSnapshot} {dest : StealthAddress} {sendAmount fee : UInt64}
    (h : CanSpend E membership inputs)
    (hview : ∃ p, E.decompress dest.viewPublic = some p)
    (hspend : ∃ p, E.decompress dest.spendPublic = some p)
    (hfunds : sendAmount.toNat + fee.toNat ≤ (inputs.map fun i => i.amount.toNat).sum)
    (hfits : (inputs.map fun i => i.amount.toNat).sum < 2 ^ 64) :
    ∃ tx pairs, skeletonTransfer E w rand inputs membership dest sendAmount fee =
        .ok (tx, pairs.map (staged E membership)) ∧
      Prepared E membership inputs fee tx pairs := by
  obtain ⟨change, hchange, hsum⟩ := changeOf_eq_ok hfunds hfits
  obtain ⟨a, ha⟩ := hview
  obtain ⟨b, hb⟩ := hspend
  obtain ⟨x, y, hw⟩ := w.derived
  have haddress : w.address = (addressOf E x y).2 := by rw [hw]
  have hview₁ : E.decompress w.address.viewPublic = some (x • E.G) := by
    rw [haddress]
    exact hE.decompress_compress _
  have hspend₁ : E.decompress w.address.spendPublic = some (y • E.G) := by
    rw [haddress]
    exact hE.decompress_compress _
  obtain ⟨out₀, β₀, p₀, hout₀, hc₀, hp₀⟩ :=
    makeOutput_eq_ok hS rand.txSecret ha hb 0 sendAmount
  obtain ⟨out₁, β₁, p₁, hout₁, hc₁, hp₁⟩ := makeOutput_eq_ok hS rand.txSecret hview₁ hspend₁ 1 change
  obtain ⟨proof, hproof, hprooflen, hrange⟩ :=
    proveRange_pair hS hR rand.rangeProof sendAmount change β₀ β₁
  obtain ⟨last, hlast, hblindings⟩ :=
    balancingBlinding_pseudoScalars hS rand inputs.length β₀ β₁
  have hstaged := tryMap_stage hS h.ring.sorted h.member (pseudoScalars rand inputs.length (β₀ + β₁))
  have hsorted : ((inputs.zip (pseudoScalars rand inputs.length (β₀ + β₁))).map
        (staged E membership)).mergeSort
        (fun a b => decide (a.input.keyImage ≤ b.input.keyImage)) =
      (spends rand inputs (β₀ + β₁)).map (staged E membership) := by
    rw [spends, List.map_mergeSort]
    exact fun _ _ _ _ => rfl
  have hskeleton : tryMap skeletonInput ((spends rand inputs (β₀ + β₁)).map (staged E membership)) =
      .ok ((spends rand inputs (β₀ + β₁)).map fun x =>
        (⟨x.1.keyImage, E.compress (pseudoPoint E x), ⟨List.replicate 32 0, by decide⟩⟩ :
          FcmpInput)) := by
    rw [tryMap_map]
    exact tryMap_eq_ok fun x _ => rfl
  have hlen : ((spends rand inputs (β₀ + β₁)).map fun x =>
      (⟨x.1.keyImage, E.compress (pseudoPoint E x), ⟨List.replicate 32 0, by decide⟩⟩ :
        FcmpInput)).length ≤ MAX_FCMP_INPUTS := by
    rw [List.length_map, length_spends rand h.inputs_ne]
    exact h.inputs_le
  have houts : [out₀, out₁].length ≤ MAX_OUTPUTS := by
    have : 2 ≤ MAX_OUTPUTS := by decide
    exact this
  have hne : spends rand inputs (β₀ + β₁) ≠ [] := by
    rw [← List.length_pos_iff, length_spends rand h.inputs_ne]
    exact List.length_pos_iff.mpr h.inputs_ne
  have hamounts : ((spends rand inputs (β₀ + β₁)).map fun x => x.1.amount.toNat).sum =
      (inputs.map fun i => i.amount.toNat).sum := by
    have hperm := (map_fst_spends rand h.inputs_ne (β₀ + β₁)).map fun i => i.amount.toNat
    rw [List.map_map] at hperm
    exact hperm.sum_eq
  have hzs : ((spends rand inputs (β₀ + β₁)).map Prod.snd).sum = β₀ + β₁ :=
    (map_snd_spends rand h.inputs_ne _).sum_eq.trans (sum_pseudoScalars rand _ _)
  refine ⟨⟨membership.root, ⟨_, hlen⟩, ⟨_, houts⟩, E.compress (rand.txSecret • E.G),
    ⟨proof.1, hprooflen⟩, fee⟩, spends rand inputs (β₀ + β₁), ?_, rfl, rfl,
    map_fst_spends rand h.inputs_ne _, sorted_spends rand _, ?_, ?_, ⟨_, rfl⟩, List.cons_ne_nil _ _,
    ?_, ?_, ?_⟩
  · simp only [skeletonTransfer, h.checkInputs, hchange, txKeypair, hout₀, hout₁, hlast,
      okOr_some, ok_bind, hblindings, hstaged, hsorted, hskeleton, hproof, bounded_eq_ok hlen,
      bounded_eq_ok houts, bounded_eq_ok hprooflen]
  · rw [List.map_map]
    rfl
  · rw [List.map_map]
    rfl
  · intro out hout
    rcases List.mem_pair.mp hout with rfl | rfl
    · exact ⟨p₀, hp₀⟩
    · exact ⟨p₁, hp₁⟩
  · have hbalance := verifyBalance_spends hE hne (hamounts.trans hsum) hzs
    rw [← hc₀, ← hc₁, List.flatMap_map] at hbalance
    simp only [pseudoCommitments, outputCommitments, List.flatMap_map]
    exact hbalance
  · rw [← hc₀, ← hc₁] at hrange
    exact hrange

/-! ## The proofs -/

/-- An owned member of the ring is proved: the input carries its key image and its
pseudo-commitment, and its proof verifies unless one of them is the identity. -/
theorem proveInput_eq_ok [DecidableEq Point] (hE : E.Canonical) (hS : E.CanonicalScalars)
    {membership : MembershipSnapshot} {inputs : List OwnedOutput}
    (h : CanSpend E membership inputs) (nonces : ℕ → Clsag.Nonces l) (msg : Bytes32)
    {x : OwnedOutput × ZMod l} (hx : x.1 ∈ inputs) (k : ℕ) :
    ∃ input, proveInput E nonces msg membership (staged E membership x, k) = .ok input ∧
      input.keyImage = x.1.keyImage ∧ input.pseudoCommitment = E.compress (pseudoPoint E x) ∧
      (input.keyImage ≠ E.compress 0 → input.pseudoCommitment ≠ E.compress 0 →
        verify E msg.val membership.root.val input.pseudoCommitment.val input.keyImage.val
          input.fcmpProof.val = true) := by
  obtain ⟨⟨secret, hsecret, hkey⟩, hcommit, hki⟩ := h.owned x.1 hx
  obtain ⟨-, hget⟩ := realIndexOf_spec h.ring.sorted (h.member x.1 hx)
  obtain ⟨keys, commitments, hparse⟩ := h.parses
  have hreal : keys.getD (realIndexOf membership x.1) 0 = secret • E.G := by
    have hdec := (getD_of_parseRing hparse hget).1
    rw [memberOf, hkey, Option.some.injEq] at hdec
    exact hdec.symm
  obtain ⟨xIn, hIn, -⟩ := Option.map_eq_some_iff.mp hcommit
  obtain ⟨r, hr⟩ := prove_complete (nonces k) msg (w := ⟨membership.digests, membership.admitted,
    realIndexOf membership x.1, x.1.secret, x.1.blinding, E.scalarToBytes x.2⟩) h.ring h.slots_le
    hparse (List.getElem?_eq_some_iff.mp hget).1 hsecret hreal hIn (hS x.2)
  have hki' : r.keyImage = x.1.keyImage := by
    have := keyImage_of_prove hE hr
    rw [hki, Option.some.injEq] at this
    exact this.symm
  have hpc : r.pseudoCommitment = E.compress (pseudoPoint E x) := by
    have := pseudoCommitment_of_prove hE hr hget hcommit
    rw [Native.commit, hS, Option.map_some, Option.some.injEq] at this
    exact this.symm
  obtain ⟨-, clsag, -, hencode, -, -⟩ := prove_eq_some hr
  have hlen := (FcmpLemmas.fitsWire_of_encode hencode).2.2
  refine ⟨⟨x.1.keyImage, E.compress (pseudoPoint E x), ⟨r.proof, hlen⟩⟩, ?_, rfl, rfl, ?_⟩
  · simp only [proveInput, staged, hr, hki', hpc, ne_eq, not_true_eq_false, or_self, if_false,
      bounded_eq_ok hlen]
  · intro h1 h2
    rw [← hki'] at h1 ⊢
    rw [← hpc] at h2 ⊢
    rw [← h.root]
    exact verify_of_prove hE hS hr h1 h2

/-- A finished transfer: prepared, with proofs that verify. -/
structure Built [DecidableEq Point] (E : CryptoLib l Point) (membership : MembershipSnapshot)
    (inputs : List OwnedOutput) (fee : UInt64) (tx : TransferTx) : Prop where
  prepared : ∃ pairs, Prepared E membership inputs fee tx pairs
  fcmp : ∀ input ∈ tx.inputs.val, input.keyImage ≠ E.compress 0 →
    input.pseudoCommitment ≠ E.compress 0 →
    verify E (signingHash E.blake2_256 tx).val membership.root.val input.pseudoCommitment.val
      input.keyImage.val input.fcmpProof.val = true

/-- The construction of a transfer succeeds, whatever is drawn. -/
theorem buildTransferMulti_built [DecidableEq Point] (hE : E.Canonical) (hS : E.CanonicalScalars)
    (hR : E.RangeComplete) (w : Wallet E) (rand : TransferRandomness l) {inputs : List OwnedOutput}
    {membership : MembershipSnapshot} {dest : StealthAddress} {sendAmount fee : UInt64}
    (h : CanSpend E membership inputs)
    (hview : ∃ p, E.decompress dest.viewPublic = some p)
    (hspend : ∃ p, E.decompress dest.spendPublic = some p)
    (hfunds : sendAmount.toNat + fee.toNat ≤ (inputs.map fun i => i.amount.toNat).sum)
    (hfits : (inputs.map fun i => i.amount.toNat).sum < 2 ^ 64) :
    ∃ tx, buildTransferMulti E w rand inputs membership dest sendAmount fee = .ok tx ∧
      Built E membership inputs fee tx := by
  obtain ⟨tx, pairs, hskeleton, hprepared⟩ :=
    skeletonTransfer_eq_ok hE hS hR w rand h hview hspend hfunds hfits
  obtain ⟨proved, hproved, hall⟩ := exists_tryMap
    (f := proveInput E rand.nonces (signingHash E.blake2_256 tx) membership ∘
      Prod.map (staged E membership) id) (l := pairs.zipIdx) fun y hy =>
      proveInput_eq_ok hE hS h rand.nonces (signingHash E.blake2_256 tx)
        (hprepared.perm.mem_iff.mp (List.mem_map_of_mem (List.fst_mem_of_mem_zipIdx hy))) y.2
  rw [← tryMap_map, ← List.zipIdx_map] at hproved
  have hki : proved.map FcmpInput.keyImage = tx.inputs.val.map FcmpInput.keyImage := by
    rw [map_eq_of_forall₂ hall (f := fun y => y.1.1.keyImage) fun a b hab => hab.1,
      hprepared.keyImages]
    conv_rhs => rw [← List.zipIdx_map_fst 0 pairs, List.map_map]
    rfl
  have hpc : proved.map FcmpInput.pseudoCommitment =
      tx.inputs.val.map FcmpInput.pseudoCommitment := by
    rw [map_eq_of_forall₂ hall (f := fun y => E.compress (pseudoPoint E y.1))
      fun a b hab => hab.2.1, hprepared.pseudos]
    conv_rhs => rw [← List.zipIdx_map_fst 0 pairs, List.map_map]
    rfl
  have hlen : proved.length ≤ MAX_FCMP_INPUTS := by
    have := congrArg List.length hki
    rw [List.length_map, List.length_map] at this
    rw [this]
    exact tx.inputs.property
  obtain ⟨hfinal, hmsg⟩ := hprepared.withInputs ⟨proved, hlen⟩ hki hpc
  refine ⟨{ tx with inputs := ⟨proved, hlen⟩ }, ?_, ⟨pairs, hfinal⟩, ?_⟩
  · simp only [buildTransferMulti, hskeleton, hproved, bounded_eq_ok hlen]
  · intro input hinput
    obtain ⟨y, -, -, -, hverify⟩ := exists_of_forall₂ hall hinput
    rw [hmsg]
    exact hverify

/-! ## Acceptance -/

/-- No point of a transfer that has to be valid is the identity. -/
structure NoIdentity (E : CryptoLib l Point) (tx : TransferTx) : Prop where
  keyImages : ∀ input ∈ tx.inputs.val, input.keyImage ≠ E.compress 0
  pseudos : ∀ input ∈ tx.inputs.val, input.pseudoCommitment ≠ E.compress 0
  txPubkey : tx.txPubkey ≠ E.compress 0
  keys : ∀ out ∈ tx.outputs.val, out.oneTimeKey ≠ E.compress 0

instance (E : CryptoLib l Point) (tx : TransferTx) : Decidable (NoIdentity E tx) :=
  decidable_of_iff ((∀ input ∈ tx.inputs.val, input.keyImage ≠ E.compress 0) ∧
    (∀ input ∈ tx.inputs.val, input.pseudoCommitment ≠ E.compress 0) ∧
    tx.txPubkey ≠ E.compress 0 ∧ ∀ out ∈ tx.outputs.val, out.oneTimeKey ≠ E.compress 0)
    ⟨fun h => ⟨h.1, h.2.1, h.2.2.1, h.2.2.2⟩, fun h => ⟨h.1, h.2, h.3, h.4⟩⟩

omit [Module (ZMod l) Point] in
theorem isValidPoint_of_ne [DecidableEq Point] (hE : E.Canonical) {b : Bytes32}
    (hb : ∃ p, b = E.compress p) (hne : b ≠ E.compress 0) : Native.isValidPoint E b = true := by
  obtain ⟨p, rfl⟩ := hb
  rw [isValidPoint_compress hE]
  exact fun h0 => hne (by rw [h0])

/-- A built transfer passes every check of a chain whose live root is the one of the snapshot. -/
theorem Built.transferValid [DecidableEq Point] (hE : E.Canonical)
    {membership : MembershipSnapshot} {inputs : List OwnedOutput} {fee : UInt64} {tx : TransferTx}
    (h : Built E membership inputs fee tx) {cfg : Config} {s : Storage} (now : ℕ)
    (howned : ∀ input ∈ inputs, Owned E input) (hne : inputs ≠ [])
    (hnodup : (inputs.map OwnedOutput.keyImage).Nodup)
    (hunspent : ∀ input ∈ inputs, s.keyImages.containsKey input.keyImage = false)
    (hroot : membership.root = s.membershipRoot) (hslots : s.treeSlots ≤ MAX_FCMP_ANON_SET)
    (hfee : cfg.minFeePerByte.toNat * tx.encode.length ≤ fee.toNat) (hid : NoIdentity E tx) :
    TransferValid (nativeHost E) cfg now s tx := by
  obtain ⟨pairs, hp⟩ := h.prepared
  -- an input of the transfer carries the key image of an owned output
  have hsource : ∀ input ∈ tx.inputs.val, ∃ i ∈ inputs, input.keyImage = i.keyImage := by
    intro input hinput
    have hmem := List.mem_map_of_mem (f := FcmpInput.keyImage) hinput
    rw [hp.keyImages] at hmem
    obtain ⟨x, hx, heq⟩ := List.mem_map.mp hmem
    exact ⟨x.1, hp.perm.mem_iff.mp (List.mem_map_of_mem hx), heq.symm⟩
  have hpseudo : ∀ input ∈ tx.inputs.val, ∃ p, input.pseudoCommitment = E.compress p := by
    intro input hinput
    have hmem := List.mem_map_of_mem (f := FcmpInput.pseudoCommitment) hinput
    rw [hp.pseudos] at hmem
    obtain ⟨x, -, heq⟩ := List.mem_map.mp hmem
    exact ⟨_, heq.symm⟩
  have hsorted : tx.inputs.val.Pairwise fun a b => a.keyImage < b.keyImage := by
    have hmap : (pairs.map fun x => x.1.keyImage).Pairwise (· < ·) := by
      have hperm := hp.perm.map OwnedOutput.keyImage
      rw [List.map_map] at hperm
      have hle := List.pairwise_map.mpr hp.sorted
      exact (hle.and (hperm.nodup_iff.mpr hnodup)).imp fun hab => lt_of_le_of_ne hab.1 hab.2
    rw [← hp.keyImages, List.pairwise_map] at hmap
    exact hmap
  refine ⟨?_, hp.outputs_ne, hsorted, ?_, isValidPoint_of_ne hE hp.txPubkey hid.txPubkey,
    fun out hout => isValidPoint_of_ne hE (hp.keys out hout) (hid.keys out hout), hslots, ?_, ?_, ?_,
    fun input hinput => isValidPoint_of_ne hE (hpseudo input hinput) (hid.pseudos input hinput), ?_,
    hp.balance, hp.range⟩
  · intro hnil
    have hlen := congrArg List.length hp.keyImages
    rw [List.length_map, List.length_map, hnil] at hlen
    have hpairs := hp.perm.length_eq
    rw [List.length_map, ← hlen] at hpairs
    exact hne (List.length_eq_zero_iff.mp hpairs.symm)
  · have hsize : tx.encodedSize.toNat ≤ tx.encode.length := by
      rw [TransferTx.encodedSize, UInt64.toNat_ofNat']
      exact Nat.mod_le _ _
    rw [UInt64.le_iff_toNat_le, toNat_saturatingMul, hp.fee_eq]
    exact (min_le_left _ _).trans ((Nat.mul_le_mul_left _ hsize).trans hfee)
  · rw [membershipRootAccepted_iff, hp.root, hroot]
    exact .inl rfl
  · intro input hinput
    obtain ⟨i, hi, heq⟩ := hsource input hinput
    rw [heq]
    exact hunspent i hi
  · intro input hinput
    obtain ⟨i, hi, heq⟩ := hsource input hinput
    obtain ⟨x, -, hx⟩ := Option.map_eq_some_iff.mp (howned i hi).keyImage
    exact isValidPoint_of_ne hE ⟨_, heq.trans hx.symm⟩ (hid.keyImages input hinput)
  · intro input hinput
    rw [hp.root]
    exact h.fcmp input hinput (hid.keyImages input hinput) (hid.pseudos input hinput)

end Kohl.Wallet
