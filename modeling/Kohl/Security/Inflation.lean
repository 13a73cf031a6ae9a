import Mathlib.Algebra.Order.BigOperators.Group.List
import Mathlib.Algebra.BigOperators.Intervals
import Kohl.Lib.CoinLedger
import Kohl.Crypto.Plane
import Kohl.Pallet.KeyImages
import Kohl.Pallet.MatureSet
import Kohl.Pallet.RootWindow

/-!
# No hidden inflation

The abstract currency is a ledger of coins with plain values (`CoinLedger`). With ideal proofs every
run of the chain is simulated by it: an output is a coin with the value of its commitment, an input
spends the coin of the ring member it proves, and the balance check is an equation of values because
no sum reaches the group order.

* `values_balance`: an accepted transfer balances over the natural numbers.
* `simulates_step`: a step of the chain is an admissible event of the ledger.
* `no_inflation`: over every run no output is spent twice, and the values of the unspent outputs and
  the waiting fees together are the emission.
-/

namespace Kohl.Pallet

open ByteLib Run MembershipTree Fcmp SpecLemmas

variable {l : ℕ} {Point : Type} [AddCommGroup Point] [Module (ZMod l) Point]

/-! ## Ideal commitments and proofs -/

/-- The generators are independent over the scalars. -/
def Independent (E : CryptoLib l Point) : Prop :=
  ∀ a b : ZMod l, a • E.H + b • E.G = 0 → a = 0 ∧ b = 0

/-- A byte string stands for at most one point, and a point that is decompressed compresses to what
it was read from. -/
def CanonicalPoints (E : CryptoLib l Point) : Prop :=
  ∀ b p, E.decompress b = some p → E.compress p = b

/-- The commitment of a public amount is read back. -/
def PublicAmounts (E : CryptoLib l Point) : Prop :=
  ∀ a : UInt64, E.decompress (Native.valueCommitment E a) = some (E.pcCommit (a.toNat : ZMod l) 0)

/-- The commitment `c` carries the 64-bit value `v`. -/
def HasValue (E : CryptoLib l Point) (c : Bytes32) (v : ℕ) : Prop :=
  v < 2 ^ 64 ∧ ∃ b, E.decompress c = some (E.pcCommit (v : ZMod l) b)

/-- Soundness of the range proof of a transfer: if it is accepted, every output carries a 64-bit
value. -/
def RangeSound (E : CryptoLib l Point) (tx : TransferTx) : Prop :=
  Native.verifyRangeProof E tx.rangeProof.val (outputCommitments tx) = true →
    ∀ out ∈ tx.outputs.val, ∃ v, HasValue E out.commitment v

/-- The input spends the output with key `p` and commitment `c`: the key is `x·G`, the key image is
`x·Hp(p)`, and the two commitments differ by a multiple of `G`. -/
def SpendsMember (E : CryptoLib l Point) (input : FcmpInput) (p c : Bytes32) : Prop :=
  ∃ (x z : ZMod l) (cPoint pseudoPoint : Point), E.decompress p = some (x • E.G) ∧
    E.decompress input.keyImage = some (x • Clsag.hp E p.val) ∧
    E.decompress c = some cPoint ∧ E.decompress input.pseudoCommitment = some pseudoPoint ∧
    cPoint - pseudoPoint = z • E.G

/-- Soundness of the proofs of a transfer's inputs: an accepted one means that the input spends a
member of the ring of the proof. -/
def FcmpSound [DecidableEq Point] (E : CryptoLib l Point) (tx : TransferTx) : Prop :=
  ∀ input ∈ tx.inputs.val,
    verify E (signingHash E.blake2_256 tx).val tx.membershipRoot.val input.pseudoCommitment.val
      input.keyImage.val input.fcmpProof.val = true →
    ∃ parsed, FcmpProof.decode input.fcmpProof.val = some parsed ∧
      ∃ m ∈ parsed.ring, SpendsMember E input m.oneTimeKey m.commitment

open Classical in
/-- The value a commitment carries. -/
noncomputable def valueOf (E : CryptoLib l Point) (c : Bytes32) : ℕ :=
  if h : ∃ v, HasValue E c v then h.choose else 0

namespace InflationLemmas

variable {E : CryptoLib l Point}

/-- Equal commitments have equal values and blindings. -/
theorem pcCommit_inj (hind : Independent E) {v w b b' : ZMod l}
    (h : E.pcCommit v b = E.pcCommit w b') : v = w ∧ b = b' := by
  have hzero : (v - w) • E.H + (b - b') • E.G = 0 := by
    have hsub := sub_eq_zero.mpr h
    rw [CryptoLib.pcCommit, CryptoLib.pcCommit] at hsub
    rw [sub_smul, sub_smul, ← hsub]
    abel
  obtain ⟨hv, hb⟩ := hind _ _ hzero
  exact ⟨sub_eq_zero.mp hv, sub_eq_zero.mp hb⟩

/-- Numbers below the order are equal when they are equal as scalars. -/
theorem natCast_inj {v w : ℕ} (hv : v < l) (hw : w < l) (h : (v : ZMod l) = (w : ZMod l)) :
    v = w := by
  rw [ZMod.natCast_eq_natCast_iff', Nat.mod_eq_of_lt hv, Nat.mod_eq_of_lt hw] at h
  exact h

theorem valueOf_eq (hl : 2 ^ 250 < l) (hind : Independent E) {c : Bytes32} {v : ℕ}
    (h : HasValue E c v) : valueOf E c = v := by
  have hex : ∃ v, HasValue E c v := ⟨v, h⟩
  unfold valueOf
  rw [dif_pos hex]
  obtain ⟨hlt, b, hb⟩ := h
  obtain ⟨hlt', b', hb'⟩ := hex.choose_spec
  rw [hb, Option.some.injEq] at hb'
  exact natCast_inj (by omega) (by omega) (pcCommit_inj hind hb').1.symm

theorem hasValue_valueOf (hl : 2 ^ 250 < l) (hind : Independent E) {c : Bytes32}
    (h : ∃ v, HasValue E c v) : HasValue E c (valueOf E c) := by
  obtain ⟨v, hv⟩ := h
  rw [valueOf_eq hl hind hv]
  exact hv

/-- Commitments that carry values add up to one that carries the sum. -/
theorem exists_sum_eq_pcCommit {cs : List Bytes32} {ps : List Point}
    (hcollect : collect E.decompress cs = some ps) (h : ∀ c ∈ cs, HasValue E c (valueOf E c)) :
    ∃ b, ps.sum = E.pcCommit (((cs.map (valueOf E)).sum : ℕ) : ZMod l) b := by
  induction cs generalizing ps with
  | nil =>
    cases hcollect
    exact ⟨0, by simp [CryptoLib.pcCommit]⟩
  | cons c cs ih =>
    obtain ⟨-, b, hb⟩ := h c List.mem_cons_self
    rw [collect, hb, Option.bind_some, Option.map_eq_some_iff] at hcollect
    obtain ⟨ps', hps', rfl⟩ := hcollect
    obtain ⟨b', hb'⟩ := ih hps' fun c' hc' => h c' (List.mem_cons_of_mem _ hc')
    refine ⟨b + b', ?_⟩
    rw [List.sum_cons, hb', List.map_cons, List.sum_cons, Nat.cast_add, CryptoLib.pcCommit,
      CryptoLib.pcCommit, CryptoLib.pcCommit, add_smul, add_smul]
    abel

theorem sum_valueOf_le {cs : List Bytes32} (h : ∀ c ∈ cs, HasValue E c (valueOf E c)) :
    (cs.map (valueOf E)).sum ≤ cs.length * 2 ^ 64 := by
  have hle := List.sum_le_card_nsmul (cs.map (valueOf E)) (2 ^ 64) fun v hv => by
    obtain ⟨c, hc, rfl⟩ := List.mem_map.mp hv
    exact (h c hc).1.le
  rw [List.length_map, smul_eq_mul] at hle
  exact hle

end InflationLemmas

open InflationLemmas

/-- The pseudo-commitment of a spend carries the value of the commitment it spends. -/
theorem SpendsMember.hasValue {E : CryptoLib l Point} {input : FcmpInput} {p c : Bytes32} {v : ℕ}
    (h : SpendsMember E input p c) (hv : HasValue E c v) : HasValue E input.pseudoCommitment v := by
  obtain ⟨x, z, cPoint, pseudoPoint, -, -, hc, hpseudo, hdiff⟩ := h
  obtain ⟨hlt, b, hb⟩ := hv
  rw [hc, Option.some.injEq] at hb
  refine ⟨hlt, b - z, ?_⟩
  rw [hpseudo, ← sub_sub_cancel cPoint pseudoPoint, hdiff, hb, CryptoLib.pcCommit,
    CryptoLib.pcCommit, sub_smul]
  congr 1
  abel

/-- Inputs that spend outputs with one key have one key image. -/
theorem SpendsMember.keyImage_eq {E : CryptoLib l Point} (hind : Independent E)
    (hcanon : CanonicalPoints E) {input input' : FcmpInput} {p c c' : Bytes32} (h : SpendsMember E input p c)
    (h' : SpendsMember E input' p c') : input.keyImage = input'.keyImage := by
  obtain ⟨x, -, -, -, hp, hki, -⟩ := h
  obtain ⟨x', -, -, -, hp', hki', -⟩ := h'
  have hx : x = x' := by
    rw [hp, Option.some.injEq] at hp'
    have heq : E.pcCommit 0 x = E.pcCommit 0 x' := by
      rw [CryptoLib.pcCommit, CryptoLib.pcCommit, hp']
    exact (pcCommit_inj hind heq).2
  rw [← hcanon _ _ hki, ← hcanon _ _ hki', hx]

variable [DecidableEq Point]

/-- An accepted transfer whose commitments all carry values balances over the natural numbers: no sum
reaches the order of the group. -/
theorem values_balance {E : CryptoLib l Point} {cfg : Config} (hl : 2 ^ 250 < l)
    (hind : Independent E) {now : ℕ} {s : Storage} {tx : TransferTx}
    (hvalid : TransferValid (nativeHost E) cfg now s tx)
    (hins : ∀ input ∈ tx.inputs.val, ∃ v, HasValue E input.pseudoCommitment v)
    (houts : ∀ out ∈ tx.outputs.val, ∃ v, HasValue E out.commitment v) :
    (tx.inputs.val.map fun input => valueOf E input.pseudoCommitment).sum =
      (tx.outputs.val.map fun out => valueOf E out.commitment).sum + tx.fee.toNat := by
  obtain ⟨ins, outs, hcin, hcout, hsum⟩ := decompress_of_transferValid hvalid
  have hvin : ∀ c ∈ tx.inputs.val.map FcmpInput.pseudoCommitment, HasValue E c (valueOf E c) := by
    intro c hc
    obtain ⟨input, hinput, rfl⟩ := List.mem_map.mp hc
    exact hasValue_valueOf hl hind (hins input hinput)
  have hvout : ∀ c ∈ tx.outputs.val.map Output.commitment, HasValue E c (valueOf E c) := by
    intro c hc
    obtain ⟨out, hout, rfl⟩ := List.mem_map.mp hc
    exact hasValue_valueOf hl hind (houts out hout)
  obtain ⟨b, hb⟩ := exists_sum_eq_pcCommit hcin hvin
  obtain ⟨b', hb'⟩ := exists_sum_eq_pcCommit hcout hvout
  have hlein := sum_valueOf_le hvin
  have hleout := sum_valueOf_le hvout
  rw [List.map_map] at hb hb' hlein hleout
  rw [List.length_map] at hlein hleout
  have hmaxin := Nat.mul_le_mul_right (2 ^ 64) tx.inputs.property
  have hmaxout := Nat.mul_le_mul_right (2 ^ 64) tx.outputs.property
  have hfee := tx.fee.toNat_lt
  have hfour : MAX_FCMP_INPUTS = 4 := rfl
  have height : MAX_OUTPUTS = 8 := rfl
  have hcommit : E.pcCommit (((tx.inputs.val.map (valueOf E ∘ FcmpInput.pseudoCommitment)).sum : ℕ) :
      ZMod l) b = E.pcCommit (((tx.outputs.val.map (valueOf E ∘ Output.commitment)).sum +
        tx.fee.toNat : ℕ) : ZMod l) b' := by
    rw [← hb, hsum, hb', CryptoLib.pcCommit, CryptoLib.pcCommit, Nat.cast_add, add_smul]
    abel
  show (tx.inputs.val.map (valueOf E ∘ FcmpInput.pseudoCommitment)).sum =
    (tx.outputs.val.map (valueOf E ∘ Output.commitment)).sum + tx.fee.toNat
  exact natCast_inj (by omega) (by omega) (pcCommit_inj hind hcommit).1

/-! ## The simulation -/

section Simulation

variable {E : CryptoLib l Point} {cfg : Config}

/-- The input spends the output at index `i` of the ledger `outs`. -/
def Spends (E : CryptoLib l Point) (outs : List StoredOutput) (input : FcmpInput) (i : ℕ) : Prop :=
  ∃ out, outs[i]? = some out ∧ SpendsMember E input out.oneTimeKey out.commitment

omit [DecidableEq Point] in
theorem Spends.append {outs new : List StoredOutput} {input : FcmpInput} {i : ℕ}
    (h : Spends E outs input i) : Spends E (outs ++ new) input i := by
  obtain ⟨out, hout, hspends⟩ := h
  refine ⟨out, ?_, hspends⟩
  rw [List.getElem?_append_left (List.getElem?_eq_some_iff.mp hout).1, hout]

/-- How a ledger of coins stands for the chain behind a run. -/
structure Simulates (E : CryptoLib l Point) (cfg : Config) (ops : List Op) (a : CoinLedger) : Prop where
  coins : a.coins = (ledger (nativeHost E) cfg (.genesis (nativeHost E)) ops).map
    fun out => valueOf E out.commitment
  spent : List.Forall₂ (Spends E (ledger (nativeHost E) cfg (.genesis (nativeHost E)) ops))
    (acceptedInputs (nativeHost E) cfg (.genesis (nativeHost E)) ops) a.spent
  fees : a.fees =
    (run (step (nativeHost E) cfg) (.genesis (nativeHost E)) ops).store.blockFees.toNat
  emitted : a.emitted =
    (run (step (nativeHost E) cfg) (.genesis (nativeHost E)) ops).store.emitted.toNat

theorem simulates_genesis : Simulates E cfg [] .empty := ⟨rfl, .nil, rfl, rfl⟩

/-- What the simulation of a run assumes of its accepted transfers: sound proofs, and a hash without
collisions among the preimages of the trees and of the proofs. -/
structure IdealRun (E : CryptoLib l Point) (cfg : Config) (ops : List Op) : Prop where
  range : ∀ tx ∈ acceptedTransfers (nativeHost E) cfg (.genesis (nativeHost E)) ops, RangeSound E tx
  fcmp : ∀ tx ∈ acceptedTransfers (nativeHost E) cfg (.genesis (nativeHost E)) ops, FcmpSound E tx
  hash : CollisionFree E.blake2_256 (runPreimages (nativeHost E) cfg ops ++
    (acceptedInputs (nativeHost E) cfg (.genesis (nativeHost E)) ops).flatMap fun input =>
      proofPreimages E.blake2_256 input.fcmpProof.val)

/-- A transfer a step of the run executes is among the accepted ones. -/
theorem mem_acceptedTransfers {H : Host} {pre ops : List Op} {op : Op} {tx : TransferTx}
    (hpre : pre ++ [op] <+: ops)
    (h : acceptedTransfer H cfg (run (step H cfg) (.genesis H) pre) op = some tx) :
    tx ∈ acceptedTransfers H cfg (.genesis H) ops := by
  obtain ⟨later, rfl⟩ := hpre
  rw [acceptedTransfers_append, acceptedTransfers_concat, h]
  exact List.mem_append_left _ (List.mem_append_right _ List.mem_cons_self)

/-- Every stored output of an ideal run carries a value. -/
theorem hasValue_of_mem_ledger (hpublic : PublicAmounts E) {ops : List Op}
    (hideal : IdealRun E cfg ops) :
    ∀ out ∈ ledger (nativeHost E) cfg (.genesis (nativeHost E)) ops,
      ∃ v, HasValue E out.commitment v := by
  refine forall_mem_ledger ops fun pre op hpre out hout => ?_
  rcases mem_stepOutputs hout with ⟨tx, htx, hvalid, o, ho, rfl⟩ | ⟨outs, pk, -, -, o, ho, rfl⟩
  · exact hideal.range tx (mem_acceptedTransfers hpre htx) hvalid.range o ho
  · exact ⟨o.amount.toNat, o.amount.toNat_lt, 0, hpublic o.amount⟩

/-- Every input of a valid transfer with sound proofs spends an output that is stored. -/
theorem exists_spends_of_valid {pre : List Op} {now : ℕ} {tx : TransferTx}
    (hvalid : TransferValid (nativeHost E) cfg now
      (run (step (nativeHost E) cfg) (.genesis (nativeHost E)) pre).store tx)
    (hsound : FcmpSound E tx)
    (hfree : ∀ input ∈ tx.inputs.val, CollisionFree E.blake2_256
      (runPreimages (nativeHost E) cfg pre ++ proofPreimages E.blake2_256 input.fcmpProof.val)) :
    ∀ input ∈ tx.inputs.val, ∃ i,
      Spends E (ledger (nativeHost E) cfg (.genesis (nativeHost E)) pre) input i := by
  intro input hinput
  have hverify := hvalid.fcmp input hinput
  obtain ⟨parsed, hparsed, m, hm, hspends⟩ := hsound input hinput hverify
  -- the root was live in a state `src` of the run, and the ring is what was admitted there
  obtain ⟨src, hsrc, hroot⟩ := exists_prefix_of_rootAccepted hvalid.root
  rw [← hroot] at hverify
  obtain ⟨clsag, hdecode, hlen, -⟩ := ring_of_rootAccepted hsrc rfl (hfree input hinput) hverify
  rw [hparsed, Option.some.injEq] at hdecode
  subst hdecode
  have hinv := (@treeInv_run_genesis (nativeHost E) cfg src).1
  obtain ⟨-, out, hout, hp, hc⟩ := (mem_ringOfSlots_slotsOf hinv.slots hlen).mp hm
  have hstored := get_outputs_prefix hsrc hout
  rw [(ledger_spec pre).1] at hstored
  rw [← hp, ← hc] at hspends
  exact ⟨m.treeIndex.toNat, out, hstored, hspends⟩

/-- Every input of an accepted transfer of an ideal run spends an output that is stored before. -/
theorem exists_spends {ops pre : List Op} {op : Op} {tx : TransferTx} (hideal : IdealRun E cfg ops)
    (hpre : pre ++ [op] <+: ops)
    (htx : acceptedTransfer (nativeHost E) cfg
      (run (step (nativeHost E) cfg) (.genesis (nativeHost E)) pre) op = some tx) :
    ∀ input ∈ tx.inputs.val, ∃ i,
      Spends E (ledger (nativeHost E) cfg (.genesis (nativeHost E)) pre) input i := by
  have hmem := mem_acceptedTransfers hpre htx
  refine exists_spends_of_valid (acceptedTransfer_spec htx).1 (hideal.fcmp tx hmem) ?_
  intro input hinput
  refine hideal.hash.mono (List.append_subset.mpr ⟨fun x hx => ?_, fun x hx => ?_⟩)
  · exact List.mem_append_left _ (runPreimages_mono ((List.prefix_append _ _).trans hpre) hx)
  · refine List.mem_append_right _ (List.mem_flatMap.mpr ⟨input, ?_, hx⟩)
    exact List.mem_flatMap.mpr ⟨tx, hmem, hinput⟩

/-- A step that executes nothing and moves no money is idle. -/
theorem Simulates.idle {pre : List Op} {op : Op} {a : CoinLedger} (h : Simulates E cfg pre a)
    {c : Chain} (hc : c = run (step (nativeHost E) cfg) (.genesis (nativeHost E)) pre)
    (hcall : acceptedCall (nativeHost E) cfg c op = none)
    (hfees : (step (nativeHost E) cfg c op).store.blockFees = c.store.blockFees)
    (hemitted : (step (nativeHost E) cfg c op).store.emitted = c.store.emitted) :
    Simulates E cfg (pre ++ [op]) (a.apply .idle) := by
  subst hc
  have hledger : ledger (nativeHost E) cfg (.genesis (nativeHost E)) (pre ++ [op]) =
      ledger (nativeHost E) cfg (.genesis (nativeHost E)) pre := by
    rw [ledger_concat, stepOutputs, hcall]
    exact List.append_nil _
  have hinputs : acceptedInputs (nativeHost E) cfg (.genesis (nativeHost E)) (pre ++ [op]) =
      acceptedInputs (nativeHost E) cfg (.genesis (nativeHost E)) pre := by
    rw [acceptedInputs_concat, acceptedTransfer, hcall]
    exact List.append_nil _
  refine ⟨?_, ?_, ?_, ?_⟩
  · rw [hledger]
    exact h.coins
  · rw [hledger, hinputs]
    exact h.spent
  · rw [run_concat, hfees]
    exact h.fees
  · rw [run_concat, hemitted]
    exact h.emitted

/-- The value of the coin an input spends is the one of its pseudo-commitment. -/
theorem Simulates.value_eq (hl : 2 ^ 250 < l) (hind : Independent E) {pre : List Op} {a : CoinLedger}
    (h : Simulates E cfg pre a)
    (hvalues : ∀ out ∈ ledger (nativeHost E) cfg (.genesis (nativeHost E)) pre,
      ∃ v, HasValue E out.commitment v) {input : FcmpInput} {i : ℕ}
    (hspends : Spends E (ledger (nativeHost E) cfg (.genesis (nativeHost E)) pre) input i) :
    i < a.coins.length ∧ HasValue E input.pseudoCommitment (a.value i) := by
  obtain ⟨out, hout, hmember⟩ := hspends
  have hvalue : a.value i = valueOf E out.commitment := by
    rw [CoinLedger.value, h.coins, List.getD_eq_getElem?_getD, List.getElem?_map, hout]
    rfl
  refine ⟨?_, ?_⟩
  · rw [h.coins, List.length_map]
    exact (List.getElem?_eq_some_iff.mp hout).1
  · rw [hvalue]
    exact hmember.hasValue (hasValue_valueOf hl hind (hvalues out (List.mem_of_getElem? hout)))

/-- A valid transfer with sound proofs is an admissible transfer of coins: `is` are the coins its inputs
spend. -/
theorem Simulates.admissible (hl : 2 ^ 250 < l) (hind : Independent E) (hcanon : CanonicalPoints E)
    {pre : List Op} {a : CoinLedger} (h : Simulates E cfg pre a)
    (hvalues : ∀ out ∈ ledger (nativeHost E) cfg (.genesis (nativeHost E)) pre,
      ∃ v, HasValue E out.commitment v) {now : ℕ} {tx : TransferTx}
    (hvalid : TransferValid (nativeHost E) cfg now
      (run (step (nativeHost E) cfg) (.genesis (nativeHost E)) pre).store tx)
    (hrange : RangeSound E tx) {is : List ℕ}
    (his : List.Forall₂ (Spends E (ledger (nativeHost E) cfg (.genesis (nativeHost E)) pre))
      tx.inputs.val is) :
    CoinLedger.Admissible a
      (.transfer is (tx.outputs.val.map fun out => valueOf E out.commitment) tx.fee.toNat) := by
  have hsum : is.map a.value =
      tx.inputs.val.map fun input => valueOf E input.pseudoCommitment :=
    map_eq_of_forall₂ his fun input i hspends =>
      (valueOf_eq hl hind (h.value_eq hl hind hvalues hspends).2).symm
  refine .transfer _ _ _ ?_ ?_ ?_
  · intro i hi
    obtain ⟨input, -, hspends⟩ := exists_of_forall₂ his hi
    exact (h.value_eq hl hind hvalues hspends).1
  · -- one output has one key image
    refine nodup_of_forall₂ (f := FcmpInput.keyImage) (List.rel_append h.spent his) ?_ ?_
    · rintro input input' i ⟨out, hout, hmember⟩ ⟨out', hout', hmember'⟩
      rw [hout, Option.some.injEq] at hout'
      subst hout'
      exact hmember.keyImage_eq hind hcanon hmember'
    · exact keyImages_append_nodup hvalid
  · rw [hsum]
    refine values_balance hl hind hvalid ?_ (hrange hvalid.range)
    intro input hinput
    obtain ⟨k, hk⟩ := List.getElem?_of_mem hinput
    obtain ⟨i, -, hspends⟩ := getElem?_of_forall₂ his hk
    exact ⟨_, (h.value_eq hl hind hvalues hspends).2⟩

/-- An accepted transfer is a transfer of coins. -/
theorem Simulates.transfer (hl : 2 ^ 250 < l) (hind : Independent E) (hcanon : CanonicalPoints E)
    (hpublic : PublicAmounts E) {ops pre : List Op} {op : Op} {a : CoinLedger} {tx : TransferTx}
    (hideal : IdealRun E cfg ops) (hpre : pre ++ [op] <+: ops) (h : Simulates E cfg pre a)
    (hcall : acceptedCall (nativeHost E) cfg
      (run (step (nativeHost E) cfg) (.genesis (nativeHost E)) pre) op = some (.transfer tx)) :
    ∃ e, CoinLedger.Admissible a e ∧ Simulates E cfg (pre ++ [op]) (a.apply e) := by
  have htx : acceptedTransfer (nativeHost E) cfg
      (run (step (nativeHost E) cfg) (.genesis (nativeHost E)) pre) op = some tx := by
    rw [acceptedTransfer, hcall]
  obtain ⟨hvalid, fees, hfees, hstep⟩ := acceptedTransfer_spec htx
  have hvalues : ∀ out ∈ ledger (nativeHost E) cfg (.genesis (nativeHost E)) pre,
      ∃ v, HasValue E out.commitment v := by
    obtain ⟨later, hlater⟩ := hpre
    intro out hout
    refine hasValue_of_mem_ledger hpublic hideal out ?_
    rw [← hlater, List.append_assoc, ledger_append]
    exact List.mem_append_left _ hout
  have hledger : ledger (nativeHost E) cfg (.genesis (nativeHost E)) (pre ++ [op]) =
      ledger (nativeHost E) cfg (.genesis (nativeHost E)) pre ++
        tx.outputs.val.map (storedOfTransfer
          (run (step (nativeHost E) cfg) (.genesis (nativeHost E)) pre).number tx) := by
    rw [ledger_concat, stepOutputs, hcall]
    simp [Call.storedOutputs]
  have hinputs : acceptedInputs (nativeHost E) cfg (.genesis (nativeHost E)) (pre ++ [op]) =
      acceptedInputs (nativeHost E) cfg (.genesis (nativeHost E)) pre ++ tx.inputs.val := by
    rw [acceptedInputs_concat, htx]
    simp
  obtain ⟨is, his⟩ := exists_forall₂ (exists_spends hideal hpre htx)
  have hrange := hideal.range tx (mem_acceptedTransfers hpre htx)
  refine ⟨_, h.admissible hl hind hcanon hvalues hvalid hrange his, ?_, ?_, ?_, ?_⟩
  · rw [CoinLedger.apply, h.coins, hledger, List.map_append, List.map_map]
    rfl
  · rw [hinputs, hledger]
    exact (List.rel_append h.spent his).imp fun input i hspends => hspends.append
  · rw [run_concat, hstep, (transferred_money _ _ _ _).1, CoinLedger.apply, h.fees,
      checkedAdd_eq_some.mp hfees]
  · rw [run_concat, hstep, (transferred_money _ _ _ _).2.1]
    exact h.emitted

/-- An accepted coinbase is a mint of the reward. -/
theorem Simulates.coinbase (hl : 2 ^ 250 < l) (hind : Independent E) (hpublic : PublicAmounts E)
    {pre : List Op} {op : Op} {a : CoinLedger}
    {outputs : BoundedVec CoinbaseOutput MAX_OUTPUTS} {txPubkey : Bytes32} {emitted : UInt64}
    (h : Simulates E cfg pre a) {c : Chain}
    (hc : c = run (step (nativeHost E) cfg) (.genesis (nativeHost E)) pre)
    (hcall : acceptedCall (nativeHost E) cfg c op = some (.coinbase outputs txPubkey))
    (hvalid : CoinbaseValid (nativeHost E) c.store outputs.val txPubkey)
    (hemitted : checkedAdd c.store.emitted (blockReward c.store.emitted) = some emitted)
    (hstep : (step (nativeHost E) cfg c op).store =
      minted (nativeHost E) c.number c.store outputs.val txPubkey emitted) :
    ∃ e, CoinLedger.Admissible a e ∧ Simulates E cfg (pre ++ [op]) (a.apply e) := by
  have hledger : ledger (nativeHost E) cfg (.genesis (nativeHost E)) (pre ++ [op]) =
      ledger (nativeHost E) cfg (.genesis (nativeHost E)) pre ++
        outputs.val.map (storedOfCoinbase (nativeHost E) c.number txPubkey) := by
    rw [ledger_concat, ← hc, stepOutputs, hcall]
    simp [Call.storedOutputs]
  have hinputs : acceptedInputs (nativeHost E) cfg (.genesis (nativeHost E)) (pre ++ [op]) =
      acceptedInputs (nativeHost E) cfg (.genesis (nativeHost E)) pre := by
    rw [acceptedInputs_concat, ← hc, acceptedTransfer, hcall]
    exact List.append_nil _
  have hamount : ∀ amount : UInt64, valueOf E (Native.valueCommitment E amount) = amount.toNat :=
    fun amount => valueOf_eq hl hind ⟨amount.toNat_lt, 0, hpublic amount⟩
  refine ⟨.mint (outputs.val.map fun out => out.amount.toNat) (blockReward c.store.emitted).toNat,
    .mint _ _ ?_, ?_, ?_, ?_, ?_⟩
  · rw [h.fees, ← hc]
    exact hvalid.total
  · have hnew : (outputs.val.map fun out => out.amount.toNat) = outputs.val.map
        ((fun out => valueOf E out.commitment) ∘ storedOfCoinbase (nativeHost E) c.number txPubkey) :=
      List.map_congr_left fun out _ => (hamount out.amount).symm
    rw [CoinLedger.apply, h.coins, hledger, List.map_append, List.map_map, hnew]
  · rw [hinputs, hledger]
    exact h.spent.imp fun input i hspends => hspends.append
  · rw [run_concat, ← hc, hstep, (minted_money _ _ _ _ _).1]
    rfl
  · rw [run_concat, ← hc, hstep, (minted_money _ _ _ _ _).2.1, CoinLedger.apply, h.emitted, ← hc,
      checkedAdd_eq_some.mp hemitted]

/-- Every step of an ideal run is an admissible event of the ledger of coins. -/
theorem simulates_step (hl : 2 ^ 250 < l) (hind : Independent E) (hcanon : CanonicalPoints E)
    (hpublic : PublicAmounts E) {ops : List Op} (hideal : IdealRun E cfg ops) (pre : List Op)
    (op : Op) (hpre : pre ++ [op] <+: ops) (a : CoinLedger) (h : Simulates E cfg pre a) :
    ∃ e, CoinLedger.Admissible a e ∧ Simulates E cfg (pre ++ [op]) (a.apply e) := by
  generalize hc : run (step (nativeHost E) cfg) (.genesis (nativeHost E)) pre = c
  have hspec := @step_spec (nativeHost E) cfg c op
  generalize hs : (step (nativeHost E) cfg c op).store = s' at hspec
  generalize hcall : acceptedCall (nativeHost E) cfg c op = call at hspec
  cases hspec with
  | onInitialize => exact ⟨.idle, .idle, h.idle hc.symm hcall (by rw [hs]; rfl) (by rw [hs]; rfl)⟩
  | rejected origin call e he =>
    exact ⟨.idle, .idle, h.idle hc.symm hcall (by rw [hs]) (by rw [hs])⟩
  | transfer tx fees hvalid hfees =>
    subst hc
    exact h.transfer hl hind hcanon hpublic hideal hpre hcall
  | coinbase outputs txPubkey emitted hvalid hemitted =>
    exact h.coinbase hl hind hpublic hc.symm hcall hvalid hemitted hs
  | onFinalize =>
    obtain ⟨_, _, _, _, _, _, hkeep⟩ := @exists_onFinalize (nativeHost E) cfg c.number c.store
    exact ⟨.idle, .idle, h.idle hc.symm hcall (by rw [hs, hkeep]) (by rw [hs, hkeep])⟩

/-- An ideal run is simulated by a sound ledger of coins. -/
theorem exists_simulates (hl : 2 ^ 250 < l) (hind : Independent E) (hcanon : CanonicalPoints E)
    (hpublic : PublicAmounts E) {ops : List Op} (hideal : IdealRun E cfg ops) :
    ∃ a, Simulates E cfg ops a ∧ CoinLedger.Sound a := by
  obtain ⟨es, hlen, hok, hsim⟩ := exists_simulation (R := Simulates E cfg) simulates_genesis ops
    (simulates_step hl hind hcanon hpublic hideal)
  have hlast := hsim ops.length le_rfl
  rw [List.take_length, ← hlen, List.take_length] at hlast
  exact ⟨_, hlast, CoinLedger.sound_run hok⟩

end Simulation

/-- No hidden inflation. In every run with sound proofs every stored output carries a value, and
there is an injective map `μ` from the inputs of all accepted transfers to output indices: an input
that a step executes is mapped to an output stored before that step, and its pseudo-commitment
carries the value of that output. In every state of the run the values of all stored outputs, less
those of the mapped ones, and the waiting fees together are the emission, as integers. -/
theorem no_inflation (E : CryptoLib l Point) (cfg : Config) (hl : 2 ^ 250 < l)
    (hind : Independent E) (hcanon : CanonicalPoints E) (hpublic : PublicAmounts E) (ops : List Op)
    (hideal : IdealRun E cfg ops) :
    ∃ value μ : ℕ → ℕ,
      (∀ i out, (run (step (nativeHost E) cfg) (.genesis (nativeHost E)) ops).store.outputs.get i =
        some out → HasValue E out.commitment (value i)) ∧
      Set.InjOn μ
        {k | k < (acceptedInputs (nativeHost E) cfg (.genesis (nativeHost E)) ops).length} ∧
      (∀ pre op, pre ++ [op] <+: ops → ∀ k input,
        (acceptedInputs (nativeHost E) cfg (.genesis (nativeHost E)) pre).length ≤ k →
        (acceptedInputs (nativeHost E) cfg (.genesis (nativeHost E)) (pre ++ [op]))[k]? =
          some input →
        (∃ out, (run (step (nativeHost E) cfg) (.genesis (nativeHost E)) pre).store.outputs.get
          (μ k) = some out) ∧ HasValue E input.pseudoCommitment (value (μ k))) ∧
      ∀ pre, pre <+: ops →
        let s := (run (step (nativeHost E) cfg) (.genesis (nativeHost E)) pre).store
        let spent := (acceptedInputs (nativeHost E) cfg (.genesis (nativeHost E)) pre).length
        ∑ i ∈ Finset.range s.nextOutputIndex, (value i : ℤ) -
          ∑ k ∈ Finset.range spent, (value (μ k) : ℤ) + s.blockFees.toNat = s.emitted.toNat := by
  obtain ⟨es, hlen, hok, hsim⟩ := exists_simulation (R := Simulates E cfg) simulates_genesis ops
    (simulates_step hl hind hcanon hpublic hideal)
  have hvalues := hasValue_of_mem_ledger hpublic hideal
  have hstate : ∀ pre, pre <+: ops →
      Simulates E cfg pre (run CoinLedger.apply .empty (es.take pre.length)) := by
    intro pre hpre
    have h := hsim pre.length hpre.length_le
    rw [← List.prefix_iff_eq_take.mp hpre] at h
    exact h
  have hlast : Simulates E cfg ops (run CoinLedger.apply .empty es) := by
    have h := hstate ops (List.prefix_refl _)
    rw [← hlen, List.take_length] at h
    exact h
  refine ⟨(run CoinLedger.apply .empty es).value, (run CoinLedger.apply .empty es).spentAt,
    fun i out hout => ?_, fun k hk k' hk' heq => ?_, fun pre op hpre k input hk hinput => ?_,
    fun pre hpre => ?_⟩
  · rw [(ledger_spec ops).1] at hout
    rw [CoinLedger.value, hlast.coins, List.getD_eq_getElem?_getD, List.getElem?_map, hout]
    exact hasValue_valueOf hl hind (hvalues out (List.mem_of_getElem? hout))
  · rw [Set.mem_ofPred_eq, hlast.spent.length_eq] at hk hk'
    exact (CoinLedger.sound_run hok).spentAt_inj hk hk' heq
  · have hn : pre.length < es.length := by
      have hle := hpre.length_le
      rw [List.length_append, List.length_singleton] at hle
      omega
    have htake : es.take (pre.length + 1) = es.take pre.length ++ [es[pre.length]] :=
      List.take_succ_eq_append_getElem hn
    have h := hstate pre ((List.prefix_append _ _).trans hpre)
    have h' := hstate (pre ++ [op]) hpre
    rw [List.length_append, List.length_singleton] at h'
    obtain ⟨i, hi, hspends⟩ := getElem?_of_forall₂ h'.spent hinput
    have hstored : i < (run CoinLedger.apply .empty (es.take pre.length)).coins.length := by
      have hadmissible := hok (es.take pre.length) es[pre.length] (htake ▸ List.take_prefix _ _)
      rw [htake, run_concat] at hi
      exact CoinLedger.stored_of_spent hadmissible (h.spent.length_eq ▸ hk) hi
    rw [CoinLedger.spentAt_run hi]
    refine ⟨?_, ?_⟩
    · rw [h.coins, List.length_map] at hstored
      exact ⟨_, ((ledger_spec pre).1 i).trans (List.getElem?_eq_getElem hstored)⟩
    · obtain ⟨later, hlater⟩ := hpre
      have hspends' : Spends E (ledger (nativeHost E) cfg (.genesis (nativeHost E)) ops) input i := by
        rw [← hlater, ledger_append]
        exact hspends.append
      exact (hlast.value_eq hl hind hvalues hspends').2
  · have hconserved := CoinLedger.conserved_run_take hok pre.length
    have h := hstate pre hpre
    intro s spent
    rw [h.fees, h.emitted, ← h.spent.length_eq, h.coins, List.length_map, ← (ledger_spec pre).2]
      at hconserved
    have hcast := congrArg (Nat.cast : ℕ → ℤ) hconserved
    push_cast at hcast
    rw [sub_add_eq_add_sub, sub_eq_iff_eq_add]
    exact hcast

/-! ## A spend over the plane -/

/-- A block whose coinbase pays the whole reward to the key with secret five, over the plane. -/
def planeBlock : List (Origin × Call) :=
  [(.none, .coinbase ⟨[⟨Plane.toBytes (0, Cyclic.scalarOf 5), blockReward 0, 0⟩], by decide⟩
    (Plane.toBytes (0, Cyclic.scalarOf 3)))]

def planeChain : Chain :=
  afterBlocks (nativeHost (plane ristrettoOrder)) eagerConfig [planeBlock]

/-- The spend of the reward for a fee of a hundred, before it is proved. -/
def planeSkeleton : TransferTx where
  membershipRoot := planeChain.store.membershipRoot
  inputs := ⟨[⟨Plane.toBytes (Cyclic.scalarOf 5 •
      Clsag.hp (plane ristrettoOrder) (Plane.toBytes (0, Cyclic.scalarOf 5)).val),
    Plane.commitment (blockReward 0) (Cyclic.scalarOf 9), ⟨[], Nat.zero_le _⟩⟩], by decide⟩
  outputs := ⟨[⟨Plane.toBytes (0, Cyclic.scalarOf 7),
    Plane.commitment (blockReward 0 - 100) (Cyclic.scalarOf 9), 0, ⟨[], Nat.zero_le _⟩⟩], by decide⟩
  txPubkey := Plane.toBytes (0, Cyclic.scalarOf 3)
  rangeProof := ⟨Cyclic.openings [blockReward 0 - 100] [Cyclic.scalarOf 9], by decide +kernel⟩
  fee := 100

def planeProof : Bytes :=
  ((prove (plane ristrettoOrder) ⟨Cyclic.scalarOf 13, fun _ => Cyclic.scalarOf 17⟩
    (signingHash Blake2b.hash256 planeSkeleton)
    ⟨(slotsOf planeChain.store).map (slotDigest Blake2b.hash256),
      ringOfSlots (slotsOf planeChain.store), 0, Cyclic.toBytes (Cyclic.scalarOf 5),
      Cyclic.toBytes (Cyclic.scalarOf 0), Cyclic.toBytes (Cyclic.scalarOf 9)⟩).toOption.bind id).elim
    [] ProveResult.proof

def planeSpend : TransferTx :=
  { planeSkeleton with
    inputs := ⟨planeSkeleton.inputs.val.map fun input =>
      { input with fcmpProof := ⟨planeProof.take MAX_FCMP_PROOF_BYTES, List.length_take_le _ _⟩ },
      by decide⟩ }

def planeOps : List Op :=
  blockOps planeBlock ++ [.onInitialize, .dispatch .authorized (.transfer planeSpend)]

namespace PlaneLemmas

theorem plane_independent {l : ℕ} [NeZero l] : Independent (plane l) := by
  intro a b h
  have hcommit : (plane l).pcCommit a b = 0 := h
  rw [plane_pcCommit, Prod.mk_eq_zero] at hcommit
  exact hcommit

theorem plane_hasValue {l : ℕ} [NeZero l] (c : Bytes32) : ∃ v, HasValue (plane l) c v := by
  obtain ⟨v, hv, b, hb⟩ := @plane_decompress l _ c
  exact ⟨v, hv, b, hb⟩

theorem planeSpend_ring : ((FcmpProof.decode (planeProof.take MAX_FCMP_PROOF_BYTES)).any
    fun parsed => parsed.ring.any fun m => decide (m.oneTimeKey = Plane.toBytes (0, Cyclic.scalarOf 5)) &&
      decide (m.commitment = Plane.commitment (blockReward 0) (Cyclic.scalarOf 0))) = true := by
  decide +kernel

theorem planeSpend_fcmpSound : FcmpSound (plane ristrettoOrder) planeSpend := by
  intro input hinput _
  obtain ⟨parsed, hparsed, hring⟩ := (Option.any_eq_true _ _).mp planeSpend_ring
  obtain ⟨m, hm, hmember⟩ := List.any_eq_true.mp hring
  rw [Bool.and_eq_true, decide_eq_true_eq, decide_eq_true_eq] at hmember
  have hproof : input.fcmpProof.val = planeProof.take MAX_FCMP_PROOF_BYTES := by
    unfold planeSpend at hinput
    obtain ⟨input', -, rfl⟩ := List.mem_map.mp hinput
    dsimp only
  rw [hproof]
  refine ⟨parsed, hparsed, m, hm, ?_⟩
  obtain rfl := List.mem_singleton.mp hinput
  rw [hmember.1, hmember.2]
  refine ⟨Cyclic.scalarOf 5, -Cyclic.scalarOf 9, _, _, ?_, ?_, rfl, rfl, ?_⟩
  · decide +kernel
  · decide +kernel
  · decide +kernel

/-- The spend is accepted, and nothing that is hashed collides. -/
theorem planeOps_spec : (acceptedInputs (nativeHost (plane ristrettoOrder)) eagerConfig
      (.genesis (nativeHost (plane ristrettoOrder))) planeOps).length = 1 ∧
    CollisionFree (plane ristrettoOrder).blake2_256
      (runPreimages (nativeHost (plane ristrettoOrder)) eagerConfig planeOps ++
        planeSpend.inputs.val.flatMap fun input =>
          proofPreimages (plane ristrettoOrder).blake2_256 input.fcmpProof.val) := by
  decide +kernel

theorem planeOps_ideal : IdealRun (plane ristrettoOrder) eagerConfig planeOps := by
  have hspend : ∀ tx ∈ acceptedTransfers (nativeHost (plane ristrettoOrder)) eagerConfig
      (.genesis (nativeHost (plane ristrettoOrder))) planeOps, tx = planeSpend := by
    intro tx htx
    have hmem := exists_dispatch_of_mem htx
    simp only [planeOps, blockOps, planeBlock, List.map_cons, List.map_nil, List.cons_append,
      List.nil_append, List.mem_cons, List.not_mem_nil, Op.dispatch.injEq, Call.transfer.injEq,
      reduceCtorEq, true_and, and_false, false_or, or_false] at hmem
    exact hmem
  refine ⟨fun tx _ _ out _ => plane_hasValue _, fun tx htx => ?_, ?_⟩
  · rw [hspend tx htx]
    exact planeSpend_fcmpSound
  · refine planeOps_spec.2.mono (List.append_subset.mpr ⟨List.subset_append_left _ _, ?_⟩)
    intro x hx
    obtain ⟨input, hinput, hx⟩ := List.mem_flatMap.mp hx
    obtain ⟨tx, htx, hinput⟩ := List.mem_flatMap.mp hinput
    rw [hspend tx htx] at hinput
    exact List.mem_append_right _ (List.mem_flatMap.mpr ⟨input, hinput, hx⟩)

end PlaneLemmas

open PlaneLemmas

theorem no_inflation_planeOps :
    (acceptedInputs (nativeHost (plane ristrettoOrder)) eagerConfig
      (.genesis (nativeHost (plane ristrettoOrder))) planeOps).length = 1 ∧
    ∃ value μ : ℕ → ℕ, ∀ pre, pre <+: planeOps →
      let s := (run (step (nativeHost (plane ristrettoOrder)) eagerConfig)
        (.genesis (nativeHost (plane ristrettoOrder))) pre).store
      let spent := (acceptedInputs (nativeHost (plane ristrettoOrder)) eagerConfig
        (.genesis (nativeHost (plane ristrettoOrder))) pre).length
      ∑ i ∈ Finset.range s.nextOutputIndex, (value i : ℤ) -
        ∑ k ∈ Finset.range spent, (value (μ k) : ℤ) + s.blockFees.toNat = s.emitted.toNat := by
  have hl : 2 ^ 250 < ristrettoOrder := by decide
  obtain ⟨value, μ, -, -, -, hconserved⟩ := no_inflation (plane ristrettoOrder) eagerConfig hl
    plane_independent (fun _ _ => plane_compress_of_decompress hl) (plane_decompress_value hl)
    planeOps planeOps_ideal
  exact ⟨planeOps_spec.1, value, μ, hconserved⟩

end Kohl.Pallet
