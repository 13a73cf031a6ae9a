import Kohl.Crypto.FcmpSpec
import Kohl.Pallet.Ledger
import Kohl.Pallet.TreeInvariant

/-!
# The mature set decodes

Every spend signs over the ring of all admitted outputs, so one output that does not decode would
stop every spend. Keys are checked when an output is created; the commitments of a transfer are
decompressed by its balance check, and those of a coinbase are computed.

* `decompress_of_mem_ledger`: the key and the commitment of every stored output decompress.
* `parseRing_slotsOf`: the ring of all admitted outputs parses as soon as there is one.
-/

namespace Kohl.Pallet

open ByteLib Run MembershipTree Fcmp SpecLemmas

variable {l : ℕ} {Point : Type} [AddCommGroup Point] [Module (ZMod l) Point] [DecidableEq Point]
variable {E : CryptoLib l Point} {cfg : Config}

/-- The balance check has decompressed every commitment of a transfer. -/
theorem decompress_of_transferValid {now : ℕ} {s : Storage} {tx : TransferTx}
    (h : TransferValid (nativeHost E) cfg now s tx) :
    ∃ ins outs, collect E.decompress (tx.inputs.val.map FcmpInput.pseudoCommitment) = some ins ∧
      collect E.decompress (tx.outputs.val.map Output.commitment) = some outs ∧
      ins.sum = outs.sum + (tx.fee.toNat : ZMod l) • E.H := by
  have hbalance : Native.verifyBalance E
      ((tx.inputs.val.map FcmpInput.pseudoCommitment).flatMap Subtype.val)
      ((tx.outputs.val.map Output.commitment).flatMap Subtype.val) tx.fee = true := by
    rw [List.flatMap_map, List.flatMap_map]
    exact h.balance
  obtain ⟨ins, outs, hins, houts, -, -, hsum⟩ := Native.verifyBalance_iff.mp hbalance
  exact ⟨ins, outs, hins, houts, hsum⟩

/-- The key of a stored output is a point other than the identity, and its commitment is a point. -/
theorem decompress_of_mem_ledger (hE : E.Canonical) {ops : List Op} {out : StoredOutput}
    (h : out ∈ ledger (nativeHost E) cfg (.genesis (nativeHost E)) ops) :
    (∃ p, E.decompress out.oneTimeKey = some p ∧ p ≠ 0) ∧
      ∃ p, E.decompress out.commitment = some p := by
  refine ⟨Native.isValidPoint_iff.mp (outputOk_of_mem_ledger h).key, ?_⟩
  refine forall_mem_ledger (Q := fun out => ∃ p, E.decompress out.commitment = some p) ops
    (fun pre op _ out hout => ?_) out h
  rcases mem_stepOutputs hout with ⟨tx, -, hvalid, o, ho, rfl⟩ | ⟨outs, pk, -, hvalid, o, ho, rfl⟩
  · obtain ⟨-, outs, -, houts, -⟩ := decompress_of_transferValid hvalid
    obtain ⟨p, -, hp⟩ := exists_of_collect houts (List.mem_map_of_mem ho)
    exact ⟨p, hp⟩
  · exact ⟨_, hE.decompress_compress _⟩

theorem decompress_of_get (hE : E.Canonical) {ops : List Op} {i : ℕ} {out : StoredOutput}
    (h : (run (step (nativeHost E) cfg) (.genesis (nativeHost E)) ops).store.outputs.get i =
      some out) :
    (∃ p, E.decompress out.oneTimeKey = some p ∧ p ≠ 0) ∧
      ∃ p, E.decompress out.commitment = some p := by
  rw [(ledger_spec ops).1] at h
  exact decompress_of_mem_ledger hE (List.mem_of_getElem? h)

/-- The ring of all admitted outputs parses as soon as there is one. -/
theorem parseRing_slotsOf (hE : E.Canonical) {ops : List Op} {s : Storage}
    (hs : s = (run (step (nativeHost E) cfg) (.genesis (nativeHost E)) ops).store)
    (hslots : s.treeSlots ≤ MAX_FCMP_ANON_SET) (hsome : ∃ i, s.admitted.containsKey i = true) :
    ∃ keys commitments, Clsag.parseRing E (ringBlob (ringOfSlots (slotsOf s))) Clsag.MAX_FCMP_RING =
      some (keys, commitments) := by
  have hinv := (@treeInv_run_genesis (nativeHost E) cfg ops).1
  have hlen : (slotsOf s).length ≤ 64 := (length_slotsOf s).trans_le hslots
  -- every member of the ring is a stored output
  have hmember : ∀ m ∈ ringOfSlots (slotsOf s),
      (∃ p, E.decompress m.oneTimeKey = some p) ∧ ∃ p, E.decompress m.commitment = some p := by
    intro m hm
    rw [mem_ringOfSlots (by omega), getElem?_slotsOf_eq_some] at hm
    obtain ⟨-, -, out, hout, hp, hc⟩ := hm
    subst hs
    obtain ⟨⟨p, hdec, -⟩, hdec'⟩ := decompress_of_get hE hout
    rw [hp] at hdec
    rw [hc] at hdec'
    exact ⟨⟨p, hdec⟩, hdec'⟩
  obtain ⟨keys, hkeys⟩ := exists_collect (f := fun m : RingMember => E.decompress m.oneTimeKey)
    fun m hm => (hmember m hm).1
  obtain ⟨commitments, hcommitments⟩ := exists_collect
    (f := fun m : RingMember => E.decompress m.commitment) fun m hm => (hmember m hm).2
  refine ⟨keys, commitments, parseRing_ringBlob.mpr ⟨?_, ?_, hkeys, hcommitments⟩⟩
  · obtain ⟨i, hi⟩ := hsome
    have hslots' : SlotInv (nativeHost E) cfg _ s := hs ▸ hinv.slots
    have hlt := TreeInvLemmas.SlotInv.lt_of_admitted hslots' hi
    obtain ⟨out, hout, -⟩ := hslots'.mature i hi
    have hmem : (⟨out.oneTimeKey, out.commitment, UInt64.ofNat i⟩ : RingMember) ∈
        ringOfSlots (slotsOf s) := by
      rw [mem_ringOfSlots (by omega), toNat_ofNat hlt (by rw [← length_slotsOf]; omega),
        getElem?_slotsOf_eq_some]
      exact ⟨hlt, hi, out, hout, rfl, rfl⟩
    exact List.length_pos_of_mem hmem
  · rw [length_ringOfSlots]
    exact List.countP_le_length.trans hlen

/-- The mature set cannot be poisoned: in every reachable state the key of every stored output is a
canonical point other than the identity and its commitment decompresses, the live root is the one of
the slots, and with at most 64 slots and at least one admitted output the ring blob of all admitted
outputs parses. -/
theorem mature_set_decodes (E : CryptoLib l Point) (hE : E.Canonical) (cfg : Config)
    (ops : List Op) :
    let s := (run (step (nativeHost E) cfg) (.genesis (nativeHost E)) ops).store
    (∀ i out, s.outputs.get i = some out →
      (∃ p, E.decompress out.oneTimeKey = some p ∧ p ≠ 0 ∧ E.compress p = out.oneTimeKey) ∧
        ∃ p, E.decompress out.commitment = some p) ∧
    s.membershipRoot = rootFromLeaves E.blake2_256 ((slotsOf s).map (slotDigest E.blake2_256)) ∧
    (s.treeSlots ≤ MAX_FCMP_ANON_SET → (∃ i, s.admitted.containsKey i = true) →
      ∃ r, Clsag.parseRing E (ringBlob (ringOfSlots (slotsOf s))) Clsag.MAX_FCMP_RING = some r) := by
  intro s
  have hinv := (@treeInv_run_genesis (nativeHost E) cfg ops).1
  refine ⟨fun i out hout => ?_, ?_, fun hslots hsome => ?_⟩
  · obtain ⟨⟨p, hp, hne⟩, hc⟩ := decompress_of_get hE hout
    exact ⟨⟨p, hp, hne, hE.compress_of_decompress hp⟩, hc⟩
  · have hroot := hinv.root
    rw [RootInv, SlotInv.digestsOf_eq hinv.slots] at hroot
    exact hroot
  · obtain ⟨keys, commitments, h⟩ := parseRing_slotsOf hE rfl hslots hsome
    exact ⟨_, h⟩

/-- A configuration without waiting times and fees. -/
def eagerConfig : Config := ⟨0, 0, 0⟩

/-- A block whose coinbase pays the whole reward to the key with secret five. -/
def rewardBlock : List (Origin × Call) :=
  [(.none, .coinbase ⟨[⟨Cyclic.toBytes (Cyclic.scalarOf 5), blockReward 0, 0⟩], by decide⟩
    (Cyclic.toBytes (Cyclic.scalarOf 3)))]

theorem mature_set_decodes_rewardBlock :
    ∃ r, Clsag.parseRing (cyclic ristrettoOrder) (ringBlob (ringOfSlots (slotsOf
      (run (step (nativeHost (cyclic ristrettoOrder)) eagerConfig)
        (.genesis (nativeHost (cyclic ristrettoOrder))) (blockOps rewardBlock)).store)))
      Clsag.MAX_FCMP_RING = some r := by
  refine (mature_set_decodes (cyclic ristrettoOrder) (cyclic_canonical (by decide)) eagerConfig
    (blockOps rewardBlock)).2.2 ?_ ⟨0, ?_⟩
  · decide +kernel
  · decide +kernel

/-- Before the first block no output is admitted: the ring blob is empty, and the parser refuses
it. -/
theorem parseRing_genesis_none :
    (run (step (nativeHost (cyclic ristrettoOrder)) eagerConfig)
      (.genesis (nativeHost (cyclic ristrettoOrder))) []).store.treeSlots ≤ MAX_FCMP_ANON_SET ∧
    Clsag.parseRing (cyclic ristrettoOrder) (ringBlob (ringOfSlots (slotsOf
      (run (step (nativeHost (cyclic ristrettoOrder)) eagerConfig)
        (.genesis (nativeHost (cyclic ristrettoOrder))) []).store))) Clsag.MAX_FCMP_RING = none :=
  ⟨Nat.zero_le _, rfl⟩

end Kohl.Pallet
