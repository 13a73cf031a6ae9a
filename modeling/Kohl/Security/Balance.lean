import Kohl.Security.Inflation

/-!
# The balance check is conservation

The balance of a transfer is checked as an equation of points: the commitments of one side add up to
those of the other and the fee. Over independent generators it says that the amounts add up over the
integers, as no sum of fewer than `2^64` amounts reaches the order of the group, and that the blindings
add up over the scalars.

Independent generators span more points than 32 bytes can tell apart, so that reading back what was
compressed is asked of the commitments at hand (`Opening.decodes`) and not of every point.

* `verifyBalance_parses`: what the check accepts consists of encoded points.
* `verify_balance_is_conservation`: what it says about commitments with known openings.
-/

namespace Kohl.Pallet

open ByteLib InflationLemmas

variable {l : ℕ} {Point : Type} [AddCommGroup Point] [Module (ZMod l) Point]

/-- A commitment `commit(amount, blinding)` with the scalar of its blinding; it is read back as the
point it was made of. -/
structure Opening (E : CryptoLib l Point) where
  amount : UInt64
  blinding : Bytes32
  scalar : ZMod l
  commitment : Bytes32
  canonical : E.scalarFromCanonicalBytes blinding = some scalar
  commits : Native.commit E amount blinding = some commitment
  decodes : E.decompress commitment = some (E.pcCommit (amount.toNat : ZMod l) scalar)

namespace Opening

variable {E : CryptoLib l Point}

/-- The amounts of a side, added up over the integers. -/
def total (os : List (Opening E)) : ℕ := (os.map fun o => o.amount.toNat).sum

/-- The blindings of a side, added up over the scalars. -/
def blindings (os : List (Opening E)) : ZMod l := (os.map scalar).sum

/-- The commitments of a side, one after the other. -/
def blob (os : List (Opening E)) : Bytes := (os.map commitment).flatMap Subtype.val

end Opening

/-- A blob of compressed points: not empty, and each 32 bytes of it decompress. -/
def EncodesPoints (E : CryptoLib l Point) (blob : Bytes) : Prop :=
  0 < blob.length ∧ blob.length % 32 = 0 ∧
    ∀ chunk ∈ chunksExact 32 blob, ∃ b p, Bytes32.ofBytes chunk = some b ∧ E.decompress b = some p

namespace BalanceLemmas

variable {E : CryptoLib l Point}

/-! ## What is accepted -/

omit [AddCommGroup Point] [Module (ZMod l) Point] in
theorem encodesPoints_of_parse {blob : Bytes} {ps : List Point}
    (h : (Native.parsePoints blob).bind (Native.decompressAll E) = some ps) (hne : ps ≠ []) :
    EncodesPoints E blob := by
  obtain ⟨bs, hbs, hps⟩ := Option.bind_eq_some_iff.mp h
  unfold Native.parsePoints at hbs
  split at hbs
  · cases hbs
  next hmod =>
  refine ⟨?_, not_not.mp hmod, ?_⟩
  · -- an empty blob has no points
    rw [List.length_pos_iff]
    rintro rfl
    cases hbs
    cases hps
    exact hne rfl
  · intro chunk hchunk
    obtain ⟨b, hb, hchunk⟩ := exists_of_collect hbs hchunk
    obtain ⟨p, -, hp⟩ := exists_of_collect hps hb
    exact ⟨b, p, hchunk, hp⟩

theorem verifyBalance_parses [DecidableEq Point] {inputs outputs : Bytes} {fee : UInt64}
    (h : Native.verifyBalance E inputs outputs fee = true) :
    EncodesPoints E inputs ∧ EncodesPoints E outputs := by
  unfold Native.verifyBalance at h
  split at h
  · cases h
  next ins hins =>
  split at h
  · cases h
  next outs houts =>
  split at h
  · cases h
  next hempty =>
  rw [Bool.or_eq_true, List.isEmpty_iff, List.isEmpty_iff, not_or] at hempty
  exact ⟨encodesPoints_of_parse hins hempty.1, encodesPoints_of_parse houts hempty.2⟩

/-! ## Sums of commitments -/

open Opening

theorem collect_commitments (os : List (Opening E)) :
    collect E.decompress (os.map commitment) =
      some (os.map fun o => E.pcCommit (o.amount.toNat : ZMod l) o.scalar) := by
  rw [collect_map]
  exact collect_eq_some_map fun o _ => o.decodes

/-- The commitments of a side add up to one of its total under the sum of its blindings. -/
theorem sum_commitments (os : List (Opening E)) :
    (os.map fun o => E.pcCommit (o.amount.toNat : ZMod l) o.scalar).sum =
      E.pcCommit (total os : ZMod l) (blindings os) := by
  induction os with
  | nil => simp [CryptoLib.pcCommit, total, blindings]
  | cons o os ih =>
    rw [List.map_cons, List.sum_cons, ih]
    simp only [CryptoLib.pcCommit, total, blindings, List.map_cons, List.sum_cons, Nat.cast_add,
      add_smul]
    abel

theorem total_le (os : List (Opening E)) : total os ≤ os.length * (2 ^ 64 - 1) := by
  have hle := List.sum_le_card_nsmul (os.map fun o => o.amount.toNat) (2 ^ 64 - 1) fun v hv => by
    obtain ⟨o, -, rfl⟩ := List.mem_map.mp hv
    exact Nat.le_sub_one_of_lt o.amount.toNat_lt
  rw [List.length_map, smul_eq_mul] at hle
  exact hle

theorem total_lt {os : List (Opening E)} (h : os.length < 2 ^ 64) : total os < 2 ^ 128 :=
  calc total os ≤ os.length * (2 ^ 64 - 1) := total_le os
    _ ≤ 2 ^ 64 * (2 ^ 64 - 1) := Nat.mul_le_mul_right _ h.le
    _ < 2 ^ 128 := by decide

/-- The equation of the points, taken apart. -/
theorem points_balance_iff (hl : 2 ^ 250 < l) (hind : Independent E) {ins outs : List (Opening E)}
    (hins : ins.length < 2 ^ 64) (houts : outs.length < 2 ^ 64) (fee : UInt64) :
    E.pcCommit (total ins : ZMod l) (blindings ins) =
        E.pcCommit (total outs : ZMod l) (blindings outs) + (fee.toNat : ZMod l) • E.H ↔
      total ins = total outs + fee.toNat ∧ blindings ins = blindings outs := by
  have hfee : E.pcCommit (total outs : ZMod l) (blindings outs) + (fee.toNat : ZMod l) • E.H =
      E.pcCommit ((total outs + fee.toNat : ℕ) : ZMod l) (blindings outs) := by
    rw [CryptoLib.pcCommit, CryptoLib.pcCommit, Nat.cast_add, add_smul]
    abel
  rw [hfee]
  constructor
  · intro h
    obtain ⟨hamounts, hblindings⟩ := pcCommit_inj hind h
    have hlt := total_lt hins
    have hlt' := total_lt houts
    have hlt'' := fee.toNat_lt
    exact ⟨natCast_inj (by omega) (by omega) hamounts, hblindings⟩
  · rintro ⟨hamounts, hblindings⟩
    rw [hamounts, hblindings]

/-! ## The balancing blinding -/

theorem collect_blindings (os : List (Opening E)) :
    collect E.scalarFromCanonicalBytes (os.map blinding) = some (os.map scalar) := by
  rw [collect_map]
  exact collect_eq_some_map fun o _ => o.canonical

theorem balancingBlinding_openings (ins others : List (Opening E)) :
    Native.balancingBlinding E (ins.map blinding) (others.map blinding) =
      some (E.scalarToBytes (blindings ins - blindings others)) := by
  rw [Native.balancingBlinding, collect_blindings, Option.bind_some, collect_blindings,
    Option.map_some, ← List.sum_eq_foldl, ← List.sum_eq_foldl]
  rfl

end BalanceLemmas

open BalanceLemmas Opening

/-- The balance check accepts encoded points only. Of commitments with known openings, fewer than
`2^64` on a side, it says that neither side is empty, that the amounts balance with the fee over the
integers and that the blindings balance over the scalars. The blinding that `balancing_blinding`
returns for the output that is left, wherever it stands, balances them. -/
theorem verify_balance_is_conservation [DecidableEq Point] (E : CryptoLib l Point) (hl : 2 ^ 250 < l)
    (hS : E.CanonicalScalars) (hind : Independent E) :
    (∀ (inputs outputs : Bytes) (fee : UInt64), Native.verifyBalance E inputs outputs fee = true →
      EncodesPoints E inputs ∧ EncodesPoints E outputs) ∧
    (∀ (ins outs : List (Opening E)) (fee : UInt64), ins.length < 2 ^ 64 → outs.length < 2 ^ 64 →
      (Native.verifyBalance E (blob ins) (blob outs) fee = true ↔
        ins ≠ [] ∧ outs ≠ [] ∧ total ins = total outs + fee.toNat ∧ blindings ins = blindings outs)) ∧
    ∀ ins others : List (Opening E), ∃ b,
      Native.balancingBlinding E (ins.map blinding) (others.map blinding) = some b ∧
      ∀ (o : Opening E) (outs : List (Opening E)), o.blinding = b → outs.Perm (o :: others) →
        blindings ins = blindings outs := by
  refine ⟨fun _ _ _ h => verifyBalance_parses h, ?_, ?_⟩
  · intro ins outs fee hins houts
    rw [blob, blob, Native.verifyBalance_iff, collect_commitments, collect_commitments]
    constructor
    · rintro ⟨_, _, hcin, hcout, hin, hout, hsum⟩
      cases hcin
      cases hcout
      rw [sum_commitments, sum_commitments, points_balance_iff hl hind hins houts] at hsum
      refine ⟨?_, ?_, hsum⟩
      · rintro rfl
        exact hin rfl
      · rintro rfl
        exact hout rfl
    · rintro ⟨hin, hout, hsum⟩
      refine ⟨_, _, rfl, rfl, ?_, ?_, ?_⟩
      · exact fun h => hin (List.map_eq_nil_iff.mp h)
      · exact fun h => hout (List.map_eq_nil_iff.mp h)
      · rw [sum_commitments, sum_commitments, points_balance_iff hl hind hins houts]
        exact hsum
  · intro ins others
    refine ⟨_, balancingBlinding_openings ins others, ?_⟩
    intro o outs ho hperm
    have hscalar : o.scalar = blindings ins - blindings others := by
      have hcanonical := o.canonical
      rw [ho, hS, Option.some.injEq] at hcanonical
      exact hcanonical.symm
    have houts : blindings outs = o.scalar + blindings others := (hperm.map scalar).sum_eq
    rw [houts, hscalar, sub_add_cancel]

/-! ## A payment of 60 and a change of 30 -/

/-- The opening of a commitment in the plane, for a blinding that has an encoding there. -/
def planeOpening (amount : UInt64) (x : ZMod ristrettoOrder)
    (h : Plane.fromBytes (Plane.commitment amount x) = ((amount.toNat : ZMod ristrettoOrder), x)) :
    Opening (plane ristrettoOrder) where
  amount := amount
  blinding := Cyclic.toBytes x
  scalar := x
  commitment := Plane.commitment amount x
  canonical := cyclic_canonicalScalars (Nat.le_of_ble_eq_true rfl) x
  commits := by
    have hx : (plane ristrettoOrder).scalarFromCanonicalBytes (Cyclic.toBytes x) = some x :=
      cyclic_canonicalScalars (Nat.le_of_ble_eq_true rfl) x
    rw [Native.commit, hx, Option.map_some, plane_pcCommit]
    rfl
  decodes := by
    rw [plane_pcCommit]
    exact congrArg some h

/-- 100 units, paid out as 60 and 30 with blindings that cancel, for a fee of 10 and no other. -/
theorem verify_balance_is_conservation_plane :
    let input := planeOpening 100 (Cyclic.scalarOf 0) (by decide +kernel)
    let pay := planeOpening 60 (Cyclic.scalarOf 5) (by decide +kernel)
    let change := planeOpening 30 (-Cyclic.scalarOf 5) (by decide +kernel)
    Native.verifyBalance (plane ristrettoOrder) (blob [input]) (blob [pay, change]) 10 = true ∧
      Native.verifyBalance (plane ristrettoOrder) (blob [input]) (blob [pay, change]) 11 ≠ true := by
  intro input pay change
  obtain ⟨-, hiff, -⟩ := verify_balance_is_conservation (plane ristrettoOrder)
    (Nat.le_of_ble_eq_true rfl) (cyclic_canonicalScalars (Nat.le_of_ble_eq_true rfl))
    PlaneLemmas.plane_independent
  have hshort : [input].length < 2 ^ 64 ∧ [pay, change].length < 2 ^ 64 := by decide
  constructor
  · refine (hiff _ _ 10 hshort.1 hshort.2).mpr ⟨List.cons_ne_nil _ _, List.cons_ne_nil _ _, rfl, ?_⟩
    show Cyclic.scalarOf 0 + 0 = Cyclic.scalarOf 5 + (-Cyclic.scalarOf 5 + 0)
    decide +kernel
  · intro h
    obtain ⟨-, -, htotal, -⟩ := (hiff _ _ 11 hshort.1 hshort.2).mp h
    exact absurd htotal (by decide +kernel)

end Kohl.Pallet
