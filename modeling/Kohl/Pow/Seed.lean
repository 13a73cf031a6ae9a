import Kohl.Lib.BlockTree
import Kohl.Pow.Mining

/-!
# The epoch seed

`consensus/kohl-pow/src/algorithm.rs`: the schedule of the seed, its lookup through the header
backend of the client, and `KohlPow::verify`. The backend is a parameter, as in the source; a node
answers from a tree of headers and its own best block, by number along its best chain only.

* `seed_from_ancestry_iff`: a node finds the seed of a parent's own ancestry exactly when the parent
  branches off its best chain no lower than the seed block, and two nodes find the same seed exactly
  when their best chains do not part below it.
* `seedForParent_of_shallow_fork`: a parent that branches off by at most `SEED_LAG` blocks gets the
  seed of its own ancestry.
* `mined_seal_verifies`: what a miner seals is accepted by every node that finds the same seed.
-/

namespace Kohl.Pow

open ByteLib

def DEFAULT_SEED : Bytes := ascii "kohl/randomx/seed/genesis"

/-- How far behind the parent the seed block sits at least. -/
def SEED_LAG : UInt32 := 64

/-- Blocks per seed epoch. -/
def EPOCH_LENGTH : UInt32 := 2048

def SEED_DOMAIN : Bytes := ascii "kohl/rx/v1"

/-- The height of the block whose hash is the seed for a child of `parentNumber`; `none` stands for
the genesis seed. -/
def seedHeight (parentNumber : UInt32) : Option UInt32 :=
  if parentNumber ≤ SEED_LAG then none
  else
    let lagged := parentNumber - SEED_LAG
    some (lagged / EPOCH_LENGTH * EPOCH_LENGTH)

def seedBytes : Option Bytes → Bytes
  | some h => if h.isEmpty then DEFAULT_SEED else SEED_DOMAIN ++ h
  | none => DEFAULT_SEED

/-! ## The client -/

/-- The variant of `sc_consensus_pow::Error` that the algorithm raises, with its text. -/
inductive Error where
  | environment (text : String)
deriving DecidableEq

/-- What the algorithm asks the client for. A failed lookup has the text of its error. -/
structure HeaderBackend (N : Type) where
  number : Bytes32 → Except String (Option N)
  hash : N → Except String (Option Bytes32)

/-- The conversions of a block number from and to `u32`. -/
class BlockNumber (N : Type) where
  tryInto : N → Option UInt32
  tryFrom : UInt32 → Option N

/-- The block numbers of the runtime are `u32`. -/
instance : BlockNumber UInt32 := ⟨some, some⟩

/-- The answer of a lookup that must succeed and must find something. -/
def expectFound {α : Type} (failed : String) (missing : String) :
    Except String (Option α) → Except Error α
  | .error e => .error (.environment (failed ++ e))
  | .ok none => .error (.environment missing)
  | .ok (some a) => .ok a

section

variable {N : Type} [BlockNumber N]

def numberAsU32 (n : N) : Except Error UInt32 :=
  match BlockNumber.tryInto n with
  | some n => .ok n
  | none => .error (.environment "block number does not fit u32")

def u32AsNumber (h : UInt32) : Except Error N :=
  match BlockNumber.tryFrom h with
  | some n => .ok n
  | none => .error (.environment "seed height conversion failed")

/-- The seed for a block built on `parentHash`, for the importer and for the miner. -/
def seedForParent (client : HeaderBackend N) (parentHash : Bytes32) : Except Error Bytes := do
  let parentNumber ←
    expectFound "header number: " "parent header missing" (client.number parentHash)
  let parentN ← numberAsU32 parentNumber
  match seedHeight parentN with
  | none => return seedBytes none
  | some h =>
    let seedN ← u32AsNumber h
    let hash ← expectFound "seed hash lookup: " ("no header at seed height " ++ toString h.toNat)
      (client.hash seedN)
    return seedBytes (some hash.val)

/-- `sp_runtime::generic::BlockId`. -/
inductive BlockId (N : Type) where
  | hash (h : Bytes32)
  | number (n : N)

structure KohlPow (N : Type) where
  client : HeaderBackend N
  hasher : Hasher

/-- `KohlPow::verify`. The pre-digest is not looked at. -/
def KohlPow.verify (pow : KohlPow N) (parent : BlockId N) (preHash : Bytes32)
    (_preDigest : Option Bytes) (sealBytes : Bytes) (difficulty : U256) : Except Error Bool := do
  let parentHash ← match parent with
    | .hash h => pure h
    | .number n => expectFound "parent hash: " "parent number unknown" (pow.client.hash n)
  let seed ← seedForParent pow.client parentHash
  return verifySeal pow.hasher preHash.val seed sealBytes difficulty

/-- One round of the CPU miner of `node/src/service.rs`: the seed for its best block, then the
nonces from `start` on. -/
def mineRound (pow : KohlPow N) (bestHash preHash : Bytes32) (difficulty : U256)
    (start rounds : UInt64) : Except Error (Option Seal) := do
  let seed ← seedForParent pow.client bestHash
  return mine pow.hasher preHash.val seed difficulty start rounds

end

/-! ## Nodes -/

/-- A tree of headers. Their numbers fit the block number of the runtime. -/
structure HeaderTree extends BlockTree Bytes32 where
  number_lt : ∀ {b n}, number b = some n → n < 2 ^ 32

/-- A node that knows a tree of headers and holds the chain of one of them for the best. -/
structure HeaderTree.Node (t : HeaderTree) where
  best : Bytes32
  best_known : ∃ n, t.number best = some n

/-- The header backend of a node: it knows the number of every header, and the hash at a height of
its best chain only. -/
def HeaderTree.Node.client {t : HeaderTree} (node : t.Node) : HeaderBackend UInt32 where
  number b := .ok ((t.number b).map UInt32.ofNat)
  hash n := .ok (t.ancestorAt node.best n.toNat)

def HeaderTree.Node.pow {t : HeaderTree} (node : t.Node) (hasher : Hasher) : KohlPow UInt32 :=
  ⟨node.client, hasher⟩

/-- The seed a parent with number `n` has by its own ancestry. -/
def HeaderTree.ancestrySeed (t : HeaderTree) (p : Bytes32) (n : UInt32) : Bytes :=
  match seedHeight n with
  | none => seedBytes none
  | some h => seedBytes ((t.ancestorAt p h.toNat).map Subtype.val)

/-- The chains that end in `a` and in `b` do not part below the seed block of a parent with number
`n`; while the genesis seed applies there is none. -/
def HeaderTree.SharesSeedBlock (t : HeaderTree) (a b : Bytes32) (n : UInt32) : Prop :=
  ∀ h, seedHeight n = some h → t.CommonFrom a b h.toNat

namespace SeedLemmas

variable {t : HeaderTree} {node : t.Node} {p : Bytes32} {n h : UInt32}

theorem seedHeight_eq_some :
    seedHeight n = some h ↔ SEED_LAG < n ∧ h.toNat = (n.toNat - 64) / 2048 * 2048 := by
  unfold seedHeight
  by_cases hle : n ≤ SEED_LAG
  · simp [hle, UInt32.not_lt.mpr hle]
  · have hlt : SEED_LAG < n := UInt32.not_le.mp hle
    have hval : ((n - SEED_LAG) / EPOCH_LENGTH * EPOCH_LENGTH).toNat =
        (n.toNat - 64) / 2048 * 2048 := by
      have hn := n.toNat_lt
      have hlag : SEED_LAG.toNat = 64 := rfl
      have hepoch : EPOCH_LENGTH.toNat = 2048 := rfl
      rw [UInt32.toNat_mul, UInt32.toNat_div, UInt32.toNat_sub_of_le _ _ (UInt32.le_of_lt hlt), hlag,
        hepoch]
      omega
    simp only [hle, if_false, Option.some.injEq, hlt, true_and]
    rw [← UInt32.toNat_inj, hval]
    exact eq_comm

/-- The seed block lies at least `SEED_LAG` blocks behind the parent. -/
theorem seedHeight_add_lag_le (hh : seedHeight n = some h) :
    h.toNat + SEED_LAG.toNat ≤ n.toNat := by
  obtain ⟨hlt, hval⟩ := seedHeight_eq_some.mp hh
  have hn : SEED_LAG.toNat < n.toNat := UInt32.lt_iff_toNat_lt.mp hlt
  have hlag : SEED_LAG.toNat = 64 := rfl
  omega

theorem seedBytes_some (b : Bytes32) : seedBytes (some b.val) = SEED_DOMAIN ++ b.val := by
  have hne : b.val ≠ [] := List.ne_nil_of_length_pos (by rw [Bytes32.length_val]; omega)
  simp [seedBytes, hne]

theorem seedBytes_inj {a b : Bytes32} (hab : seedBytes (some a.val) = seedBytes (some b.val)) :
    a = b := by
  rw [seedBytes_some, seedBytes_some] at hab
  exact Subtype.ext (List.append_cancel_left hab)

theorem number_client (hp : t.number p = some n.toNat) : node.client.number p = .ok (some n) := by
  simp [HeaderTree.Node.client, hp]

theorem seedForParent_of_none (hp : t.number p = some n.toNat) (hh : seedHeight n = none) :
    seedForParent node.client p = .ok (seedBytes none) := by
  simp only [seedForParent, number_client hp, expectFound, numberAsU32, BlockNumber.tryInto, hh,
    bind, Except.bind, pure, Except.pure]

/-- A later parent has a seed exactly when the best chain of the node reaches the seed block. -/
theorem seedForParent_eq_ok (hp : t.number p = some n.toNat) (hh : seedHeight n = some h)
    {seed : Bytes} :
    seedForParent node.client p = .ok seed ↔
      ∃ c, t.ancestorAt node.best h.toNat = some c ∧ seedBytes (some c.val) = seed := by
  have hhash : node.client.hash h = .ok (t.ancestorAt node.best h.toNat) := rfl
  simp only [seedForParent, number_client hp, expectFound, numberAsU32, BlockNumber.tryInto, hh,
    u32AsNumber, BlockNumber.tryFrom, hhash, bind, Except.bind]
  cases t.ancestorAt node.best h.toNat with
  | none => simp
  | some c => simp [pure, Except.pure]

/-- A parent past the lag has an ancestor at the height of its seed block. -/
theorem ancestrySeed_of_some (hp : t.number p = some n.toNat) (hh : seedHeight n = some h) :
    ∃ c, t.ancestorAt p h.toNat = some c ∧ t.ancestrySeed p n = seedBytes (some c.val) := by
  have hle : h.toNat ≤ n.toNat := Nat.le_of_add_right_le (seedHeight_add_lag_le hh)
  refine ⟨_, BlockTree.ancestorAt_of_number hp hle, ?_⟩
  simp only [HeaderTree.ancestrySeed, hh, BlockTree.ancestorAt_of_number hp hle, Option.map_some]

theorem sharesSeedBlock_of_none (hh : seedHeight n = none) (a b : Bytes32) :
    t.SharesSeedBlock a b n := by
  intro h hsome
  rw [hh] at hsome
  cases hsome

theorem sharesSeedBlock_of_some (hh : seedHeight n = some h) {a b : Bytes32} :
    t.SharesSeedBlock a b n ↔
      ∃ c, t.ancestorAt a h.toNat = some c ∧ t.ancestorAt b h.toNat = some c := by
  rw [← BlockTree.commonFrom_iff]
  constructor
  · intro hall
    exact hall h hh
  · intro hcommon h' hh'
    rw [hh, Option.some.injEq] at hh'
    exact hh' ▸ hcommon

/-- A node finds the seed of the parent's ancestry exactly when its best chain and the parent's do
not part below the seed block. -/
theorem seedForParent_ancestry_iff (node : t.Node) (hp : t.number p = some n.toNat) :
    seedForParent node.client p = .ok (t.ancestrySeed p n) ↔ t.SharesSeedBlock p node.best n := by
  cases hh : seedHeight n with
  | none =>
    have hseed : t.ancestrySeed p n = seedBytes none := by simp only [HeaderTree.ancestrySeed, hh]
    rw [hseed, seedForParent_of_none hp hh]
    exact iff_of_true rfl (sharesSeedBlock_of_none hh _ _)
  | some h =>
    obtain ⟨c, hc, hseed⟩ := ancestrySeed_of_some hp hh
    rw [seedForParent_eq_ok hp hh, sharesSeedBlock_of_some hh, hc, hseed]
    constructor
    · rintro ⟨d, hd, hdc⟩
      exact ⟨c, rfl, hd.trans (congrArg some (seedBytes_inj hdc))⟩
    · rintro ⟨d, hd, hbest⟩
      exact ⟨d, hbest, by rw [Option.some.inj hd]⟩

/-- Two nodes find the same seed exactly when their best chains do not part below the seed block. -/
theorem same_seed_iff (a b : t.Node) (hp : t.number p = some n.toNat) :
    (∃ seed, seedForParent a.client p = .ok seed ∧ seedForParent b.client p = .ok seed) ↔
      t.SharesSeedBlock a.best b.best n := by
  cases hh : seedHeight n with
  | none =>
    exact iff_of_true ⟨_, seedForParent_of_none hp hh, seedForParent_of_none hp hh⟩
      (sharesSeedBlock_of_none hh _ _)
  | some h =>
    simp only [seedForParent_eq_ok hp hh, sharesSeedBlock_of_some hh]
    constructor
    · rintro ⟨seed, ⟨c, hc, hcs⟩, d, hd, hds⟩
      have hcd : c = d := seedBytes_inj (hcs.trans hds.symm)
      exact ⟨c, hc, hcd ▸ hd⟩
    · rintro ⟨c, ha, hb⟩
      exact ⟨_, ⟨c, ha, rfl⟩, c, hb, rfl⟩

/-- Given the seed, the verdict on a block is the verdict on its seal. -/
theorem verify_of_seed {hasher : Hasher} {seed : Bytes}
    (hseed : seedForParent node.client p = .ok seed) (preHash : Bytes32) (preDigest : Option Bytes)
    (sealBytes : Bytes) (difficulty : U256) :
    (node.pow hasher).verify (.hash p) preHash preDigest sealBytes difficulty =
      .ok (verifySeal hasher preHash.val seed sealBytes difficulty) := by
  have hseed' : seedForParent (node.pow hasher).client p = .ok seed := hseed
  simp only [KohlPow.verify, pure, Except.pure, bind, Except.bind, hseed']
  rfl

end SeedLemmas

open SeedLemmas

/-! ## Agreement on the seed -/

/-- The lag is the depth up to which branches are safe: a parent that leaves the best chain of a node
at most `SEED_LAG` blocks before itself gets the seed of its own ancestry. -/
theorem seedForParent_of_shallow_fork {t : HeaderTree} {p : Bytes32} {n : UInt32} (node : t.Node)
    (hp : t.number p = some n.toNat)
    (hfork : t.CommonFrom p node.best (n.toNat - SEED_LAG.toNat)) :
    seedForParent node.client p = .ok (t.ancestrySeed p n) := by
  apply (seedForParent_ancestry_iff node hp).mpr
  intro h hh
  exact hfork.mono (Nat.le_sub_of_add_le (seedHeight_add_lag_le hh))

/-- What a node mines on its best block is accepted by every node whose best chain does not part from
it below the seed block. -/
theorem mined_seal_verifies {t : HeaderTree} (miner importer : t.Node) {n : UInt32}
    (hbest : t.number miner.best = some n.toNat)
    (hshares : t.SharesSeedBlock miner.best importer.best n) {hasher : Hasher} {preHash : Bytes32}
    {difficulty : U256} {start rounds : UInt64} {s : Seal}
    (hmined : mineRound (miner.pow hasher) miner.best preHash difficulty start rounds =
      .ok (some s)) (preDigest : Option Bytes) :
    (importer.pow hasher).verify (.hash miner.best) preHash preDigest (encodeSeal s) difficulty =
      .ok true := by
  obtain ⟨seed, hminer, himporter⟩ := (same_seed_iff miner importer hbest).mpr hshares
  have hminer' : seedForParent (miner.pow hasher).client miner.best = .ok seed := hminer
  have hs : mine hasher preHash.val seed difficulty start rounds = some s := by
    simp only [mineRound, hminer', bind, Except.bind, pure, Except.pure, Except.ok.injEq] at hmined
    exact hmined
  rw [verify_of_seed himporter, verifySeal_of_mine hs]

/-- A node finds the seed of a parent's own ancestry if and only if the genesis seed applies or the
parent's chain and the best chain of the node do not part below the seed block. Two nodes find the
same seed if and only if their best chains do not part below it. Nodes that find the seed of the
ancestry give every block on that parent the same verdict. -/
theorem seed_from_ancestry_iff (t : HeaderTree) {p : Bytes32} {n : UInt32}
    (hp : t.number p = some n.toNat) :
    (∀ node : t.Node, seedForParent node.client p = .ok (t.ancestrySeed p n) ↔
      t.SharesSeedBlock p node.best n) ∧
    (∀ a b : t.Node,
      (∃ seed, seedForParent a.client p = .ok seed ∧ seedForParent b.client p = .ok seed) ↔
        t.SharesSeedBlock a.best b.best n) ∧
    ∀ a b : t.Node, t.SharesSeedBlock p a.best n → t.SharesSeedBlock p b.best n →
      ∀ hasher preHash preDigest sealBytes difficulty,
        ∃ verdict, verdict =
            verifySeal hasher preHash.val (t.ancestrySeed p n) sealBytes difficulty ∧
          (a.pow hasher).verify (.hash p) preHash preDigest sealBytes difficulty = .ok verdict ∧
          (b.pow hasher).verify (.hash p) preHash preDigest sealBytes difficulty = .ok verdict := by
  refine ⟨fun node => seedForParent_ancestry_iff node hp, fun a b => same_seed_iff a b hp, ?_⟩
  intro a b ha hb hasher preHash preDigest sealBytes difficulty
  have hseedA := (seedForParent_ancestry_iff a hp).mpr ha
  have hseedB := (seedForParent_ancestry_iff b hp).mpr hb
  exact ⟨_, rfl, verify_of_seed hseedA _ _ _ _, verify_of_seed hseedB _ _ _ _⟩

/-! ## Two branches -/

/-- The block at height `n` of branch `r`, by its hash. -/
def forkBlock (r : UInt8) (n : ℕ) : Bytes32 :=
  ⟨leBytes 4 n ++ r :: List.replicate 27 0, by simp⟩

def forkHeight (b : Bytes32) : ℕ := leNat (b.val.take 4)

def forkBranch (b : Bytes32) : UInt8 := b.val.getD 4 0

/-- The two branches start at the genesis block and have 2112 blocks each. -/
def IsForkBlock (b : Bytes32) : Prop :=
  b = forkBlock (forkBranch b) (forkHeight b) ∧ forkHeight b ≤ 2112 ∧ forkBranch b ≤ 1 ∧
    (forkHeight b = 0 → forkBranch b = 0)

instance (b : Bytes32) : Decidable (IsForkBlock b) := inferInstanceAs (Decidable (_ ∧ _ ∧ _ ∧ _))

def forkNumber (b : Bytes32) : Option ℕ := if IsForkBlock b then some (forkHeight b) else none

def forkParent (b : Bytes32) : Bytes32 :=
  forkBlock (if forkHeight b = 1 then 0 else forkBranch b) (forkHeight b - 1)

namespace SeedLemmas

theorem forkHeight_forkBlock {n : ℕ} (hn : n ≤ 2112) (r : UInt8) :
    forkHeight (forkBlock r n) = n := by
  simp only [forkHeight, forkBlock]
  rw [List.take_left' (length_leBytes 4 n), leNat_leBytes_of_lt (by omega)]

theorem forkBranch_forkBlock (r : UInt8) (n : ℕ) : forkBranch (forkBlock r n) = r := by
  simp [forkBranch, forkBlock]

theorem forkNumber_eq_some {b : Bytes32} {n : ℕ} :
    forkNumber b = some n ↔ ∃ r, b = forkBlock r n ∧ n ≤ 2112 ∧ r ≤ 1 ∧ (n = 0 → r = 0) := by
  constructor
  · intro h
    rw [forkNumber, Option.ite_none_right_eq_some, Option.some.injEq] at h
    obtain ⟨⟨hb, hn, hr, hzero⟩, rfl⟩ := h
    exact ⟨forkBranch b, hb, hn, hr, hzero⟩
  · rintro ⟨r, rfl, hn, hr, hzero⟩
    rw [forkNumber, Option.ite_none_right_eq_some, Option.some.injEq, IsForkBlock,
      forkHeight_forkBlock hn, forkBranch_forkBlock]
    exact ⟨⟨rfl, hn, hr, hzero⟩, rfl⟩

theorem forkNumber_forkParent {b : Bytes32} {n : ℕ} (h : forkNumber b = some (n + 1)) :
    forkNumber (forkParent b) = some n := by
  obtain ⟨r, rfl, hn, hr, -⟩ := forkNumber_eq_some.mp h
  refine forkNumber_eq_some.mpr ⟨if n = 0 then 0 else r, ?_, Nat.le_of_succ_le hn, ?_, ?_⟩
  · simp [forkParent, forkHeight_forkBlock hn, forkBranch_forkBlock]
  · split
    · decide
    · exact hr
  · intro hzero
    exact if_pos hzero

end SeedLemmas

/-- A tree of two branches that part at the genesis block. -/
def forkTree : HeaderTree where
  number := forkNumber
  parent := forkParent
  genesis := forkBlock 0 0
  number_genesis := by decide
  eq_genesis := by
    intro b h
    obtain ⟨r, rfl, -, -, hzero⟩ := forkNumber_eq_some.mp h
    rw [hzero rfl]
  number_parent := forkNumber_forkParent
  number_lt := by
    intro b n h
    obtain ⟨-, -, hn, -, -⟩ := forkNumber_eq_some.mp h
    omega

namespace SeedLemmas

theorem number_forkBlock {r : UInt8} {n : ℕ} (hr : r ≤ 1) (hn : 0 < n) (hle : n ≤ 2112) :
    forkTree.number (forkBlock r n) = some n :=
  forkNumber_eq_some.mpr ⟨r, rfl, hle, hr, fun h => absurd h hn.ne'⟩

/-- The way back along a branch stays on it until the genesis block. -/
theorem ancestorAt_forkBlock {r : UInt8} {n h : ℕ} (hr : r ≤ 1) (hle : n ≤ 2112) (hpos : 0 < h)
    (hh : h ≤ n) : forkTree.ancestorAt (forkBlock r n) h = some (forkBlock r h) := by
  have hback : ∀ k, k + h ≤ n → forkParent^[k] (forkBlock r n) = forkBlock r (n - k) := by
    intro k hk
    induction k with
    | zero => rfl
    | succ k ih =>
      rw [Function.iterate_succ_apply', ih (by omega), forkParent,
        forkHeight_forkBlock (by omega), forkBranch_forkBlock, if_neg (by omega)]
      rfl
  rw [BlockTree.ancestorAt_of_number (number_forkBlock hr (by omega) hle) hh]
  have hat := hback (n - h) (by omega)
  rw [Nat.sub_sub_self hh] at hat
  exact congrArg some hat

end SeedLemmas

/-- The node that holds branch `r` for the best. -/
def forkNode (r : UInt8) (hr : r ≤ 1) : forkTree.Node :=
  ⟨forkBlock r 2112, 2112, number_forkBlock hr (by omega) le_rfl⟩

theorem seedForParent_forkNode {r q : UInt8} (hr : r ≤ 1) (hq : q ≤ 1) :
    seedForParent (forkNode r hr).client (forkBlock q 2112) =
      .ok (SEED_DOMAIN ++ (forkBlock r 2048).val) := by
  have hnum : forkTree.number (forkBlock q 2112) = some (UInt32.toNat 2112) :=
    number_forkBlock hq (by decide) (by decide)
  have hh : seedHeight 2112 = some 2048 := by decide
  refine (seedForParent_eq_ok hnum hh).mpr ⟨forkBlock r 2048, ?_, seedBytes_some _⟩
  exact ancestorAt_forkBlock hr le_rfl (by decide) (by decide)

/-- At height 2111 the seed block is the genesis block: the node on one branch finds the seed of a
parent on the other. -/
theorem seed_from_ancestry_iff_genesis :
    forkTree.number (forkBlock 1 2111) = some (UInt32.toNat 2111) ∧
      seedForParent (forkNode 0 (by decide)).client (forkBlock 1 2111) =
        .ok (forkTree.ancestrySeed (forkBlock 1 2111) 2111) := by
  have hnum : forkTree.number (forkBlock 1 2111) = some (UInt32.toNat 2111) :=
    number_forkBlock (by decide) (by decide) (by decide)
  refine ⟨hnum, ((seed_from_ancestry_iff forkTree hnum).1 _).mpr ?_⟩
  intro h hh
  have hzero : h = 0 := (Option.some.inj hh).symm
  subst hzero
  exact BlockTree.commonFrom_zero hnum (forkNode 0 (by decide)).best_known.choose_spec

/-- One block later the seed block is past the fork. The node on branch 0 takes the seed for a parent
on branch 1 from its own branch, and refuses the block that the node on branch 1 has mined there. -/
theorem seed_follows_best_chain :
    forkTree.number (forkBlock 1 2112) = some (UInt32.toNat 2112) ∧
      seedForParent (forkNode 0 (by decide)).client (forkBlock 1 2112) ≠
        .ok (forkTree.ancestrySeed (forkBlock 1 2112) 2112) ∧
      ∃ s, mineRound ((forkNode 1 (by decide)).pow blakeHasher) (forkBlock 1 2112)
            ⟨List.replicate 32 0, rfl⟩ 1 0 100000 = .ok (some s) ∧
          ((forkNode 1 (by decide)).pow blakeHasher).verify (.hash (forkBlock 1 2112))
            ⟨List.replicate 32 0, rfl⟩ none (encodeSeal s) 1 = .ok true ∧
          ((forkNode 0 (by decide)).pow blakeHasher).verify (.hash (forkBlock 1 2112))
            ⟨List.replicate 32 0, rfl⟩ none (encodeSeal s) 1 = .ok false := by
  have hnum : forkTree.number (forkBlock 1 2112) = some (UInt32.toNat 2112) :=
    number_forkBlock (by decide) (by decide) (by decide)
  have hown := seedForParent_forkNode (r := 1) (q := 1) (by decide) (by decide)
  have hother := seedForParent_forkNode (r := 0) (q := 1) (by decide) (by decide)
  refine ⟨hnum, ?_, ⟨0, blakeHasher (List.replicate 32 0) (SEED_DOMAIN ++ (forkBlock 1 2048).val) 0⟩,
    ?_, ?_, ?_⟩
  · intro hsame
    have hcommon := (seedForParent_ancestry_iff _ hnum).mp hsame 2048 (by decide)
    obtain ⟨c, hp, hbest⟩ := BlockTree.commonFrom_iff.mp hcommon
    rw [ancestorAt_forkBlock (by decide) le_rfl (by decide) (by decide)] at hp
    have hbest' : forkTree.ancestorAt (forkBlock 0 2112) 2048 = some c := hbest
    rw [ancestorAt_forkBlock (by decide) le_rfl (by decide) (by decide), ← hp] at hbest'
    exact absurd hbest' (by decide)
  · have hown' : seedForParent ((forkNode 1 (by decide)).pow blakeHasher).client (forkBlock 1 2112) =
        .ok (SEED_DOMAIN ++ (forkBlock 1 2048).val) := hown
    simp only [mineRound, hown', bind, Except.bind, pure, Except.pure, Except.ok.injEq]
    decide +kernel
  · rw [verify_of_seed hown, Except.ok.injEq]
    decide +kernel
  · rw [verify_of_seed hother, Except.ok.injEq]
    decide +kernel

end Kohl.Pow
