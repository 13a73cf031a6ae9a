import Kohl.Pallet.KeyImages
import Kohl.Wallet.Accepted

/-!
# Outputs that share a key

Neither a transfer nor a coinbase looks at the one-time keys that are stored already, and the wallet
counts every output it can open. The key image is a function of the one-time key alone, so of two
outputs with one key only one can ever be spent.

* `keyImage_eq_of_key_eq`: owned outputs with one key have one key image.
* `separately_spendable_iff`: the owned outputs have distinct key images exactly when they have distinct
  keys; of two that share a key, spending one closes the other.
* `twin_outputs_share_image`: a miner can store two outputs with one key.
-/

namespace Kohl.Wallet

open ByteLib Run Pallet Stealth Cyclic SampleLemmas

variable {l : ℕ} {Point : Type} [AddCommGroup Point] [Module (ZMod l) Point]

/-! ## The balance -/

/-- The owned outputs whose key image is not spent, and the others. -/
def splitBySpent (s : Storage) (owned : List OwnedOutput) : List OwnedOutput × List OwnedOutput :=
  owned.partition fun o => !s.keyImages.containsKey o.keyImage

/-- No multiple of the generator but the trivial one vanishes. -/
def FreeGenerator (E : CryptoLib l Point) : Prop := ∀ x : ZMod l, x • E.G = 0 → x = 0

/-- The secrets of two stored keys with one key image are one secret. -/
def DistinctImages (E : CryptoLib l Point) (s : Storage) : Prop :=
  ∀ (i j : ℕ) (a b : StoredOutput) (x y : ZMod l), s.outputs.get i = some a →
    s.outputs.get j = some b →
    E.decompress a.oneTimeKey = some (x • E.G) → E.decompress b.oneTimeKey = some (y • E.G) →
    x • Clsag.hp E a.oneTimeKey.val = y • Clsag.hp E b.oneTimeKey.val → x = y

/-! ## Keys and key images -/

namespace KeyReuseLemmas

variable {E : CryptoLib l Point}

/-- The key image of an owned output, with the secret of its key. -/
theorem exists_image (hE : E.Canonical) {o : OwnedOutput} (h : Owned E o) :
    ∃ x : ZMod l, E.decompress o.oneTimeKey = some (x • E.G) ∧
      o.keyImage = E.compress (x • Clsag.hp E o.oneTimeKey.val) := by
  obtain ⟨x, hx, hkey⟩ := h.opens
  have himage := h.keyImage
  rw [Clsag.keyImage, hx, Option.map_some, Option.some.injEq, hE.compress_of_decompress hkey] at himage
  exact ⟨x, hkey, himage.symm⟩

end KeyReuseLemmas

open KeyReuseLemmas

/-- Owned outputs with one key have one key image. -/
theorem keyImage_eq_of_key_eq {E : CryptoLib l Point} (hE : E.Canonical) (hG : FreeGenerator E)
    {o o' : OwnedOutput} (h : Owned E o) (h' : Owned E o') (heq : o.oneTimeKey = o'.oneTimeKey) :
    o.keyImage = o'.keyImage := by
  obtain ⟨x, hx, himage⟩ := exists_image hE h
  obtain ⟨y, hy, himage'⟩ := exists_image hE h'
  have hxy : x = y := by
    rw [heq, hy, Option.some.injEq] at hx
    refine sub_eq_zero.mp (hG _ ?_)
    rw [sub_smul, hx, sub_self]
  rw [himage, himage', heq, hxy]

section Run

variable [DecidableEq Point] {E : CryptoLib l Point} {cfg : Config} {ops : List Op}

/-- What the scan of a reachable state returns is stored and owned. -/
theorem stored_of_scan (hE : E.Canonical) (hS : E.CanonicalScalars) (hZ : E.ZeroScalar) {w : Wallet E}
    {o : OwnedOutput}
    (h : o ∈ scan E w (storedOutputs
      (run (step (nativeHost E) cfg) (.genesis (nativeHost E)) ops).store)) :
    Owned E o ∧ ∃ i out, (run (step (nativeHost E) cfg) (.genesis (nativeHost E)) ops).store.outputs.get i =
      some out ∧ o.oneTimeKey = out.oneTimeKey := by
  obtain ⟨⟨gi, out⟩, hmem, hown⟩ := List.mem_filterMap.mp h
  obtain ⟨i, -, hi⟩ := List.mem_filterMap.mp hmem
  obtain ⟨out', hget, heq⟩ := Option.map_eq_some_iff.mp hi
  rw [Prod.mk.injEq] at heq
  obtain ⟨-, rfl⟩ := heq
  have hok := outputOk_of_get hget
  obtain ⟨howned, -, hkey, -⟩ := tryOwn_owned hE.readsKeys hS
    (fun a ha => by rw [(hok.amount a ha).1]; exact commit_zeroBlinding hS hZ a) hown
  exact ⟨howned, i, out', hget, hkey⟩

/-- Owned outputs of a state without colliding images share a key image exactly when they share a
key. -/
theorem keyImage_eq_iff (hE : E.Canonical) (hS : E.CanonicalScalars) (hZ : E.ZeroScalar)
    (hG : FreeGenerator E) {w : Wallet E}
    (himages : DistinctImages E (run (step (nativeHost E) cfg) (.genesis (nativeHost E)) ops).store)
    {o o' : OwnedOutput}
    (h : o ∈ scan E w (storedOutputs
      (run (step (nativeHost E) cfg) (.genesis (nativeHost E)) ops).store))
    (h' : o' ∈ scan E w (storedOutputs
      (run (step (nativeHost E) cfg) (.genesis (nativeHost E)) ops).store)) :
    o.keyImage = o'.keyImage ↔ o.oneTimeKey = o'.oneTimeKey := by
  obtain ⟨howned, i, a, hi, hkey⟩ := stored_of_scan hE hS hZ h
  obtain ⟨howned', j, b, hj, hkey'⟩ := stored_of_scan hE hS hZ h'
  refine ⟨fun heq => ?_, keyImage_eq_of_key_eq hE hG howned howned'⟩
  obtain ⟨x, hx, himage⟩ := exists_image hE howned
  obtain ⟨y, hy, himage'⟩ := exists_image hE howned'
  have hpoints : x • Clsag.hp E o.oneTimeKey.val = y • Clsag.hp E o'.oneTimeKey.val := by
    rw [himage, himage'] at heq
    have hback := congrArg E.decompress heq
    rw [hE.decompress_compress, hE.decompress_compress, Option.some.injEq] at hback
    exact hback
  have hxy : x = y := by
    rw [hkey] at hx hpoints
    rw [hkey'] at hy hpoints
    exact himages i j a b x y hi hj hx hy hpoints
  rw [← hE.compress_of_decompress hx, ← hE.compress_of_decompress hy, hxy]

/-- When the outputs a wallet counts are separately spendable. In every reachable state without
colliding key images the owned outputs have distinct key images exactly when they have distinct
one-time keys, and so have those that the balance counts. Owned outputs with one key always share the
key image: once a transfer has spent it, every transfer that spends the other is refused in every
later state. -/
theorem separately_spendable_iff (E : CryptoLib l Point) (hE : E.Canonical) (hS : E.CanonicalScalars)
    (hZ : E.ZeroScalar) (hG : FreeGenerator E) (cfg : Config) (ops : List Op) (w : Wallet E) :
    let c := run (step (nativeHost E) cfg) (.genesis (nativeHost E)) ops
    let owned := scan E w (storedOutputs c.store)
    let counted := (splitBySpent c.store owned).1
    (DistinctImages E c.store →
      ((owned.map OwnedOutput.keyImage).Nodup ↔ (owned.map OwnedOutput.oneTimeKey).Nodup) ∧
      ((counted.map OwnedOutput.keyImage).Nodup ↔ (counted.map OwnedOutput.oneTimeKey).Nodup)) ∧
    ∀ o ∈ owned, ∀ o' ∈ owned, o.oneTimeKey = o'.oneTimeKey →
      o.keyImage = o'.keyImage ∧
      ∀ pre op tx later, acceptedTransfer (nativeHost E) cfg (run (step (nativeHost E) cfg) c pre) op =
          some tx →
        o.keyImage ∈ tx.inputs.val.map FcmpInput.keyImage →
        ∀ tx', o'.keyImage ∈ tx'.inputs.val.map FcmpInput.keyImage →
          verifyTransfer (nativeHost E) cfg
            (run (step (nativeHost E) cfg) c (pre ++ [op] ++ later)).number
            (run (step (nativeHost E) cfg) c (pre ++ [op] ++ later)).store tx' ≠ .ok () := by
  intro c owned counted
  refine ⟨fun himages => ?_, fun o ho o' ho' heq => ?_⟩
  · have hiff : ∀ {o o'}, o ∈ owned → o' ∈ owned → (o.keyImage ≠ o'.keyImage ↔
        o.oneTimeKey ≠ o'.oneTimeKey) :=
      fun ho ho' => not_congr (keyImage_eq_iff hE hS hZ hG himages ho ho')
    have hcounted : ∀ {o}, o ∈ counted → o ∈ owned := by
      intro o ho
      have hfilter : counted = owned.filter fun o => !c.store.keyImages.containsKey o.keyImage :=
        congrArg Prod.fst List.partition_eq_filter_filter
      rw [hfilter] at ho
      exact List.mem_of_mem_filter ho
    constructor
    · unfold List.Nodup
      rw [List.pairwise_map, List.pairwise_map]
      exact List.Pairwise.iff_of_mem fun ho ho' => hiff ho ho'
    · unfold List.Nodup
      rw [List.pairwise_map, List.pairwise_map]
      exact List.Pairwise.iff_of_mem fun ho ho' => hiff (hcounted ho) (hcounted ho')
  · have himage := keyImage_eq_of_key_eq hE hG (stored_of_scan hE hS hZ ho).1
      (stored_of_scan hE hS hZ ho').1 heq
    refine ⟨himage, fun pre op tx later hexec hmem tx' hmem' hok => ?_⟩
    have hspent : (run (step (nativeHost E) cfg) c (pre ++ [op] ++ later)).store.keyImages.containsKey
        o'.keyImage = true := by
      rw [List.append_assoc, run_append]
      exact keyImages_of_acceptedTransfer hexec (himage ▸ hmem) later
    rw [unspent_of_mem (verifyTransfer_iff.mp hok).unspent hmem'] at hspent
    cases hspent

end Run

/-! ## Twin outputs -/

/-- The one-time key of the wallet for the shared secret ten. -/
def twinKey : Bytes32 :=
  toBytes (derivationScalar (cyclic ristrettoOrder) (toBytes (scalarOf 10)) 0 + scalarOf 3)

/-- A coinbase that pays the reward to the wallet in two outputs with one key. -/
def twinBlock : List (Origin × Call) :=
  let tag := viewTag (cyclic ristrettoOrder) (toBytes (scalarOf 10)) 0
  [(.none, .coinbase ⟨[⟨twinKey, 1000, tag⟩, ⟨twinKey, blockReward 0 - 1000, tag⟩], by decide⟩
    (toBytes (scalarOf 5)))]

def twinChain : Chain := afterBlocks (nativeHost (cyclic ristrettoOrder)) eagerConfig [twinBlock]

def twinOwned : List OwnedOutput :=
  scan (cyclic ristrettoOrder) sampleWallet (storedOutputs twinChain.store)

/-- The wallet counts both outputs, and they have one key image. -/
theorem twin_outputs_share_image :
    (splitBySpent twinChain.store twinOwned).1.length = 2 ∧
    ¬(twinOwned.map OwnedOutput.keyImage).Nodup ∧
    ¬((splitBySpent twinChain.store twinOwned).1.map OwnedOutput.keyImage).Nodup := by
  decide +kernel

namespace KeyReuseLemmas

theorem cyclic_freeGenerator : FreeGenerator (cyclic ristrettoOrder) := by
  intro x hx
  have hone : x * 1 = 0 := hx
  rw [mul_one] at hone
  exact hone

theorem twinChain_ledger : ∀ out ∈ ledger (nativeHost (cyclic ristrettoOrder)) eagerConfig
    (.genesis (nativeHost (cyclic ristrettoOrder))) ([twinBlock].flatMap blockOps),
    out.oneTimeKey = twinKey := by
  decide +kernel

theorem twinChain_distinctImages : DistinctImages (cyclic ristrettoOrder) twinChain.store := by
  intro i j a b x y ha hb hx hy _
  rw [twinChain, afterBlocks, (ledger_spec _).1] at ha hb
  rw [twinChain_ledger a (List.mem_of_getElem? ha)] at hx
  rw [twinChain_ledger b (List.mem_of_getElem? hb), hx, Option.some.injEq] at hy
  refine sub_eq_zero.mp (cyclic_freeGenerator _ ?_)
  rw [sub_smul, hy, sub_self]

end KeyReuseLemmas

theorem separately_spendable_iff_twin :
    ((twinOwned.map OwnedOutput.keyImage).Nodup ↔ (twinOwned.map OwnedOutput.oneTimeKey).Nodup) ∧
    ∀ o ∈ twinOwned, ∀ o' ∈ twinOwned, o.oneTimeKey = o'.oneTimeKey → o.keyImage = o'.keyImage := by
  have hl : ristrettoOrder ≤ 2 ^ 256 := by decide
  obtain ⟨hiff, hshared⟩ := separately_spendable_iff (cyclic ristrettoOrder) (cyclic_canonical hl)
    (cyclic_canonicalScalars hl) cyclic_zeroScalar cyclic_freeGenerator eagerConfig
    ([twinBlock].flatMap blockOps) sampleWallet
  exact ⟨(hiff twinChain_distinctImages).1, fun o ho o' ho' heq => (hshared o ho o' ho' heq).1⟩

end Kohl.Wallet
