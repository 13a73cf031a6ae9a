import Kohl.Pallet.Chain

/-!
# Spent key images

The set of key images is exactly the set of key images of the executed transfers, and no two inputs
of executed transfers share one: inside a transfer they are strictly ordered, across transfers each
is looked up before any is stored.

* `containsKey_keyImages_step`: what a step adds to the set.
* `keyImages_run`: the set after a run, and that its members are distinct.
* `no_double_spend`: every later transfer with a spent key image is refused by the pool and by the
  consensus check.
-/

namespace Kohl.Pallet

open ByteLib Run CallLemmas

variable {H : Host} {cfg : Config}

namespace KeyImageLemmas

theorem containsKey_foldl_insert (kis : List Bytes32) (m : StorageMap Bytes32 Unit) (ki : Bytes32) :
    (kis.foldl (fun m ki => m.insert ki ()) m).containsKey ki = true ↔
      ki ∈ kis ∨ m.containsKey ki = true := by
  induction kis generalizing m with
  | nil => simp
  | cons k kis ih =>
    rw [List.foldl_cons, ih, StorageMap.containsKey_insert, Bool.or_eq_true, decide_eq_true_eq,
      List.mem_cons, or_assoc, or_left_comm]

/-- The key images of a transfer with ordered inputs are distinct. -/
theorem nodup_of_sorted {inputs : List FcmpInput}
    (h : inputs.Pairwise fun a b => a.keyImage < b.keyImage) :
    (inputs.map FcmpInput.keyImage).Nodup := by
  rw [List.Nodup, List.pairwise_map]
  exact h.imp fun h => h.ne

end KeyImageLemmas

open KeyImageLemmas

/-- A step adds the key images of the transfer it executes, and nothing else. -/
theorem containsKey_keyImages_step (c : Chain) (op : Op) (ki : Bytes32) :
    (step H cfg c op).store.keyImages.containsKey ki = true ↔
      (∃ tx, acceptedTransfer H cfg c op = some tx ∧ ki ∈ tx.inputs.val.map FcmpInput.keyImage) ∨
        c.store.keyImages.containsKey ki = true := by
  have hspec := @step_spec H cfg c op
  rw [acceptedTransfer]
  generalize (step H cfg c op).store = s' at hspec ⊢
  generalize acceptedCall H cfg c op = a at hspec ⊢
  cases hspec with
  | onInitialize => simp [Pallet.onInitialize]
  | rejected origin call e he => simp
  | transfer tx fees hvalid hfees =>
    obtain ⟨_, _, _, _, hstore⟩ := @exists_transferred H c.number c.store tx fees
    rw [hstore, containsKey_foldl_insert]
    simp only [Option.some.injEq, exists_eq_left']
  | coinbase outputs txPubkey emitted hvalid hemitted =>
    obtain ⟨_, _, _, _, hstore⟩ := @exists_minted H c.number c.store outputs.val txPubkey emitted
    rw [hstore]
    simp
  | onFinalize =>
    obtain ⟨_, _, _, _, _, _, hkeep⟩ := @exists_onFinalize H cfg c.number c.store
    rw [hkeep]
    simp

/-- Inputs whose key images were looked up one by one carry no spent key image. -/
theorem unspent_of_mem {s : Storage} {inputs : List FcmpInput} {ki : Bytes32}
    (h : ∀ input ∈ inputs, s.keyImages.containsKey input.keyImage = false)
    (hki : ki ∈ inputs.map FcmpInput.keyImage) : s.keyImages.containsKey ki = false := by
  obtain ⟨input, hinput, rfl⟩ := List.mem_map.mp hki
  exact h input hinput

/-- The key images of a valid transfer are distinct, and distinct from any that are spent. -/
theorem TransferValid.nodup_append {now : ℕ} {s : Storage} {tx : TransferTx} {used : List Bytes32}
    (h : TransferValid H cfg now s tx) (hused : used.Nodup)
    (hspent : ∀ ki ∈ used, s.keyImages.containsKey ki = true) :
    (used ++ tx.inputs.val.map FcmpInput.keyImage).Nodup := by
  refine List.nodup_append'.mpr ⟨hused, nodup_of_sorted h.sorted, fun ki hold hnew => ?_⟩
  have hunspent := unspent_of_mem h.unspent hnew
  rw [hspent ki hold] at hunspent
  cases hunspent

/-- After a run the key images are those of the inputs it has executed, all of them distinct. -/
theorem keyImages_run (ops : List Op) :
    ((acceptedInputs H cfg (.genesis H) ops).map FcmpInput.keyImage).Nodup ∧
      ∀ ki, (run (step H cfg) (.genesis H) ops).store.keyImages.containsKey ki = true ↔
        ki ∈ (acceptedInputs H cfg (.genesis H) ops).map FcmpInput.keyImage := by
  refine run_history_invariant (P := fun ops (c : Chain) =>
    ((acceptedInputs H cfg (.genesis H) ops).map FcmpInput.keyImage).Nodup ∧
      ∀ ki, c.store.keyImages.containsKey ki = true ↔
        ki ∈ (acceptedInputs H cfg (.genesis H) ops).map FcmpInput.keyImage) ?_ ?_ ops
  · exact ⟨List.nodup_nil, fun ki => by simp [Chain.genesis, Storage.genesis,
      StorageMap.containsKey, acceptedInputs, acceptedTransfers]⟩
  · rintro ops op ⟨hnodup, hmem⟩
    rw [acceptedInputs_concat, List.map_append]
    rcases hacc : acceptedTransfer H cfg (run (step H cfg) (.genesis H) ops) op with _ | tx
    · refine ⟨by simpa using hnodup, fun ki => ?_⟩
      rw [containsKey_keyImages_step, hacc, hmem]
      simp
    · refine ⟨?_, fun ki => ?_⟩
      · simp only [Option.toList_some, List.flatMap_cons, List.flatMap_nil, List.append_nil]
        exact (acceptedTransfer_spec hacc).1.nodup_append hnodup fun ki hold => (hmem ki).mpr hold
      · rw [containsKey_keyImages_step, hacc, hmem]
        simp only [Option.some.injEq, exists_eq_left', Option.toList_some, List.flatMap_cons,
          List.flatMap_nil, List.append_nil, List.mem_append]
        exact or_comm

/-- After a run the key images of a valid transfer are distinct from all that were spent. -/
theorem keyImages_append_nodup {ops : List Op} {now : ℕ} {tx : TransferTx}
    (hvalid : TransferValid H cfg now (run (step H cfg) (.genesis H) ops).store tx) :
    ((acceptedInputs H cfg (.genesis H) ops ++ tx.inputs.val).map FcmpInput.keyImage).Nodup := by
  obtain ⟨hnodup, hmem⟩ := @keyImages_run H cfg ops
  rw [List.map_append]
  exact hvalid.nodup_append hnodup fun ki hold => (hmem ki).mpr hold

/-- Key images stay spent. -/
theorem keyImages_mono {c : Chain} {ki : Bytes32}
    (h : c.store.keyImages.containsKey ki = true) (ops : List Op) :
    (run (step H cfg) c ops).store.keyImages.containsKey ki = true :=
  run_invariant (P := fun c => c.store.keyImages.containsKey ki = true) h
    (fun c op h => (containsKey_keyImages_step c op ki).mpr (.inr h)) ops

/-- The key images of an executed transfer are spent from then on. -/
theorem keyImages_of_acceptedTransfer {c : Chain} {op : Op} {tx : TransferTx} {ki : Bytes32}
    (hexec : acceptedTransfer H cfg c op = some tx)
    (hki : ki ∈ tx.inputs.val.map FcmpInput.keyImage) (later : List Op) :
    (run (step H cfg) c (op :: later)).store.keyImages.containsKey ki = true :=
  keyImages_mono ((containsKey_keyImages_step c op ki).mpr (.inl ⟨tx, hexec, hki⟩)) later

/-- No double spend: after every run from genesis the key images of the inputs of all executed
transfers are pairwise distinct and are exactly the stored ones; they stay stored, and in every later
state both the pool and the consensus check refuse every transfer that carries one of them. -/
theorem no_double_spend (H : Host) (cfg : Config) (ops : List Op) :
    ((acceptedInputs H cfg (.genesis H) ops).map FcmpInput.keyImage).Nodup ∧
    (∀ ki, (run (step H cfg) (.genesis H) ops).store.keyImages.containsKey ki = true ↔
      ki ∈ (acceptedInputs H cfg (.genesis H) ops).map FcmpInput.keyImage) ∧
    ∀ ki ∈ (acceptedInputs H cfg (.genesis H) ops).map FcmpInput.keyImage, ∀ later,
      let c := run (step H cfg) (.genesis H) (ops ++ later)
      c.store.keyImages.containsKey ki = true ∧
      ∀ tx : TransferTx, ki ∈ tx.inputs.val.map FcmpInput.keyImage →
        (∀ v, authorizeTransfer cfg c.number c.store tx ≠ .ok v) ∧
        verifyTransfer H cfg c.number c.store tx ≠ .ok () := by
  obtain ⟨hnodup, hmem⟩ := @keyImages_run H cfg ops
  refine ⟨hnodup, hmem, fun ki hki later => ?_⟩
  have hspent : (run (step H cfg) (.genesis H) (ops ++ later)).store.keyImages.containsKey ki =
      true := by
    rw [run_append]
    exact keyImages_mono ((hmem ki).mpr hki) later
  refine ⟨hspent, fun tx htx => ⟨fun v hv => ?_, fun hv => ?_⟩⟩
  · rw [unspent_of_mem (authorizeTransfer_eq_ok.mp hv).1.unspent htx] at hspent
    cases hspent
  · rw [unspent_of_mem (verifyTransfer_iff.mp hv).unspent htx] at hspent
    cases hspent

end Kohl.Pallet
