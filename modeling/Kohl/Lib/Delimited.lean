import Kohl.Lib.Scale

/-!
# Self-delimiting encodings

An encoding that says where it ends can be followed by anything: what was encoded and what follows are
both determined by the bytes. Concatenations of such encodings are read from the left, one part at a
time.

* `selfDelimiting_of_length`: an injective encoding of a fixed length.
* `SelfDelimiting.vec_append`: vectors, by their length in front.
-/

namespace Scale

open ByteLib

/-- What is encoded and what follows are determined by the bytes. -/
def SelfDelimiting {α : Type*} (enc : α → Bytes) : Prop :=
  ∀ ⦃a b : α⦄ ⦃r s : Bytes⦄, enc a ++ r = enc b ++ s → a = b ∧ r = s

theorem selfDelimiting_of_length {α : Type*} {enc : α → Bytes} {n : ℕ}
    (hlen : ∀ a, (enc a).length = n) (hinj : Function.Injective enc) : SelfDelimiting enc := by
  intro a b r s h
  obtain ⟨hhead, hrest⟩ := List.append_inj h ((hlen a).trans (hlen b).symm)
  exact ⟨hinj hhead, hrest⟩

theorem selfDelimiting_array32 : SelfDelimiting (Subtype.val : Bytes32 → Bytes) :=
  selfDelimiting_of_length Bytes32.length_val Subtype.val_injective

theorem selfDelimiting_u64 : SelfDelimiting u64LeBytes :=
  selfDelimiting_of_length length_u64LeBytes
    (Function.LeftInverse.injective (g := u64FromLeBytes) u64FromLeBytes_u64LeBytes)

theorem compactU32_append {m n : ℕ} (hm : m < 2 ^ 32) (hn : n < 2 ^ 32) {r s : Bytes}
    (h : compactU32 m ++ r = compactU32 n ++ s) : m = n ∧ r = s := by
  have hdecode := congrArg decodeCompactU32 h
  rw [decodeCompactU32_compactU32 hm, decodeCompactU32_compactU32 hn] at hdecode
  exact Prod.mk.inj (Option.some.inj hdecode)

namespace SelfDelimiting

variable {α : Type*} {enc : α → Bytes}

/-- As many elements one after the other. -/
theorem flatMap_append (henc : SelfDelimiting enc) {xs ys : List α} (hlen : xs.length = ys.length)
    {r s : Bytes} (h : xs.flatMap enc ++ r = ys.flatMap enc ++ s) : xs = ys ∧ r = s := by
  induction xs generalizing ys with
  | nil =>
    cases ys with
    | nil => exact ⟨rfl, h⟩
    | cons y ys => cases hlen
  | cons x xs ih =>
    cases ys with
    | nil => cases hlen
    | cons y ys =>
      rw [List.flatMap_cons, List.flatMap_cons, List.append_assoc, List.append_assoc] at h
      obtain ⟨hhead, hrest⟩ := henc h
      obtain ⟨htail, hrs⟩ := ih (Nat.succ.inj hlen) hrest
      exact ⟨by rw [hhead, htail], hrs⟩

theorem vec_append (henc : SelfDelimiting enc) {xs ys : List α} (hx : xs.length < 2 ^ 32)
    (hy : ys.length < 2 ^ 32) {r s : Bytes} (h : vec enc xs ++ r = vec enc ys ++ s) :
    xs = ys ∧ r = s := by
  rw [vec, vec, List.append_assoc, List.append_assoc] at h
  obtain ⟨hlen, hrest⟩ := compactU32_append hx hy h
  exact henc.flatMap_append hlen hrest

end SelfDelimiting

end Scale
