import Kohl.Lib.Bytes

/-!
# Code that may panic

The operations of a program that are checked as it runs: slices, indices, copies between slices and
the arithmetic of a 64-bit `usize`. Each returns its result or the panic it ends in; next to each
stands the condition under which it returns.

* `tryCollect_eq_ok`: a loop that may stop early does not panic if no turn does.
-/

/-- Why a program stops. -/
inductive Panic
  | overflow
  | sliceOutOfRange
  | indexOutOfRange
  | copyLengthMismatch
deriving DecidableEq, Repr

namespace Trapping

open ByteLib

variable {α β : Type}

/-! ## Arithmetic -/

/-- `a + b`. -/
def add (a b : ℕ) : Except Panic ℕ := if a + b < 2 ^ 64 then .ok (a + b) else .error .overflow

/-- `a * b`. -/
def mul (a b : ℕ) : Except Panic ℕ := if a * b < 2 ^ 64 then .ok (a * b) else .error .overflow

/-- `a.checked_add(b)`. -/
def checkedAdd (a b : ℕ) : Option ℕ := if a + b < 2 ^ 64 then some (a + b) else none

/-- `a.checked_mul(b)`. -/
def checkedMul (a b : ℕ) : Option ℕ := if a * b < 2 ^ 64 then some (a * b) else none

theorem add_eq_ok {a b : ℕ} (h : a + b < 2 ^ 64) : add a b = .ok (a + b) := if_pos h

theorem mul_eq_ok {a b : ℕ} (h : a * b < 2 ^ 64) : mul a b = .ok (a * b) := if_pos h

theorem checkedAdd_eq_some {a b : ℕ} (h : a + b < 2 ^ 64) : checkedAdd a b = some (a + b) := if_pos h

theorem checkedMul_eq_some {a b : ℕ} (h : a * b < 2 ^ 64) : checkedMul a b = some (a * b) := if_pos h

/-! ## Slices -/

/-- `&xs[..j]`. -/
def sliceTo (xs : List α) (j : ℕ) : Except Panic (List α) :=
  if j ≤ xs.length then .ok (xs.take j) else .error .sliceOutOfRange

/-- `&xs[i..]`. -/
def sliceFrom (xs : List α) (i : ℕ) : Except Panic (List α) :=
  if i ≤ xs.length then .ok (xs.drop i) else .error .sliceOutOfRange

/-- `&xs[i..j]`. -/
def sliceRange (xs : List α) (i j : ℕ) : Except Panic (List α) :=
  if i ≤ j ∧ j ≤ xs.length then .ok ((xs.drop i).take (j - i)) else .error .sliceOutOfRange

/-- `xs[i]`. -/
def index (xs : List α) (i : ℕ) : Except Panic α :=
  match xs[i]? with
  | some a => .ok a
  | none => .error .indexOutOfRange

/-- `dest.copy_from_slice(src)` for an array of 32 bytes. -/
def copyFromSlice (src : Bytes) : Except Panic Bytes32 :=
  match Bytes32.ofBytes src with
  | some b => .ok b
  | none => .error .copyLengthMismatch

/-- `xs.get(i..j)?.try_into().ok()?` for an array of `n` elements; this does not panic. -/
def getArray (xs : List α) (i j n : ℕ) : Option (List α) :=
  if i ≤ j ∧ j ≤ xs.length ∧ j - i = n then some ((xs.drop i).take (j - i)) else none

theorem sliceTo_eq_ok {xs : List α} {j : ℕ} (h : j ≤ xs.length) : sliceTo xs j = .ok (xs.take j) :=
  if_pos h

theorem sliceFrom_eq_ok {xs : List α} {i : ℕ} (h : i ≤ xs.length) : sliceFrom xs i = .ok (xs.drop i) :=
  if_pos h

theorem sliceRange_eq_ok {xs : List α} {i j : ℕ} (hi : i ≤ j) (hj : j ≤ xs.length) :
    sliceRange xs i j = .ok ((xs.drop i).take (j - i)) := if_pos ⟨hi, hj⟩

theorem index_eq_ok {xs : List α} {i : ℕ} {a : α} (h : xs[i]? = some a) : index xs i = .ok a := by
  unfold index
  rw [h]

theorem index_getD {xs : List α} {i : ℕ} (h : i < xs.length) (d : α) : index xs i = .ok (xs.getD i d) := by
  refine index_eq_ok ?_
  rw [List.getD_eq_getElem?_getD, List.getElem?_eq_getElem h, Option.getD_some]

theorem copyFromSlice_eq_ok {src : Bytes} (h : src.length = 32) : copyFromSlice src = .ok ⟨src, h⟩ := by
  unfold copyFromSlice Bytes32.ofBytes
  rw [dif_pos h]

theorem getArray_eq_some {xs : List α} {i j n : ℕ} (hi : i ≤ j) (hj : j ≤ xs.length) (hn : j - i = n) :
    getArray xs i j n = some ((xs.drop i).take (j - i)) := if_pos ⟨hi, hj, hn⟩

/-! ## Loops -/

/-- `for x in xs { out.push(f(x)?) }`, where a turn may end the function or panic. -/
def tryCollect (f : α → Except Panic (Option β)) : List α → Except Panic (Option (List β))
  | [] => .ok (some [])
  | a :: l =>
    match f a with
    | .error e => .error e
    | .ok none => .ok none
    | .ok (some b) => (tryCollect f l).map (Option.map (b :: ·))

theorem tryCollect_eq_ok {f : α → Except Panic (Option β)} {g : α → Option β} {l : List α}
    (h : ∀ a ∈ l, f a = .ok (g a)) : tryCollect f l = .ok (collect g l) := by
  induction l with
  | nil => rfl
  | cons a l ih =>
    rw [tryCollect, collect, h a List.mem_cons_self, ih fun a ha => h a (List.mem_cons_of_mem _ ha)]
    cases g a with
    | none => rfl
    | some b => rfl

end Trapping
