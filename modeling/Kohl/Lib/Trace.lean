import Kohl.Lib.StorageMap
import Mathlib.Algebra.BigOperators.Ring.Finset
import Mathlib.Logic.Function.Basic

/-!
# Counting along runs

The inputs of a run with the states they are taken in, what they produce in all, and machines that take
turns.
-/

namespace Run

variable {S I α : Type*}

/-- The inputs of a run, each with the state it is taken in. -/
def trace (step : S → I → S) (s : S) : List I → List (S × I)
  | [] => []
  | i :: is => (s, i) :: trace step (step s i) is

/-- What the steps of a run produce, in order. -/
def produced (step : S → I → S) (produce : S → I → Option α) (s : S) (is : List I) : List α :=
  (trace step s is).filterMap fun x => produce x.1 x.2

variable {step : S → I → S} {s : S} {is : List I}

theorem trace_concat (s : S) (is : List I) (i : I) :
    trace step s (is ++ [i]) = trace step s is ++ [(run step s is, i)] := by
  induction is generalizing s with
  | nil => rfl
  | cons j is ih =>
    rw [List.cons_append, trace, ih]
    rfl

/-- The potential of a run: if the cost of a step and the rise of the potential are covered by its credit,
the same holds of the whole run. -/
theorem sum_trace_le {cost credit : S × I → ℕ} {φ : S → ℕ}
    (h : ∀ x ∈ trace step s is, cost x + φ (step x.1 x.2) ≤ φ x.1 + credit x) :
    ((trace step s is).map cost).sum + φ (run step s is) ≤
      φ s + ((trace step s is).map credit).sum := by
  induction is generalizing s with
  | nil => exact Nat.le_of_eq (Nat.add_comm _ _)
  | cons i is ih =>
    have hfirst := h (s, i) List.mem_cons_self
    have hrest := ih fun x hx => h x (List.mem_cons_of_mem _ hx)
    rw [trace, List.map_cons, List.map_cons, List.sum_cons, List.sum_cons, run_cons]
    dsimp only at hfirst
    omega

theorem count_produced [DecidableEq α] (produce : S → I → Option α) (a : α) :
    (produced step produce s is).count a =
      ((trace step s is).map fun x => (produce x.1 x.2).toList.count a).sum := by
  rw [produced]
  induction trace step s is with
  | nil => rfl
  | cons x xs ih =>
    rw [List.filterMap_cons, List.map_cons, List.sum_cons, ← ih]
    cases produce x.1 x.2 with
    | none => exact (Nat.zero_add _).symm
    | some b =>
      rw [← List.count_append]
      rfl

/-! ## Taking turns -/

variable {ι : Type*} [DecidableEq ι]

/-- An input goes to the machine it names. -/
def turn (step : ι → S → I → S) (machines : ι → S) (x : ι × I) : ι → S :=
  Function.update machines x.1 (step x.1 (machines x.1) x.2)

/-- The inputs that name `i`. -/
def inputsOf (i : ι) (xs : List (ι × I)) : List I := (xs.filter fun x => x.1 = i).map Prod.snd

/-- Each machine runs on its own inputs, whatever comes in between. -/
theorem run_turn (step : ι → S → I → S) (machines : ι → S) (xs : List (ι × I)) (i : ι) :
    run (turn step) machines xs i = run (step i) (machines i) (inputsOf i xs) := by
  induction xs generalizing machines with
  | nil => rfl
  | cons x xs ih =>
    obtain ⟨j, input⟩ := x
    rw [run_cons, ih, inputsOf, inputsOf, turn]
    by_cases hj : j = i
    · subst hj
      rw [Function.update_self, List.filter_cons_of_pos (by exact decide_eq_true rfl), List.map_cons,
        run_cons]
    · rw [Function.update_of_ne (Ne.symm hj), List.filter_cons_of_neg (by simpa using hj)]

end Run
