import Mathlib.Logic.Function.Basic
import Mathlib.Data.List.Induction

/-!
# Storage maps and runs

`StorageMap K V` is a key-value store with optional values: `get`, `insert`, `remove` and
`contains_key`. `run` iterates a step function over a list of inputs; `run_invariant` and
`run_prefix_invariant` carry a property of one step to whole runs.
-/

/-- A key-value store; absent keys read as `none`. -/
@[ext] structure StorageMap (K V : Type*) where
  get : K → Option V

namespace StorageMap

variable {K V : Type*}

/-- The store without entries. -/
def empty : StorageMap K V := ⟨fun _ => none⟩

def containsKey (m : StorageMap K V) (k : K) : Bool := (m.get k).isSome

variable [DecidableEq K]

def insert (m : StorageMap K V) (k : K) (v : V) : StorageMap K V :=
  ⟨fun k' => if k' = k then some v else m.get k'⟩

def remove (m : StorageMap K V) (k : K) : StorageMap K V :=
  ⟨fun k' => if k' = k then none else m.get k'⟩

omit [DecidableEq K] in
@[simp] theorem get_empty (k : K) : (empty : StorageMap K V).get k = none := rfl

theorem get_insert (m : StorageMap K V) (k k' : K) (v : V) :
    (m.insert k v).get k' = if k' = k then some v else m.get k' := rfl

@[simp] theorem get_insert_self (m : StorageMap K V) (k : K) (v : V) :
    (m.insert k v).get k = some v := by
  simp [get_insert]

theorem get_insert_ne {m : StorageMap K V} {k k' : K} {v : V} (h : k' ≠ k) :
    (m.insert k v).get k' = m.get k' := by
  simp [get_insert, h]

theorem get_remove (m : StorageMap K V) (k k' : K) :
    (m.remove k).get k' = if k' = k then none else m.get k' := rfl

theorem containsKey_insert (m : StorageMap K V) (k k' : K) (v : V) :
    (m.insert k v).containsKey k' = (decide (k' = k) || m.containsKey k') := by
  by_cases h : k' = k <;> simp [containsKey, get_insert, h]

end StorageMap

/-! ## Runs -/

namespace Run

variable {S I : Type*}

/-- The state after the inputs `is`, taken from `s` one after the other. -/
def run (step : S → I → S) (s : S) (is : List I) : S := is.foldl step s

variable {step : S → I → S}

@[simp] theorem run_nil (s : S) : run step s [] = s := rfl

@[simp] theorem run_cons (s : S) (i : I) (is : List I) :
    run step s (i :: is) = run step (step s i) is := rfl

theorem run_append (s : S) (is js : List I) :
    run step s (is ++ js) = run step (run step s is) js := List.foldl_append

theorem run_concat (s : S) (is : List I) (i : I) :
    run step s (is ++ [i]) = step (run step s is) i := by
  rw [run_append, run_cons, run_nil]

/-- What holds at the start and is kept by every step holds after every run. -/
theorem run_invariant {P : S → Prop} {s : S} (h0 : P s) (hstep : ∀ s i, P s → P (step s i))
    (is : List I) : P (run step s is) := by
  induction is generalizing s with
  | nil => exact h0
  | cons i is ih => exact ih (hstep s i h0)

/-- The same for a property that speaks of the inputs taken so far. -/
theorem run_history_invariant {P : List I → S → Prop} {s : S} (h0 : P [] s)
    (hstep : ∀ is i, P is (run step s is) → P (is ++ [i]) (step (run step s is) i))
    (is : List I) : P is (run step s is) := by
  induction is using List.reverseRecOn with
  | nil => exact h0
  | append_singleton is i ih =>
    rw [run_concat]
    exact hstep is i ih

/-- Every step of a run is among the steps of a longer one. -/
theorem prefix_concat_cases {is : List I} {i j : I} {pre : List I}
    (h : pre ++ [j] <+: is ++ [i]) : pre ++ [j] <+: is ∨ pre = is ∧ j = i := by
  rcases List.prefix_concat_iff.mp h with heq | hpre
  · obtain ⟨h1, h2⟩ := List.append_inj' heq rfl
    exact .inr ⟨h1, List.singleton_inj.mp h2⟩
  · exact .inl hpre

/-- Forward simulation: if every step of a run is matched by an admissible step of a second system
that keeps the relation, then the run is matched by a run of the second system, state by state. -/
theorem exists_simulation {T J : Type*} {step' : T → J → T} {ok : T → J → Prop}
    {R : List I → T → Prop} {t : T} (h0 : R [] t) (is : List I)
    (hstep : ∀ pre i, pre ++ [i] <+: is → ∀ t', R pre t' → ∃ j, ok t' j ∧ R (pre ++ [i]) (step' t' j)) :
    ∃ js, js.length = is.length ∧ (∀ pre j, pre ++ [j] <+: js → ok (run step' t pre) j) ∧
      ∀ n, n ≤ is.length → R (is.take n) (run step' t (js.take n)) := by
  induction is using List.reverseRecOn with
  | nil =>
    refine ⟨[], rfl, fun pre j hpre => ?_, fun n _ => ?_⟩
    · exact absurd (List.prefix_nil.mp hpre) (by simp)
    · rw [List.take_nil, List.take_nil]
      exact h0
  | append_singleton is i ih =>
    obtain ⟨js, hlen, hok, hR⟩ := ih fun pre i' hpre =>
      hstep pre i' (hpre.trans (List.prefix_append _ _))
    have hlast := hR is.length (Nat.le_refl _)
    rw [List.take_length, ← hlen, List.take_length] at hlast
    obtain ⟨j, hj, hRj⟩ := hstep is i (List.prefix_refl _) _ hlast
    refine ⟨js ++ [j], ?_, fun pre j' hpre => ?_, fun n hn => ?_⟩
    · rw [List.length_append, List.length_append, hlen]
      rfl
    · rcases prefix_concat_cases hpre with hpre | ⟨rfl, rfl⟩
      · exact hok pre j' hpre
      · exact hj
    · rcases Nat.lt_or_ge is.length n with hlt | hle
      · rw [List.take_of_length_le (by rw [List.length_append]; exact hlt),
          List.take_of_length_le (by rw [List.length_append, hlen]; exact hlt), run_concat]
        exact hRj
      · rw [List.take_append_of_le_length hle, List.take_append_of_le_length (hlen.symm ▸ hle)]
        exact hR n hle

end Run
