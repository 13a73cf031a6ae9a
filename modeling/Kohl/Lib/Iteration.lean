import Mathlib.Data.List.AList

/-!
# Iterating a hash table

The standard library leaves the order in which a hash table is iterated open, and the order may change
whenever the table does. An `Iteration` is one such order: it rearranges the entries and neither drops
nor repeats one. A result that holds for every `Iteration` holds for every table.

* `mem_order`: an iteration visits the entries.
* `scanMin`: a loop that keeps the first entry with the least score.
-/

/-- An order in which the entries of a hash table are visited. -/
structure Iteration (α : Type*) where
  order : List α → List α
  perm : ∀ l, (order l).Perm l

namespace Iteration

variable {α β : Type*}

/-- The order in which the entries are kept. -/
def asKept : Iteration α := ⟨id, List.Perm.refl⟩

theorem mem_order (it : Iteration α) {l : List α} {a : α} : a ∈ it.order l ↔ a ∈ l :=
  (it.perm l).mem_iff

theorem order_eq_nil (it : Iteration α) {l : List α} : it.order l = [] ↔ l = [] := by
  constructor
  · intro h
    exact List.nil_perm.mp (h ▸ it.perm l)
  · intro h
    exact List.perm_nil.mp (h ▸ it.perm l)

variable [LT β] [DecidableLT β]

/-- The better of the best entry so far and the next one; a tie keeps the best so far. -/
def nearer (score : α → β) : Option (β × α) → α → Option (β × α)
  | none, a => some (score a, a)
  | some (s, b), a => if score a < s then some (score a, a) else some (s, b)

/-- The first entry with the least score. -/
def scanMin (score : α → β) (l : List α) : Option α :=
  (l.foldl (nearer score) none).map Prod.snd

theorem nearer_ne_none (score : α → β) (best : Option (β × α)) (a : α) :
    nearer score best a ≠ none := by
  unfold nearer
  split
  · exact Option.some_ne_none _
  · split <;> exact Option.some_ne_none _

theorem nearer_cases {score : α → β} {best : Option (β × α)} {a : α} {r : β × α}
    (h : nearer score best a = some r) : best = some r ∨ r.2 = a := by
  unfold nearer at h
  split at h
  · cases h
    exact .inr rfl
  · split at h
    · cases h
      exact .inr rfl
    · exact .inl h

theorem foldl_nearer_mem {score : α → β} {l : List α} {best : Option (β × α)} {r : β × α}
    (h : l.foldl (nearer score) best = some r) : best = some r ∨ r.2 ∈ l := by
  induction l generalizing best with
  | nil => exact .inl h
  | cons a l ih =>
    rcases ih h with hbest | hmem
    · rcases nearer_cases hbest with hold | hnew
      · exact .inl hold
      · exact .inr (hnew ▸ List.mem_cons_self)
    · exact .inr (List.mem_cons_of_mem a hmem)

theorem foldl_nearer_ne_none {score : α → β} {l : List α} {best : Option (β × α)}
    (h : best ≠ none) : l.foldl (nearer score) best ≠ none := by
  induction l generalizing best with
  | nil => exact h
  | cons a l ih => exact ih (nearer_ne_none score best a)

theorem scanMin_mem {score : α → β} {l : List α} {a : α} (h : scanMin score l = some a) : a ∈ l := by
  obtain ⟨r, hr, rfl⟩ := Option.map_eq_some_iff.mp h
  rcases foldl_nearer_mem hr with hnone | hmem
  · cases hnone
  · exact hmem

theorem scanMin_eq_none {score : α → β} {l : List α} : scanMin score l = none ↔ l = [] := by
  unfold scanMin
  rw [Option.map_eq_none_iff]
  cases l with
  | nil => exact ⟨fun _ => rfl, fun _ => rfl⟩
  | cons a l =>
    constructor
    · intro h
      rw [List.foldl_cons] at h
      exact absurd h (foldl_nearer_ne_none (nearer_ne_none score none a))
    · intro h
      cases h

end Iteration
