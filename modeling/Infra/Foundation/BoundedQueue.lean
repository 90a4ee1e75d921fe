import Mathlib.Data.List.Basic

/-!
# A bounded first-in first-out queue

The queue keeps the entries that were accepted and not yet taken, and beside
them its history since it was last cleared: everything that was put, and
everything that was taken. That what was taken followed by what is queued is
what was put is a field, so it holds of every queue there is.
-/

namespace Infra

/-- A queue of at most `capacity` entries, with its history. -/
structure BoundedQueue (α : Type) (capacity : ℕ) where
  put : List α
  taken : List α
  queued : List α
  split : taken ++ queued = put
  bounded : queued.length ≤ capacity

namespace BoundedQueue

variable {α : Type} {capacity : ℕ}

/-- Nothing was put and nothing was taken. -/
def empty : BoundedQueue α capacity := ⟨[], [], [], rfl, Nat.zero_le _⟩

/-- The entries `data` join the queue behind the others. -/
def append (q : BoundedQueue α capacity) (data : List α)
    (h : q.queued.length + data.length ≤ capacity) : BoundedQueue α capacity where
  put := q.put ++ data
  taken := q.taken
  queued := q.queued ++ data
  split := by rw [← List.append_assoc, q.split]
  bounded := by rwa [List.length_append]

/-- The first `n` entries leave the queue. -/
def remove (q : BoundedQueue α capacity) (n : ℕ) : BoundedQueue α capacity where
  put := q.put
  taken := q.taken ++ q.queued.take n
  queued := q.queued.drop n
  split := by rw [List.append_assoc, List.take_append_drop, q.split]
  bounded := Nat.le_trans (by rw [List.length_drop]; omega) q.bounded

@[simp] theorem queued_empty : (empty : BoundedQueue α capacity).queued = [] := rfl

@[simp] theorem queued_append {q : BoundedQueue α capacity} {data : List α}
    (h : q.queued.length + data.length ≤ capacity) :
    (q.append data h).queued = q.queued ++ data := rfl

@[simp] theorem queued_remove {q : BoundedQueue α capacity} {n : ℕ} :
    (q.remove n).queued = q.queued.drop n := rfl

end BoundedQueue

end Infra
