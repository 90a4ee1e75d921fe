import Mathlib.Data.List.Basic

/-!
# The last of the events of a kind

In a history with its newest event at the end, `lastOf f h` is what the last event that
`f` picks stands for. A variable that only such events write holds it.
-/

namespace Infra

variable {α β : Type*}

/-- What the last event that `f` picks stands for. -/
def lastOf (f : α → Option β) (h : List α) : Option β := (h.filterMap f).getLast?

@[simp] theorem lastOf_nil {f : α → Option β} : lastOf f [] = none := rfl

@[simp] theorem lastOf_concat {f : α → Option β} {h : List α} {a : α} :
    lastOf f (h ++ [a]) = (f a).or (lastOf f h) := by
  rw [lastOf, List.filterMap_append]
  cases ha : f a with
  | none => simp [ha, lastOf]
  | some b => simp [ha]

end Infra
