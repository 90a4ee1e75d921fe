import Mathlib.Data.Option.Basic

/-!
# Computations that return

`Returns x Q` says that the computation `x` has a result and that this result
satisfies `Q`. So it is both that nothing goes wrong and what comes out. A
sequence is followed one step at a time, from what the step before left.
-/

namespace Infra

universe u

variable {α β : Type u}

/-- The computation has a result, and the result satisfies `Q`. -/
def Returns (x : Option α) (Q : α → Prop) : Prop := ∃ r, x = some r ∧ Q r

namespace Returns

variable {x : Option α} {P Q : α → Prop}

@[simp] theorem some_iff {a : α} : Returns (some a) Q ↔ Q a := by
  simp [Returns]

@[simp] theorem pure_iff {a : α} : Returns (pure a) Q ↔ Q a := some_iff

theorem mono (h : Returns x P) (hPQ : ∀ a, P a → Q a) : Returns x Q :=
  h.imp fun a ha => ⟨ha.1, hPQ a ha.2⟩

/-- A sequence returns when what follows returns from every result of the first step. -/
theorem bind {k : α → Option β} {R : β → Prop} (h : Returns x P)
    (hk : ∀ a, P a → Returns (k a) R) : Returns (x >>= k) R := by
  obtain ⟨a, rfl, ha⟩ := h
  exact hk a ha

/-- A step whose result is known. -/
theorem bind_eq {k : α → Option β} {R : β → Prop} {a : α} (h : x = some a)
    (hk : Returns (k a) R) : Returns (x >>= k) R := by
  subst h
  exact hk

end Returns

end Infra
