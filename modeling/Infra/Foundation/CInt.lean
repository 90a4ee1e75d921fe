import Mathlib.Data.Int.Basic
import Mathlib.Algebra.Order.Ring.Int

/-!
# The arithmetic of a 32-bit `int`

An `int` is an integer between `intMin` and `intMax`. A result that does not fit
is taken modulo `2 ^ 32` into that range, and a remainder by zero is a crash.
-/

namespace Infra

namespace CInt

/-- The largest `int`. -/
def intMax : ℤ := 2 ^ 31 - 1

/-- The smallest `int`. -/
def intMin : ℤ := -2 ^ 31

/-- The value of an `int` expression whose mathematical value is `x`. -/
def wrap (x : ℤ) : ℤ := x.bmod (2 ^ 32)

/-- `a % b` on `int` operands, with the sign of `a`. -/
def rem (a b : ℤ) : Option ℤ := if b = 0 then none else some (a.tmod b)

theorem wrap_eq_self {x : ℤ} (h₁ : intMin ≤ x) (h₂ : x ≤ intMax) : wrap x = x := by
  rw [wrap, Int.bmod_eq_of_le]
  · simp only [intMin] at h₁
    omega
  · simp only [intMax] at h₂
    omega

theorem intMin_le_wrap (x : ℤ) : intMin ≤ wrap x := by
  have h := Int.le_bmod (m := 2 ^ 32) (x := x) (by decide)
  simp only [intMin, wrap]
  omega

theorem wrap_le_intMax (x : ℤ) : wrap x ≤ intMax := by
  have h := Int.bmod_lt (m := 2 ^ 32) (x := x) (by decide)
  simp only [intMax, wrap]
  omega

@[simp] theorem wrap_wrap_add (x y : ℤ) : wrap (wrap x + y) = wrap (x + y) := Int.bmod_add_bmod

@[simp] theorem wrap_wrap_sub (x y : ℤ) : wrap (wrap x - y) = wrap (x - y) := Int.bmod_sub_bmod

theorem wrap_natCast {n : ℕ} (h : (n : ℤ) ≤ intMax) : wrap n = n :=
  wrap_eq_self (by simp only [intMin]; omega) h

/-- A sum that overflows once comes out on the other side. -/
theorem wrap_of_intMax_lt {x : ℤ} (h₁ : intMax < x) (h₂ : x ≤ intMax + 2 ^ 32) :
    wrap x = x - 2 ^ 32 := by
  simp only [intMax] at h₁ h₂
  rw [wrap, Int.bmod_def]
  split <;> omega

/-- The remainder of non-negative operands is that of natural numbers. -/
theorem rem_natCast {a b : ℕ} (hb : 0 < b) : rem a b = some ((a % b : ℕ) : ℤ) := by
  rw [rem, if_neg (by omega), Int.ofNat_tmod]

end CInt

end Infra
