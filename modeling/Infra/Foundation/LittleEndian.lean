import Mathlib.Algebra.Order.Ring.Nat
import Mathlib.Data.List.Basic

/-!
# Numbers as bytes

The bytes of a number in memory, the least significant one first. Numbers that
fit into as many bytes are told apart by them.
-/

namespace Infra

/-- The `n` low bytes of `x`, the least significant first. -/
def leBytes : ℕ → ℕ → List UInt8
  | 0, _ => []
  | n + 1, x => UInt8.ofNat x :: leBytes n (x / 256)

@[simp] theorem leBytes_length (n x : ℕ) : (leBytes n x).length = n := by
  induction n generalizing x with
  | zero => rfl
  | succ n ih => simp [leBytes, ih]

/-- The bytes of numbers that fit into them determine the numbers. -/
theorem leBytes_injective {n x y : ℕ} (hx : x < 256 ^ n) (hy : y < 256 ^ n)
    (h : leBytes n x = leBytes n y) : x = y := by
  induction n generalizing x y with
  | zero =>
      rw [Nat.pow_zero, Nat.lt_one_iff] at hx hy
      rw [hx, hy]
  | succ n ih =>
      rw [leBytes, leBytes, List.cons.injEq] at h
      have hlow : x % 256 = y % 256 := by
        simpa using congrArg UInt8.toNat h.1
      rw [Nat.pow_succ] at hx hy
      have hhigh : x / 256 = y / 256 :=
        ih ((Nat.div_lt_iff_lt_mul (by decide)).mpr hx)
          ((Nat.div_lt_iff_lt_mul (by decide)).mpr hy) h.2
      omega

end Infra
