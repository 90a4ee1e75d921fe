import Mathlib.Algebra.Order.Ring.Int
import Mathlib.Data.Int.Basic
import Mathlib.Data.List.Basic

/-!
# A memory of bytes

A memory has a byte at each address. A store changes the bytes of a range, and what a
memory holds in a range depends on nothing outside of it.
-/

namespace Infra

/-- The bytes at the addresses of a memory. -/
abbrev ByteMemory := ℤ → UInt8

namespace ByteMemory

/-- Writes `bs` at the address `a`. -/
def store (m : ByteMemory) (a : ℤ) (bs : List UInt8) : ByteMemory := fun x =>
  if a ≤ x then (bs[(x - a).toNat]?).getD (m x) else m x

/-- The address is not among the `n` from `a` on. -/
def Outside (a : ℤ) (n : ℕ) (x : ℤ) : Prop := x < a ∨ a + n ≤ x

/-- The bytes `bs` are at the address `a`. -/
def HoldsAt (m : ByteMemory) (a : ℤ) (bs : List UInt8) : Prop :=
  ∀ i (h : i < bs.length), m (a + i) = bs[i]

variable {m m' : ByteMemory} {a x : ℤ} {bs bs' : List UInt8}

theorem store_of_outside (h : Outside a bs.length x) : store m a bs x = m x := by
  rw [store]
  rcases h with h | h
  · rw [if_neg (by omega)]
  · rw [if_pos (by omega), List.getElem?_eq_none (by omega), Option.getD_none]

theorem holdsAt_store (m : ByteMemory) (a : ℤ) (bs : List UInt8) : HoldsAt (store m a bs) a bs := by
  intro i hi
  have hindex : (a + i - a).toNat = i := by omega
  rw [store, if_pos (by omega), hindex, List.getElem?_eq_getElem hi, Option.getD_some]

/-- What is outside of a range does not matter in it. -/
theorem HoldsAt.congr (h : HoldsAt m a bs)
    (hsame : ∀ x, ¬ Outside a bs.length x → m' x = m x) : HoldsAt m' a bs := by
  intro i hi
  rw [hsame (a + i) (by simp only [Outside]; omega), h i hi]

/-- As many bytes at one address are the same bytes. -/
theorem HoldsAt.unique (h : HoldsAt m a bs) (h' : HoldsAt m a bs')
    (hlen : bs.length = bs'.length) : bs = bs' :=
  List.ext_getElem hlen fun i hi hi' => (h i hi).symm.trans (h' i hi')

/-- Memories that hold the same bytes at an address agree there. -/
theorem HoldsAt.agree (h : HoldsAt m a bs) (h' : HoldsAt m' a bs) (hlen : 0 < bs.length) :
    m a = m' a := by
  have hfirst : m (a + (0 : ℕ)) = m' (a + (0 : ℕ)) := (h 0 hlen).trans (h' 0 hlen).symm
  simpa using hfirst

end ByteMemory

end Infra
