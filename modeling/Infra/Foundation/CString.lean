import Mathlib.Data.List.TakeWhile
import Mathlib.Data.Nat.Notation

/-!
# C strings

A string of a C program is the bytes before its terminating NUL, so none of them
is NUL.
-/

namespace Infra

/-- A string: bytes without NUL. -/
structure CString where
  bytes : List UInt8
  noNul : 0 ∉ bytes
  deriving DecidableEq

namespace CString

/-- `strlen`. -/
def length (s : CString) : ℕ := s.bytes.length

theorem ext {s t : CString} (h : s.bytes = t.bytes) : s = t := by
  cases s
  cases t
  cases h
  rfl

/-- The string that starts at the first of some bytes. -/
def ofBytes (bs : List UInt8) : CString where
  bytes := bs.takeWhile (· ≠ 0)
  noNul h := by simpa using List.mem_takeWhile_imp h

theorem bytes_ofBytes (bs : List UInt8) : (ofBytes bs).bytes = bs.takeWhile (· ≠ 0) := rfl

theorem bytes_ofBytes_eq {bs : List UInt8} (h : 0 ∉ bs) : (ofBytes bs).bytes = bs := by
  rw [bytes_ofBytes, List.takeWhile_eq_self_iff]
  intro c hc
  simpa using ne_of_mem_of_not_mem hc h

@[simp] theorem ofBytes_bytes (s : CString) : ofBytes s.bytes = s := ext (bytes_ofBytes_eq s.noNul)

end CString

end Infra
