import Infra.Foundation.CInt
import Infra.Foundation.CString
import Infra.Foundation.Hex

/-!
# The hexadecimal codec

`to_hex_array` reads two digits at a time through `strtol`, and `to_ascii_array` writes two
digits for each byte through `sprintf`. Both go through their arrays by an `int`.
-/

namespace Infra

namespace HexUtil

open CInt Hex Ascii

/-- `a[i]`; outside of the array there is nothing to read. -/
def readAt (a : List UInt8) (i : ℤ) : Option UInt8 := if 0 ≤ i then a[i.toNat]? else none

/-- `a[i] = c`; outside of the array there is no place to write to. -/
def writeAt (a : List UInt8) (i : ℤ) (c : UInt8) : Option (List UInt8) :=
  if 0 ≤ i ∧ i < a.length then some (a.set i.toNat c) else none

/-- `isspace`. -/
def isSpace (c : UInt8) : Bool := c.toNat = 32 ∨ (9 ≤ c.toNat ∧ c.toNat ≤ 13)

/-- Drops `0x`, where a digit follows it. -/
def dropPrefix : List UInt8 → List UInt8
  | z :: x :: c :: s =>
      if z = byte '0' ∧ (x = byte 'x' ∨ x = byte 'X') ∧ isXDigit c then c :: s
      else z :: x :: c :: s
  | s => s

/-- The digits at the start of a string, after `0x` if it is there. -/
def magnitude (s : List UInt8) : ℕ := readNat 16 ((dropPrefix s).takeWhile isXDigit)

/-- `strtol(s, NULL, 16)`, of a numeral that fits a `long`. -/
def strtol (s : CString) : ℤ :=
  match s.bytes.dropWhile isSpace with
  | c :: t =>
      if c = byte '-' then -(magnitude t)
      else if c = byte '+' then magnitude t
      else magnitude (c :: t)
  | [] => 0

/-- The numeral of a number in upper case. -/
def hexadecimal (n : ℕ) : List UInt8 :=
  if n = 0 then [xdigit 0] else (Nat.digits 16 n).reverse.map xdigit

/-- `sprintf(one_byte, "%02X", b)`, with the NUL at the end. -/
def sprintf02X (b : UInt8) : List UInt8 := (hexadecimal b.toNat).leftpad 2 (byte '0') ++ [0]

/-- The loop of `to_hex_array` from `i` on. -/
def toHexFrom (ascii : List UInt8) (len : ℤ) : ℕ → ℤ → List UInt8 → Option (List UInt8)
  | 0, _, _ => none
  | fuel + 1, i, hex =>
      if i < len then do
        let c ← readAt ascii i
        let d ← readAt ascii (wrap (i + 1))
        let hex ← writeAt hex (i.tdiv 2) (UInt8.ofInt (strtol (CString.ofBytes [c, d, 0])))
        toHexFrom ascii len fuel (wrap (i + 2)) hex
      else some hex

/-- `to_hex_array`. -/
def toHexArray (fuel : ℕ) (ascii : List UInt8) (len : ℤ) (hex : List UInt8) :
    Option (List UInt8) := toHexFrom ascii len fuel 0 hex

/-- The loop of `to_ascii_array` from `i` on. -/
def toAsciiFrom (hex : List UInt8) (len : ℤ) : ℕ → ℤ → List UInt8 → Option (List UInt8)
  | 0, _, _ => none
  | fuel + 1, i, ascii =>
      if i < len then do
        let oneByte := sprintf02X (← readAt hex i)
        let ascii ← writeAt ascii (wrap (wrap (i * 2) + 0)) (← readAt oneByte 0)
        let ascii ← writeAt ascii (wrap (wrap (i * 2) + 1)) (← readAt oneByte 1)
        toAsciiFrom hex len fuel (wrap (i + 1)) ascii
      else some ascii

/-- `to_ascii_array`. -/
def toAsciiArray (fuel : ℕ) (hex : List UInt8) (len : ℤ) (ascii : List UInt8) :
    Option (List UInt8) := toAsciiFrom hex len fuel 0 ascii

/-! ### The two codecs of a byte -/

theorem ofBytes_xdigits {c d : UInt8} (hc : isXDigit c) (hd : isXDigit d) :
    (CString.ofBytes [c, d, 0]).bytes = [c, d] := by
  have hne : ∀ {x : UInt8}, isXDigit x → x ≠ 0 := by
    rintro x hx rfl
    exact absurd hx (by decide)
  simp [CString.bytes_ofBytes, hne hc, hne hd]

/-- Two digits are not preceded by anything that `strtol` skips. -/
theorem strtol_xdigits {c d : UInt8} (hc : isXDigit c) (hd : isXDigit d) :
    strtol (CString.ofBytes [c, d, 0]) = (digitValue c * 16 + digitValue d : ℕ) := by
  have hcases := digitValue_cases hc
  have hspace : ¬ isSpace c := by
    simp only [isSpace, decide_eq_true_eq]
    omega
  have hminus : c ≠ byte '-' := by
    rintro rfl
    exact absurd hc (by decide)
  have hplus : c ≠ byte '+' := by
    rintro rfl
    exact absurd hc (by decide)
  have hdigits : magnitude [c, d] = digitValue c * 16 + digitValue d := by
    simp [magnitude, dropPrefix, hc, hd, readNat]
  rw [strtol, ofBytes_xdigits hc hd, List.dropWhile_cons_of_neg hspace]
  simp only [if_neg hminus, if_neg hplus, hdigits]

/-- Two digits are read as the byte that they spell. -/
theorem strtol_unspell {c d : UInt8} (hc : isXDigit c) (hd : isXDigit d) :
    UInt8.ofInt (strtol (CString.ofBytes [c, d, 0])) = unspell c d := by
  have hc' := digitValue_lt hc
  have hd' := digitValue_lt hd
  have hmod : ((digitValue c * 16 + digitValue d : ℕ) : ℤ) % 2 ^ 8 =
      (digitValue c * 16 + digitValue d : ℕ) := Int.emod_eq_of_lt (by omega) (by omega)
  rw [strtol_xdigits hc hd, UInt8.ofInt, hmod, Int.toNat_natCast, unspell]

theorem hexadecimal_of_lt {n : ℕ} (h : n < 16) : hexadecimal n = [xdigit n] := by
  unfold hexadecimal
  split
  · next hzero => rw [hzero]
  · next hpos => rw [Nat.digits_of_lt 16 n hpos h, List.reverse_singleton, List.map_singleton]

theorem hexadecimal_of_le {n : ℕ} (h₁ : 16 ≤ n) (h₂ : n < 256) :
    hexadecimal n = [xdigit (n / 16), xdigit (n % 16)] := by
  rw [hexadecimal, if_neg (by omega), Nat.digits_def' (by omega) (by omega),
    Nat.digits_of_lt 16 (n / 16) (by omega) (by omega)]
  rfl

/-- A byte is printed as its two digits. -/
theorem sprintf02X_eq (b : UInt8) : sprintf02X b = spell b ++ [0] := by
  have hb := b.toNat_lt
  rw [sprintf02X, spell]
  by_cases h : b.toNat < 16
  · rw [hexadecimal_of_lt h, Nat.div_eq_of_lt h, Nat.mod_eq_of_lt h]
    rfl
  · rw [hexadecimal_of_le (by omega) (by omega)]
    rfl

end HexUtil

end Infra
