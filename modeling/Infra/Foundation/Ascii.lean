import Mathlib.Data.Nat.Digits.Defs

/-!
# Bytes as characters, and numerals

The bytes of a text, the classes of the digits, the value of a numeral and the
decimal numeral of a number.
-/

namespace Infra

namespace Ascii

/-- The byte of a character. -/
def byte (c : Char) : UInt8 := UInt8.ofNat c.toNat

/-- The bytes of a text. -/
def bytes (s : String) : List UInt8 := s.toList.map byte

/-- The decimal digits. -/
def isDigit (c : UInt8) : Bool := 48 ≤ c.toNat ∧ c.toNat ≤ 57

/-- The value of a digit; the letters are those of hexadecimal numerals. -/
def digitValue (c : UInt8) : ℕ :=
  if isDigit c then c.toNat - 48 else if c.toNat ≤ 70 then c.toNat - 55 else c.toNat - 87

/-- The value of a numeral. -/
def readNat (base : ℕ) (w : List UInt8) : ℕ :=
  w.foldl (fun n c => n * base + digitValue c) 0

/-- The byte of a decimal digit. -/
def digit (d : ℕ) : UInt8 := UInt8.ofNat (48 + d)

/-- The decimal numeral of a number. -/
def decimal (n : ℕ) : List UInt8 :=
  if n = 0 then [digit 0] else (Nat.digits 10 n).reverse.map digit

/-- What a test finds of every byte of a text. -/
theorem forall_mem_of_all {P : UInt8 → Prop} [DecidablePred P] {w : List UInt8}
    (h : w.all fun c => decide (P c)) : ∀ c ∈ w, P c := by
  simpa using h

theorem digit_toNat {d : ℕ} (h : d < 10) : (digit d).toNat = 48 + d := by
  rw [digit, UInt8.toNat_ofNat']
  omega

theorem isDigit_digit {d : ℕ} (h : d < 10) : isDigit (digit d) := by
  simp only [isDigit, digit_toNat h, decide_eq_true_eq]
  omega

theorem digitValue_digit {d : ℕ} (h : d < 10) : digitValue (digit d) = d := by
  rw [digitValue, if_pos (isDigit_digit h), digit_toNat h, Nat.add_sub_cancel_left]

theorem decimal_ne_nil (n : ℕ) : decimal n ≠ [] := by
  unfold decimal
  split
  · simp
  · next h => simpa [Nat.digits_eq_nil_iff_eq_zero] using h

theorem isDigit_of_mem_decimal {n : ℕ} {c : UInt8} (h : c ∈ decimal n) : isDigit c := by
  unfold decimal at h
  split at h
  · rw [List.mem_singleton.mp h]
    exact isDigit_digit (by omega)
  · obtain ⟨d, hd, rfl⟩ := List.mem_map.mp h
    exact isDigit_digit (Nat.digits_lt_base (by omega) (List.mem_reverse.mp hd))

/-- Reading the numeral of a number gives the number. -/
theorem readNat_decimal (n : ℕ) : readNat 10 (decimal n) = n := by
  have hread : ∀ l : List ℕ, (∀ d ∈ l, d < 10) →
      readNat 10 (l.reverse.map digit) = Nat.ofDigits 10 l := by
    intro l hl
    rw [readNat, List.foldl_map, List.foldl_reverse, Nat.ofDigits_eq_foldr]
    induction l with
    | nil => rfl
    | cons d l ih =>
        rw [List.forall_mem_cons] at hl
        simp only [List.foldr_cons, ih hl.2, digitValue_digit hl.1, Nat.cast_id]
        ring
  unfold decimal
  split
  · next h =>
    subst h
    simpa using hread [0] (by simp)
  · rw [hread _ fun d hd => Nat.digits_lt_base (by omega) hd, Nat.ofDigits_digits]

end Ascii

end Infra
