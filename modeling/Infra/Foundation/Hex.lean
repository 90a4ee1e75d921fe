import Infra.Foundation.Ascii
import Mathlib.Algebra.Group.Even

/-!
# Bytes as hexadecimal digits

Two digits spell a byte, the high one first. Spelling with letters in upper case and
reading are inverse to each other, up to the case of the letters.
-/

namespace Infra

namespace Hex

open Ascii

/-- The hexadecimal digits, in either case. -/
def isXDigit (c : UInt8) : Bool :=
  isDigit c ∨ (65 ≤ c.toNat ∧ c.toNat ≤ 70) ∨ (97 ≤ c.toNat ∧ c.toNat ≤ 102)

/-- The digit of a number below 16, in upper case. -/
def xdigit (d : ℕ) : UInt8 := UInt8.ofNat (if d < 10 then 48 + d else 55 + d)

/-- A letter in upper case. -/
def upper (c : UInt8) : UInt8 :=
  if 97 ≤ c.toNat ∧ c.toNat ≤ 122 then UInt8.ofNat (c.toNat - 32) else c

/-- The digits that spell a byte. -/
def spell (b : UInt8) : List UInt8 := [xdigit (b.toNat / 16), xdigit (b.toNat % 16)]

/-- The byte that two digits spell. -/
def unspell (c d : UInt8) : UInt8 := UInt8.ofNat (digitValue c * 16 + digitValue d)

/-- The digits that spell some bytes. -/
def encode (bs : List UInt8) : List UInt8 := bs.flatMap spell

/-- The bytes that some digits spell. -/
def decode : List UInt8 → List UInt8
  | c :: d :: s => unspell c d :: decode s
  | _ => []

theorem xdigit_toNat {d : ℕ} (h : d < 16) :
    (xdigit d).toNat = if d < 10 then 48 + d else 55 + d := by
  rw [xdigit, UInt8.toNat_ofNat']
  split <;> omega

theorem isXDigit_xdigit {d : ℕ} (h : d < 16) : isXDigit (xdigit d) := by
  simp only [isXDigit, isDigit, xdigit_toNat h, decide_eq_true_eq]
  split <;> omega

/-- The three ranges of the digits, with their values. -/
theorem digitValue_cases {c : UInt8} (h : isXDigit c) :
    (48 ≤ c.toNat ∧ c.toNat ≤ 57 ∧ digitValue c = c.toNat - 48) ∨
      (65 ≤ c.toNat ∧ c.toNat ≤ 70 ∧ digitValue c = c.toNat - 55) ∨
        (97 ≤ c.toNat ∧ c.toNat ≤ 102 ∧ digitValue c = c.toNat - 87) := by
  simp only [isXDigit, isDigit, decide_eq_true_eq] at h
  simp only [digitValue, isDigit, decide_eq_true_eq]
  rcases h with ⟨h₁, h₂⟩ | ⟨h₁, h₂⟩ | ⟨h₁, h₂⟩
  · exact .inl ⟨h₁, h₂, if_pos ⟨h₁, h₂⟩⟩
  · exact .inr (.inl ⟨h₁, h₂, by rw [if_neg (by omega), if_pos h₂]⟩)
  · exact .inr (.inr ⟨h₁, h₂, by rw [if_neg (by omega), if_neg (by omega)]⟩)

theorem digitValue_xdigit {d : ℕ} (h : d < 16) : digitValue (xdigit d) = d := by
  have hcases := digitValue_cases (isXDigit_xdigit h)
  rw [xdigit_toNat h] at hcases
  split at hcases <;> omega

theorem digitValue_lt {c : UInt8} (h : isXDigit c) : digitValue c < 16 := by
  have hcases := digitValue_cases h
  omega

/-- The digit of the value of a digit is the digit in upper case. -/
theorem xdigit_digitValue {c : UInt8} (h : isXDigit c) : xdigit (digitValue c) = upper c := by
  apply UInt8.toNat.inj
  rw [xdigit_toNat (digitValue_lt h), upper]
  rcases digitValue_cases h with ⟨h₁, h₂, h⟩ | ⟨h₁, h₂, h⟩ | ⟨h₁, h₂, h⟩
  · rw [h, if_pos (by omega), if_neg (by omega)]
    omega
  · rw [h, if_neg (by omega), if_neg (by omega)]
    omega
  · rw [h, if_neg (by omega), if_pos (by omega), UInt8.toNat_ofNat']
    omega

/-- Two digits that spell a byte are read as this byte. -/
theorem unspell_spell (b : UInt8) :
    unspell (xdigit (b.toNat / 16)) (xdigit (b.toNat % 16)) = b := by
  have hb := b.toNat_lt
  rw [unspell, digitValue_xdigit (by omega), digitValue_xdigit (Nat.mod_lt _ (by decide)),
    Nat.div_add_mod']
  exact UInt8.ofNat_toNat

theorem spell_unspell {c d : UInt8} (hc : isXDigit c) (hd : isXDigit d) :
    spell (unspell c d) = [upper c, upper d] := by
  have hc' := digitValue_lt hc
  have hd' := digitValue_lt hd
  have hbyte : (unspell c d).toNat = digitValue c * 16 + digitValue d := by
    rw [unspell, UInt8.toNat_ofNat']
    omega
  have hhigh : (digitValue c * 16 + digitValue d) / 16 = digitValue c := by omega
  have hlow : (digitValue c * 16 + digitValue d) % 16 = digitValue d := by omega
  rw [spell, hbyte, hhigh, hlow, xdigit_digitValue hc, xdigit_digitValue hd]

theorem isXDigit_of_mem_encode {bs : List UInt8} {c : UInt8} (h : c ∈ encode bs) : isXDigit c := by
  obtain ⟨b, -, hc⟩ := List.mem_flatMap.mp h
  have hb := b.toNat_lt
  simp only [spell, List.mem_cons, List.not_mem_nil, or_false] at hc
  rcases hc with rfl | rfl
  · exact isXDigit_xdigit (by omega)
  · exact isXDigit_xdigit (Nat.mod_lt _ (by decide))

@[simp] theorem encode_length (bs : List UInt8) : (encode bs).length = 2 * bs.length := by
  induction bs with
  | nil => rfl
  | cons b bs ih =>
      rw [encode, List.flatMap_cons, List.length_append, ← encode, ih, spell, List.length_cons]
      simp
      omega

theorem decode_length (s : List UInt8) : (decode s).length = s.length / 2 := by
  induction s using decode.induct with
  | case1 c d s ih =>
      rw [decode, List.length_cons, List.length_cons, List.length_cons, ih]
      omega
  | case2 s hpair =>
      match s with
      | [] | [_] => simp [decode]
      | c :: d :: s => exact absurd rfl (hpair c d s)

/-- Bytes that are spelled are read again. -/
theorem decode_encode (bs : List UInt8) : decode (encode bs) = bs := by
  induction bs with
  | nil => rfl
  | cons b bs ih =>
      have hcons : encode (b :: bs) =
          xdigit (b.toNat / 16) :: xdigit (b.toNat % 16) :: encode bs := rfl
      rw [hcons, decode, ih, unspell_spell]

/-- Digits that are read are spelled again in upper case. -/
theorem encode_decode {s : List UInt8} (hs : ∀ c ∈ s, isXDigit c) (heven : Even s.length) :
    encode (decode s) = s.map upper := by
  induction s using decode.induct with
  | case1 c d s ih =>
      obtain ⟨hc, hs⟩ := List.forall_mem_cons.mp hs
      obtain ⟨hd, hs⟩ := List.forall_mem_cons.mp hs
      have hrest : Even s.length := by
        rw [List.length_cons, List.length_cons, add_assoc] at heven
        exact (Nat.even_add.mp heven).mpr even_two
      have hcons : encode (decode (c :: d :: s)) = spell (unspell c d) ++ encode (decode s) := rfl
      rw [hcons, spell_unspell hc hd, ih hs hrest]
      rfl
  | case2 s hpair =>
      -- fewer than two digits, and not one
      match s with
      | [] => rfl
      | [_] => exact absurd heven Nat.not_even_one
      | c :: d :: s => exact absurd rfl (hpair c d s)

end Hex

end Infra
