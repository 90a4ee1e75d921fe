import Infra.HexUtil.Basic

/-!
# Round trips of the hexadecimal codec

Both loops go on with what they have written so far in front of what they have not reached.
The position in the digits is twice the position in the bytes, and it is an `int`: where it
would not fit, the digits cannot be written, and cannot be read for want of a length.
-/

namespace Infra

namespace HexUtil

open CInt Hex Ascii

variable {ascii ascii' hex hex' pre rest done tail : List UInt8} {c d x y b : UInt8}
variable {fuel k : ℕ} {i len : ℤ}

/-! ### Reading and writing -/

theorem readAt_append (pre rest : List UInt8) (c : UInt8) :
    readAt (pre ++ c :: rest) pre.length = some c := by
  rw [readAt, if_pos (Int.natCast_nonneg _), Int.toNat_natCast, List.getElem?_append_right le_rfl,
    Nat.sub_self, List.getElem?_cons_zero]

theorem writeAt_append (done tail : List UInt8) (x c : UInt8) :
    writeAt (done ++ x :: tail) done.length c = some (done ++ c :: tail) := by
  have hin : (0 : ℤ) ≤ done.length ∧ (done.length : ℤ) < (done ++ x :: tail).length := by
    rw [List.length_append, List.length_cons]
    omega
  rw [writeAt, if_pos hin, Int.toNat_natCast, List.set_append_right _ _ le_rfl, Nat.sub_self,
    List.set_cons_zero]

theorem readAt_eq_some (h : readAt ascii i = some c) : 0 ≤ i ∧ ascii[i.toNat]? = some c := by
  rw [readAt] at h
  split at h
  · next hi => exact ⟨hi, h⟩
  · contradiction

theorem writeAt_eq_some (h : writeAt ascii i c = some ascii') :
    0 ≤ i ∧ i < ascii.length ∧ ascii' = ascii.set i.toNat c := by
  rw [writeAt] at h
  split at h
  · next hi => exact ⟨hi.1, hi.2, (Option.some.inj h).symm⟩
  · contradiction

/-- Twice as many digits as bytes: the next byte has two. -/
theorem exists_cons_cons {s bs : List UInt8} {b : UInt8} (h : s.length = 2 * (b :: bs).length) :
    ∃ c d rest, s = c :: d :: rest := by
  rw [List.length_cons] at h
  cases s with
  | nil =>
      rw [List.length_nil] at h
      omega
  | cons c s =>
      cases s with
      | nil =>
          rw [List.length_singleton] at h
          omega
      | cons d rest => exact ⟨c, d, rest, rfl⟩

/-! ### From digits to bytes -/

theorem toHexFrom_done (h : ¬ i < len) : toHexFrom ascii len (fuel + 1) i hex = some hex := by
  rw [toHexFrom, if_neg h]

/-- Two digits become the byte at half their position. -/
theorem toHexFrom_step (hc : isXDigit c) (hd : isXDigit d) (hi : (pre.length : ℤ) < len)
    (hmax : (pre.length + 2 : ℤ) ≤ intMax) (hpos : pre.length = 2 * done.length) :
    toHexFrom (pre ++ c :: d :: rest) len (fuel + 1) pre.length (done ++ x :: tail) =
      toHexFrom (pre ++ [c, d] ++ rest) len fuel (pre ++ [c, d]).length
        (done ++ [unspell c d] ++ tail) := by
  have hread : readAt (pre ++ c :: d :: rest) (pre.length + 1) = some d := by
    have hsnd := readAt_append (pre ++ [c]) rest d
    rwa [List.append_assoc, List.singleton_append, List.length_append, List.length_singleton,
      Nat.cast_add, Nat.cast_one] at hsnd
  have hhalf : (pre.length : ℤ).tdiv 2 = done.length := by
    rw [hpos, Int.tdiv_eq_ediv_of_nonneg (Int.natCast_nonneg _)]
    omega
  have hnext₁ : wrap (pre.length + 1) = pre.length + 1 :=
    wrap_eq_self (by simp only [intMin]; omega) (by omega)
  have hnext₂ : wrap (pre.length + 2) = (pre ++ [c, d]).length := by
    rw [List.length_append]
    exact wrap_eq_self (by simp only [intMin]; omega) (by omega)
  rw [toHexFrom, if_pos hi, readAt_append, hnext₁, hread, hhalf, hnext₂, List.append_assoc,
    List.append_assoc]
  simp only [Option.bind_eq_bind, Option.bind_some, strtol_unspell hc hd, writeAt_append,
    List.cons_append, List.nil_append]

theorem toHexFrom_spec (hdigits : ∀ c ∈ rest, isXDigit c) (hrest : rest.length = 2 * tail.length)
    (hpos : pre.length = 2 * done.length) (hlen : len = (pre.length + rest.length : ℕ))
    (hmax : len ≤ intMax) :
    toHexFrom (pre ++ rest) len (tail.length + 1) pre.length (done ++ tail) =
      some (done ++ decode rest) := by
  induction tail generalizing pre rest done with
  | nil =>
      obtain rfl : rest = [] := List.eq_nil_of_length_eq_zero hrest
      rw [List.length_nil, add_zero] at hlen
      rw [toHexFrom_done (by omega), decode]
      · simp
  | cons x tail ih =>
      obtain ⟨c, d, rest, rfl⟩ := exists_cons_cons hrest
      obtain ⟨hc, hdigits⟩ := List.forall_mem_cons.mp hdigits
      obtain ⟨hd, hdigits⟩ := List.forall_mem_cons.mp hdigits
      rw [List.length_cons, List.length_cons] at hlen hrest
      rw [List.length_cons] at hrest
      have hpre : (pre ++ [c, d]).length = pre.length + 2 := List.length_append
      have hdone : (done ++ [unspell c d]).length = done.length + 1 := List.length_append
      rw [List.length_cons, toHexFrom_step hc hd (by omega) (by omega) hpos,
        ih hdigits (by omega) (by omega) (by omega), List.append_assoc]
      rfl

/-- Digits are read as the bytes that they spell. -/
theorem toHexArray_eq {s : List UInt8} (hs : ∀ c ∈ s, isXDigit c)
    (hhex : s.length = 2 * hex.length) (hmax : (s.length : ℤ) ≤ intMax) :
    toHexArray (hex.length + 1) s (wrap s.length) hex = some (decode s) := by
  rw [toHexArray, wrap_natCast hmax]
  have hstart : ([] : List UInt8).length = 2 * ([] : List UInt8).length := rfl
  have hrun := toHexFrom_spec hs hhex hstart (by rw [List.length_nil, zero_add]) hmax
  simpa using hrun

/-- A position that the length does not reach is left as it was. -/
theorem toHexFrom_getElem? (hlen : len ≤ 2 * k) (h : toHexFrom ascii len fuel i hex = some hex') :
    hex'[k]? = hex[k]? := by
  induction fuel generalizing i hex with
  | zero => contradiction
  | succ fuel ih =>
      by_cases hi : i < len
      · rw [toHexFrom, if_pos hi] at h
        simp only [Option.bind_eq_bind, Option.bind_eq_some_iff] at h
        obtain ⟨c, hc, d, -, hex₁, hwrite, h⟩ := h
        obtain ⟨hpos, -⟩ := readAt_eq_some hc
        obtain ⟨-, -, rfl⟩ := writeAt_eq_some hwrite
        rw [Int.tdiv_eq_ediv_of_nonneg hpos] at h
        rw [ih h, List.getElem?_set_ne (by omega)]
      · rw [toHexFrom_done hi] at h
        rw [Option.some.inj h]

/-! ### From bytes to digits -/

theorem toAsciiFrom_done (h : ¬ i < len) :
    toAsciiFrom hex len (fuel + 1) i ascii = some ascii := by
  rw [toAsciiFrom, if_neg h]

theorem readAt_sprintf_fst (b : UInt8) :
    readAt (sprintf02X b) 0 = some (xdigit (b.toNat / 16)) := by
  rw [sprintf02X_eq]
  rfl

theorem readAt_sprintf_snd (b : UInt8) :
    readAt (sprintf02X b) 1 = some (xdigit (b.toNat % 16)) := by
  rw [sprintf02X_eq]
  rfl

/-- Where twice a position fits, the two positions of the digits of its byte do. -/
theorem wrap_twice (hi : 0 ≤ i) (hmax : 2 * (i + 1) ≤ intMax + 1) :
    wrap (wrap (i * 2) + 0) = 2 * i ∧ wrap (wrap (i * 2) + 1) = 2 * i + 1 := by
  have htwice : wrap (i * 2) = 2 * i := by
    rw [wrap_eq_self (by simp only [intMin]; omega) (by omega), mul_comm]
  rw [htwice, add_zero]
  exact ⟨wrap_eq_self (by simp only [intMin]; omega) (by omega),
    wrap_eq_self (by simp only [intMin]; omega) (by omega)⟩

/-- A byte becomes two digits at twice its position. -/
theorem toAsciiFrom_step (hi : (pre.length : ℤ) < len)
    (hmax : (2 * (pre.length + 1) : ℤ) ≤ intMax + 1) (hpos : done.length = 2 * pre.length) :
    toAsciiFrom (pre ++ b :: rest) len (fuel + 1) pre.length (done ++ x :: y :: tail) =
      toAsciiFrom (pre ++ [b] ++ rest) len fuel (pre ++ [b]).length
        (done ++ spell b ++ tail) := by
  obtain ⟨hfst, hsnd⟩ := wrap_twice (Int.natCast_nonneg pre.length) hmax
  have hdone : (2 * pre.length : ℤ) = done.length := by omega
  have hwrite (z : UInt8) : writeAt (done ++ z :: y :: tail) (done.length + 1)
      (xdigit (b.toNat % 16)) = some (done ++ z :: xdigit (b.toNat % 16) :: tail) := by
    have hat := writeAt_append (done ++ [z]) tail y (xdigit (b.toNat % 16))
    rwa [List.append_assoc, List.append_assoc, List.singleton_append, List.singleton_append,
      List.length_append, List.length_singleton, Nat.cast_add, Nat.cast_one] at hat
  have hnext : wrap (pre.length + 1) = (pre ++ [b]).length := by
    rw [List.length_append]
    exact wrap_eq_self (by simp only [intMin]; omega) (by omega)
  rw [toAsciiFrom, if_pos hi, readAt_append, hfst, hsnd, hdone, hnext, List.append_assoc,
    List.append_assoc, spell]
  simp only [Option.bind_eq_bind, Option.bind_some, readAt_sprintf_fst, readAt_sprintf_snd,
    writeAt_append, hwrite, List.cons_append, List.nil_append]

theorem toAsciiFrom_spec (hrest : tail.length = 2 * rest.length)
    (hpos : done.length = 2 * pre.length) (hlen : len = (pre.length + rest.length : ℕ))
    (hmax : 2 * len ≤ intMax + 1) :
    toAsciiFrom (pre ++ rest) len (rest.length + 1) pre.length (done ++ tail) =
      some (done ++ encode rest) := by
  induction rest generalizing pre tail done with
  | nil =>
      obtain rfl : tail = [] := List.eq_nil_of_length_eq_zero hrest
      rw [List.length_nil, add_zero] at hlen
      rw [toAsciiFrom_done (by omega)]
      rfl
  | cons b rest ih =>
      obtain ⟨x, y, tail, rfl⟩ := exists_cons_cons hrest
      rw [List.length_cons] at hlen hrest
      rw [List.length_cons, List.length_cons] at hrest
      have hpre : (pre ++ [b]).length = pre.length + 1 := List.length_append
      have hdone : (done ++ spell b).length = done.length + 2 := List.length_append
      rw [List.length_cons, toAsciiFrom_step (by omega) (by omega) hpos,
        ih (by omega) (by omega) (by omega), List.append_assoc]
      rfl

/-- Bytes are written as the digits that spell them. -/
theorem toAsciiArray_eq {bs : List UInt8} (hascii : ascii.length = 2 * bs.length)
    (hmax : 2 * (bs.length : ℤ) ≤ intMax + 1) :
    toAsciiArray (bs.length + 1) bs (wrap bs.length) ascii = some (encode bs) := by
  rw [toAsciiArray, wrap_natCast (by simp only [intMax] at hmax ⊢; omega)]
  have hstart : ([] : List UInt8).length = 2 * ([] : List UInt8).length := rfl
  have hrun := toAsciiFrom_spec hascii hstart (by rw [List.length_nil, zero_add]) hmax
  simpa using hrun

/-- Twice a position that does not fit is no position. -/
theorem twice_le_of_nonneg (hi : 0 ≤ i) (hmax : i ≤ intMax) (h : 0 ≤ wrap (wrap (i * 2) + 0)) :
    2 * (i + 1) ≤ intMax + 1 := by
  by_contra hover
  simp only [intMax] at hmax hover
  have htwice : wrap (i * 2) = i * 2 - 2 ^ 32 :=
    wrap_of_intMax_lt (by simp only [intMax]; omega) (by simp only [intMax]; omega)
  rw [htwice, add_zero, wrap_eq_self (by simp only [intMin]; omega)
    (by simp only [intMax]; omega)] at h
  omega

/-- What one turn of the loop does, when the function returns. -/
theorem toAsciiFrom_succ (hmax : len ≤ intMax)
    (h : toAsciiFrom hex len (fuel + 1) i ascii = some ascii') :
    (¬ i < len ∧ ascii' = ascii) ∨
      (i < len ∧ 0 ≤ i ∧ 2 * (i + 1) ≤ intMax + 1 ∧ 2 * i < ascii.length ∧
        ∃ b, hex[i.toNat]? = some b ∧ toAsciiFrom hex len fuel (i + 1)
          ((ascii.set (2 * i).toNat (xdigit (b.toNat / 16))).set (2 * i + 1).toNat
            (xdigit (b.toNat % 16))) = some ascii') := by
  by_cases hi : i < len
  · rw [toAsciiFrom, if_pos hi] at h
    simp only [Option.bind_eq_bind, Option.bind_eq_some_iff] at h
    obtain ⟨b, hb, fst, hfst, ascii₁, hwrite₁, snd, hsnd, ascii₂, hwrite₂, h⟩ := h
    rw [readAt_sprintf_fst] at hfst
    rw [readAt_sprintf_snd] at hsnd
    cases hfst
    cases hsnd
    obtain ⟨hpos, hb⟩ := readAt_eq_some hb
    obtain ⟨hnonneg, hin, rfl⟩ := writeAt_eq_some hwrite₁
    obtain ⟨-, -, rfl⟩ := writeAt_eq_some hwrite₂
    have htwice := twice_le_of_nonneg hpos (by omega) hnonneg
    obtain ⟨heq₁, heq₂⟩ := wrap_twice hpos htwice
    rw [heq₁] at hin
    rw [heq₁, heq₂, wrap_eq_self (by simp only [intMin]; omega) (by omega)] at h
    exact .inr ⟨hi, hpos, htwice, hin, b, hb, h⟩
  · rw [toAsciiFrom_done hi] at h
    exact .inl ⟨hi, (Option.some.inj h).symm⟩

/-- The function only returns where all positions of the digits fit. -/
theorem two_mul_len_le (hmax : len ≤ intMax) (hi : 2 * i ≤ intMax + 1)
    (h : toAsciiFrom hex len fuel i ascii = some ascii') : 2 * len ≤ intMax + 1 := by
  induction fuel generalizing i ascii with
  | zero => contradiction
  | succ fuel ih =>
      obtain ⟨hend, -⟩ | ⟨-, -, htwice, -, b, -, h⟩ := toAsciiFrom_succ hmax h
      · omega
      · exact ih htwice h

/-- `to_ascii_array` stays in an array of the right size exactly where all positions of the
digits fit. -/
theorem toAsciiArray_returns_iff {bs : List UInt8} (hascii : ascii.length = 2 * bs.length)
    (hmax : (bs.length : ℤ) ≤ intMax) :
    (∃ fuel ascii', toAsciiArray fuel bs bs.length ascii = some ascii') ↔
      2 * (bs.length : ℤ) ≤ intMax + 1 := by
  constructor
  · rintro ⟨fuel, ascii', h⟩
    exact two_mul_len_le hmax (by decide) h
  · intro h
    have hrun := toAsciiArray_eq hascii h
    rw [wrap_natCast hmax] at hrun
    exact ⟨_, _, hrun⟩

/-- The first digit of a byte is written where it belongs, or is left as it was. -/
theorem toAsciiFrom_getElem? (hmax : len ≤ intMax) (k : ℕ)
    (h : toAsciiFrom hex len fuel i ascii = some ascii') :
    ascii'[2 * k]? = ascii[2 * k]? ∨
      ∃ b, hex[k]? = some b ∧ ascii'[2 * k]? = some (xdigit (b.toNat / 16)) := by
  induction fuel generalizing i ascii with
  | zero => contradiction
  | succ fuel ih =>
      obtain ⟨-, rfl⟩ | ⟨-, hpos, -, hin, b, hb, h⟩ := toAsciiFrom_succ hmax h
      · exact .inl rfl
      · rcases ih h with hsame | hwritten
        · rw [List.getElem?_set_ne (by omega)] at hsame
          by_cases hk : i.toNat = k
          · have hplace : (2 * i).toNat = 2 * k := by omega
            rw [hplace, List.getElem?_set_self (by omega)] at hsame
            exact .inr ⟨b, hk ▸ hb, hsame⟩
          · rw [List.getElem?_set_ne (by omega)] at hsame
            exact .inl hsame
        · exact .inr hwritten

/-! ### The round trips -/

/-- Bytes written as digits are read again, in arrays of just the right sizes. -/
def CodesBack (b : List UInt8) : Prop :=
  ∀ ascii hex : List UInt8, ascii.length = 2 * b.length → hex.length = b.length →
    ∃ fuel ascii', toAsciiArray fuel b (wrap b.length) ascii = some ascii' ∧
      toHexArray fuel ascii' (wrap (2 * b.length)) hex = some b

/-- Digits read as bytes are written again, in arrays of just the right sizes. -/
def SpellsBack (s : List UInt8) : Prop :=
  ∀ hex ascii : List UInt8, 2 * hex.length = s.length → ascii.length = s.length →
    ∃ fuel hex', toHexArray fuel s (wrap s.length) hex = some hex' ∧
      toAsciiArray fuel hex' (wrap hex.length) ascii = some (s.map upper)

theorem codesBack_of_le {b : List UInt8} (h : 2 * (b.length : ℤ) ≤ intMax) : CodesBack b := by
  intro ascii hex hascii hhex
  have hlen : ((encode b).length : ℤ) = 2 * b.length := by
    rw [encode_length, Nat.cast_mul, Nat.cast_ofNat]
  refine ⟨b.length + 1, encode b, toAsciiArray_eq hascii (by omega), ?_⟩
  have hsize : (encode b).length = 2 * hex.length := by rw [encode_length, hhex]
  have hread := toHexArray_eq (fun c hc => isXDigit_of_mem_encode hc) hsize (hlen.trans_le h)
  rwa [hlen, hhex, decode_encode] at hread

theorem spellsBack_of_le {s : List UInt8} (hs : ∀ c ∈ s, isXDigit c) (heven : Even s.length)
    (h : (s.length : ℤ) ≤ intMax) : SpellsBack s := by
  intro hex ascii hhex hascii
  have hlen : (decode s).length = hex.length := by
    rw [decode_length]
    omega
  refine ⟨hex.length + 1, decode s, toHexArray_eq hs hhex.symm h, ?_⟩
  rw [← hlen, ← encode_decode hs heven]
  exact toAsciiArray_eq (by omega) (by omega)

/-- No even `int` is past the last one. -/
theorem wrap_even_le (n : ℕ) : wrap (2 * n) ≤ 2 * (2 ^ 30 - 1 : ℕ) := by
  rw [wrap, Int.bmod_def]
  split <;> omega

theorem CodesBack.le {b : List UInt8} (h : CodesBack b) : 2 * (b.length : ℤ) ≤ intMax := by
  by_contra hlong
  simp only [intMax] at hlong
  have hlast : 2 ^ 30 - 1 < b.length := by omega
  -- another byte at the last place that no `int` length reaches
  obtain ⟨fuel, ascii', -, hread⟩ := h (List.replicate (2 * b.length) 0)
    (b.set (2 ^ 30 - 1) (b[2 ^ 30 - 1] + 1)) List.length_replicate List.length_set
  have hsame := toHexFrom_getElem? (wrap_even_le b.length) hread
  rw [List.getElem?_set_self hlast, List.getElem?_eq_getElem hlast] at hsame
  exact absurd (Option.some.inj hsame) (by simp)

theorem SpellsBack.le {s : List UInt8} (hs : ∀ c ∈ s, isXDigit c) (heven : Even s.length)
    (h : SpellsBack s) : (s.length : ℤ) ≤ intMax := by
  by_contra hlong
  obtain ⟨m, hm⟩ := heven.two_dvd
  simp only [intMax] at hlong
  have hlast : 2 * (2 ^ 30 - 1) < s.length := by omega
  have hc := hs _ (List.getElem_mem hlast)
  have hupper := xdigit_digitValue hc
  have hvalue := digitValue_xdigit (digitValue_lt hc)
  rw [hupper] at hvalue
  -- a byte with another first digit at the last place that no `int` length reaches
  obtain ⟨v, hv, hother⟩ : ∃ v : UInt8, v.toNat / 16 < 16 ∧
      v.toNat / 16 ≠ digitValue s[2 * (2 ^ 30 - 1)] := by
    by_cases hzero : digitValue s[2 * (2 ^ 30 - 1)] = 0
    · exact ⟨16, by decide, by rw [hzero]; decide⟩
    · exact ⟨0, by decide, fun hne => hzero hne.symm⟩
  obtain ⟨fuel, hex', hread, hspell⟩ := h (List.replicate m v) (List.replicate s.length 0)
    (by rw [List.length_replicate, hm]) List.length_replicate
  have heven_le : wrap s.length ≤ 2 * (2 ^ 30 - 1 : ℕ) := by
    rw [hm, Nat.cast_mul]
    exact wrap_even_le m
  have hsame := toHexFrom_getElem? heven_le hread
  rw [List.getElem?_replicate_of_lt (by omega)] at hsame
  have hmax : wrap (List.replicate m v).length ≤ intMax := by
    rw [wrap, Int.bmod_def]
    simp only [intMax]
    split <;> omega
  rcases toAsciiFrom_getElem? hmax (2 ^ 30 - 1) hspell with hleft | ⟨b, hb, hwritten⟩
  · rw [List.getElem?_map, List.getElem?_eq_getElem hlast, Option.map_some,
      List.getElem?_replicate_of_lt hlast] at hleft
    rw [Option.some.inj hleft] at hupper
    exact absurd (hupper ▸ isXDigit_xdigit (digitValue_lt hc)) (by decide)
  · rw [List.getElem?_map, List.getElem?_eq_getElem hlast, Option.map_some] at hwritten
    obtain rfl : v = b := Option.some.inj (hsame.symm.trans hb)
    rw [Option.some.inj hwritten, digitValue_xdigit hv] at hvalue
    exact hother hvalue

/-- Both round trips succeed exactly where the number of digits is an `int`. -/
theorem hex_round_trips_iff (b s : List UInt8) (hs : ∀ c ∈ s, isXDigit c) (heven : Even s.length) :
    (CodesBack b ↔ 2 * (b.length : ℤ) ≤ intMax) ∧ (SpellsBack s ↔ (s.length : ℤ) ≤ intMax) :=
  ⟨⟨CodesBack.le, codesBack_of_le⟩, ⟨SpellsBack.le hs heven, spellsBack_of_le hs heven⟩⟩

/-- Two bytes, and digits in both cases. -/
theorem hex_round_trips_iff_two : CodesBack [0, 255] ∧ SpellsBack (bytes "aBf0") := by
  obtain ⟨hcodes, hspells⟩ := hex_round_trips_iff [0, 255] (bytes "aBf0")
    (forall_mem_of_all (by decide)) (by decide)
  exact ⟨hcodes.mpr (by decide), hspells.mpr (by decide)⟩

/-- For one byte more than `2 ^ 30` the digits are not even written. -/
theorem gigabyte_not_coded : ¬ CodesBack (List.replicate (2 ^ 30 + 1) 0) := by
  intro h
  have hlen := h.le
  rw [List.length_replicate] at hlen
  exact absurd hlen (by decide)

end HexUtil

end Infra
