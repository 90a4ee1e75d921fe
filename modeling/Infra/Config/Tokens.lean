import Infra.Config.Scanner

/-!
# What the rules match

A rule that matches two characters or more matches a word of letters, digits and
signs, a string in its quotes, or white space. So at the front of a text a word
is matched as far as it goes, a string up to the quote that closes it, and any
other character alone. Which rule comes first follows from the characters that
the earlier ones are made of.
-/

namespace Infra

namespace Config

open Infra.Ascii Infra.Scanning

section Classes

/-- The characters of identifiers and numerals. -/
def isWordChar (c : UInt8) : Bool := isLetter c ∨ isDigit c ∨ c ∈ bytes ".+-"

/-- The characters that identifiers and numerals start with. -/
def isWordHead (c : UInt8) : Bool := isLetter c ∨ isDigit c ∨ c = byte '.'

/-- White space. -/
def isSpace (c : UInt8) : Bool := c ∈ bytes " \t\n"

/-- An identifier. -/
def IsIdentifier (w : List UInt8) : Prop :=
  ∃ c u, w = c :: u ∧ isLetter c ∧ ∀ x ∈ u, isLetter x ∨ isDigit x

/-- An identifier as an expression. -/
def identifier : Regex UInt8 := .seq letterClass (.star (.alt letterClass digitClass))

/-- A hexadecimal numeral. -/
def hexNumeral : Regex UInt8 :=
  .seq (.chr (byte '0')) (.seq (oneOf "xX") (.seq (.plus hexClass) (.opt intSuffix)))

/-- A decimal numeral. -/
def numeral : Regex UInt8 := .seq (.plus digitClass) (.opt intSuffix)

/-- A numeral with a point. -/
def floatNumeral : Regex UInt8 :=
  .seq (.star digitClass) (.seq (.chr (byte '.'))
    (.seq (.plus digitClass) (.seq (.opt exponent) (.opt floatSuffix))))

/-- A string between its quotes. -/
def stringLiteral : Regex UInt8 := .seq (.chr (byte '"')) (.seq stringBody (.chr (byte '"')))

/-- What follows a word ends it. -/
def Stops (rest : List UInt8) : Prop := ∀ c ∈ rest.head?, ¬ isWordChar c

variable {c : UInt8}

theorem isWordHead_of_isLetter (h : isLetter c) : isWordHead c := by simp [isWordHead, h]

theorem isWordHead_of_isDigit (h : isDigit c) : isWordHead c := by simp [isWordHead, h]

theorem isWordChar_of_isLetter (h : isLetter c) : isWordChar c := by simp [isWordChar, h]

theorem isWordChar_of_isDigit (h : isDigit c) : isWordChar c := by simp [isWordChar, h]

theorem not_isWordChar_of_isSpace (h : isSpace c) : ¬ isWordChar c := by
  have hall : ∀ c ∈ bytes " \t\n", ¬ isWordChar c := forall_mem_of_all (by decide)
  exact hall c (by simpa [isSpace] using h)

theorem over_chr {P : UInt8 → Prop} (h : P c) : (Regex.chr c).Over P := by
  intro a ha
  rwa [of_decide_eq_true ha]

theorem over_oneOf {P : UInt8 → Prop} {s : String} (h : ∀ c ∈ bytes s, P c) :
    (oneOf s).Over P := fun a ha => h a (of_decide_eq_true ha)

theorem over_str {P : UInt8 → Prop} {u : List UInt8} (h : ∀ c ∈ u, P c) :
    (Regex.str u).Over P := by
  induction u with
  | nil => trivial
  | cons a u ih =>
      rw [List.forall_mem_cons] at h
      exact And.intro (over_chr h.1) (ih h.2)

end Classes

section Words

variable {F : Type} {ft : FloatText F} {w : List UInt8} {c : UInt8}

/-! ## The words of the rules -/

theorem mem_identifier : w ∈ identifier.lang ↔ IsIdentifier w := by
  have hsingle : ∀ u, u ∈ (Regex.alt letterClass digitClass).lang ↔
      ∃ a, (isLetter a ∨ isDigit a) ∧ u = [a] := by
    intro u
    simp only [letterClass, digitClass, Regex.mem_alt, Regex.mem_cls]
    constructor
    · rintro (⟨a, ha, rfl⟩ | ⟨a, ha, rfl⟩)
      · exact ⟨a, Or.inl ha, rfl⟩
      · exact ⟨a, Or.inr ha, rfl⟩
    · rintro ⟨a, ha | ha, rfl⟩
      · exact Or.inl ⟨a, ha, rfl⟩
      · exact Or.inr ⟨a, ha, rfl⟩
  simp only [identifier, Regex.mem_seq, letterClass, Regex.mem_cls, IsIdentifier]
  constructor
  · rintro ⟨-, ⟨c, hc, rfl⟩, u, hu, rfl⟩
    exact ⟨c, u, rfl, hc, (Regex.mem_star_single hsingle).mp hu⟩
  · rintro ⟨c, u, rfl, hc, hu⟩
    exact ⟨[c], ⟨c, hc, rfl⟩, u, (Regex.mem_star_single hsingle).mpr hu, rfl⟩

theorem IsIdentifier.ne_nil (h : IsIdentifier w) : w ≠ [] := by
  obtain ⟨c, u, rfl, -, -⟩ := h
  simp

theorem IsIdentifier.isWordChar (h : IsIdentifier w) : ∀ c ∈ w, isWordChar c := by
  obtain ⟨c, u, rfl, hc, hu⟩ := h
  intro x hx
  rcases List.mem_cons.mp hx with rfl | hx
  · exact isWordChar_of_isLetter hc
  · exact (hu x hx).elim isWordChar_of_isLetter isWordChar_of_isDigit

theorem mem_stringLiteral : w ∈ stringLiteral.lang ↔
    ∃ body ∈ stringBody.lang, w = byte '"' :: (body ++ [byte '"']) := by
  simp only [stringLiteral, Regex.mem_seq, Regex.mem_chr]
  constructor
  · rintro ⟨-, rfl, -, ⟨body, hb, -, rfl, rfl⟩, rfl⟩
    exact ⟨body, hb, rfl⟩
  · rintro ⟨body, hb, rfl⟩
    exact ⟨_, rfl, _, ⟨body, hb, _, rfl, rfl⟩, rfl⟩

/-! ## The characters of the rules -/

section Over

variable {P : UInt8 → Prop} (hl : ∀ c, isLetter c → P c) (hd : ∀ c, isDigit c → P c)

include hl in
theorem over_letters {s : String} (h : ∀ c ∈ bytes s, isLetter c) : (oneOf s).Over P :=
  over_oneOf fun c hc => hl c (h c hc)

include hl in
theorem intSuffix_over : (Regex.opt intSuffix).Over P :=
  And.intro (over_letters (s := "uUlL") hl (forall_mem_of_all (by decide))) trivial

include hl hd

theorem hexClass_over : hexClass.Over P := by
  intro c hc
  simp only [isHexDigit, decide_eq_true_eq] at hc
  rcases hc with h | h | h
  · exact hl c (by simp only [isLetter, decide_eq_true_eq]; omega)
  · exact hl c (by simp only [isLetter, decide_eq_true_eq]; omega)
  · exact hd c h

theorem identifier_over : identifier.Over P := And.intro hl (And.intro hl hd)

theorem hexNumeral_over : hexNumeral.Over P :=
  And.intro (over_chr (hd _ (by decide))) <|
    And.intro (over_letters hl (forall_mem_of_all (by decide))) <|
    And.intro (And.intro (hexClass_over hl hd) (hexClass_over hl hd)) (intSuffix_over hl)

theorem numeral_over : numeral.Over P := And.intro (And.intro hd hd) (intSuffix_over hl)

theorem floatNumeral_over (hs : ∀ c ∈ bytes ".+-", P c) : floatNumeral.Over P := by
  have hsigns : (oneOf "+-").Over P :=
    over_oneOf fun c hc => hs c (forall_mem_of_all (w := bytes "+-") (by decide) c hc)
  have hexp : exponent.Over P :=
    And.intro (over_letters hl (forall_mem_of_all (by decide))) <|
      And.intro (And.intro hsigns trivial) (And.intro hd hd)
  exact And.intro hd <| And.intro (over_chr (hs _ (by decide))) <|
    And.intro (And.intro hd hd) <| And.intro (And.intro hexp trivial)
      (And.intro (over_letters (s := "fFlL") hl (forall_mem_of_all (by decide))) trivial)

/-- The rules before those of floats and strings are made of letters, digits and
the characters of their fixed texts. -/
theorem rules_over (hs : ∀ c ∈ bytes "#=[],", P c) : ∀ p ∈ (rules ft).take 10, p.1.Over P := by
  intro p hp
  have hall : ∀ s ∈ ["#", "=", "[", "]", ","],
      (bytes s).all fun c => decide (c ∈ bytes "#=[],") := by decide
  have hfix : ∀ s ∈ ["#", "=", "[", "]", ","], (Regex.str (bytes s)).Over P :=
    fun s h => over_str fun c hc => hs c (forall_mem_of_all (hall s h) c hc)
  have hword : ∀ s ∈ ["true", "false"], (bytes s).all isLetter := by decide
  simp only [rules, List.take_succ_cons, List.take_zero, List.mem_cons, List.not_mem_nil,
    or_false] at hp
  rcases hp with rfl | rfl | rfl | rfl | rfl | rfl | rfl | rfl | rfl | rfl
  · exact hfix "#" (by simp)
  · exact hfix "=" (by simp)
  · exact over_str fun c hc => hl c (List.all_eq_true.mp (hword "true" (by simp)) c hc)
  · exact over_str fun c hc => hl c (List.all_eq_true.mp (hword "false" (by simp)) c hc)
  · exact hfix "[" (by simp)
  · exact hfix "]" (by simp)
  · exact hfix "," (by simp)
  · exact identifier_over hl hd
  · exact hexNumeral_over hl hd
  · exact numeral_over hl hd

end Over

/-- A match of two characters or more is a word, a string or white space. -/
theorem long_match {p : Regex UInt8 × Action F} (hp : p ∈ rules ft) (hw : w ∈ p.1.lang)
    (hlen : 2 ≤ w.length) :
    (∀ x ∈ w, isWordChar x) ∧ (∀ c ∈ w.head?, isWordHead c) ∨ w ∈ stringLiteral.lang ∨
      ∀ x ∈ w, isSpace x := by
  have hword : ∀ s, (bytes s).length < 2 → w ≠ bytes s := by
    rintro s hs rfl
    omega
  have hletter : ∀ c, isLetter c → isWordChar c := fun _ => isWordChar_of_isLetter
  have hdigit : ∀ c, isDigit c → isWordChar c := fun _ => isWordChar_of_isDigit
  have hsign : ∀ c ∈ bytes ".+-", isWordChar c := forall_mem_of_all (by decide)
  simp only [rules, List.mem_cons, List.not_mem_nil, or_false] at hp
  rcases hp with rfl | rfl | rfl | rfl | rfl | rfl | rfl | rfl | rfl | rfl | rfl | rfl | rfl | rfl
  · exact absurd (Regex.mem_str.mp hw) (hword _ (by decide))
  · exact absurd (Regex.mem_str.mp hw) (hword _ (by decide))
  · rw [Regex.mem_str.mp hw]
    refine Or.inl ⟨forall_mem_of_all (by decide), fun c hc => ?_⟩
    cases hc
    decide
  · rw [Regex.mem_str.mp hw]
    refine Or.inl ⟨forall_mem_of_all (by decide), fun c hc => ?_⟩
    cases hc
    decide
  · exact absurd (Regex.mem_str.mp hw) (hword _ (by decide))
  · exact absurd (Regex.mem_str.mp hw) (hword _ (by decide))
  · exact absurd (Regex.mem_str.mp hw) (hword _ (by decide))
  · have hid := mem_identifier.mp hw
    refine Or.inl ⟨hid.isWordChar, ?_⟩
    obtain ⟨c, u, rfl, hc, -⟩ := hid
    simpa using isWordHead_of_isLetter hc
  · refine Or.inl ⟨(hexNumeral_over hletter hdigit).forall_mem hw, ?_⟩
    obtain ⟨u, hu, v, -, rfl⟩ := Regex.mem_seq.mp hw
    rw [Regex.mem_chr.mp hu]
    simp only [List.singleton_append, List.head?_cons, Option.mem_some_iff, forall_eq']
    decide
  · refine Or.inl ⟨(numeral_over hletter hdigit).forall_mem hw, ?_⟩
    obtain ⟨u, hu, v, -, rfl⟩ := Regex.mem_seq.mp hw
    obtain ⟨hne, hu⟩ := Regex.mem_plus_cls.mp hu
    obtain ⟨c, u, rfl⟩ := List.exists_cons_of_ne_nil hne
    simpa using isWordHead_of_isDigit (hu c List.mem_cons_self)
  · refine Or.inl ⟨(floatNumeral_over hletter hdigit hsign).forall_mem hw, ?_⟩
    obtain ⟨u, hu, v, hv, rfl⟩ := Regex.mem_seq.mp hw
    cases u with
    | nil =>
        obtain ⟨u, hu, v, -, rfl⟩ := Regex.mem_seq.mp hv
        rw [Regex.mem_chr.mp hu]
        simp only [List.nil_append, List.singleton_append, List.head?_cons,
          Option.mem_some_iff, forall_eq']
        decide
    | cons c u =>
        simpa using isWordHead_of_isDigit (Regex.mem_star_cls.mp hu c List.mem_cons_self)
  · exact Or.inr (Or.inl hw)
  · exact Or.inr (Or.inr (Regex.mem_plus_cls.mp hw).2)
  · obtain ⟨c, -, rfl⟩ := Regex.mem_cls.mp hw
    simp at hlen

/-! ## The end of a string -/

/-- What follows the quote that closes a string. -/
def closeQuote : List UInt8 → Option (List UInt8)
  | [] => none
  | c :: s =>
      if c = byte '"' then some s
      else if c = byte '\\' then
        match s with
        | [] => none
        | d :: s => if d = byte '\n' then none else closeQuote s
      else closeQuote s

@[simp] theorem closeQuote_quote (s : List UInt8) : closeQuote (byte '"' :: s) = some s := by
  unfold closeQuote
  simp

theorem closeQuote_escape {d : UInt8} (hd : d ≠ byte '\n') (s : List UInt8) :
    closeQuote (byte '\\' :: d :: s) = closeQuote s := by
  have hne : byte '\\' ≠ byte '"' := by decide
  conv_lhs => unfold closeQuote
  simp [hne, hd]

theorem closeQuote_other (hq : c ≠ byte '"') (hb : c ≠ byte '\\') (s : List UInt8) :
    closeQuote (c :: s) = closeQuote s := by
  conv_lhs => unfold closeQuote
  simp [hq, hb]

/-- A string is closed by the first quote that is not escaped. -/
theorem closeQuote_eq_some {s rest : List UInt8} :
    closeQuote s = some rest ↔ ∃ body ∈ stringBody.lang, s = body ++ byte '"' :: rest := by
  constructor
  · intro h
    induction s using closeQuote.induct with
    | case1 => simp [closeQuote] at h
    | case2 s =>
        rw [closeQuote_quote, Option.some.injEq] at h
        exact ⟨[], Regex.nil_mem_star, by simp [h]⟩
    | case3 hq => simp [closeQuote, hq] at h
    | case4 s hq => simp [closeQuote, hq] at h
    | case5 d s hd hq ih =>
        rw [closeQuote_escape hd] at h
        obtain ⟨body, hb, rfl⟩ := ih h
        refine ⟨[byte '\\', d] ++ body, Regex.append_mem_star ?_ hb, rfl⟩
        exact Regex.mem_alt.mpr (Or.inl (Regex.mem_seq.mpr
          ⟨_, Regex.mem_chr.mpr rfl, [d], ⟨d, by simpa using hd, rfl⟩, rfl⟩))
    | case6 c s hq hb ih =>
        rw [closeQuote_other hq hb] at h
        obtain ⟨body, hbody, rfl⟩ := ih h
        refine ⟨[c] ++ body, Regex.append_mem_star ?_ hbody, rfl⟩
        exact Regex.mem_alt.mpr (Or.inr ⟨c, by simp [hq, hb], rfl⟩)
  · rintro ⟨body, hb, rfl⟩
    refine Regex.star_induction (P := fun body => closeQuote (body ++ byte '"' :: rest) = some rest)
      (closeQuote_quote rest) (fun u v hu _ ih => ?_) hb
    rcases Regex.mem_alt.mp hu with hu | ⟨c, hc, rfl⟩
    · obtain ⟨a, ha, -, ⟨d, hd, rfl⟩, rfl⟩ := Regex.mem_seq.mp hu
      rw [Regex.mem_chr.mp ha]
      exact (closeQuote_escape (by simpa using hd) _).trans ih
    · have hc : c ≠ byte '\\' ∧ c ≠ byte '"' := by simpa using hc
      exact (closeQuote_other hc.2 hc.1 _).trans ih

/-- Where a string ends does not depend on what follows it. -/
theorem stringLiteral_unique {u v : List UInt8} (hu : u ∈ stringLiteral.lang)
    (hv : u ++ v ∈ stringLiteral.lang) : v = [] := by
  obtain ⟨body, hb, rfl⟩ := mem_stringLiteral.mp hu
  obtain ⟨body', hb', heq⟩ := mem_stringLiteral.mp hv
  simp only [List.cons_append, List.append_assoc, List.cons.injEq, true_and,
    List.nil_append] at heq
  have hclose : closeQuote (body ++ byte '"' :: v) = some v :=
    closeQuote_eq_some.mpr ⟨body, hb, rfl⟩
  rw [heq, closeQuote_eq_some.mpr ⟨body', hb', rfl⟩] at hclose
  exact (Option.some.inj hclose).symm

end Words

/-! ## The longest match at the front of a text -/

section Munch

variable {F : Type} {ft : FloatText F} {w rest body : List UInt8} {c : UInt8} {a : Action F}

/-- Nothing longer is matched than a word that is ended by what follows it. -/
theorem munch_word (hne : w ≠ []) (hw : ∀ x ∈ w, isWordChar x) (hrest : Stops rest)
    (hfirst : firstMatch (rules ft) w = some a) :
    munch (rules ft) (w ++ rest) = some (w.length, a) := by
  refine munch_append hne hfirst fun p hp v hv hpre hmem => ?_
  obtain ⟨x, w, rfl⟩ := List.exists_cons_of_ne_nil hne
  obtain ⟨y, v, rfl⟩ := List.exists_cons_of_ne_nil hv
  obtain ⟨rest', rfl⟩ := hpre
  have hx := hw x List.mem_cons_self
  rcases long_match hp hmem (by simp; omega) with ⟨hall, -⟩ | hstr | hspace
  · exact hrest y (by simp) (hall y (by simp))
  · obtain ⟨body, -, heq⟩ := mem_stringLiteral.mp hstr
    obtain ⟨rfl, -⟩ := List.cons.inj heq
    exact absurd hx (by decide)
  · exact not_isWordChar_of_isSpace (hspace x (by simp)) hx

/-- A character that starts neither a word nor a string nor white space is
matched alone. -/
theorem munch_single (hword : ¬ isWordHead c) (hquote : c ≠ byte '"') (hspace : ¬ isSpace c)
    (hfirst : firstMatch (rules ft) [c] = some a) :
    munch (rules ft) (c :: rest) = some (1, a) := by
  refine munch_append (w := [c]) (by simp) hfirst fun p hp v hv _ hmem => ?_
  obtain ⟨y, v, rfl⟩ := List.exists_cons_of_ne_nil hv
  rcases long_match hp hmem (by simp) with ⟨-, hhead⟩ | hstr | hall
  · exact hword (hhead c (by simp))
  · obtain ⟨body, -, heq⟩ := mem_stringLiteral.mp hstr
    exact hquote (List.cons.inj heq).1
  · exact hspace (hall c (by simp))

/-- A string is matched up to the quote that closes it. -/
theorem munch_string (hb : body ∈ stringBody.lang)
    (hfirst : firstMatch (rules ft) (byte '"' :: (body ++ [byte '"'])) = some a) :
    munch (rules ft) (byte '"' :: (body ++ byte '"' :: rest)) = some (body.length + 2, a) := by
  have hlit : byte '"' :: (body ++ [byte '"']) ∈ stringLiteral.lang :=
    mem_stringLiteral.mpr ⟨body, hb, rfl⟩
  have hmunch : munch (rules ft) (byte '"' :: (body ++ [byte '"']) ++ rest) = _ :=
    munch_append (by simp) hfirst fun p hp v hv _ hmem => by
    rcases long_match hp hmem (by simp; omega) with ⟨-, hhead⟩ | hstr | hall
    · exact absurd (hhead (byte '"') (by simp)) (by decide)
    · exact hv (stringLiteral_unique hlit hstr)
    · exact absurd (hall (byte '"') (by simp)) (by decide)
  simpa using hmunch

/-- White space is matched as far as it goes. -/
theorem munch_space (hc : isSpace c)
    (hfirst : firstMatch (rules ft) (c :: rest.takeWhile isSpace) = some a) :
    munch (rules ft) (c :: rest) = some ((rest.takeWhile isSpace).length + 1, a) := by
  have hmunch : munch (rules ft) (c :: rest.takeWhile isSpace ++ rest.dropWhile isSpace) = _ :=
    munch_append (by simp) hfirst fun p hp v hv hpre hmem => by
      obtain ⟨y, v, rfl⟩ := List.exists_cons_of_ne_nil hv
      obtain ⟨rest', hrest⟩ := hpre
      rcases long_match hp hmem (by simp; omega) with ⟨hall, -⟩ | hstr | hall
      · exact not_isWordChar_of_isSpace hc (hall c (by simp))
      · obtain ⟨body, -, heq⟩ := mem_stringLiteral.mp hstr
        obtain ⟨rfl, -⟩ := List.cons.inj heq
        exact absurd hc (by decide)
      · have hy := List.head_dropWhile_not isSpace (l := rest) (by simp [← hrest])
        simp only [← hrest, List.cons_append, List.head_cons] at hy
        simp [hall y (by simp)] at hy
  simpa using hmunch

end Munch

/-! ## The first rule that matches a word -/

section First

variable {F : Type} {ft : FloatText F} {w body : List UInt8} {c : UInt8}

/-- The rule at a position of the table is the first to match a word when it
matches and no earlier one does. -/
theorem firstMatch_rule {n : ℕ} {r : Regex UInt8} {a : Action F}
    (hrule : (rules ft)[n]? = some (r, a)) (hw : w ∈ r.lang)
    (hpre : ∀ p ∈ (rules ft).take n, w ∉ p.1.lang) : firstMatch (rules ft) w = some a := by
  obtain ⟨hlt, hget⟩ := List.getElem?_eq_some_iff.mp hrule
  refine firstMatch_eq_some.mpr ⟨(rules ft).take n, r, (rules ft).drop (n + 1), ?_, hw, hpre⟩
  rw [← hget, ← List.drop_eq_getElem_cons hlt, List.take_append_drop]

/-- A word with a character that no class of the earlier rules has. -/
theorem not_mem_of_over {n : ℕ} {P : UInt8 → Prop} {c : UInt8} (hc : c ∈ w) (hP : ¬ P c)
    (hover : ∀ p ∈ (rules ft).take n, p.1.Over P) : ∀ p ∈ (rules ft).take n, w ∉ p.1.lang :=
  fun p hp hw => hP ((hover p hp).forall_mem hw c hc)

/-- The rules with a fixed text. -/
theorem mem_fixed {p : Regex UInt8 × Action F} (hp : p ∈ (rules ft).take 7) :
    ∃ s ∈ ["#", "=", "true", "false", "[", "]", ","], p.1 = .str (bytes s) := by
  simp only [rules, List.take_succ_cons, List.take_zero, List.mem_cons, List.not_mem_nil,
    or_false] at hp
  rcases hp with rfl | rfl | rfl | rfl | rfl | rfl | rfl
  · exact ⟨"#", by decide, rfl⟩
  · exact ⟨"=", by decide, rfl⟩
  · exact ⟨"true", by decide, rfl⟩
  · exact ⟨"false", by decide, rfl⟩
  · exact ⟨"[", by decide, rfl⟩
  · exact ⟨"]", by decide, rfl⟩
  · exact ⟨",", by decide, rfl⟩

theorem firstMatch_identifier (hw : IsIdentifier w) (ht : w ≠ bytes "true")
    (hf : w ≠ bytes "false") : firstMatch (rules ft) w =
      some (.token fun yytext => .parameter (.ofBytes yytext)) := by
  refine firstMatch_rule (n := 7) rfl (mem_identifier.mpr hw) fun p hp hmem => ?_
  obtain ⟨s, hs, hps⟩ := mem_fixed hp
  rw [hps, Regex.mem_str] at hmem
  have hhead : ∀ c ∈ w.head?, isLetter c := by
    obtain ⟨c, u, rfl, hc, -⟩ := hw
    simpa using hc
  have hall : ∀ s ∈ ["#", "=", "true", "false", "[", "]", ","],
      s = "true" ∨ s = "false" ∨ ¬ ∀ c ∈ (bytes s).head?, isLetter c := by decide
  rcases hall s hs with rfl | rfl | hno
  · exact ht hmem
  · exact hf hmem
  · exact hno (hmem ▸ hhead)

theorem isLetter_isDigit (hl : isLetter c) (hd : isDigit c) : False := by
  simp only [isLetter, isDigit, decide_eq_true_eq] at hl hd
  omega

theorem firstMatch_decimal (hne : w ≠ []) (hw : ∀ c ∈ w, isDigit c) :
    firstMatch (rules ft) w = some (.token fun yytext => .decimal (atoi yytext)) := by
  have hmem : w ++ [] ∈ numeral.lang :=
    Regex.append_mem_seq (Regex.mem_plus_cls.mpr ⟨hne, hw⟩) (Regex.mem_opt.mpr (Or.inr rfl))
  rw [List.append_nil] at hmem
  refine firstMatch_rule (n := 9) rfl hmem fun p hp hmem => ?_
  have hp : p ∈ (rules ft).take 7 ∨ p.1 = identifier ∨ p.1 = hexNumeral := by
    simp only [rules, List.take_succ_cons, List.take_zero, List.mem_cons, List.not_mem_nil,
      or_false] at hp ⊢
    rcases hp with h | h | h | h | h | h | h | rfl | rfl <;> simp_all [identifier, hexNumeral]
  rcases hp with hp | hp | hp
  · obtain ⟨s, hs, hps⟩ := mem_fixed hp
    rw [hps, Regex.mem_str] at hmem
    have hall : ∀ s ∈ ["#", "=", "true", "false", "[", "]", ","],
        ¬ (bytes s).all isDigit := by decide
    exact hall s hs (List.all_eq_true.mpr (hmem ▸ hw))
  · rw [hp, mem_identifier] at hmem
    obtain ⟨c, u, rfl, hc, -⟩ := hmem
    exact isLetter_isDigit hc (hw c List.mem_cons_self)
  · rw [hp] at hmem
    obtain ⟨u, -, v, hv, rfl⟩ := Regex.mem_seq.mp hmem
    obtain ⟨-, ⟨x, hx, rfl⟩, v, -, rfl⟩ := Regex.mem_seq.mp hv
    have hall : ∀ c ∈ bytes "xX", ¬ isDigit c := forall_mem_of_all (by decide)
    exact hall x (of_decide_eq_true hx) (hw x (by simp))

theorem firstMatch_float {u v : List UInt8} (hu : ∀ c ∈ u, isDigit c) (hne : v ≠ [])
    (hv : ∀ c ∈ v, isDigit c) : firstMatch (rules ft) (u ++ byte '.' :: v) =
      some (.token fun yytext => .float (ft.atof yytext)) := by
  have hmem : u ++ ([byte '.'] ++ (v ++ ([] ++ []))) ∈ floatNumeral.lang :=
    Regex.append_mem_seq (Regex.mem_star_cls.mpr hu) <|
      Regex.append_mem_seq (Regex.mem_chr.mpr rfl) <|
      Regex.append_mem_seq (Regex.mem_plus_cls.mpr ⟨hne, hv⟩) <|
      Regex.append_mem_seq (Regex.mem_opt.mpr (Or.inr rfl)) (Regex.mem_opt.mpr (Or.inr rfl))
  simp only [List.append_nil, List.singleton_append] at hmem
  refine firstMatch_rule (n := 10) rfl hmem ?_
  refine not_mem_of_over (P := fun c => c ≠ byte '.') (c := byte '.') (by simp) (by simp)
    (rules_over ?_ ?_ (forall_mem_of_all (by decide)))
  · rintro c hc rfl
    exact absurd hc (by decide)
  · rintro c hc rfl
    exact absurd hc (by decide)

theorem firstMatch_string (hb : body ∈ stringBody.lang) :
    firstMatch (rules ft) (byte '"' :: (body ++ [byte '"'])) =
      some (.token fun yytext => .stringLiteral (literalValue yytext)) := by
  refine firstMatch_rule (n := 11) rfl (mem_stringLiteral.mpr ⟨body, hb, rfl⟩) ?_
  have hl : ∀ c, isLetter c → c ≠ byte '"' := by
    rintro c hc rfl
    exact absurd hc (by decide)
  have hd : ∀ c, isDigit c → c ≠ byte '"' := by
    rintro c hc rfl
    exact absurd hc (by decide)
  refine not_mem_of_over (P := fun c => c ≠ byte '"') (c := byte '"') (by simp) (by simp)
    fun p hp => ?_
  rw [List.take_add_one, List.mem_append] at hp
  rcases hp with hp | hp
  · exact rules_over hl hd (forall_mem_of_all (by decide)) p hp
  · have hp : p.1 = floatNumeral := by
      have hp : p ∈ [(floatNumeral, Action.token fun w => .float (ft.atof w))] := hp
      rw [List.mem_singleton.mp hp]
    exact hp ▸ floatNumeral_over hl hd (forall_mem_of_all (by decide))

theorem firstMatch_space (hne : w ≠ []) (hw : ∀ c ∈ w, isSpace c) :
    firstMatch (rules ft) w = some .skip := by
  refine firstMatch_rule (n := 12) rfl (Regex.mem_plus_cls.mpr ⟨hne, fun c hc => ?_⟩) ?_
  · simpa [isSpace] using hw c hc
  obtain ⟨c, u, rfl⟩ := List.exists_cons_of_ne_nil hne
  have hc := hw c List.mem_cons_self
  have hl : ∀ c, isLetter c → ¬ isSpace c :=
    fun c h hs => not_isWordChar_of_isSpace hs (isWordChar_of_isLetter h)
  have hd : ∀ c, isDigit c → ¬ isSpace c :=
    fun c h hs => not_isWordChar_of_isSpace hs (isWordChar_of_isDigit h)
  intro p hp hmem
  have hp : p ∈ (rules ft).take 10 ∨ p.1 = floatNumeral ∨ p.1 = stringLiteral := by
    rw [List.take_add_one, List.take_add_one, List.append_assoc, List.mem_append] at hp
    refine hp.imp_right fun hp => ?_
    have hp : p ∈ [(floatNumeral, Action.token fun w => .float (ft.atof w)),
        (stringLiteral, Action.token fun w => .stringLiteral (literalValue w))] := hp
    rw [List.mem_pair] at hp
    exact hp.imp (congrArg Prod.fst) (congrArg Prod.fst)
  rcases hp with hp | hp | hp
  · exact (rules_over hl hd (forall_mem_of_all (by decide)) p hp).forall_mem hmem c
      List.mem_cons_self hc
  · rw [hp] at hmem
    exact (floatNumeral_over hl hd (forall_mem_of_all (by decide))).forall_mem hmem c
      List.mem_cons_self hc
  · rw [hp] at hmem
    obtain ⟨body, -, heq⟩ := mem_stringLiteral.mp hmem
    obtain ⟨rfl, -⟩ := List.cons.inj heq
    exact absurd hc (by decide)

end First

/-- The string rule gives what stands between the quotes. -/
theorem literalValue_quoted {body : List UInt8} (hb : 0 ∉ body) :
    (literalValue (byte '"' :: (body ++ [byte '"']))).bytes = body := by
  have hnul : (0 : UInt8) ∉ byte '"' :: (body ++ [byte '"']) := by
    simp only [List.mem_cons, List.mem_append, List.not_mem_nil, or_false, hb, false_or, not_or]
    decide
  have hlen : (CString.ofBytes (byte '"' :: (body ++ [byte '"']))).length - 1 =
      body.length + 1 := by
    rw [CString.length, CString.bytes_ofBytes_eq hnul]
    simp
  have hset : (body ++ [byte '"']).set body.length 0 = body ++ [0] := by
    rw [List.set_append_right _ _ le_rfl, Nat.sub_self, List.set_cons_zero]
  have hbody : ∀ c ∈ body, decide (c ≠ 0) := fun c hc => by
    simpa using ne_of_mem_of_not_mem hc hb
  rw [literalValue, CString.bytes_ofBytes, hlen, List.set_cons_succ, hset, List.drop_one,
    List.tail_cons, List.takeWhile_append_of_pos hbody]
  simp

end Config

end Infra
