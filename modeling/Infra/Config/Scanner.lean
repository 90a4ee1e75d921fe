import Infra.Config.Basic
import Infra.Foundation.Ascii
import Infra.Scanning.Munch

/-!
# The scanner of `cfg_scanner.l`

The rules stand in the order of the source, so that the longest match and then
the first rule wins. A comment is skipped by its action, which reads on its own
until it has seen a newline; at the end of the file `input` returns a value that
is not a newline, every time it is called. Loops take the rounds they may use.

What `printf` and `atof` do with a `float` is a parameter, with the form of the
text that the conversion `%f` writes.
-/

namespace Infra

namespace Config

open Infra.Ascii Infra.Scanning

/-- The tokens with their semantic values. -/
inductive Token (F : Type) where
  | parameter (sval : CString)
  | decimal (ival : BitVec 32)
  | stringLiteral (sval : CString)
  | float (fval : F)
  | boolean (ival : BitVec 32)
  | assignment
  | listOpen
  | listClose
  | comma
  deriving DecidableEq

/-- What a rule does. -/
inductive Action (F : Type) where
  | comment
  | token (value : List UInt8 → Token F)
  | skip

section Classes

/-- `D`. -/
def digitClass : Regex UInt8 := .cls isDigit

/-- The letters of an identifier. -/
def isLetter (c : UInt8) : Bool :=
  (97 ≤ c.toNat ∧ c.toNat ≤ 122) ∨ (65 ≤ c.toNat ∧ c.toNat ≤ 90) ∨ c.toNat = 95

/-- The digits of a hexadecimal numeral. -/
def isHexDigit (c : UInt8) : Bool :=
  (97 ≤ c.toNat ∧ c.toNat ≤ 102) ∨ (65 ≤ c.toNat ∧ c.toNat ≤ 70) ∨ isDigit c

/-- The characters of a text as a class. -/
def oneOf (s : String) : Regex UInt8 := .cls fun c => decide (c ∈ bytes s)

/-- `L`. -/
def letterClass : Regex UInt8 := .cls isLetter

/-- `H`. -/
def hexClass : Regex UInt8 := .cls isHexDigit

/-- `E`. -/
def exponent : Regex UInt8 := .seq (oneOf "Ee") (.seq (.opt (oneOf "+-")) (.plus digitClass))

/-- `FS`. -/
def floatSuffix : Regex UInt8 := oneOf "fFlL"

/-- `IS`. -/
def intSuffix : Regex UInt8 := .star (oneOf "uUlL")

/-- The dot of a rule: every character but the newline. -/
def dot : Regex UInt8 := .cls fun c => c ≠ byte '\n'

/-- What stands between the quotes of a string. -/
def stringBody : Regex UInt8 :=
  .star (.alt (.seq (.chr (byte '\\')) dot) (.cls fun c => c ≠ byte '\\' ∧ c ≠ byte '"'))

end Classes

section Values

variable {F : Type}

/-- `strtoul(yytext, NULL, 0)` on a hexadecimal numeral, as an `int`. -/
def strtoulHex (yytext : List UInt8) : BitVec 32 :=
  BitVec.ofNat 32 (min (readNat 16 ((yytext.drop 2).takeWhile isHexDigit)) (2 ^ 64 - 1))

/-- `atoi(yytext)` on a decimal numeral. -/
def atoi (yytext : List UInt8) : BitVec 32 :=
  BitVec.ofNat 32 (min (readNat 10 (yytext.takeWhile isDigit)) (2 ^ 63 - 1))

/-- The action of the string rule: what `strlen` takes for the last character is
overwritten, and the copy starts after the first. -/
def literalValue (yytext : List UInt8) : CString :=
  .ofBytes ((yytext.set ((CString.ofBytes yytext).length - 1) 0).drop 1)

/-- What the program uses of the C library's `float`: the conversion `%f` of
`printf`, and `atof`. The text is a numeral with digits on both sides of the
point or the name of an infinity or of no number, with a sign or without. -/
structure FloatText (F : Type) where
  format : F → List UInt8
  atof : List UInt8 → F
  shape : ∀ x, ∃ sign body, format x = sign ++ body ∧ (sign = [] ∨ sign = bytes "-") ∧
    ((∃ u v, body = u ++ bytes "." ++ v ∧ u ≠ [] ∧ v ≠ [] ∧
      (∀ c ∈ u, isDigit c) ∧ ∀ c ∈ v, isDigit c) ∨ body = bytes "inf" ∨ body = bytes "nan")

/-- The conversions when zero is the only `float`. -/
def FloatText.zero : FloatText Unit where
  format _ := bytes "0.000000"
  atof _ := ()
  shape _ := ⟨[], bytes "0.000000", rfl, Or.inl rfl,
    Or.inl ⟨bytes "0", bytes "000000", rfl, by decide, by decide,
      forall_mem_of_all (by decide), forall_mem_of_all (by decide)⟩⟩

/-- The rules, in the order of the source. -/
def rules (ft : FloatText F) : List (Regex UInt8 × Action F) :=
  [ (.str (bytes "#"), .comment),
    (.str (bytes "="), .token fun _ => .assignment),
    (.str (bytes "true"), .token fun _ => .boolean 1),
    (.str (bytes "false"), .token fun _ => .boolean 0),
    (.str (bytes "["), .token fun _ => .listOpen),
    (.str (bytes "]"), .token fun _ => .listClose),
    (.str (bytes ","), .token fun _ => .comma),
    (.seq letterClass (.star (.alt letterClass digitClass)),
      .token fun yytext => .parameter (.ofBytes yytext)),
    (.seq (.chr (byte '0')) (.seq (oneOf "xX") (.seq (.plus hexClass) (.opt intSuffix))),
      .token fun yytext => .decimal (strtoulHex yytext)),
    (.seq (.plus digitClass) (.opt intSuffix), .token fun yytext => .decimal (atoi yytext)),
    (.seq (.star digitClass) (.seq (.chr (byte '.'))
        (.seq (.plus digitClass) (.seq (.opt exponent) (.opt floatSuffix)))),
      .token fun yytext => .float (ft.atof yytext)),
    (.seq (.chr (byte '"')) (.seq stringBody (.chr (byte '"'))),
      .token fun yytext => .stringLiteral (literalValue yytext)),
    (.plus (oneOf " \t\n"), .skip),
    (dot, .skip) ]

end Values

section Loops

variable {F : Type}

/-- `comment`: characters are read until a newline was read. At the end of the
file `input` returns its end-of-file value. -/
def comment : ℕ → List UInt8 → Option (List UInt8)
  | 0, _ => none
  | fuel + 1, [] => comment fuel []
  | fuel + 1, c :: file => if c = byte '\n' then some file else comment fuel file

/-- `yylex`: the next token, or none at the end of the file, and what is left of
the file. A character that no rule matches is copied to the output. -/
def yylex (ft : FloatText F) : ℕ → List UInt8 → Option (Option (Token F) × List UInt8)
  | 0, _ => none
  | _ + 1, [] => some (none, [])
  | fuel + 1, c :: file =>
      match munch (rules ft) (c :: file) with
      | none => yylex ft fuel file
      | some (n, .comment) => do
          let file ← comment fuel ((c :: file).drop n)
          yylex ft fuel file
      | some (n, .token value) => some (some (value ((c :: file).take n)), (c :: file).drop n)
      | some (n, .skip) => yylex ft fuel ((c :: file).drop n)

/-- The tokens up to the end of the file, one call of `yylex` after the other. -/
def tokens (ft : FloatText F) : ℕ → List UInt8 → Option (List (Token F))
  | 0, _ => none
  | fuel + 1, file => do
      let (token, file) ← yylex ft fuel file
      match token with
      | none => some []
      | some t => do
          let ts ← tokens ft fuel file
          some (t :: ts)

end Loops

end Config

end Infra
