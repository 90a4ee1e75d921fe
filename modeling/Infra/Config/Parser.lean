import Infra.Config.Scanner

/-!
# The parser of `cfg_parser.y`

The grammar needs no stack: what is on it is the name of the parameter being read
and whether a value or a list is open. An action runs when its rule is reduced,
so a parameter is added as soon as its value is complete, and the elements of a
list gather in `_g_list`, which each list empties when it opens and again when it
closes. A token that does not fit ends the parse.
-/

namespace Infra

namespace Config

/-- What the parser expects next. -/
inductive Expect where
  | expression
  | assign (name : CString)
  | value (name : CString)
  | element (name : CString)
  | separator (name : CString)
  deriving DecidableEq

/-- The parser with the configuration it fills and the global list `_g_list`. -/
structure Parser (F : Type) where
  expect : Expect
  cfg : ConfigCB F
  gList : List (Elem F)

section Functions

variable {F : Type}

/-- `unit_value`: the value of a scalar token. -/
def unitValue : Token F → Option (Elem F)
  | .stringLiteral s => some (allocElem .string (.sval s))
  | .decimal n => some (allocElem .integer (.ival n))
  | .float x => some (allocElem .float (.fval x))
  | .boolean n => some (allocElem .boolean (.ival n))
  | _ => none

/-- One token, with the actions of the rules it completes. -/
def Parser.step (p : Parser F) (t : Token F) : Option (Parser F) :=
  match p.expect, t with
  | .expression, .parameter name => some { p with expect := .assign name }
  | .assign name, .assignment => some { p with expect := .value name }
  | .value name, .listOpen => some { p with expect := .element name, gList := [] }
  | .value name, t => do
      let e ← unitValue t
      some { p with expect := .expression
                    cfg := addConfigParam p.cfg name (allocPValue e.ptype e.value) }
  | .element name, t => do
      let e ← unitValue t
      some { p with expect := .separator name, gList := p.gList ++ [e] }
  | .separator name, .comma => some { p with expect := .element name }
  | .separator name, .listClose =>
      some { expect := .expression
             cfg := addConfigParam p.cfg name (allocPValueList p.gList)
             gList := [] }
  | _, _ => none

/-- `yyparse`: the parser when it stops, and whether the whole file was
accepted. -/
def yyparse (ft : FloatText F) : ℕ → Parser F → List UInt8 → Option (Parser F × Bool)
  | 0, _, _ => none
  | fuel + 1, p, file => do
      let (token, file) ← yylex ft fuel file
      match token with
      | none => some (p, decide (p.expect = .expression))
      | some t =>
          match p.step t with
          | none => some (p, false)
          | some p => yyparse ft fuel p file

/-- `parseConfig`; the file is `none` when it cannot be opened. -/
def parseConfig (ft : FloatText F) (fuel : ℕ) (file : Option (List UInt8)) :
    Option (ℤ × ConfigCB F) :=
  match file with
  | none => some (-1, initConfig)
  | some file => do
      let (p, ok) ← yyparse ft fuel { expect := .expression, cfg := initConfig, gList := [] } file
      if ok then some (0, p.cfg) else some (-1, freeConfig p.cfg)

end Functions

end Config

end Infra
