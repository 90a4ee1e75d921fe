import Infra.Config.Collect
import Infra.Config.Parser
import Infra.Foundation.ShiftReduce

/-!
# The tables of `cfg_parser.y`

The rules of the grammar, each action in the middle of a rule being an empty rule of its own,
and the tables that follow from them. A state is named after what has just been read. Where
two rules may be reduced, the default is the one that comes first, also on a token that fits
neither of them.

The parser stack and the blocks of `malloc` do not run out here. Complete expressions and the
elements of an open list stay on the stack, which ends long before a counter of them does; a
stack that ends is the subject of its own module, and `fitsOnStack_iff_length_le` is about this
one.
-/

namespace Infra

namespace Config

namespace Bison

open ShiftReduce

/-- The tokens without their values. -/
inductive Terminal where
  | parameter
  | decimal
  | stringLiteral
  | float
  | boolean
  | assignment
  | listOpen
  | listClose
  | comma

/-- The symbols that the rules define; `initList` and `addElement` are the actions in the
middle of the rules for `list` and for `value_sequence`. -/
inductive Nonterminal where
  | cfgList
  | cfgExpression
  | values
  | unitValue
  | list
  | initList
  | valueSequence
  | addElement

/-- The rules. -/
inductive Rule where
  | cfgListCons
  | cfgListNil
  | cfgExpression
  | valuesUnit
  | valuesList
  | unitString
  | unitDecimal
  | unitFloat
  | unitBoolean
  | initList
  | list
  | addElement
  | sequenceCons
  | sequenceUnit

/-- What a rule defines. -/
def Rule.lhs : Rule → Nonterminal
  | .cfgListCons | .cfgListNil => .cfgList
  | .cfgExpression => .cfgExpression
  | .valuesUnit | .valuesList => .values
  | .unitString | .unitDecimal | .unitFloat | .unitBoolean => .unitValue
  | .initList => .initList
  | .list => .list
  | .addElement => .addElement
  | .sequenceCons | .sequenceUnit => .valueSequence

/-- The symbols of a rule. -/
def Rule.rhs : Rule → List (Terminal ⊕ Nonterminal)
  | .cfgListCons => [.inr .cfgExpression, .inr .cfgList]
  | .cfgListNil => []
  | .cfgExpression => [.inl .parameter, .inl .assignment, .inr .values]
  | .valuesUnit => [.inr .unitValue]
  | .valuesList => [.inr .list]
  | .unitString => [.inl .stringLiteral]
  | .unitDecimal => [.inl .decimal]
  | .unitFloat => [.inl .float]
  | .unitBoolean => [.inl .boolean]
  | .initList => []
  | .list => [.inl .listOpen, .inr .initList, .inr .valueSequence, .inl .listClose]
  | .addElement => []
  | .sequenceCons => [.inr .unitValue, .inr .addElement, .inl .comma, .inr .valueSequence]
  | .sequenceUnit => [.inr .unitValue]

/-- The states, with the rules that are being read and how much of them has been. -/
inductive State where
  /-- `. cfg_list` -/
  | start
  /-- `cfg_list .` -/
  | cfgList
  /-- `cfg_list: cfg_expression . cfg_list` -/
  | cfgExpression
  /-- `cfg_list: cfg_expression cfg_list .` -/
  | cfgListRest
  /-- `cfg_expression: PARAMETER . ASSIGNMENT values` -/
  | parameter
  /-- `cfg_expression: PARAMETER ASSIGNMENT . values` -/
  | assignment
  /-- `cfg_expression: PARAMETER ASSIGNMENT values .` -/
  | values
  /-- `values: unit_value .` -/
  | unitValue
  /-- `values: list .` -/
  | list
  /-- `unit_value: STRING_LITERAL .` -/
  | stringLiteral
  /-- `unit_value: DECIMAL .` -/
  | decimal
  /-- `unit_value: FLOAT .` -/
  | float
  /-- `unit_value: BOOLEAN .` -/
  | boolean
  /-- `list: LIST_OPEN . {} value_sequence LIST_CLOSE` -/
  | listOpen
  /-- `list: LIST_OPEN {} . value_sequence LIST_CLOSE` -/
  | initList
  /-- `list: LIST_OPEN {} value_sequence . LIST_CLOSE` -/
  | valueSequence
  /-- `list: LIST_OPEN {} value_sequence LIST_CLOSE .` -/
  | listClose
  /-- `value_sequence: unit_value . {} COMMA value_sequence` and
  `value_sequence: unit_value .` -/
  | element
  /-- `value_sequence: unit_value {} . COMMA value_sequence` -/
  | addElement
  /-- `value_sequence: unit_value {} COMMA . value_sequence` -/
  | comma
  /-- `value_sequence: unit_value {} COMMA value_sequence .` -/
  | valueSequenceRest

/-- The shifts of the tokens of `unit_value`. -/
def shiftUnit : Option Terminal → ShiftReduce.Action State Rule
  | some .stringLiteral => .shift .stringLiteral
  | some .decimal => .shift .decimal
  | some .float => .shift .float
  | some .boolean => .shift .boolean
  | _ => .error

/-- What a state does on the next token, or at the end of the file. -/
def action : State → Option Terminal → ShiftReduce.Action State Rule
  | .start, t | .cfgExpression, t =>
      match t with
      | some .parameter => .shift .parameter
      | _ => .reduce .cfgListNil
  | .cfgList, t =>
      match t with
      | none => .accept
      | _ => .error
  | .cfgListRest, _ => .reduce .cfgListCons
  | .parameter, t =>
      match t with
      | some .assignment => .shift .assignment
      | _ => .error
  | .assignment, t =>
      match t with
      | some .listOpen => .shift .listOpen
      | t => shiftUnit t
  | .values, _ => .reduce .cfgExpression
  | .unitValue, _ => .reduce .valuesUnit
  | .list, _ => .reduce .valuesList
  | .stringLiteral, _ => .reduce .unitString
  | .decimal, _ => .reduce .unitDecimal
  | .float, _ => .reduce .unitFloat
  | .boolean, _ => .reduce .unitBoolean
  | .listOpen, _ => .reduce .initList
  | .initList, t | .comma, t => shiftUnit t
  | .valueSequence, t =>
      match t with
      | some .listClose => .shift .listClose
      | _ => .error
  | .listClose, _ => .reduce .list
  | .element, t =>
      match t with
      | some .listClose => .reduce .sequenceUnit
      | _ => .reduce .addElement
  | .addElement, t =>
      match t with
      | some .comma => .shift .comma
      | _ => .error
  | .valueSequenceRest, _ => .reduce .sequenceCons

/-- Where a state goes once a symbol has been read. -/
def goto : State → Nonterminal → Option State
  | .start, .cfgList => some .cfgList
  | .start, .cfgExpression => some .cfgExpression
  | .cfgExpression, .cfgList => some .cfgListRest
  | .cfgExpression, .cfgExpression => some .cfgExpression
  | .assignment, .values => some .values
  | .assignment, .unitValue => some .unitValue
  | .assignment, .list => some .list
  | .listOpen, .initList => some .initList
  | .initList, .valueSequence => some .valueSequence
  | .initList, .unitValue => some .element
  | .element, .addElement => some .addElement
  | .comma, .valueSequence => some .valueSequenceRest
  | .comma, .unitValue => some .element
  | _, _ => none

/-- `YYSTYPE`, by the member last written. -/
inductive Value (F ε : Type) where
  | sval (s : CString)
  | ival (n : BitVec 32)
  | fval (x : F)
  | pval (pv : ε)
  | none

section Functions

variable {F ε : Type} [DecidableEq ε]

/-- A token without its value. -/
def terminal : Token F → Terminal
  | .parameter _ => .parameter
  | .decimal _ => .decimal
  | .stringLiteral _ => .stringLiteral
  | .float _ => .float
  | .boolean _ => .boolean
  | .assignment => .assignment
  | .listOpen => .listOpen
  | .listClose => .listClose
  | .comma => .comma

/-- `yylval`. -/
def yylval : Token F → Value F ε
  | .parameter s | .stringLiteral s => .sval s
  | .decimal n | .boolean n => .ival n
  | .float x => .fval x
  | _ => .none

/-- The actions of the rules. The last value comes first, and the action in the middle of
`value_sequence` finds its `$1` on the stack, too. -/
def act (malloc : Malloc ε) (fuel : ℕ) :
    Rule → List (Value F ε) → Memory F ε → Option (Value F ε × Memory F ε)
  | .cfgListCons, _, m | .cfgListNil, _, m | .sequenceCons, _, m => some (.none, m)
  | .cfgExpression, .pval pv :: _ :: .sval name :: _, m =>
      some (.none, Objects.addConfigParam m name pv)
  | .valuesUnit, .pval pv :: _, m | .valuesList, .pval pv :: _, m => some (.pval pv, m)
  | .unitString, .sval s :: _, m => do
      let (pv, m) ← Objects.allocPValue malloc .string (.sval s) m
      some (.pval pv, m)
  | .unitDecimal, .ival n :: _, m => do
      let (pv, m) ← Objects.allocPValue malloc .integer (.ival n) m
      some (.pval pv, m)
  | .unitFloat, .fval x :: _, m => do
      let (pv, m) ← Objects.allocPValue malloc .float (.fval x) m
      some (.pval pv, m)
  | .unitBoolean, .ival n :: _, m => do
      let (pv, m) ← Objects.allocPValue malloc .boolean (.ival n) m
      some (.pval pv, m)
  | .initList, _, m => do
      let m ← Objects.initGList m
      some (.none, m)
  | .list, _, m => do
      let (pv, m) ← Objects.allocPValueList malloc fuel m
      let m ← Objects.initGList m
      some (.pval pv, m)
  | .addElement, .pval pv :: _, m | .sequenceUnit, .pval pv :: _, m => do
      let m ← Objects.addToGList m pv
      some (.none, m)
  | _, _, _ => none

/-- The parser. -/
def automaton (F : Type) (malloc : Malloc ε) :
    Automaton State (Token F) Nonterminal Rule (Value F ε) (Memory F ε) where
  start := .start
  action q t := action q (t.map terminal)
  goto := goto
  lhs := Rule.lhs
  size r := r.rhs.length
  value := yylval
  act := act malloc

/-- `yyparse` on the tokens of a file: whether it accepts them, and the memory. -/
def yyparse (malloc : Malloc ε) (fuel : ℕ) (ts : List (Token F)) (m : Memory F ε) :
    Option (Bool × Memory F ε) :=
  (automaton F malloc).run fuel { stack := [], input := ts, mem := m }

/-- `parseConfig` of a file with these tokens. -/
def parseConfig (malloc : Malloc ε) (fuel : ℕ) (ts : List (Token F)) (m : Memory F ε) :
    Option (ℤ × Memory F ε) := do
  let (ok, m) ← yyparse malloc fuel ts (Objects.initConfig m)
  if ok then some (0, m)
  else do
    let m ← Objects.freeConfig fuel m
    some (-1, m)

end Functions

end Bison

end Config

end Infra
