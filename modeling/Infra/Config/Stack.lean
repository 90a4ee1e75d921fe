import Infra.Config.Grammar

/-!
# The stack of the parser

The parser that is generated from `cfg_parser.y` keeps the complete expressions and the
elements of an open list on a stack, since `cfg_list` and `value_sequence` are
right-recursive. Where the stack ends (`YYMAXDEPTH`) it gives up as it does at an error. So
a file with too many expressions is rejected, although the grammar derives it.
-/

namespace Infra

namespace Config

variable {F : Type}

/-- The symbols on the stack between two tokens. A complete expression is one, an element
with its comma is three, and the action at the beginning of a list is one, too. -/
def Parser.depth (p : Parser F) : ℕ :=
  p.cfg.params.length +
    match p.expect with
    | .expression => 0
    | .assign _ => 1
    | .value _ => 2
    | .element _ => 4 + 3 * p.gList.length
    | .separator _ => 2 + 3 * p.gList.length

/-- The most symbols on the stack while a token is taken. With `LIST_OPEN` and `COMMA` goes
the empty rule of an action, and `LIST_CLOSE` comes when the elements have been reduced. -/
def Parser.peak (p : Parser F) : Token F → ℕ
  | .listOpen | .comma => p.depth + 2
  | .listClose => max p.depth (p.cfg.params.length + 6)
  | _ => p.depth + 1

/-- A token is taken on a stack for so many symbols. -/
def Parser.take (stack : ℕ) (p : Parser F) (t : Token F) : Option (Parser F) :=
  if p.peak t ≤ stack then p.step t else none

/-- `yyparse` on a stack for so many symbols. At the end of the file the empty `cfg_list` is
put on it. -/
def yyparseWithin (stack : ℕ) (ft : FloatText F) :
    ℕ → Parser F → List UInt8 → Option (Parser F × Bool)
  | 0, _, _ => none
  | fuel + 1, p, file => do
      let (token, file) ← yylex ft fuel file
      match token with
      | none => some (p, decide (p.expect = .expression ∧ p.depth + 1 ≤ stack))
      | some t =>
          match p.take stack t with
          | none => some (p, false)
          | some p => yyparseWithin stack ft fuel p file

/-- `parseConfig` with this parser. -/
def parseConfigWithin (stack : ℕ) (ft : FloatText F) (fuel : ℕ) (file : Option (List UInt8)) :
    Option (ℤ × ConfigCB F) :=
  match file with
  | none => some (-1, initConfig)
  | some file => do
      let (p, ok) ← yyparseWithin stack ft fuel Parser.start file
      if ok then some (0, p.cfg) else some (-1, freeConfig p.cfg)

/-- The stack that an expression of these tokens takes. -/
def room (e : List (Token F)) : ℕ := if e.length ≤ 3 then 3 else max 6 (3 * (e.length / 2) - 1)

/-- Expressions fit on the stack above so many others. -/
def FitsOnStack (stack : ℕ) : ℕ → List (List (Token F)) → Prop
  | n, [] => n + 1 ≤ stack
  | n, e :: es => n + room e ≤ stack ∧ FitsOnStack stack (n + 1) es

variable {ft : FloatText F} {stack fuel : ℕ} {p q : Parser F} {t : Token F} {s : List UInt8}
  {ts e : List (Token F)} {es : List (List (Token F))} {name : CString} {ok : Bool}

/-! ## Tokens on the stack -/

theorem Parser.take_eq_some :
    p.take stack t = some q ↔ p.peak t ≤ stack ∧ p.step t = some q := by
  rw [Parser.take, Option.ite_none_right_eq_some]

@[simp]
theorem Parser.peak_parameter (p : Parser F) (name : CString) :
    p.peak (.parameter name) = p.depth + 1 := rfl

@[simp]
theorem Parser.peak_assignment (p : Parser F) : p.peak .assignment = p.depth + 1 := rfl

@[simp]
theorem Parser.peak_listOpen (p : Parser F) : p.peak .listOpen = p.depth + 2 := rfl

@[simp]
theorem Parser.peak_comma (p : Parser F) : p.peak .comma = p.depth + 2 := rfl

@[simp]
theorem Parser.peak_listClose (p : Parser F) :
    p.peak .listClose = max p.depth (p.cfg.params.length + 6) := rfl

theorem Parser.depth_le_peak (p : Parser F) (t : Token F) : p.depth ≤ p.peak t := by
  unfold Parser.peak
  split <;> omega

/-- A scalar takes one place. -/
theorem Parser.peak_unit (hv : (unitValue t).isSome) : p.peak t = p.depth + 1 := by
  cases t <;> first | rfl | cases hv

/-- What is on the stack after a token has been there. -/
theorem Parser.depth_le_of_take (h : p.take stack t = some q) : q.depth ≤ stack := by
  obtain ⟨hpeak, hstep⟩ := Parser.take_eq_some.mp h
  rcases Parser.step_cases hstep with ⟨_, hp, rfl, rfl⟩ | ⟨_, hp, rfl, rfl⟩ | ⟨_, hp, rfl, rfl⟩ |
    ⟨_, _, hp, ht, rfl⟩ | ⟨_, _, hp, ht, rfl⟩ | ⟨_, hp, rfl, rfl⟩ | ⟨_, hp, rfl, rfl⟩
  · simp only [Parser.peak, Parser.depth, hp] at hpeak ⊢
    omega
  · simp only [Parser.peak, Parser.depth, hp] at hpeak ⊢
    omega
  · simp only [Parser.peak, Parser.depth, hp, List.length_nil] at hpeak ⊢
    omega
  · have hle := (p.depth_le_peak t).trans hpeak
    simp only [Parser.depth, hp, addConfigParam, addParameter, List.length_append,
      List.length_singleton] at hle ⊢
    omega
  · have hle : p.depth + 1 ≤ stack := Parser.peak_unit (t := t) (by simp [ht]) ▸ hpeak
    simp only [Parser.depth, hp, List.length_append, List.length_singleton] at hle ⊢
    omega
  · simp only [Parser.peak, Parser.depth, hp] at hpeak ⊢
    omega
  · simp only [Parser.peak, Parser.depth, hp, addConfigParam, addParameter, List.length_append,
      List.length_singleton] at hpeak ⊢
    omega

/-- What the parser takes on the stack it takes without one. -/
theorem run_of_take (h : ts.foldlM (Parser.take stack) p = some q) :
    ts.foldlM Parser.step p = some q := by
  induction ts generalizing p with
  | nil => exact h
  | cons t ts ih =>
      rw [List.foldlM_cons] at h ⊢
      obtain ⟨p', htake, h⟩ := Option.bind_eq_some_iff.mp h
      exact Option.bind_eq_some_iff.mpr ⟨p', (Parser.take_eq_some.mp htake).2, ih h⟩

/-- The parameters of a file are on the stack. -/
theorem depth_le_of_run (h : ts.foldlM (Parser.take stack) p = some q) (hp : p.depth ≤ stack) :
    q.depth ≤ stack := by
  induction ts generalizing p with
  | nil =>
      obtain rfl := Option.some.inj h
      exact hp
  | cons t ts ih =>
      rw [List.foldlM_cons] at h
      obtain ⟨p', htake, h⟩ := Option.bind_eq_some_iff.mp h
      exact ih h (Parser.depth_le_of_take htake)

/-! ## Expressions on the stack -/

theorem take_run_cons (hstep : p.step t = some q) :
    ((t :: ts).foldlM (Parser.take stack) p).isSome ↔
      p.peak t ≤ stack ∧ (ts.foldlM (Parser.take stack) q).isSome := by
  rw [List.foldlM_cons, Parser.take, hstep]
  by_cases hpeak : p.peak t ≤ stack <;> simp [hpeak]

theorem ValueSequence.odd_length (h : ValueSequence ts) : ts.length = 2 * (ts.length / 2) + 1 := by
  induction h with
  | unit => simp
  | cons _ _ ih =>
      simp only [List.length_cons]
      omega

/-- Elements are taken with the rest of the list, when there is room for all of them. -/
theorem ValueSequence.take (stack : ℕ) (h : ValueSequence ts) (hp : p.expect = .element name) :
    ∃ q, q.expect = .separator name ∧ q.cfg = p.cfg ∧
      q.depth = p.depth + 3 * (ts.length / 2) + 1 ∧ ∀ rest,
        ((ts ++ rest).foldlM (Parser.take stack) p).isSome ↔
          q.depth ≤ stack ∧ (rest.foldlM (Parser.take stack) q).isSome := by
  have hunit : ∀ {p : Parser F} {v : Token F}, p.expect = .element name → (unitValue v).isSome →
      ∃ q, p.step v = some q ∧ q.expect = .separator name ∧ q.cfg = p.cfg ∧
        q.depth = p.depth + 1 := by
    intro p v hp hv
    obtain ⟨e, he⟩ := Option.isSome_iff_exists.mp hv
    refine ⟨{ p with expect := .separator name, gList := p.gList ++ [e] },
      by simp [Parser.step, hp, he], rfl, rfl, ?_⟩
    simp only [Parser.depth, hp, List.length_append, List.length_singleton]
    omega
  induction h generalizing p with
  | @unit v hv =>
      obtain ⟨q, hstep, hq, hcfg, hdepth⟩ := hunit hp hv
      refine ⟨q, hq, hcfg, by simp [hdepth], fun rest => ?_⟩
      rw [List.singleton_append, take_run_cons hstep, Parser.peak_unit hv, hdepth]
  | @cons v ts hv _ ih =>
      obtain ⟨q, hstep, hq, hcfg, hdepth⟩ := hunit hp hv
      have hcomma : q.step .comma = some { q with expect := .element name } := by
        simp [Parser.step, hq]
      have hnext : Parser.depth { q with expect := .element name } = p.depth + 3 := by
        simp only [Parser.depth, hq] at hdepth ⊢
        omega
      obtain ⟨q', hq', hcfg', hdepth', hrest⟩ := ih (p := { q with expect := .element name }) rfl
      have hlen : (v :: Token.comma :: ts).length / 2 = ts.length / 2 + 1 := by
        simp only [List.length_cons]
        omega
      refine ⟨q', hq', hcfg'.trans hcfg, by rw [hlen]; omega, fun rest => ?_⟩
      rw [List.cons_append, List.cons_append, take_run_cons hstep, take_run_cons hcomma,
        Parser.peak_unit hv, Parser.peak_comma, hrest]
      constructor
      · rintro ⟨-, -, h⟩
        exact h
      · intro h
        exact ⟨by omega, by omega, h⟩

/-- An expression is taken when there is room for it, and adds a parameter. -/
theorem CfgExpression.take (stack : ℕ) (h : CfgExpression e) (hp : p.expect = .expression) :
    ∃ q, q.expect = .expression ∧ q.cfg.params.length = p.cfg.params.length + 1 ∧ ∀ rest,
      ((e ++ rest).foldlM (Parser.take stack) p).isSome ↔
        p.cfg.params.length + room e ≤ stack ∧ (rest.foldlM (Parser.take stack) q).isSome := by
  have hname : ∀ name, p.step (.parameter name) = some { p with expect := .assign name } :=
    fun name => by simp [Parser.step, hp]
  have hpeak : ∀ name, p.peak (.parameter name) = p.cfg.params.length + 1 :=
    fun name => by simp [Parser.peak, Parser.depth, hp]
  cases h with
  | @unit v name hv =>
      obtain ⟨val, hval⟩ := Option.isSome_iff_exists.mp hv
      let q : Parser F := { p with expect := .expression,
                                   cfg := addConfigParam p.cfg name
                                     (allocPValue val.ptype val.value) }
      have hvalue : Parser.step { p with expect := .value name } v = some q := by
        have hne := unitValue_ne_listOpen hv
        simp [Parser.step, hval, q]
      refine ⟨q, rfl, by simp [q, addConfigParam, addParameter], fun rest => ?_⟩
      rw [List.cons_append, List.cons_append, List.singleton_append, take_run_cons (hname name),
        take_run_cons (q := { p with expect := .value name }) rfl, take_run_cons hvalue,
        Parser.peak_unit hv, hpeak]
      have hroom : room [Token.parameter name, .assignment, v] = 3 := rfl
      simp only [Parser.peak, Parser.depth, hroom]
      constructor
      · rintro ⟨-, -, h⟩
        exact h
      · intro h
        exact ⟨by omega, by omega, h⟩
  | @list ts name hts =>
      obtain ⟨q, hq, hcfg, hdepth, hseq⟩ :=
        hts.take stack (p := { p with expect := .element name, gList := [] }) rfl
      let q' : Parser F := { expect := .expression
                             cfg := addConfigParam q.cfg name (allocPValueList q.gList)
                             gList := [] }
      have hclose : q.step .listClose = some q' := by simp [Parser.step, hq, q']
      refine ⟨q', rfl, by simp [q', hcfg, addConfigParam, addParameter], fun rest => ?_⟩
      rw [List.cons_append, List.cons_append, List.cons_append, List.append_assoc,
        take_run_cons (hname name), take_run_cons (q := { p with expect := .value name }) rfl,
        take_run_cons (q := { p with expect := .element name, gList := [] }) rfl, hseq,
        List.singleton_append, take_run_cons hclose, hpeak]
      have hodd := hts.odd_length
      simp only [Parser.peak, Parser.depth, room, List.length_cons, List.length_append,
        List.length_nil, hcfg] at hdepth ⊢
      rw [if_neg (by omega)]
      constructor
      · rintro ⟨-, -, -, -, hle, h⟩
        exact ⟨by omega, h⟩
      · rintro ⟨hle, h⟩
        exact ⟨by omega, by omega, by omega, by omega, by omega, h⟩

/-- Expressions fit on the stack when they are taken and there is room for the empty
`cfg_list` behind them. -/
theorem fitsOnStack_iff (hes : ∀ e ∈ es, CfgExpression e) (hp : p.expect = .expression) :
    FitsOnStack stack p.cfg.params.length es ↔
      (es.flatten.foldlM (Parser.take stack) p).isSome ∧
        p.cfg.params.length + es.length + 1 ≤ stack := by
  induction es generalizing p with
  | nil => simp [FitsOnStack]
  | cons e es ih =>
      rw [List.forall_mem_cons] at hes
      obtain ⟨q, hq, hlen, htake⟩ := hes.1.take stack hp
      have hrest := ih hes.2 hq
      rw [hlen] at hrest
      rw [FitsOnStack, hrest, List.flatten_cons, htake, List.length_cons, and_assoc, add_assoc _ 1,
        add_comm 1]

/-- Each expression adds a parameter. -/
theorem run_expressions (hes : ∀ e ∈ es, CfgExpression e) (hp : p.expect = .expression) :
    ∃ q, es.flatten.foldlM Parser.step p = some q ∧ q.expect = .expression ∧
      q.cfg.params.length = p.cfg.params.length + es.length := by
  induction es generalizing p with
  | nil => exact ⟨p, rfl, hp, rfl⟩
  | cons e es ih =>
      rw [List.forall_mem_cons] at hes
      obtain ⟨q, param, hrun, hq, hcfg⟩ := hes.1.run hp
      obtain ⟨q', hrest, hq', hlen⟩ := ih hes.2 hq
      refine ⟨q', ?_, hq', ?_⟩
      · rw [List.flatten_cons, List.foldlM_append, hrun]
        exact hrest
      · simp only [hlen, hcfg, addParameter, List.length_append, List.length_cons, List.length_nil]
        omega

end Config

end Infra
