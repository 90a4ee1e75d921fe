import Infra.Config.Assigns
import Infra.Config.Bison
import Infra.Config.Stack

/-!
# What the parser builds

Between two tokens the stack holds the expressions that are complete and what has been read
of the next one, and the memory holds their parameters and the elements that are not in an
array yet. An element that has just been read is in the list at `_g_list` only after the next
token. So the parser by tables does what the parser without a stack does, and its stack grows
as high as that one counts.
-/

namespace Infra

namespace Config

namespace Bison

open ShiftReduce LinkedList Objects Ascii

variable {F ε : Type} [DecidableEq ε] {malloc : Malloc ε} {m : Memory F ε} {p q : Parser F}
  {t : Token F} {ts : List (Token F)} {cfg : ConfigCB F} {bs es : List ε} {elems : List (Elem F)}
  {e : Elem F} {name : CString} {pv : ε} {n k : ℕ}

/-- The stack. -/
abbrev Stack (F ε : Type) := List (State × Value F ε)

/-- Complete expressions. -/
def expressions (n : ℕ) : Stack F ε := (List.replicate n [(.cfgExpression, .none)]).flatten

/-- The beginning of an expression. -/
def begun (name : CString) (n : ℕ) : Stack F ε :=
  (.assignment, .none) :: (.parameter, .sval name) :: expressions n

/-- The beginning of an expression with a list, and the elements of the list that a comma
follows. -/
def opened (pvs : List ε) (name : CString) (n : ℕ) : Stack F ε :=
  (pvs.map fun pv => [(.comma, .none), (.addElement, .none), (.element, .pval pv)]).flatten ++
    (.initList, .none) :: (.listOpen, .none) :: begun name n

omit [DecidableEq ε] in
@[simp]
theorem length_expressions (n : ℕ) : (expressions n : Stack F ε).length = n := by
  simp [expressions]

omit [DecidableEq ε] in
@[simp]
theorem length_begun (name : CString) (n : ℕ) : (begun name n : Stack F ε).length = n + 2 := by
  simp [begun]

omit [DecidableEq ε] in
@[simp]
theorem length_opened (pvs : List ε) (name : CString) (n : ℕ) :
    (opened pvs name n : Stack F ε).length = 3 * pvs.length + n + 4 := by
  simp [opened, Function.comp_def]
  omega

/-- The parser by tables is where the parser without a stack is. -/
inductive Stands (malloc : Malloc ε) : Parser F → Stack F ε → Memory F ε → Prop
  | expression {cfg : ConfigCB F} {gs : List (Elem F)} {m : Memory F ε} {bs : List ε} {n : ℕ}
      (hn : cfg.params.length = n) (h : Collects malloc m cfg bs [] []) :
      Stands malloc ⟨.expression, cfg, gs⟩ (expressions n) m
  | assign {cfg : ConfigCB F} {gs : List (Elem F)} {m : Memory F ε} {bs : List ε} {n : ℕ}
      (name : CString) (hn : cfg.params.length = n) (h : Collects malloc m cfg bs [] []) :
      Stands malloc ⟨.assign name, cfg, gs⟩ ((.parameter, .sval name) :: expressions n) m
  | value {cfg : ConfigCB F} {gs : List (Elem F)} {m : Memory F ε} {bs : List ε} {n : ℕ}
      (name : CString) (hn : cfg.params.length = n) (h : Collects malloc m cfg bs [] []) :
      Stands malloc ⟨.value name, cfg, gs⟩ (begun name n) m
  | element {cfg : ConfigCB F} {gs : List (Elem F)} {m : Memory F ε} {bs es : List ε} {n : ℕ}
      (name : CString) (pvs : List ε) (hn : cfg.params.length = n) (hpvs : gs.length = pvs.length)
      (h : Collects malloc m cfg bs es gs) (hring : Ring m.lists gList (es.map .inr)) :
      Stands malloc ⟨.element name, cfg, gs⟩ (opened pvs name n) m
  | separator {cfg : ConfigCB F} {gs : List (Elem F)} {m : Memory F ε} {bs es : List ε} {pv : ε}
      {n : ℕ} (name : CString) (pvs : List ε) (hn : cfg.params.length = n)
      (hpvs : gs.length = pvs.length + 1) (h : Collects malloc m cfg bs (es ++ [pv]) gs)
      (hring : Ring m.lists gList (es.map .inr)) :
      Stands malloc ⟨.separator name, cfg, gs⟩ ((.element, .pval pv) :: opened pvs name n) m

omit [DecidableEq ε] in
/-- What the parser without a stack counts is on the stack. -/
theorem Stands.length_eq {stack : Stack F ε} (h : Stands malloc p stack m) :
    stack.length = p.depth := by
  cases h <;> simp [Parser.depth, *] <;> omega

/-- The parser stops with an error, and the memory is in order. -/
def Refuses (malloc : Malloc ε) (c : ShiftReduce.Config State (Token F) (Value F ε) (Memory F ε)) :
    Prop :=
  ∃ m cfg bs es elems, (automaton F malloc).Halts c (false, m) ∧ Collects malloc m cfg bs es elems

/-! ### The tables -/

theorem goto_expressions (n : ℕ) :
    goto ((automaton F malloc).top (expressions n)) .cfgExpression = some .cfgExpression := by
  cases n <;> rfl

theorem action_expressions (n : ℕ) (t : Option Terminal) :
    action ((automaton F malloc).top (expressions n)) t = action .cfgExpression t := by
  cases n <;> rfl

/-- A rule is reduced: its values go off the stack. -/
theorem goes_rule {stack rest : Stack F ε} {m' : Memory F ε} {r : Rule} {v : Value F ε} {q : State}
    (h : action ((automaton F malloc).top stack) (ts.head?.map terminal) = .reduce r)
    (hact : ∃ N, ∀ fuel, N ≤ fuel → act malloc fuel r (stack.map Prod.snd) m = some (v, m'))
    (hdrop : stack.drop r.rhs.length = rest)
    (hgoto : goto ((automaton F malloc).top rest) r.lhs = some q) :
    (automaton F malloc).Goes ⟨stack, ts, m⟩ ⟨(q, v) :: rest, ts, m'⟩ := by
  subst hdrop
  exact Automaton.goes_reduce h hact hgoto

/-- A token is shifted. -/
theorem peaks_shift {stack : Stack F ε} {q : State}
    (h : action ((automaton F malloc).top stack) (some (terminal t)) = .shift q) :
    (automaton F malloc).Peaks (stack.length + 1) ⟨stack, t :: ts, m⟩
      ⟨(q, yylval t) :: stack, ts, m⟩ :=
  Automaton.ReachesWithin.peaks (.single ⟨Automaton.goes_shift h, le_rfl⟩) rfl

/-- A scalar token is shifted, and a rule makes its value. -/
theorem unit_rule (malloc : Malloc ε) (h : unitValue t = some e) :
    e.Tagged ∧ ∃ q r, shiftUnit (some (terminal t)) = .shift q ∧ (∀ l, action q l = .reduce r) ∧
      r.lhs = .unitValue ∧ r.rhs.length = 1 ∧ ∀ fuel vs (m : Memory F ε),
        act malloc fuel r (yylval t :: vs) m =
          (Objects.allocPValue malloc e.ptype e.value m).map fun x => (.pval x.1, x.2) := by
  have hmake : ∀ x : Option (ε × Memory F ε),
      (x.bind fun y => some ((.pval y.1 : Value F ε), y.2)) = x.map fun y => (.pval y.1, y.2) := by
    intro x
    cases x <;> rfl
  cases t with
  | stringLiteral s =>
      cases h
      exact ⟨trivial, .stringLiteral, .unitString, rfl, fun _ => rfl, rfl, rfl,
        fun _ _ _ => hmake _⟩
  | decimal n =>
      cases h
      exact ⟨trivial, .decimal, .unitDecimal, rfl, fun _ => rfl, rfl, rfl,
        fun _ _ _ => hmake _⟩
  | float x =>
      cases h
      exact ⟨trivial, .float, .unitFloat, rfl, fun _ => rfl, rfl, rfl,
        fun _ _ _ => hmake _⟩
  | boolean n =>
      cases h
      exact ⟨trivial, .boolean, .unitBoolean, rfl, fun _ => rfl, rfl, rfl,
        fun _ _ _ => hmake _⟩
  | parameter | assignment | listOpen | listClose | comma => cases h

/-! ### Parts of an expression -/

/-- A scalar is read, and its value waits with the others. -/
theorem reaches_unit {stack : Stack F ε} {q : State} (h : Collects malloc m cfg bs es elems)
    (ht : unitValue t = some e)
    (hshift : action ((automaton F malloc).top stack) (some (terminal t)) =
      shiftUnit (some (terminal t)))
    (hgoto : goto ((automaton F malloc).top stack) .unitValue = some q) :
    ∃ pv m', (automaton F malloc).Peaks (stack.length + 1) ⟨stack, t :: ts, m⟩
        ⟨(q, .pval pv) :: stack, ts, m'⟩ ∧
      Collects malloc m' cfg bs (es ++ [pv]) (elems ++ [e]) ∧
      ∀ a, a ≠ .inr pv → m'.lists a = m.lists a := by
  obtain ⟨htag, q₁, r, hq₁, hr, hlhs, hsize, hact⟩ := unit_rule malloc ht
  obtain ⟨pv, m', halloc, hcollects, hsame⟩ := h.allocPValue htag
  have hread : (automaton F malloc).Goes ⟨stack, t :: ts, m⟩ ⟨(q₁, yylval t) :: stack, ts, m⟩ :=
    Automaton.goes_shift (hshift.trans hq₁)
  have hmake : ∃ N, ∀ fuel, N ≤ fuel →
      act malloc fuel r (((q₁, yylval t) :: stack).map Prod.snd) m = some (.pval pv, m') :=
    ⟨0, fun fuel _ => by rw [List.map_cons, hact, halloc, Option.map_some]⟩
  have hmade : (automaton F malloc).Goes ⟨(q₁, yylval t) :: stack, ts, m⟩
      ⟨(q, .pval pv) :: stack, ts, m'⟩ :=
    goes_rule (hr _) hmake (by rw [hsize, List.drop_one, List.tail_cons]) (by rw [hlhs, hgoto])
  have hreach : (automaton F malloc).ReachesWithin (stack.length + 1) ⟨stack, t :: ts, m⟩
      ⟨(q, .pval pv) :: stack, ts, m'⟩ := .head ⟨hread, le_rfl⟩ (.single ⟨hmade, le_rfl⟩)
  exact ⟨pv, m', hreach.peaks rfl, hcollects, hsame⟩

/-- The value of an expression is complete, and so is the expression. -/
theorem reaches_expression {q : State} {r : Rule} (hq : ∀ l, action q l = .reduce r)
    (hr : r = .valuesUnit ∨ r = .valuesList) (hk : n + 3 ≤ k) :
    (automaton F malloc).ReachesWithin k ⟨(q, .pval pv) :: begun name n, ts, m⟩
      ⟨expressions (n + 1), ts, Objects.addConfigParam m name pv⟩ := by
  have hvalues : (automaton F malloc).Goes ⟨(q, .pval pv) :: begun name n, ts, m⟩
      ⟨(.values, .pval pv) :: begun name n, ts, m⟩ := by
    rcases hr with rfl | rfl
    · exact goes_rule (hq _) ⟨0, fun _ _ => rfl⟩ rfl rfl
    · exact goes_rule (hq _) ⟨0, fun _ _ => rfl⟩ rfl rfl
  have hadd : (automaton F malloc).Goes ⟨(.values, .pval pv) :: begun name n, ts, m⟩
      ⟨expressions (n + 1), ts, Objects.addConfigParam m name pv⟩ :=
    goes_rule rfl ⟨0, fun _ _ => rfl⟩ rfl (goto_expressions n)
  have hlen : ((.values, .pval pv) :: begun name n : Stack F ε).length ≤ k := by
    rw [List.length_cons, length_begun]
    exact hk
  have hlen' : (expressions (n + 1) : Stack F ε).length ≤ k := by
    rw [length_expressions]
    omega
  exact .head ⟨hvalues, hlen⟩ (.single ⟨hadd, hlen'⟩)

/-- A list is begun with an empty `_g_list`. -/
theorem reaches_open {m' : Memory F ε} (hinit : initGList m = some m') :
    (automaton F malloc).Peaks (n + 4) ⟨begun name n, .listOpen :: ts, m⟩
      ⟨opened [] name n, ts, m'⟩ := by
  have hopen : (automaton F malloc).Goes ⟨begun name n, .listOpen :: ts, m⟩
      ⟨(.listOpen, .none) :: begun name n, ts, m⟩ := Automaton.goes_shift rfl
  have hempty : (automaton F malloc).Goes ⟨(.listOpen, .none) :: begun name n, ts, m⟩
      ⟨opened [] name n, ts, m'⟩ :=
    goes_rule rfl ⟨0, fun _ _ => by simp [act, hinit]⟩ rfl rfl
  have hreach : (automaton F malloc).ReachesWithin (n + 4) ⟨begun name n, .listOpen :: ts, m⟩
      ⟨opened [] name n, ts, m'⟩ := .head ⟨hopen, by simp⟩ (.single ⟨hempty, by simp⟩)
  exact hreach.peaks (by simp)

/-- A list that is complete is the value of its expression. -/
theorem reaches_list {m₁ m₂ : Memory F ε}
    (hmake : ∃ N, ∀ fuel, N ≤ fuel → Objects.allocPValueList malloc fuel m = some (pv, m₁))
    (hinit : initGList m₁ = some m₂) (hk : n + 3 ≤ k) :
    (automaton F malloc).ReachesWithin k
      ⟨(.listClose, .none) :: (.valueSequence, .none) :: opened [] name n, ts, m⟩
      ⟨expressions (n + 1), ts, Objects.addConfigParam m₂ name pv⟩ := by
  obtain ⟨N, hmake⟩ := hmake
  have hlist : (automaton F malloc).Goes
      ⟨(.listClose, .none) :: (.valueSequence, .none) :: opened [] name n, ts, m⟩
      ⟨(.list, .pval pv) :: begun name n, ts, m₂⟩ :=
    goes_rule rfl ⟨N, fun fuel hfuel => by simp [act, hmake fuel hfuel, hinit]⟩ rfl rfl
  have hlen : ((.list, .pval pv) :: begun name n : Stack F ε).length ≤ k := by
    rw [List.length_cons, length_begun]
    exact hk
  exact .head ⟨hlist, hlen⟩ (reaches_expression (fun _ => rfl) (.inr rfl) hk)

/-- At the end of a list all the rules for its elements are reduced, the first of them
last. -/
theorem reaches_sequence (pvs : List ε) {m' : Memory F ε} (hadd : addToGList m pv = some m') :
    (automaton F malloc).Peaks (max (3 * pvs.length + n + 5) (n + 6))
      ⟨(.element, .pval pv) :: opened pvs name n, .listClose :: ts, m⟩
      ⟨(.listClose, .none) :: (.valueSequence, .none) :: opened [] name n, ts, m'⟩ := by
  have hblock : ∀ b ∈ pvs.map fun pv =>
      [(State.comma, (.none : Value F ε)), (.addElement, .none), (.element, .pval pv)],
      (automaton F malloc).size .sequenceCons = b.length + 1 ∧ ∀ s, ∃ q,
        (automaton F malloc).goto ((automaton F malloc).top (b ++ s)) .valueSequence = some q ∧
          (automaton F malloc).action q (Token.listClose :: ts).head? = .reduce .sequenceCons := by
    intro b hb
    obtain ⟨x, -, rfl⟩ := List.mem_map.mp hb
    exact ⟨rfl, fun s => ⟨.valueSequenceRest, rfl, rfl⟩⟩
  have hskip : ∀ fuel vs, (automaton F malloc).act fuel .sequenceCons vs m' = some (.none, m') :=
    fun _ _ => rfl
  have hfirst : (automaton F malloc).goto ((automaton F malloc).top
      ((.initList, .none) :: (.listOpen, .none) :: begun name n)) .valueSequence =
        some .valueSequence := rfl
  obtain ⟨q, hq, hunwind⟩ := Automaton.reaches_unwind rfl .none hskip hblock hfirst
    (k := max (3 * pvs.length + n + 5) (n + 6)) (by rw [← opened, length_opened]; omega)
  have hlast : (automaton F malloc).Goes
      ⟨(.element, .pval pv) :: opened pvs name n, .listClose :: ts, m⟩
      ⟨(q, .none) :: opened pvs name n, .listClose :: ts, m'⟩ :=
    goes_rule rfl ⟨0, fun _ _ => by simp [act, hadd]⟩ rfl hq
  have hclose : (automaton F malloc).Goes
      ⟨(.valueSequence, .none) :: opened [] name n, .listClose :: ts, m'⟩
      ⟨(.listClose, .none) :: (.valueSequence, .none) :: opened [] name n, ts, m'⟩ :=
    Automaton.goes_shift rfl
  have hreach : (automaton F malloc).ReachesWithin (max (3 * pvs.length + n + 5) (n + 6))
      ⟨(.element, .pval pv) :: opened pvs name n, .listClose :: ts, m⟩
      ⟨(.listClose, .none) :: (.valueSequence, .none) :: opened [] name n, ts, m'⟩ :=
    .head ⟨hlast, by simp⟩ (hunwind.trans (.single ⟨hclose, by simp⟩))
  -- the most are the elements before the rules, or a list of one element with its brackets
  rcases le_total (n + 6) (3 * pvs.length + n + 5) with hle | hle
  · exact ⟨hreach, _, .refl, by simp [max_eq_left hle]⟩
  · exact hreach.peaks (by simp [max_eq_right hle])

/-- An element that a comma follows is put into the list. -/
theorem reaches_comma (pvs : List ε) {m' : Memory F ε} (hadd : addToGList m pv = some m') :
    (automaton F malloc).Peaks (3 * pvs.length + n + 7)
      ⟨(.element, .pval pv) :: opened pvs name n, .comma :: ts, m⟩
      ⟨opened (pv :: pvs) name n, ts, m'⟩ := by
  have hlast : (automaton F malloc).Goes
      ⟨(.element, .pval pv) :: opened pvs name n, .comma :: ts, m⟩
      ⟨(.addElement, .none) :: (.element, .pval pv) :: opened pvs name n, .comma :: ts, m'⟩ :=
    goes_rule rfl ⟨0, fun _ _ => by simp [act, hadd]⟩ rfl rfl
  have hcomma : (automaton F malloc).Goes
      ⟨(.addElement, .none) :: (.element, .pval pv) :: opened pvs name n, .comma :: ts, m'⟩
      ⟨opened (pv :: pvs) name n, ts, m'⟩ := Automaton.goes_shift rfl
  have hlen : (opened (pv :: pvs) name n : Stack F ε).length = 3 * pvs.length + n + 7 := by
    rw [length_opened, List.length_cons]
    omega
  have hreach : (automaton F malloc).ReachesWithin (3 * pvs.length + n + 7)
      ⟨(.element, .pval pv) :: opened pvs name n, .comma :: ts, m⟩
      ⟨opened (pv :: pvs) name n, ts, m'⟩ :=
    .head ⟨hlast, by simp⟩ (.single ⟨hcomma, hlen.le⟩)
  exact hreach.peaks hlen

/-- Where no expression begins, all the rules for the expressions so far are reduced, after the
one for the empty `cfg_list` behind them. -/
theorem reaches_cfgList
    (h : action .cfgExpression (ts.head?.map terminal) = .reduce .cfgListNil) :
    (automaton F malloc).Peaks (n + 1) ⟨expressions n, ts, m⟩ ⟨[(.cfgList, .none)], ts, m⟩ := by
  have hskip : ∀ fuel vs, (automaton F malloc).act fuel .cfgListCons vs m = some (.none, m) :=
    fun _ _ => rfl
  have hblock : ∀ b ∈ List.replicate n [(State.cfgExpression, (.none : Value F ε))],
      (automaton F malloc).size .cfgListCons = b.length + 1 ∧ ∀ s, ∃ q,
        (automaton F malloc).goto ((automaton F malloc).top (b ++ s)) .cfgList = some q ∧
          (automaton F malloc).action q ts.head? = .reduce .cfgListCons := by
    intro b hb
    obtain rfl := List.eq_of_mem_replicate hb
    exact ⟨rfl, fun s => ⟨.cfgListRest, rfl, rfl⟩⟩
  have hfirst : (automaton F malloc).goto ((automaton F malloc).top []) .cfgList =
      some .cfgList := rfl
  obtain ⟨q, hq, hunwind⟩ := Automaton.reaches_unwind rfl .none hskip hblock hfirst
    (k := n + 1) (by simp)
  rw [List.append_nil] at hq hunwind
  have hnil : (automaton F malloc).Goes ⟨expressions n, ts, m⟩
      ⟨(q, .none) :: expressions n, ts, m⟩ :=
    goes_rule ((action_expressions n _).trans h) ⟨0, fun _ _ => rfl⟩ rfl hq
  exact ⟨.head ⟨hnil, by simp⟩ hunwind, _, .single hnil, by simp⟩

/-! ### One token -/

theorem action_assignment (h : unitValue t = some e) :
    action .assignment (some (terminal t)) = shiftUnit (some (terminal t)) := by
  cases t <;> first | rfl | cases h

/-- Inside of a list an element is expected after the bracket and after a comma. -/
theorem top_opened (pvs : List ε) (name : CString) (n : ℕ) (t : Option Terminal) :
    action ((automaton F malloc).top (opened pvs name n)) t = shiftUnit t ∧
      goto ((automaton F malloc).top (opened pvs name n)) .unitValue = some .element := by
  cases pvs <;> exact ⟨rfl, rfl⟩

/-- A token that fits takes both parsers on. -/
theorem Stands.step {stack : Stack F ε} (h : Stands malloc p stack m) (hstep : p.step t = some q) :
    ∃ stack' m', (automaton F malloc).Peaks (p.peak t) ⟨stack, t :: ts, m⟩ ⟨stack', ts, m'⟩ ∧
      Stands malloc q stack' m' := by
  have hdepth := h.length_eq
  rcases Parser.step_cases hstep with ⟨name, hp, rfl, rfl⟩ | ⟨name, hp, rfl, rfl⟩ |
    ⟨name, hp, rfl, rfl⟩ | ⟨name, e, hp, ht, rfl⟩ | ⟨name, e, hp, ht, rfl⟩ |
    ⟨name, hp, rfl, rfl⟩ | ⟨name, hp, rfl, rfl⟩
  · cases h with
    | expression hn h =>
        rw [Parser.peak_parameter, ← hdepth]
        exact ⟨_, m, peaks_shift (action_expressions _ _), .assign name hn h⟩
    | _ => cases hp
  · cases h with
    | assign _ hn h =>
        cases hp
        rw [Parser.peak_assignment, ← hdepth]
        exact ⟨_, m, peaks_shift rfl, .value name hn h⟩
    | _ => cases hp
  · cases h with
    | value _ hn h =>
        cases hp
        obtain ⟨m', hinit, hcollects, hring⟩ := h.initGList
        rw [Parser.peak_listOpen, ← hdepth, length_begun]
        exact ⟨_, m', reaches_open hinit, .element name [] hn rfl hcollects hring⟩
    | _ => cases hp
  · cases h with
    | @value _ _ _ _ n _ hn h =>
        cases hp
        have hshift : action ((automaton F malloc).top (begun name n)) (some (terminal t)) =
            shiftUnit (some (terminal t)) := action_assignment ht
        obtain ⟨pv, m', hread, hcollects, -⟩ := reaches_unit h ht hshift rfl
        have hmade := hcollects.made
        rw [Parser.peak_unit (by simp [ht]), ← hdepth]
        refine ⟨_, _, hread.trans (reaches_expression (fun _ => rfl) (.inl rfl) (by simp)),
          .expression ?_ (hmade.addConfigParam name)⟩
        simp [addConfigParam, addParameter, hn]
    | _ => cases hp
  · cases h with
    | @element _ _ _ _ _ n _ pvs hn hpvs h hring =>
        cases hp
        obtain ⟨pv, m', hread, hcollects, hsame⟩ :=
          reaches_unit h ht (top_opened pvs name n _).1 (top_opened pvs name n none).2
        rw [Parser.peak_unit (by simp [ht]), ← hdepth]
        refine ⟨_, m', hread, .separator name pvs hn (by simp [hpvs]) hcollects
          (hring.congr fun a ha => hsame a ?_)⟩
        rintro rfl
        exact hcollects.notMem_ring ha
    | _ => cases hp
  · cases h with
    | separator _ pvs hn hpvs h hring =>
        cases hp
        obtain ⟨m', hadd, hcollects, hring'⟩ := h.addToGList hring
        rw [Parser.peak_comma, ← hdepth, List.length_cons, length_opened]
        exact ⟨_, m', reaches_comma pvs hadd,
          .element name (_ :: pvs) hn (by simp [hpvs]) hcollects hring'⟩
    | _ => cases hp
  · cases h with
    | separator _ pvs hn hpvs h hring =>
        cases hp
        obtain ⟨m', hadd, hcollects, hring'⟩ := h.addToGList hring
        obtain ⟨pv, m₁, hmake, hmade₁⟩ := hcollects.allocPValueList hring'
        obtain ⟨m₂, hinit, hmade₂⟩ := hmade₁.initGList
        rw [Parser.peak_listClose, ← hdepth, hn, List.length_cons, length_opened]
        refine ⟨_, _, (reaches_sequence pvs hadd).trans (reaches_list hmake hinit (by omega)),
          .expression ?_ (hmade₂.addConfigParam name)⟩
        simp [addConfigParam, addParameter, hn]
    | _ => cases hp

/-- An element that neither a comma nor a bracket follows is put into the list, too. -/
theorem refuses_element (pvs : List ε) (h : Collects malloc m cfg bs (es ++ [pv]) elems)
    (hring : Ring m.lists gList (es.map .inr))
    (hreduce : action .element (ts.head?.map terminal) = .reduce .addElement)
    (herror : action .addElement (ts.head?.map terminal) = .error) :
    Refuses malloc ⟨(.element, .pval pv) :: opened pvs name n, ts, m⟩ := by
  obtain ⟨m', hadd, hcollects, -⟩ := h.addToGList hring
  have hlast : (automaton F malloc).Goes ⟨(.element, .pval pv) :: opened pvs name n, ts, m⟩
      ⟨(.addElement, .none) :: (.element, .pval pv) :: opened pvs name n, ts, m'⟩ :=
    goes_rule hreduce ⟨0, fun _ _ => by simp [act, hadd]⟩ rfl rfl
  exact ⟨m', _, _, _, _, hlast.halts (Automaton.halts_error herror), hcollects⟩

/-- A token that does not fit ends the parse. -/
theorem Stands.refuses {stack : Stack F ε} (h : Stands malloc p stack m) (hstep : p.step t = none) :
    Refuses malloc ⟨stack, t :: ts, m⟩ := by
  cases h with
  | expression hn h =>
      have hreduce : action .cfgExpression ((t :: ts).head?.map terminal) =
          .reduce .cfgListNil := by
        cases t <;> first | rfl | cases hstep
      have herror : action .cfgList ((t :: ts).head?.map terminal) = .error := by
        cases t <;> rfl
      exact ⟨m, _, _, _, _, (reaches_cfgList hreduce).reaches.halts
        (Automaton.halts_error herror), h⟩
  | assign name hn h =>
      have herror : action .parameter (some (terminal t)) = .error := by
        cases t <;> first | rfl | cases hstep
      exact ⟨m, _, _, _, _, Automaton.halts_error herror, h⟩
  | value name hn h =>
      have herror : action .assignment (some (terminal t)) = .error := by
        cases t <;> first | rfl | cases hstep
      exact ⟨m, _, _, _, _, Automaton.halts_error herror, h⟩
  | @element _ _ _ _ _ n name pvs _ _ h hring =>
      have herror : shiftUnit (some (terminal t)) = .error := by
        cases t <;> first | rfl | cases hstep
      exact ⟨m, _, _, _, _, Automaton.halts_error ((top_opened pvs name n _).1.trans herror), h⟩
  | separator name pvs _ _ h hring =>
      refine refuses_element pvs h hring ?_ ?_
      · cases t <;> first | rfl | cases hstep
      · cases t <;> first | rfl | cases hstep

/-- The end of the file ends the parse. -/
theorem Stands.ends {stack : Stack F ε} (h : Stands malloc p stack m) :
    if p.expect = .expression then
      (automaton F malloc).Halts ⟨stack, [], m⟩ (true, m) ∧ ∃ bs, Collects malloc m p.cfg bs [] []
    else Refuses malloc ⟨stack, [], m⟩ := by
  cases h with
  | expression hn h =>
      rw [if_pos rfl]
      exact ⟨(reaches_cfgList rfl).reaches.halts (Automaton.halts_accept rfl), _, h⟩
  | assign name hn h =>
      rw [if_neg nofun]
      exact ⟨m, _, _, _, _, Automaton.halts_error rfl, h⟩
  | value name hn h =>
      rw [if_neg nofun]
      exact ⟨m, _, _, _, _, Automaton.halts_error rfl, h⟩
  | @element _ _ _ _ _ n name pvs _ _ h hring =>
      rw [if_neg nofun]
      exact ⟨m, _, _, _, _, Automaton.halts_error (top_opened pvs name n _).1, h⟩
  | separator name pvs _ _ h hring =>
      rw [if_neg nofun]
      exact refuses_element pvs h hring rfl rfl

/-! ### All tokens -/

/-- The parser by tables accepts what the parser without a stack accepts, and builds the
same. -/
theorem Stands.run (ts : List (Token F)) {stack : Stack F ε} (h : Stands malloc p stack m) :
    match p.accept ts with
    | some cfg => ∃ m' bs, (automaton F malloc).Halts ⟨stack, ts, m⟩ (true, m') ∧
        Collects malloc m' cfg bs [] []
    | none => Refuses malloc ⟨stack, ts, m⟩ := by
  induction ts generalizing p stack m with
  | nil =>
      have hends := h.ends
      rw [Parser.accept]
      split at hends
      · next hp =>
        obtain ⟨hhalts, bs, hcollects⟩ := hends
        rw [if_pos hp]
        exact ⟨m, bs, hhalts, hcollects⟩
      · next hp =>
        rw [if_neg hp]
        exact hends
  | cons t ts ih =>
      rw [Parser.accept]
      cases hstep : p.step t with
      | none => exact h.refuses hstep
      | some q =>
          obtain ⟨stack', m', hpeaks, hstands⟩ := h.step hstep
          have hreach := hpeaks.reaches
          have hrest := ih hstands
          rw [Option.bind_eq_bind, Option.bind_some]
          split at hrest
          · obtain ⟨m₁, bs, hhalts, hcollects⟩ := hrest
            exact ⟨m₁, bs, hreach.halts hhalts, hcollects⟩
          · obtain ⟨m₁, cfg, bs, es, elems, hhalts, hcollects⟩ := hrest
            exact ⟨m₁, cfg, bs, es, elems, hreach.halts hhalts, hcollects⟩

omit [DecidableEq ε] in
/-- Before the first token. -/
theorem stands_start (malloc : Malloc ε) (hm : m.lists.Live gList) :
    Stands malloc (Parser.start : Parser F) [] (Objects.initConfig m) :=
  .expression rfl ⟨⟨.nil, rfl, List.nodup_nil, by simp, hm⟩, .nil, by simp⟩

/-! ### The stack -/

/-- Tokens that are taken on a stack do not need a larger one. -/
theorem Stands.reachesWithin {stack : Stack F ε} {rest : List (Token F)}
    (h : Stands malloc p stack m) (hrun : ts.foldlM (Parser.take k) p = some q) :
    ∃ stack' m', (automaton F malloc).ReachesWithin k ⟨stack, ts ++ rest, m⟩ ⟨stack', rest, m'⟩ ∧
      Stands malloc q stack' m' := by
  induction ts generalizing p stack m with
  | nil =>
      obtain rfl := Option.some.inj hrun
      exact ⟨stack, m, .refl, h⟩
  | cons t ts ih =>
      rw [List.foldlM_cons] at hrun
      obtain ⟨p', htake, hrun⟩ := Option.bind_eq_some_iff.mp hrun
      obtain ⟨hpeak, hstep⟩ := Parser.take_eq_some.mp htake
      obtain ⟨stack₁, m₁, hpeaks, h₁⟩ := h.step hstep
      obtain ⟨stack', m', hrest, h'⟩ := ih h₁ hrun
      exact ⟨stack', m', (hpeaks.within.mono hpeak).trans hrest, h'⟩

/-- Tokens that do not need a larger stack are taken on it. -/
theorem Stands.take_of_length_le {stack : Stack F ε} {rest : List (Token F)}
    (h : Stands malloc p stack m) (hrun : ts.foldlM Parser.step p = some q)
    (hall : ∀ c, (automaton F malloc).Reaches ⟨stack, ts ++ rest, m⟩ c → c.stack.length ≤ k) :
    ts.foldlM (Parser.take k) p = some q ∧ ∃ stack' m',
      (automaton F malloc).Reaches ⟨stack, ts ++ rest, m⟩ ⟨stack', rest, m'⟩ ∧
        Stands malloc q stack' m' := by
  induction ts generalizing p stack m with
  | nil =>
      obtain rfl := Option.some.inj hrun
      exact ⟨rfl, stack, m, .refl, h⟩
  | cons t ts ih =>
      rw [List.foldlM_cons] at hrun
      obtain ⟨p', hstep, hrun⟩ := Option.bind_eq_some_iff.mp hrun
      obtain ⟨stack₁, m₁, hpeaks, h₁⟩ := h.step hstep
      obtain ⟨c, hc, hpeak⟩ := hpeaks.attained
      have htake : p.take k t = some p' := Parser.take_eq_some.mpr ⟨hpeak ▸ hall c hc, hstep⟩
      obtain ⟨hrest, stack', m', hreach', h'⟩ :=
        ih h₁ hrun fun c hc => hall c (hpeaks.reaches.trans hc)
      refine ⟨?_, stack', m', hpeaks.reaches.trans hreach', h'⟩
      rw [List.foldlM_cons, htake]
      exact hrest

/-- Expressions fit on a stack when the parser by tables never has more symbols on its own. -/
theorem fitsOnStack_iff_length_le (malloc : Malloc ε) {es : List (List (Token F))}
    (hm : m.lists.Live gList) (hes : ∀ e ∈ es, CfgExpression e) (k : ℕ) :
    FitsOnStack k 0 es ↔ ∀ c,
      (automaton F malloc).Reaches ⟨[], es.flatten, Objects.initConfig m⟩ c →
        c.stack.length ≤ k := by
  have hstart := stands_start (F := F) malloc hm
  have hzero : (Parser.start : Parser F).cfg.params.length = 0 := rfl
  obtain ⟨q, hrun, hq, hlen⟩ := run_expressions (p := (Parser.start : Parser F)) hes rfl
  have hfits : FitsOnStack k 0 es ↔ _ := fitsOnStack_iff (p := (Parser.start : Parser F)) hes rfl
  rw [hzero, Nat.zero_add] at hlen hfits
  have hend : ∀ {stack : Stack F ε} {m'}, Stands malloc q stack m' →
      stack = expressions es.length := by
    intro stack m' h
    cases h with
    | expression hn _ => rw [← hn, hlen]
    | _ => cases hq
  -- behind the last expression is the empty `cfg_list`
  have hlast : ∀ m', (automaton F malloc).Peaks (es.length + 1) ⟨expressions es.length, [], m'⟩
      ⟨[(.cfgList, .none)], [], m'⟩ := fun m' => reaches_cfgList rfl
  rw [hfits]
  constructor
  · rintro ⟨htake, hle⟩ c hc
    obtain ⟨q', htake⟩ := Option.isSome_iff_exists.mp htake
    obtain rfl : q' = q := Option.some.inj ((run_of_take htake).symm.trans hrun)
    obtain ⟨stack, m', hreach, hstands⟩ := hstart.reachesWithin htake
    rw [List.append_nil, hend hstands] at hreach
    exact Automaton.ReachesWithin.length_le (hreach.trans ((hlast m').within.mono hle))
      (Nat.zero_le k) (Automaton.not_goes_accept rfl) hc
  · intro hall
    obtain ⟨htake, stack, m', hreach, hstands⟩ :=
      hstart.take_of_length_le hrun (by rwa [List.append_nil])
    rw [List.append_nil, hend hstands] at hreach
    obtain ⟨c, hc, hheight⟩ := (hlast m').attained
    exact ⟨by rw [htake]; rfl, hheight ▸ hall c (hreach.trans hc)⟩

/-- What is accepted is in memory, and no two values share a block. -/
theorem parseConfig_of_accept (malloc : Malloc ε) (hm : m.lists.Live gList)
    (h : Parser.start.accept ts = some cfg) :
    ∃ m' bs, (∃ N, ∀ fuel, N ≤ fuel → parseConfig malloc fuel ts m = some (0, m')) ∧
      HasParams m'.values m'.params cfg.params bs ∧ bs.Nodup ∧ m'.numParams = cfg.numParams := by
  have hrun := (stands_start malloc hm).run ts
  rw [h] at hrun
  obtain ⟨m', bs, ⟨N, hhalts⟩, hcollects⟩ := hrun
  refine ⟨m', bs, ⟨N, fun fuel hfuel => ?_⟩, hcollects.params,
    (List.nodup_append'.mp hcollects.nodup).1, hcollects.count⟩
  simp [Bison.parseConfig, yyparse, hhalts fuel hfuel]

/-- Where the parser stops with an error, `parseConfig` frees the configuration. -/
theorem parseConfig_of_refuse (malloc : Malloc ε) (hm : m.lists.Live gList)
    (h : (Parser.start : Parser F).accept ts = none) :
    ∃ m', (∃ N, ∀ fuel, N ≤ fuel → parseConfig malloc fuel ts m = some (-1, m')) ∧
      m'.params = [] := by
  have hrun := (stands_start malloc hm).run ts
  rw [h] at hrun
  obtain ⟨m₁, cfg, bs, es, elems, ⟨N, hhalts⟩, hcollects⟩ := hrun
  obtain ⟨m', hfree, hparams⟩ :=
    freeConfig_spec hcollects.params rfl (List.nodup_append'.mp hcollects.nodup).1
  refine ⟨m', ⟨N + 2, fun fuel hfuel => ?_⟩, hparams⟩
  obtain ⟨fuel, rfl⟩ : ∃ k, fuel = k + 2 := ⟨fuel - 2, by omega⟩
  rw [Bison.parseConfig, yyparse, hhalts (fuel + 2) (by omega)]
  simp [hfree]

/-- What a file is read as is built of its tokens. -/
theorem parseConfig_of_reads {ft : FloatText F} {s : List UInt8} (malloc : Malloc ε)
    (hm : m.lists.Live gList) (hscan : Scans ft s ts) (h : Reads ft s cfg) :
    ∃ m' bs, (∃ N, ∀ fuel, N ≤ fuel → parseConfig malloc fuel ts m = some (0, m')) ∧
      HasParams m'.values m'.params cfg.params bs ∧ bs.Nodup ∧ m'.numParams = cfg.numParams :=
  parseConfig_of_accept malloc hm (hscan.reads_iff.mp h)

/-- `parseConfig` builds what the tokens assign: the values are in memory, in the order of the
file, and no two of them share a block. On all other tokens it fails, and leaves no parameter.
The variable `_g_list` is there; it may hold anything. -/
theorem parseConfig_builds (malloc : Malloc ε) (ts : List (Token F)) (m : Memory F ε)
    (hm : m.lists.Live gList) :
    (∀ params, Assigns ts params → ∃ m' bs,
      (∃ N, ∀ fuel, N ≤ fuel → parseConfig malloc fuel ts m = some (0, m')) ∧
        HasParams m'.values m'.params params bs ∧ bs.Nodup ∧ m'.numParams = params.length) ∧
      ((∀ params, ¬ Assigns ts params) → ∃ m',
        (∃ N, ∀ fuel, N ≤ fuel → parseConfig malloc fuel ts m = some (-1, m')) ∧
          m'.params = []) := by
  constructor
  · intro params hassigns
    exact parseConfig_of_accept malloc hm (accept_eq_some_iff.mpr ⟨params, hassigns, rfl⟩)
  · intro hnone
    refine parseConfig_of_refuse malloc hm ?_
    by_contra hsome
    obtain ⟨cfg, hcfg⟩ := Option.ne_none_iff_exists'.mp hsome
    obtain ⟨params, hassigns, -⟩ := accept_eq_some_iff.mp hcfg
    exact hnone params hassigns

section Sample

/-- Blocks that are numbers. -/
def counting : Malloc ℕ := { block := id, distinct := Function.injective_id }

/-- Memory before the first file, with NULL in the links of `_g_list`. -/
def untouched : Memory Unit ℕ where
  lists := Function.update (fun _ => none) gList (some ⟨none, none⟩)
  values := fun _ => none
  allocated := 0
  params := []
  numParams := 0

/-- `a = [1, 2` -/
def openList : List (Token Unit) :=
  [.parameter (.ofBytes (bytes "a")), .assignment, .listOpen, .decimal 1, .comma, .decimal 2]

/-- The value of `[1, 2]`. -/
def oneTwo : ParamValue Unit :=
  Config.allocPValueList [allocElem .integer (.ival 1), allocElem .integer (.ival 2)]

/-- A list twice, and once more with no bracket at its end. -/
theorem parseConfig_builds_two :
    (∃ m' bs, (∃ N, ∀ fuel, N ≤ fuel →
        parseConfig counting fuel (openList ++ .listClose :: (openList ++ [.listClose])) untouched =
          some (0, m')) ∧
      HasParams m'.values m'.params [{ name := .ofBytes (bytes "a"), val := oneTwo },
        { name := .ofBytes (bytes "a"), val := oneTwo }] bs ∧ bs.Nodup ∧ m'.numParams = 2) ∧
    ∃ m', (∃ N, ∀ fuel, N ≤ fuel →
        parseConfig counting fuel (openList ++ .listClose :: openList) untouched =
          some (-1, m')) ∧ m'.params = [] := by
  have hlist : Separated [.decimal 1, .comma, .decimal 2]
      [allocElem .integer (.ival 1), (allocElem .integer (.ival 2) : Elem Unit)] :=
    .cons rfl (.single rfl)
  refine ⟨(parseConfig_builds counting _ untouched (by simp [untouched, Heap.Live])).1 _
      (.list _ hlist (.list _ hlist .nil)),
    (parseConfig_builds counting _ untouched (by simp [untouched, Heap.Live])).2 fun params h => ?_⟩
  cases accept_eq_some_iff.mpr ⟨params, h, rfl⟩

end Sample

end Bison

end Config

end Infra
