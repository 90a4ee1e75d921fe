import Infra.Config.History
import Infra.Config.Stack

/-!
# The counter of the parameters

`numParams` is counted up and down with the list by every call but one: `freeConfig`
empties the list and leaves the counter alone. So a configuration that is freed keeps
its old count, and so does one whose file is rejected after some of its parameters were
loaded, which `parseConfig` frees. The counter is an `int`, and so the count is right only
while the list has less than 2^31 parameters; the stack of the parser ends before that.
-/

namespace Infra

namespace Config

open Infra.Ascii

variable {F : Type} {ft : FloatText F} {stack : ℕ} {cfg cfg' : ConfigCB F} {p q : Parser F}
  {s : List UInt8} {ts : List (Token F)} {fuel : ℕ}

/-- A call that reads, changes or frees a configuration. -/
inductive Request (F : Type) where
  | edit (op : Op F)
  | addParameter (param : ConfigParameter F)
  | freeConfig
  | parseConfig (file : Option (List UInt8))

/-- A step of a history; a parse is one that ends. -/
def Requests (stack : ℕ) (ft : FloatText F) (cfg : ConfigCB F) (req : Request F)
    (cfg' : ConfigCB F) : Prop :=
  match req with
  | .edit op => op.call cfg = some cfg'
  | .addParameter param => cfg' = Config.addParameter cfg param
  | .freeConfig => cfg' = Config.freeConfig cfg
  | .parseConfig file => ∃ fuel ret, parseConfigWithin stack ft fuel file = some (ret, cfg')

/-- The counter is the number of parameters in the list. -/
def Counted (cfg : ConfigCB F) : Prop := cfg.numParams.toInt = cfg.params.length

/-- The tokens of the file are those of a configuration, and they fit on the stack. -/
def Accepted (stack : ℕ) (ft : FloatText F) (s : List UInt8) : Prop :=
  ∃ es, Scans ft s es.flatten ∧ (∀ e ∈ es, CfgExpression e) ∧ FitsOnStack stack 0 es

/-- The file begins with an expression that is complete and fits on the stack. -/
def BeginsExpression (stack : ℕ) (ft : FloatText F) (s : List UInt8) : Prop :=
  ∃ e, CfgExpression e ∧ room e ≤ stack ∧ BeginsWith ft s e

/-- The call adds a parameter. -/
def Op.Adds (cfg : ConfigCB F) : Op F → Prop
  | .setParamString name _ | .setParamInteger name _ | .setParamBool name _ =>
      lookupConfig cfg name = none
  | .delParameter _ => False
  | _ => True

/-- What gets another parameter has less than 2^31 with it, what is freed has none, and a
file that begins with an expression is accepted. -/
def Request.Keeps (stack : ℕ) (ft : FloatText F) (cfg : ConfigCB F) : Request F → Prop
  | .edit op => op.Adds cfg → cfg.params.length + 1 < 2 ^ 31
  | .addParameter _ => cfg.params.length + 1 < 2 ^ 31
  | .freeConfig => cfg.params = []
  | .parseConfig file =>
      ∀ s, file = some s → BeginsExpression stack ft s → Accepted stack ft s

/-! ## The calls that change a configuration -/

/-- The counter counts another parameter as long as an `int` does. -/
theorem counted_addParameter_iff {param : ConfigParameter F} (h : Counted cfg) :
    Counted (addParameter cfg param) ↔ cfg.params.length + 1 < 2 ^ 31 := by
  have hone : (1 : BitVec 32).toInt = 1 := rfl
  simp only [Counted, Config.addParameter, List.length_append, List.length_singleton,
    BitVec.toInt_add, hone, Int.bmod_def] at h ⊢
  split <;> omega

theorem counted_putValue_iff {name : CString} {type : ParamType} {value : Scalar F}
    (h : Counted cfg) : Counted (putValue cfg name type value) ↔
      (lookupConfig cfg name = none → cfg.params.length + 1 < 2 ^ 31) := by
  unfold Config.putValue
  cases hp : lookupConfig cfg name with
  | none => simpa using counted_addParameter_iff h
  | some p =>
      obtain ⟨hname, pre, post, hparams, hpre⟩ := lookupConfig_eq_some.mp hp
      have hstore : (storeFirst cfg name (.scalar value)).params.length = cfg.params.length := by
        rw [storeFirst_append hparams hname hpre, hparams]
        simp
      exact iff_of_true (h.trans (congrArg _ hstore.symm)) (by simp)

/-- A call other than `freeConfig` and `parseConfig` keeps the count, unless the counter is
at its end. -/
theorem counted_call_iff {op : Op F} (h : Counted cfg) (hcall : op.call cfg = some cfg') :
    Counted cfg' ↔ (op.Adds cfg → cfg.params.length + 1 < 2 ^ 31) := by
  have hadd : ∀ param : ConfigParameter F, Counted (Config.addParameter cfg param) ↔
      (True → cfg.params.length + 1 < 2 ^ 31) := fun param => by
    simpa using counted_addParameter_iff h
  cases op with
  | setParamString name value =>
      obtain ⟨-, rfl⟩ := setParamString_eq_some.mp hcall
      exact counted_putValue_iff h
  | setParamInteger name value =>
      obtain rfl := Option.some.inj hcall
      rw [setParamInteger_eq]
      exact counted_putValue_iff h
  | setParamBool name value =>
      obtain rfl := Option.some.inj hcall
      rw [setParamBool_eq]
      exact counted_putValue_iff h
  | delParameter param =>
      obtain ⟨p, hp, hrest⟩ := Option.bind_eq_some_iff.mp hcall
      obtain ⟨-, -, hcfg⟩ := Option.bind_eq_some_iff.mp hrest
      obtain rfl := Option.some.inj hcfg
      have hlt := (List.getElem?_eq_some_iff.mp hp).1
      have hone : (1 : BitVec 32).toInt = 1 := rfl
      have hle := BitVec.toInt_lt (x := cfg.numParams)
      refine iff_of_true ?_ (by simp [Op.Adds])
      simp only [Counted, List.length_eraseIdx, hlt, if_true, BitVec.toInt_sub, hone,
        Int.bmod_def] at h ⊢
      split <;> omega
  | _ =>
      obtain rfl := Option.some.inj hcall
      exact hadd _

/-! ## The parse -/

/-- The parser has taken the tokens that the file begins with when it stops. -/
theorem beginsWith_of_yyparse {ok : Bool} (h : yyparseWithin stack ft fuel p s = some (q, ok)) :
    ∃ ts, BeginsWith ft s ts ∧ ts.foldlM (Parser.take stack) p = some q := by
  induction fuel generalizing s p with
  | zero => cases h
  | succ fuel ih =>
      obtain ⟨⟨t, s'⟩, hlex, h⟩ := Option.bind_eq_some_iff.mp h
      cases t with
      | none =>
          obtain rfl : p = q := (Prod.mk.inj (Option.some.inj h)).1
          exact ⟨[], .nil, rfl⟩
      | some t =>
          cases hstep : p.take stack t with
          | none =>
              simp only [hstep] at h
              obtain rfl : p = q := (Prod.mk.inj (Option.some.inj h)).1
              exact ⟨[], .nil, rfl⟩
          | some p' =>
              simp only [hstep] at h
              obtain ⟨ts, hbegins, hrun⟩ := ih h
              exact ⟨t :: ts, .cons hlex hbegins, by simp [hstep, hrun]⟩

theorem BeginsWith.left (ts' : List (Token F)) (h : BeginsWith ft s (ts ++ ts')) :
    BeginsWith ft s ts := by
  induction ts generalizing s with
  | nil => exact .nil
  | cons t ts ih =>
      cases h with
      | cons hlex h => exact .cons hlex (ih h)

/-- The parser goes through the tokens that the file begins with. -/
theorem BeginsWith.yyparse {ok : Bool} {p' : Parser F} (h : BeginsWith ft s ts)
    (hrun : ts.foldlM (Parser.take stack) p = some p')
    (hparse : yyparseWithin stack ft fuel p s = some (q, ok)) :
    ∃ fuel' s', yyparseWithin stack ft fuel' p' s' = some (q, ok) := by
  induction h generalizing p fuel with
  | nil =>
      obtain rfl := Option.some.inj hrun
      exact ⟨fuel, _, hparse⟩
  | @cons k s s' t ts hlex _ ih =>
      rw [List.foldlM_cons] at hrun
      obtain ⟨p₁, hstep, hrun⟩ := Option.bind_eq_some_iff.mp hrun
      cases fuel with
      | zero => cases hparse
      | succ fuel =>
          obtain ⟨⟨t', s''⟩, hlex', hrest⟩ := Option.bind_eq_some_iff.mp hparse
          have hsame := yylex_mono (le_max_left k fuel) hlex
          rw [yylex_mono (le_max_right k fuel) hlex'] at hsame
          obtain ⟨rfl, rfl⟩ := Prod.mk.inj (Option.some.inj hsame)
          simp only [hstep] at hrest
          exact ih hrun hrest

/-- When the parser stops it has loaded a parameter if and only if the file begins with
an expression. -/
theorem yyparse_loads_iff {ok : Bool}
    (h : yyparseWithin stack ft fuel Parser.start s = some (q, ok)) :
    q.cfg.params ≠ [] ↔ BeginsExpression stack ft s := by
  constructor
  · intro hparams
    obtain ⟨ts, hbegins, hrun⟩ := beginsWith_of_yyparse h
    obtain ⟨es, part, hes, hts, -, hlen, -⟩ := hasRead_start.run (run_of_take hrun)
    cases es with
    | nil => exact absurd (List.length_eq_zero_iff.mp hlen) hparams
    | cons e es =>
        obtain rfl : ts = e ++ (es.flatten ++ part) := by
          rw [List.nil_append, List.flatten_cons, List.append_assoc] at hts
          exact hts
        have he : CfgExpression e := hes e List.mem_cons_self
        obtain ⟨_, -, -, htake⟩ := he.take stack (p := Parser.start) rfl
        have hroom := ((htake _).mp (by rw [hrun]; rfl)).1
        rw [show (Parser.start : Parser F).cfg.params.length = 0 from rfl, Nat.zero_add] at hroom
        exact ⟨e, he, hroom, hbegins.left⟩
  · rintro ⟨e, he, hroom, hbegins⟩
    obtain ⟨q', -, hlen, htake⟩ := he.take stack (p := Parser.start) rfl
    have hsome := (htake []).mpr ⟨by simpa [Parser.start, initConfig] using hroom, rfl⟩
    rw [List.append_nil] at hsome
    obtain ⟨p', hrun⟩ := Option.isSome_iff_exists.mp hsome
    obtain ⟨p'', param, hrun', -, hcfg⟩ := he.run (p := Parser.start) rfl
    obtain rfl : p'' = p' := Option.some.inj (hrun'.symm.trans (run_of_take hrun))
    obtain ⟨fuel', s', hrest⟩ := hbegins.yyparse hrun h
    obtain ⟨ts, -, hrun'⟩ := beginsWith_of_yyparse hrest
    obtain ⟨params, hparams⟩ := params_of_run (run_of_take hrun')
    simp [hparams, hcfg, addParameter]

/-- On the tokens of a file the parser stops where it takes no more of them. -/
theorem Scans.within (h : Scans ft s ts)
    (hrun : ts.foldlM (Parser.take stack) p = some q) {r : Parser F × Bool}
    (hparse : yyparseWithin stack ft fuel p s = some r) :
    r = (q, decide (q.expect = .expression ∧ q.depth + 1 ≤ stack)) := by
  induction fuel generalizing s ts p with
  | zero => cases hparse
  | succ fuel ih =>
      obtain ⟨⟨t, s'⟩, hlex, hrest⟩ := Option.bind_eq_some_iff.mp hparse
      have hfirst := h.lexesFirst (show s.length < max fuel (s.length + 1) by omega)
      have hlex := yylex_mono (le_max_left fuel (s.length + 1)) hlex
      cases ts with
      | nil =>
          obtain rfl : p = q := Option.some.inj hrun
          have hnone : yylex ft (max fuel (s.length + 1)) s = some (none, []) := hfirst
          rw [hnone] at hlex
          cases hlex
          exact (Option.some.inj hrest).symm
      | cons t₁ ts =>
          obtain ⟨s₁, hsome, hscan, -⟩ := hfirst
          rw [hsome] at hlex
          cases hlex
          rw [List.foldlM_cons] at hrun
          obtain ⟨p', hstep, hrun⟩ := Option.bind_eq_some_iff.mp hrun
          simp only [hstep] at hrest
          exact ih hscan hrun hrest

/-- A file that is accepted has been taken to its end. -/
theorem scans_of_within (h : yyparseWithin stack ft fuel p s = some (q, true)) :
    ∃ ts, Scans ft s ts ∧ ts.foldlM (Parser.take stack) p = some q ∧
      q.expect = .expression ∧ q.depth + 1 ≤ stack := by
  induction fuel generalizing s p with
  | zero => cases h
  | succ fuel ih =>
      obtain ⟨⟨t, s'⟩, hlex, h⟩ := Option.bind_eq_some_iff.mp h
      cases t with
      | none =>
          simp only [Option.some.injEq, Prod.mk.injEq, decide_eq_true_eq] at h
          obtain ⟨rfl, hend⟩ := h
          obtain rfl := eq_nil_of_yylex hlex
          exact ⟨[], scans_of_yylex hlex .eof, rfl, hend⟩
      | some t =>
          cases hstep : p.take stack t with
          | none => simp [hstep] at h
          | some p' =>
              simp only [hstep] at h
              obtain ⟨ts, hscan, hrun, hend⟩ := ih h
              exact ⟨t :: ts, scans_of_yylex hlex hscan, by simp [hstep, hrun], hend⟩

/-- The files that are accepted are those that `parseConfig` returns 0 for. -/
theorem accepted_iff {ret : ℤ} (h : parseConfigWithin stack ft fuel (some s) = some (ret, cfg)) :
    Accepted stack ft s ↔ ret = 0 := by
  obtain ⟨⟨q, ok⟩, hyy, hret⟩ := Option.bind_eq_some_iff.mp h
  constructor
  · rintro ⟨es, hscan, hes, hfits⟩
    obtain ⟨hsome, hle⟩ := (fitsOnStack_iff (p := Parser.start) hes rfl).mp hfits
    obtain ⟨q', hrun⟩ := Option.isSome_iff_exists.mp hsome
    obtain ⟨q'', hrun', hexpect, hlen⟩ := run_expressions (p := (Parser.start : Parser F)) hes rfl
    obtain rfl : q'' = q' := Option.some.inj (hrun'.symm.trans (run_of_take hrun))
    have hdepth : q''.depth + 1 ≤ stack := by
      simp only [Parser.depth, hexpect]
      omega
    have hstop := hscan.within hrun hyy
    rw [decide_eq_true ⟨hexpect, hdepth⟩] at hstop
    cases hstop
    exact ((Prod.mk.inj (Option.some.inj hret)).1).symm
  · intro hzero
    cases ok with
    | false =>
        rw [← (Prod.mk.inj (Option.some.inj hret)).1] at hzero
        cases hzero
    | true =>
        obtain ⟨ts, hscan, hrun, hexpect, hdepth⟩ := scans_of_within hyy
        obtain ⟨es, part, hes, hts, hpart, hlen, -⟩ := hasRead_start.run (run_of_take hrun)
        rw [hexpect] at hpart
        obtain rfl : part = [] := hpart
        obtain rfl : ts = es.flatten := by simpa using hts
        have hroom : es.length + 1 ≤ stack := by
          simpa only [Parser.depth, hexpect, hlen] using hdepth
        have hfits := (fitsOnStack_iff (p := Parser.start) hes rfl).mpr
          ⟨by rw [hrun]; rfl, by simpa [Parser.start, initConfig] using hroom⟩
        exact ⟨es, hscan, hes, hfits⟩

/-- The stack of the parser ends before the counter does. -/
theorem counted_of_run (hstack : stack < 2 ^ 31)
    (hrun : ts.foldlM (Parser.take stack) Parser.start = some q) : Counted q.cfg := by
  obtain ⟨es, part, -, -, -, hlen, hnum⟩ := hasRead_start.run (run_of_take hrun)
  have hdepth := depth_le_of_run hrun (Nat.zero_le stack)
  have hle : q.cfg.params.length ≤ q.depth := Nat.le_add_right _ _
  have hlt : (q.cfg.params.length : BitVec 32).toNat = q.cfg.params.length := by
    rw [BitVec.natCast_eq_ofNat, BitVec.toNat_ofNat, Nat.mod_eq_of_lt (by omega)]
  rw [Counted, hnum, ← hlen, BitVec.toInt_eq_toNat_of_lt (by omega), hlt]

/-- A parse leaves a count that is right if and only if the file, when it begins with an
expression, is accepted as a whole. -/
theorem counted_parse_iff (hstack : stack < 2 ^ 31) {file : Option (List UInt8)} {ret : ℤ}
    (h : parseConfigWithin stack ft fuel file = some (ret, cfg)) :
    Counted cfg ↔
      ∀ s, file = some s → BeginsExpression stack ft s → Accepted stack ft s := by
  cases file with
  | none =>
      cases h
      exact iff_of_true rfl (by simp)
  | some s =>
      simp only [Option.some.injEq, forall_eq']
      rw [accepted_iff h]
      obtain ⟨⟨q, ok⟩, hyy, hret⟩ := Option.bind_eq_some_iff.mp h
      obtain ⟨ts, -, hrun⟩ := beginsWith_of_yyparse hyy
      have hcount : q.cfg.numParams.toInt = q.cfg.params.length := counted_of_run hstack hrun
      cases ok with
      | true =>
          cases hret
          exact iff_of_true hcount fun _ => rfl
      | false =>
          cases hret
          rw [← yyparse_loads_iff hyy, Counted, freeConfig, hcount]
          simp

/-! ## Histories -/

/-- A step that keeps the count. -/
def KeepingRequests (stack : ℕ) (ft : FloatText F) (cfg : ConfigCB F) (req : Request F)
    (cfg' : ConfigCB F) : Prop :=
  req.Keeps stack ft cfg ∧ Requests stack ft cfg req cfg'

/-- The steps that keep the count are those that free no parameters and add none that an
`int` does not count. -/
theorem keeps_iff {req : Request F} (hstack : stack < 2 ^ 31) (hcfg : Counted cfg)
    (h : Requests stack ft cfg req cfg') : req.Keeps stack ft cfg ↔ Counted cfg' := by
  cases req with
  | edit op => exact (counted_call_iff hcfg h).symm
  | addParameter param =>
      obtain rfl : cfg' = addParameter cfg param := h
      exact (counted_addParameter_iff hcfg).symm
  | freeConfig =>
      obtain rfl : cfg' = freeConfig cfg := h
      have hcount : cfg.numParams.toInt = cfg.params.length := hcfg
      rw [Counted, freeConfig, hcount]
      simp [Request.Keeps]
  | parseConfig file =>
      obtain ⟨fuel, ret, h⟩ := h
      exact (counted_parse_iff hstack h).symm

/-- In every history whose steps free no parameters, and add none that an `int` does not
count, the counter counts the list, and a step leaves a right count just when it is such a
step. A parse that returns -1 leaves the empty configuration just when its file does not
begin with an expression. -/
theorem numParams_counts_iff (hstack : stack < 2 ^ 31) {reqs : List (Request F)}
    (hrun : Trace (KeepingRequests stack ft) initConfig reqs cfg) :
    Counted cfg ∧
      (∀ req cfg', Requests stack ft cfg req cfg' → (req.Keeps stack ft cfg ↔ Counted cfg')) ∧
      ∀ fuel file cfg', parseConfigWithin stack ft fuel file = some (-1, cfg') →
        (cfg' = initConfig ↔ ∀ s, file = some s → ¬ BeginsExpression stack ft s) := by
  have hcfg : Counted cfg :=
    hrun.invariant (fun _ _ _ hcfg hstep => (keeps_iff hstack hcfg hstep.2).mp hstep.1) rfl
  refine ⟨hcfg, fun req cfg' h => keeps_iff hstack hcfg h, fun fuel file cfg' h => ?_⟩
  have hempty : cfg'.params = [] := by
    cases file with
    | none =>
        cases h
        rfl
    | some s =>
        obtain ⟨⟨q, ok⟩, -, hret⟩ := Option.bind_eq_some_iff.mp h
        cases ok <;> cases hret
        rfl
  have hinit : cfg' = initConfig ↔ Counted cfg' := by
    obtain ⟨params, numParams⟩ := cfg'
    cases hempty
    have hzero : numParams.toInt = 0 ↔ numParams = 0 := BitVec.toInt_inj (y := 0)
    simpa [initConfig, Counted] using hzero.symm
  rw [hinit, counted_parse_iff hstack h]
  refine forall₂_congr fun s hs => ⟨fun haccept hbegins => ?_, fun hnot hbegins => ?_⟩
  · subst hs
    exact absurd ((accepted_iff h).mp (haccept hbegins)) (by decide)
  · exact absurd hbegins hnot

section Sample

/-- A parameter is read from a file, another one is set and deleted, and a file without an
expression is rejected. -/
def readAndDelete : List (Request Unit) :=
  [.parseConfig (some (bytes "a = 1\n")), .edit (.setParamInteger (.ofBytes (bytes "b")) 2),
    .edit (.delParameter 0), .edit (.delParameter 0), .freeConfig,
    .parseConfig (some (bytes "= a"))]

theorem trace_readAndDelete :
    Trace (KeepingRequests 9998 FloatText.zero) initConfig readAndDelete initConfig := by
  let one : ConfigCB Unit := addIntegerValue initConfig (.ofBytes (bytes "a")) 1
  let two : ConfigCB Unit := addIntegerValue one (.ofBytes (bytes "b")) 2
  let rest : ConfigCB Unit := addIntegerValue initConfig (.ofBytes (bytes "b")) 2
  have hread : parseConfigWithin 9998 FloatText.zero 20 (some (bytes "a = 1\n")) =
      some (0, one) := by decide +kernel
  have hreject : parseConfigWithin 9998 FloatText.zero 20 (some (bytes "= a")) =
      some (-1, (initConfig : ConfigCB Unit)) := by decide +kernel
  have h₁ : KeepingRequests 9998 FloatText.zero initConfig
      (.parseConfig (some (bytes "a = 1\n"))) one :=
    ⟨(counted_parse_iff (by decide) hread).mp rfl, 20, 0, hread⟩
  have h₂ : KeepingRequests 9998 FloatText.zero one
      (.edit (.setParamInteger (.ofBytes (bytes "b")) 2)) two :=
    ⟨fun _ => by decide, show some _ = some two by decide +kernel⟩
  have h₃ : KeepingRequests 9998 FloatText.zero two (.edit (.delParameter 0)) rest :=
    ⟨False.elim, show delParameter two 0 = some rest by decide +kernel⟩
  have h₄ : KeepingRequests 9998 FloatText.zero rest (.edit (.delParameter 0)) initConfig :=
    ⟨False.elim, show delParameter rest 0 = some initConfig by decide +kernel⟩
  have h₅ : KeepingRequests 9998 FloatText.zero (initConfig : ConfigCB Unit) .freeConfig
      initConfig := ⟨rfl, rfl⟩
  have h₆ : KeepingRequests 9998 FloatText.zero (initConfig : ConfigCB Unit)
      (.parseConfig (some (bytes "= a"))) initConfig :=
    ⟨(counted_parse_iff (by decide) hreject).mp rfl, 20, -1, hreject⟩
  exact (((((Trace.single h₁).concat h₂).concat h₃).concat h₄).concat h₅).concat h₆

theorem numParams_counts_iff_readAndDelete :
    Counted (initConfig : ConfigCB Unit) ∧
      ∀ (req : Request Unit) cfg', Requests 9998 FloatText.zero initConfig req cfg' →
        (req.Keeps 9998 FloatText.zero initConfig ↔ Counted cfg') :=
  ⟨(numParams_counts_iff (by decide) trace_readAndDelete).1,
    (numParams_counts_iff (by decide) trace_readAndDelete).2.1⟩

/-- A file that is rejected behind a complete expression leaves a count of one. -/
theorem count_lost : ¬ ∀ (reqs : List (Request Unit)) (cfg : ConfigCB Unit),
    Trace (Requests 9998 FloatText.zero) initConfig reqs cfg → Counted cfg := by
  intro h
  have hreject : parseConfigWithin 9998 FloatText.zero 20 (some (bytes "a = 1 =")) =
      some (-1, ({ params := [], numParams := 1 } : ConfigCB Unit)) := by decide +kernel
  have hstep : Requests 9998 FloatText.zero initConfig (.parseConfig (some (bytes "a = 1 =")))
      ({ params := [], numParams := 1 } : ConfigCB Unit) := ⟨20, -1, hreject⟩
  exact absurd (h _ _ (.single hstep)) (by simp [Counted])

end Sample

end Config

end Infra
