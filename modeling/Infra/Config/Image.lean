import Infra.Config.History
import Infra.Config.RoundTrip
import Infra.Config.Tags

/-!
# What the writer writes and the parser accepts

Every line that the writer makes is scanned, whatever its parameter, and the parser
then adds a parameter or refuses the line. It refuses the names that are words for a
boolean, and the lists without elements: `writeParameter` writes `[  ]` for these,
and `value_sequence` derives no empty sequence. One such line and the whole file is
rejected.
-/

namespace Infra

namespace Config

open Infra.Ascii

variable {F : Type} {ft : FloatText F} {cfg cfg' : ConfigCB F} {p : ConfigParameter F}
  {name s : CString} {op : Op F} {ops : List (Op F)} {ts : List (Token F)}

/-- What the line of a parameter is read as. -/
def rereadLine (ft : FloatText F) (p : ConfigParameter F) : Option (ConfigParameter F) :=
  match p.val.payload with
  | .array _ [] => none
  | _ => rereadParam ft p

/-- The parameter is written as a line, and the tokens of this line make the parser add
what the line is read as. -/
def LineRead (ft : FloatText F) (p : ConfigParameter F) : Prop :=
  ∃ line ts, writeParameter ft p = some line ∧
    (∀ rest ts', Scans ft rest ts' → Scans ft (line ++ rest) (ts ++ ts')) ∧
    ∀ cfg rest, (lineStart cfg).accept (ts ++ rest) = (rereadLine ft p).bind fun q =>
      (lineStart (addParameter cfg q)).accept rest

/-- An argument of `addListValue` that is written without a sign, a fraction or an
escape. -/
def ListArg.Plain : ListArg F → Prop
  | .string sval => byte '"' ∉ sval.bytes ∧ byte '\\' ∉ sval.bytes
  | .integer ival => 0 ≤ ival.toInt
  | .boolean _ => True
  | .float _ => False

/-- A call that adds a parameter with such a value, or with a list of such values, under
an identifier. -/
def Op.AddsPlain (op : Op F) : Prop :=
  match op with
  | .addIntegerValue name value =>
      IsIdentifier name.bytes ∧ (ListArg.integer value : ListArg F).Plain
  | .addBoolValue name value => IsIdentifier name.bytes ∧ (ListArg.boolean value : ListArg F).Plain
  | .addStringValue name str => IsIdentifier name.bytes ∧ (ListArg.string str : ListArg F).Plain
  | .addListValue name args => IsIdentifier name.bytes ∧ ∀ arg ∈ args, arg.Plain
  | _ => False

/-- The name is no word for a boolean, and a list is not empty. -/
def Op.Readable (op : Op F) : Prop :=
  match op with
  | .addIntegerValue name _ | .addBoolValue name _ | .addStringValue name _ => ¬ IsKeyword name
  | .addListValue name args => ¬ IsKeyword name ∧ args ≠ []
  | _ => True

/-- A step of a history that adds plain values. -/
def PlainCalls (cfg : ConfigCB F) (op : Op F) (cfg' : ConfigCB F) : Prop :=
  op.AddsPlain ∧ Calls cfg op cfg'

/-! ## One line -/

theorem rereadLine_of_legible (h : (paramTokens ft p).isSome) :
    rereadLine ft p = rereadParam ft p := by
  obtain ⟨ts, hts⟩ := Option.isSome_iff_exists.mp h
  unfold rereadLine
  rcases paramTokens_eq_some hts with ⟨value, t, hval, -⟩ | ⟨elems, ts', hval, helems, -⟩
  · rw [hval]
  · rw [hval]
    cases elems with
    | nil => cases helems
    | cons e es => rfl

theorem lineRead_of_legible (h : Legible ft p) : LineRead ft p := by
  obtain ⟨ts, hts⟩ := Option.isSome_iff_exists.mp h.2
  obtain ⟨line, hline, hscan⟩ := scans_parameter h.1 hts
  refine ⟨line, ts, hline, fun rest ts' => hscan, fun cfg rest => ?_⟩
  rw [rereadLine_of_legible h.2]
  exact accept_parameter hts

/-- A list without elements is written as two brackets, and the parser expects an
element between them. -/
theorem lineRead_nil (hname : IsIdentifier name.bytes) :
    LineRead ft { name := name, val := allocPValueList [] } := by
  refine ⟨padName name ++ bytes "= [ " ++ [] ++ bytes " ]\n",
    [nameToken name, .assignment, .listOpen, .listClose], rfl, fun rest ts' h => ?_,
    fun cfg rest => ?_⟩
  · simp only [List.append_assoc, List.nil_append, List.cons_append]
    refine scans_assignment hname ?_
    refine scans_mark ⟨by decide, by decide, by decide⟩ rfl (scans_blank (scans_blank ?_))
    exact scans_mark ⟨by decide, by decide, by decide⟩ rfl (scans_newline h)
  · by_cases hkey : IsKeyword name
    · rw [List.cons_append, accept_cons, step_nameToken_keyword hkey]
      rfl
    · simp [nameToken_eq hkey, accept_cons, Parser.step, lineStart, unitValue, rereadLine,
        allocPValueList]

/-! ## The lines of a configuration -/

theorem lineRead_lines {ps : List (ConfigParameter F)} (h : ∀ p ∈ ps, LineRead ft p) :
    ∃ lines ts, writeParameters ft ps = some lines ∧ Scans ft lines ts ∧
      ∀ cfg, (lineStart cfg).accept ts = (ps.mapM (rereadLine ft)).map fun qs =>
        { params := cfg.params ++ qs, numParams := cfg.numParams + qs.length } := by
  induction ps with
  | nil => exact ⟨[], [], rfl, .eof, fun cfg => by simp [Parser.accept, lineStart]⟩
  | cons p ps ih =>
      rw [List.forall_mem_cons] at h
      obtain ⟨line, ts₁, hline, hscan, haccept⟩ := h.1
      obtain ⟨lines, ts₂, hlines, hscans, haccepts⟩ := ih h.2
      refine ⟨line ++ lines, ts₁ ++ ts₂, by simp [writeParameters, hline, hlines],
        hscan _ _ hscans, fun cfg => ?_⟩
      rw [haccept, ← map_mapM_cons]
      simp only [haccepts]

/-- The text of a configuration is read as what its lines are read as. -/
theorem reads_lines (h : ∀ p ∈ cfg.params, LineRead ft p) :
    ∃ text, writeConfig ft cfg = some text ∧ ∀ cfg', Reads ft text cfg' ↔
      cfg.params.mapM (rereadLine ft) = some cfg'.params ∧
        cfg'.numParams = cfg'.params.length := by
  obtain ⟨lines, ts, hlines, hscan, haccept⟩ := lineRead_lines h
  refine ⟨bytes "#\n#\n#\n\n" ++ lines, by simp [writeConfig, hlines], fun cfg' => ?_⟩
  exact reads_iff_of_accept (scans_header hscan) haccept

/-- As many parameters are read as there are lines, unless a line is refused. -/
theorem reads_all_iff (h : ∀ p ∈ cfg.params, LineRead ft p) :
    ∃ text, writeConfig ft cfg = some text ∧
      ((∃ cfg', Reads ft text cfg' ∧ cfg'.params.length = cfg.params.length ∧
        cfg'.numParams = cfg.params.length) ↔ ∀ p ∈ cfg.params, (rereadLine ft p).isSome) := by
  obtain ⟨text, htext, hreads⟩ := reads_lines h
  refine ⟨text, htext, ?_⟩
  simp only [hreads, Option.isSome_iff_exists]
  constructor
  · rintro ⟨cfg', ⟨hmap, -⟩, -⟩ p hp
    obtain ⟨i, hi⟩ := List.mem_iff_getElem?.mp hp
    have hlt : i < cfg'.params.length := by
      rw [← (mapM_eq_some.mp hmap).length_eq]
      exact (List.getElem?_eq_some_iff.mp hi).1
    have hget := getElem?_of_mapM hmap i
    rw [hi, List.getElem?_eq_getElem hlt, Option.bind_some] at hget
    exact ⟨_, hget.symm⟩
  · intro hall
    obtain ⟨qs, hqs⟩ := exists_mapM_eq_some hall
    have hlen : qs.length = cfg.params.length := (mapM_eq_some.mp hqs).length_eq.symm
    exact ⟨{ params := qs, numParams := qs.length }, ⟨hqs, rfl⟩, hlen, by rw [hlen]⟩

/-! ## The lines of plain values -/

theorem isLiteralBody_of_plain (hquote : byte '"' ∉ s.bytes) (hslash : byte '\\' ∉ s.bytes) :
    IsLiteralBody s := by
  have hbody : ∀ w : List UInt8, byte '"' ∉ w → byte '\\' ∉ w → w ∈ stringBody.lang := by
    intro w hq hb
    induction w with
    | nil => exact Regex.nil_mem_star
    | cons c w ih =>
        rw [List.mem_cons, not_or] at hq hb
        refine Regex.append_mem_star (u := [c]) (Regex.mem_alt.mpr (Or.inr ?_)) (ih hq.2 hb.2)
        exact Regex.mem_cls.mpr ⟨c, by simpa using ⟨Ne.symm hb.1, Ne.symm hq.1⟩, rfl⟩
  exact hbody s.bytes hquote hslash

/-- The text of a plain value is one token, and this is a value. -/
theorem rereadElem_of_plain (ft : FloatText F) {arg : ListArg F} (h : arg.Plain) :
    ∃ e, rereadElem ft arg.elem = some e := by
  cases arg with
  | string sval =>
      have hbody := Regex.accepts_iff.mpr (isLiteralBody_of_plain h.1 h.2)
      refine ⟨allocElem .string (.sval sval), ?_⟩
      simp [rereadElem, ListArg.elem, allocElem, valueToken, hbody, unitValue]
  | float fval => exact h.elim
  | integer ival => exact ⟨_, rfl⟩
  | boolean ival => exact ⟨_, rfl⟩

theorem valueToken_of_rereadElem {e e' : Elem F} (h : rereadElem ft e = some e') :
    ∃ t, valueToken ft e = some t := by
  obtain ⟨t, ht, -⟩ := Option.bind_eq_some_iff.mp h
  exact ⟨t, ht⟩

/-- The line of a scalar is refused for its name only. -/
theorem line_scalar {ptype : ParamType} {value : Scalar F} {e : Elem F}
    (hname : IsIdentifier name.bytes) (he : rereadElem ft (allocElem ptype value) = some e) :
    LineRead ft { name := name, val := allocPValue ptype value } ∧
      ((rereadLine ft { name := name, val := allocPValue ptype value }).isSome ↔
        ¬ IsKeyword name) := by
  obtain ⟨t, ht⟩ := valueToken_of_rereadElem he
  have htokens : (paramTokens ft { name := name, val := allocPValue ptype value }).isSome := by
    cases ptype with
    | list => simp [valueToken, allocElem] at ht
    | _ => simp [paramTokens, allocPValue, ht]
  refine ⟨lineRead_of_legible ⟨hname, htokens⟩, ?_⟩
  rw [rereadLine_of_legible htokens]
  by_cases hkey : IsKeyword name
  · simp [rereadParam, hkey]
  · simp [rereadParam_scalar hkey, he, hkey]

/-- The line of a list is refused for its name, or for want of elements. -/
theorem line_list {elems : List (Elem F)} (hname : IsIdentifier name.bytes)
    (helems : ∀ e ∈ elems, ∃ e', rereadElem ft e = some e') :
    LineRead ft { name := name, val := allocPValueList elems } ∧
      ((rereadLine ft { name := name, val := allocPValueList elems }).isSome ↔
        ¬ IsKeyword name ∧ elems ≠ []) := by
  by_cases hne : elems = []
  · subst hne
    exact ⟨lineRead_nil hname, by simp [rereadLine, allocPValueList]⟩
  · have hlegible : Legible ft { name := name, val := allocPValueList elems } := by
      refine legible_list hname hne fun e he => ?_
      obtain ⟨e', he'⟩ := helems e he
      exact Option.isSome_iff_exists.mpr (valueToken_of_rereadElem he')
    refine ⟨lineRead_of_legible hlegible, ?_⟩
    rw [rereadLine_of_legible hlegible.2]
    by_cases hkey : IsKeyword name
    · simp [rereadParam, hkey]
    · obtain ⟨es, hes⟩ := exists_mapM_eq_some helems
      simp [rereadParam_list hkey, hes, hkey, hne]

/-- A plain call adds a parameter whose line is read when the call is readable, and
refused when it is not. -/
theorem line_of_call (ft : FloatText F) (hop : op.AddsPlain) (h : op.call cfg = some cfg') :
    ∃ p, cfg' = addParameter cfg p ∧ LineRead ft p ∧
      ((rereadLine ft p).isSome ↔ op.Readable) := by
  cases op with
  | addIntegerValue name value =>
      obtain rfl := Option.some.inj h
      obtain ⟨e, he⟩ := rereadElem_of_plain ft hop.2
      exact ⟨_, rfl, line_scalar hop.1 he⟩
  | addBoolValue name value =>
      obtain rfl := Option.some.inj h
      obtain ⟨e, he⟩ := rereadElem_of_plain ft hop.2
      exact ⟨_, rfl, line_scalar hop.1 he⟩
  | addStringValue name str =>
      obtain rfl := Option.some.inj h
      obtain ⟨e, he⟩ := rereadElem_of_plain ft hop.2
      exact ⟨_, rfl, line_scalar hop.1 he⟩
  | addListValue name args =>
      obtain rfl := Option.some.inj h
      have helems : ∀ e ∈ args.map ListArg.elem, ∃ e', rereadElem ft e = some e' := by
        rw [List.forall_mem_map]
        exact fun arg harg => rereadElem_of_plain ft (hop.2 arg harg)
      obtain ⟨hline, hread⟩ := line_list hop.1 helems
      refine ⟨_, rfl, hline, hread.trans ?_⟩
      rw [ne_eq, List.map_eq_nil_iff]
      rfl
  | _ => exact hop.elim

/-! ## Histories -/

/-- The lines of a history of plain calls: one for each call, and one that is refused
for each call that is not readable. -/
theorem lines_of_history (ft : FloatText F) (hrun : Trace PlainCalls initConfig ops cfg) :
    cfg.params.length = ops.length ∧ (∀ p ∈ cfg.params, LineRead ft p) ∧
      ((∀ p ∈ cfg.params, (rereadLine ft p).isSome) ↔ ∀ op ∈ ops, op.Readable) := by
  induction hrun with
  | nil => simp [initConfig]
  | concat _ hstep ih =>
      obtain ⟨hlen, hlines, hread⟩ := ih
      obtain ⟨p, rfl, hline, hp⟩ := line_of_call ft hstep.1 hstep.2
      refine ⟨by simp [addParameter, hlen], ?_, ?_⟩
      · rw [addParameter, List.forall_mem_append, List.forall_mem_singleton]
        exact ⟨hlines, hline⟩
      · rw [addParameter, List.forall_mem_append, List.forall_mem_singleton,
          List.forall_mem_append, List.forall_mem_singleton, hread, hp]

/-- A configuration that plain calls have made is written, and the file is accepted with
a parameter for each call just when no name is a word for a boolean and no list is
empty. -/
theorem written_accepted_iff (ft : FloatText F) (hrun : Trace PlainCalls initConfig ops cfg) :
    ∃ text, writeConfig ft cfg = some text ∧
      ((∃ cfg', Reads ft text cfg' ∧ cfg'.params.length = ops.length ∧
        cfg'.numParams = ops.length) ↔ ∀ op ∈ ops, op.Readable) := by
  obtain ⟨hlen, hlines, hread⟩ := lines_of_history ft hrun
  rw [← hread, ← hlen]
  exact reads_all_iff hlines

section Sample

/-- A boolean and a list with an integer and a string. -/
def plainCalls : List (Op Unit) :=
  [.addBoolValue (.ofBytes (bytes "b")) 5,
    .addListValue (.ofBytes (bytes "l")) [.integer 0, .string (.ofBytes (bytes "#"))]]

theorem written_accepted_iff_plainCalls : ∃ cfg text cfg',
    Trace PlainCalls initConfig plainCalls cfg ∧ writeConfig FloatText.zero cfg = some text ∧
      Reads FloatText.zero text cfg' ∧ cfg'.params.length = 2 ∧ cfg'.numParams = 2 := by
  have hb : IsName (.ofBytes (bytes "b")) := isName_single (by decide)
  have hl : IsName (.ofBytes (bytes "l")) := isName_single (by decide)
  have hargs : ∀ arg ∈ [ListArg.integer 0, .string (.ofBytes (bytes "#"))],
      (arg : ListArg Unit).Plain := by
    rw [List.forall_mem_cons, List.forall_mem_singleton]
    exact ⟨(by decide : 0 ≤ (0 : BitVec 32).toInt),
      (by decide : byte '"' ∉ (CString.ofBytes (bytes "#")).bytes),
      (by decide : byte '\\' ∉ (CString.ofBytes (bytes "#")).bytes)⟩
  have hrun : Trace PlainCalls initConfig plainCalls _ :=
    (Trace.single ⟨⟨hb.1, trivial⟩, rfl⟩).concat ⟨⟨hl.1, hargs⟩, rfl⟩
  have hreadable : ∀ op ∈ plainCalls, op.Readable := by
    rw [plainCalls, List.forall_mem_cons, List.forall_mem_singleton]
    exact ⟨hb.2, hl.2, by simp⟩
  obtain ⟨text, htext, hiff⟩ := written_accepted_iff FloatText.zero hrun
  obtain ⟨cfg', hreads⟩ := hiff.mpr hreadable
  exact ⟨_, text, cfg', hrun, htext, hreads⟩

/-- A list without elements is written and not accepted. -/
theorem emptyList_rejected : ¬ ∀ (ops : List (Op Unit)) (cfg : ConfigCB Unit) (text : List UInt8),
    Trace PlainCalls initConfig ops cfg → writeConfig FloatText.zero cfg = some text →
      ∃ cfg', Reads FloatText.zero text cfg' ∧ cfg'.params.length = ops.length := by
  intro h
  have ha : IsIdentifier nameA.bytes := (isName_single (by decide)).1
  have hrun : Trace PlainCalls (initConfig : ConfigCB Unit) [.addListValue nameA []] _ :=
    .single ⟨⟨ha, by simp⟩, rfl⟩
  obtain ⟨cfg', ⟨N, hreads⟩, -⟩ := h _ _ _ hrun rfl
  have hreject : parseConfig FloatText.zero 40
      (some (bytes "#\n#\n#\n\na                   = [  ]\n")) =
        some (-1, (initConfig : ConfigCB Unit)) := by decide +kernel
  have hsame := parseConfig_mono (le_max_right N 40) hreject
  cases (hreads _ (le_max_left N 40)).symm.trans hsame

end Sample

end Config

end Infra
