import Infra.Config.Written
import Infra.Foundation.CInt

/-!
# What a written configuration is read as

Each value is read as the value of its token, and each parameter by itself, so a
written configuration is read as the sequence of what its parameters are read as.
The values that are read as themselves form a domain, and a configuration comes
back as it was written just when it is in that domain.
-/

namespace Infra

namespace Config

open Infra.Ascii

variable {F : Type} {ft : FloatText F} {ts rest : List (Token F)} {cfg : ConfigCB F}

/-- What a written value is read as. -/
def rereadElem (ft : FloatText F) (e : Elem F) : Option (Elem F) := do
  let t ← valueToken ft e
  unitValue t

/-- What a written parameter is read as. -/
def rereadParam (ft : FloatText F) (p : ConfigParameter F) : Option (ConfigParameter F) :=
  if IsKeyword p.name then none
  else
    match p.val.payload with
    | .scalar value => do
        let e ← rereadElem ft (allocElem p.val.ptype value)
        some { name := p.name, val := allocPValue e.ptype e.value }
    | .array _ elems => do
        let es ← elems.mapM (rereadElem ft)
        some { name := p.name, val := allocPValueList es }

/-- The parser before the line of a parameter. -/
def lineStart (cfg : ConfigCB F) : Parser F := { expect := .expression, cfg := cfg, gList := [] }

theorem rereadParam_scalar {name : CString} {ptype : ParamType} {value : Scalar F}
    (hkey : ¬ IsKeyword name) :
    rereadParam ft { name := name, val := allocPValue ptype value } =
      (rereadElem ft (allocElem ptype value)).map fun e =>
        { name := name, val := allocPValue e.ptype e.value } := by
  rw [rereadParam, if_neg hkey, Option.map_eq_bind]
  rfl

theorem rereadParam_list {name : CString} {elems : List (Elem F)} (hkey : ¬ IsKeyword name) :
    rereadParam ft { name := name, val := allocPValueList elems } =
      (elems.mapM (rereadElem ft)).map fun es =>
        { name := name, val := allocPValueList es } := by
  rw [rereadParam, if_neg hkey, Option.map_eq_bind]
  rfl

/-! ## The parser on the tokens of a line -/

theorem step_nameToken_keyword {name : CString} (h : IsKeyword name) :
    (lineStart cfg).step (nameToken name) = none := by
  unfold nameToken
  rcases h with h | h
  · rw [if_pos h]
    rfl
  · rw [if_neg (h ▸ by decide), if_pos h]
    rfl

theorem nameToken_eq {name : CString} (h : ¬ IsKeyword name) :
    (nameToken name : Token F) = .parameter name := by
  rw [IsKeyword, not_or] at h
  rw [nameToken, if_neg h.1, if_neg h.2]

theorem accept_cons {p : Parser F} {t : Token F} :
    p.accept (t :: ts) = (p.step t).bind fun q => q.accept ts := rfl

theorem step_value {name : CString} {gList : List (Elem F)} {t : Token F} (ht : t ≠ .listOpen) :
    Parser.step { expect := .value name, cfg := cfg, gList := gList } t =
      (unitValue t).map fun e =>
        { expect := .expression
          cfg := addConfigParam cfg name (allocPValue e.ptype e.value)
          gList := gList } := by
  cases t with
  | listOpen => exact absurd rfl ht
  | _ => rfl

theorem valueToken_ne_listOpen {e : Elem F} {t : Token F} (h : valueToken ft e = some t) :
    t ≠ .listOpen := by
  rintro rfl
  unfold valueToken floatToken at h
  grind

theorem accept_elems {name : CString} {es gList : List (Elem F)}
    (hes : elemTokens ft es = some ts) :
    Parser.accept { expect := .element name, cfg := cfg, gList := gList }
      (ts ++ .listClose :: rest) = (es.mapM (rereadElem ft)).bind fun es' =>
        (lineStart (addConfigParam cfg name (allocPValueList (gList ++ es')))).accept rest := by
  have hvalue : ∀ {e : Elem F} {t gList}, valueToken ft e = some t →
      Parser.step { expect := .element name, cfg := cfg, gList := gList } t =
        (rereadElem ft e).map fun e =>
          { expect := .separator name, cfg := cfg, gList := gList ++ [e] } := by
    intro e t gList ht
    simp only [Parser.step, rereadElem, ht, Option.bind_eq_bind, Option.bind_some]
    cases unitValue t <;> rfl
  induction es generalizing ts gList with
  | nil => simp [elemTokens] at hes
  | cons e es ih =>
      cases es with
      | nil =>
          obtain ⟨t, ht, hes⟩ := Option.bind_eq_some_iff.mp hes
          cases hes
          rw [List.singleton_append, accept_cons, hvalue ht, List.mapM_cons, List.mapM_nil]
          cases rereadElem ft e with
          | none => rfl
          | some e' => rfl
      | cons e₂ es =>
          obtain ⟨t, ht, hes⟩ := Option.bind_eq_some_iff.mp hes
          obtain ⟨ts, hts, hes⟩ := Option.bind_eq_some_iff.mp hes
          cases hes
          rw [List.cons_append, accept_cons, hvalue ht, List.mapM_cons]
          cases rereadElem ft e with
          | none => rfl
          | some e' =>
              rw [Option.map_some, Option.bind_some, List.cons_append, accept_cons]
              refine Eq.trans (ih hts) ?_
              cases (e₂ :: es).mapM (rereadElem ft) with
              | none => rfl
              | some es' => simp

/-- The parser adds to the configuration what the parameter is read as. -/
theorem accept_parameter {p : ConfigParameter F} (hp : paramTokens ft p = some ts) :
    (lineStart cfg).accept (ts ++ rest) = (rereadParam ft p).bind fun q =>
      (lineStart (addParameter cfg q)).accept rest := by
  obtain ⟨name, val⟩ := p
  by_cases hkey : IsKeyword name
  · obtain ⟨ts', rfl⟩ : ∃ ts', ts = nameToken name :: ts' := by
      rcases paramTokens_eq_some hp with ⟨_, _, -, -, rfl⟩ | ⟨_, _, -, -, rfl⟩ <;> exact ⟨_, rfl⟩
    rw [rereadParam, if_pos hkey, List.cons_append, accept_cons, step_nameToken_keyword hkey]
    rfl
  · rcases paramTokens_eq_some hp with ⟨value, t, hval, ht, rfl⟩ | ⟨elems, ts, hval, hts, rfl⟩
    · obtain ⟨ptype, payload⟩ := val
      cases hval
      have hvalue : Parser.accept { expect := .value name, cfg := cfg, gList := [] } (t :: rest) =
          (unitValue t).bind fun e => (lineStart
            (addConfigParam cfg name (allocPValue e.ptype e.value))).accept rest := by
        rw [accept_cons, step_value (valueToken_ne_listOpen ht), Option.bind_map]
        rfl
      have hreread : rereadElem ft (allocElem ptype value) = unitValue t := by
        rw [rereadElem, ht]
        rfl
      have hparam : rereadParam ft { name := name, val := allocPValue ptype value } =
          (unitValue t).map fun e => { name := name, val := allocPValue e.ptype e.value } := by
        rw [rereadParam_scalar hkey, hreread]
      calc (lineStart cfg).accept ([nameToken name, .assignment, t] ++ rest)
          = Parser.accept { expect := .value name, cfg := cfg, gList := [] } (t :: rest) := by
            simp [nameToken_eq hkey, accept_cons, Parser.step, lineStart]
        _ = (rereadParam ft { name := name, val := allocPValue ptype value }).bind fun q =>
              (lineStart (addParameter cfg q)).accept rest := by
            rw [hvalue, hparam, Option.bind_map]
            rfl
    · subst hval
      calc (lineStart cfg).accept
            (nameToken name :: .assignment :: .listOpen :: (ts ++ [.listClose]) ++ rest)
          = Parser.accept { expect := .element name, cfg := cfg, gList := [] }
              (ts ++ .listClose :: rest) := by
            simp [nameToken_eq hkey, accept_cons, Parser.step, lineStart]
        _ = (rereadParam ft { name := name, val := allocPValueList elems }).bind fun q =>
              (lineStart (addParameter cfg q)).accept rest := by
            rw [accept_elems hts, rereadParam_list hkey, Option.bind_map]
            rfl

/-- A parameter and then the others are added. -/
theorem map_mapM_cons {f : ConfigParameter F → Option (ConfigParameter F)}
    {p : ConfigParameter F} {ps : List (ConfigParameter F)} :
    ((f p).bind fun q => (ps.mapM f).map fun qs =>
      ({ params := (addParameter cfg q).params ++ qs,
         numParams := (addParameter cfg q).numParams + qs.length } : ConfigCB F)) =
      ((p :: ps).mapM f).map fun qs =>
        { params := cfg.params ++ qs, numParams := cfg.numParams + qs.length } := by
  rw [List.mapM_cons]
  cases f p with
  | none => rfl
  | some q =>
      rw [Option.bind_some]
      cases ps.mapM f with
      | none => rfl
      | some qs =>
          simp only [Option.map_some, Option.bind_eq_bind, Option.bind_some, Option.pure_def,
            addParameter, List.append_assoc, List.singleton_append, List.length_cons,
            Option.some.injEq, ConfigCB.mk.injEq, true_and]
          push_cast
          ring

theorem accept_parameters {ps : List (ConfigParameter F)} (hps : paramsTokens ft ps = some ts) :
    (lineStart cfg).accept ts = (ps.mapM (rereadParam ft)).map fun qs =>
      { params := cfg.params ++ qs, numParams := cfg.numParams + qs.length } := by
  induction ps generalizing cfg ts with
  | nil =>
      cases hps
      simp [Parser.accept, lineStart]
  | cons p ps ih =>
      obtain ⟨ts₁, hp, hrest⟩ := Option.bind_eq_some_iff.mp hps
      obtain ⟨ts₂, hps₂, heq⟩ := Option.bind_eq_some_iff.mp hrest
      cases heq
      rw [accept_parameter hp, ← map_mapM_cons]
      simp only [ih hps₂]

/-! ## What is read after writing -/

/-- The parameter is written as a line of its tokens. -/
def Legible (ft : FloatText F) (p : ConfigParameter F) : Prop :=
  IsIdentifier p.name.bytes ∧ (paramTokens ft p).isSome

theorem exists_paramsTokens {ps : List (ConfigParameter F)} (h : ∀ p ∈ ps, Legible ft p) :
    ∃ ts, paramsTokens ft ps = some ts := by
  induction ps with
  | nil => exact ⟨[], rfl⟩
  | cons p ps ih =>
      rw [List.forall_mem_cons] at h
      obtain ⟨ts₁, hp⟩ := Option.isSome_iff_exists.mp h.1.2
      obtain ⟨ts₂, hps⟩ := ih h.2
      exact ⟨ts₁ ++ ts₂, by simp [paramsTokens, hp, hps]⟩

/-- A text is read as what its lines are made into. -/
theorem reads_iff_of_accept {text : List UInt8} {ps : List (ConfigParameter F)}
    {f : ConfigParameter F → Option (ConfigParameter F)} {cfg' : ConfigCB F}
    (hscan : Scans ft text ts)
    (haccept : ∀ cfg : ConfigCB F, (lineStart cfg).accept ts = (ps.mapM f).map fun qs =>
      { params := cfg.params ++ qs, numParams := cfg.numParams + qs.length }) :
    Reads ft text cfg' ↔
      ps.mapM f = some cfg'.params ∧ cfg'.numParams = cfg'.params.length := by
  rw [hscan.reads_iff, show Parser.start = lineStart initConfig from rfl, haccept,
    Option.map_eq_some_iff]
  constructor
  · rintro ⟨qs, hqs, rfl⟩
    exact ⟨hqs, by simp [initConfig]⟩
  · rintro ⟨hqs, hlen⟩
    exact ⟨cfg'.params, hqs, by simp [initConfig, ← hlen]⟩

/-- A configuration of legible parameters is written, and the text is read as
what the parameters are read as. -/
theorem reads_writeConfig (h : ∀ p ∈ cfg.params, Legible ft p) :
    ∃ text, writeConfig ft cfg = some text ∧ ∀ cfg', Reads ft text cfg' ↔
      cfg.params.mapM (rereadParam ft) = some cfg'.params ∧
        cfg'.numParams = cfg'.params.length := by
  obtain ⟨ts, hts⟩ := exists_paramsTokens h
  obtain ⟨text, htext, hscan⟩ := scans_writeConfig (fun p hp => (h p hp).1) hts
  exact ⟨text, htext, fun cfg' => reads_iff_of_accept hscan fun _ => accept_parameters hts⟩

/-! ## What is read as itself -/

/-- The values that are read as they were written. -/
def kept (ft : FloatText F) : Domain F where
  int n := magnitude n = n
  str := IsLiteralBody
  flt x := floatToken ft x = .float x

theorem kept_le_quotable : kept ft ≤ Domain.quotable :=
  ⟨fun _ _ => trivial, fun _ hs => hs, fun _ _ => trivial⟩

theorem magnitude_eq_self {n : BitVec 32} :
    magnitude n = n ↔ 0 ≤ n.toInt ∨ n.toInt = CInt.intMin := by
  have h₁ := n.toInt_lt
  have h₂ := n.le_toInt
  rw [← BitVec.toInt_inj, magnitude, BitVec.toInt_ofNat', Int.bmod_def, CInt.intMin]
  split <;> omega

theorem valueToken_isSome (ft : FloatText F) {e : Elem F} (h : e.In Domain.quotable) :
    (valueToken ft e).isSome := by
  obtain ⟨ptype, value⟩ := e
  unfold Elem.In at h
  split at h
  · next s hptype hvalue =>
    cases hptype
    cases hvalue
    have hs : stringBody.accepts s.bytes := Regex.accepts_iff.mpr h
    simp [valueToken, hs]
  · next n hptype hvalue =>
    cases hptype
    cases hvalue
    rfl
  · next x hptype hvalue =>
    cases hptype
    cases hvalue
    rfl
  · next n hptype hvalue =>
    cases hptype
    cases hvalue
    rfl
  · exact h.elim

theorem elemTokens_isSome {es : List (Elem F)} (hne : es ≠ [])
    (h : ∀ e ∈ es, (valueToken ft e).isSome) : (elemTokens ft es).isSome := by
  induction es with
  | nil => exact absurd rfl hne
  | cons e es ih =>
      rw [List.forall_mem_cons] at h
      obtain ⟨t, ht⟩ := Option.isSome_iff_exists.mp h.1
      cases es with
      | nil => simp [elemTokens, ht]
      | cons e₂ es =>
          obtain ⟨ts, hts⟩ := Option.isSome_iff_exists.mp (ih (by simp) h.2)
          simp [elemTokens, ht, hts]

theorem legible_list {name : CString} {elems : List (Elem F)} (hname : IsIdentifier name.bytes)
    (hne : elems ≠ []) (h : ∀ e ∈ elems, (valueToken ft e).isSome) :
    Legible ft { name := name, val := allocPValueList elems } := by
  obtain ⟨ts, hts⟩ := Option.isSome_iff_exists.mp (elemTokens_isSome hne h)
  exact ⟨hname, by simp [paramTokens, allocPValueList, hts]⟩

theorem legible {p : ConfigParameter F} (hname : IsIdentifier p.name.bytes)
    (h : p.val.In Domain.quotable) : Legible ft p := by
  obtain ⟨name, ptype, payload⟩ := p
  cases payload with
  | scalar value =>
      refine ⟨hname, ?_⟩
      obtain ⟨t, ht⟩ := Option.isSome_iff_exists.mp (valueToken_isSome ft h)
      cases ptype with
      | list => exact h.elim
      | _ => simp [paramTokens, ht]
  | array numParams elems =>
      obtain ⟨hptype, hlen, hne, helems⟩ := h
      cases hptype
      cases hlen
      exact legible_list hname hne fun e he => valueToken_isSome ft (helems e he)

/-- The values of the domain `kept` are read as themselves, and no others. -/
theorem rereadElem_eq_self {e : Elem F} : rereadElem ft e = some e ↔ e.In (kept ft) := by
  obtain ⟨ptype, value⟩ := e
  cases ptype with
  | string =>
      cases value with
      | sval s =>
          simp only [rereadElem, valueToken, Elem.In, kept, IsLiteralBody, ← Regex.accepts_iff]
          by_cases hs : stringBody.accepts s.bytes
          · simp [hs, unitValue, allocElem]
          · simp [hs]
      | _ => simp [rereadElem, valueToken, Elem.In]
  | integer =>
      cases value with
      | ival n => simp [rereadElem, valueToken, Elem.In, kept, unitValue, allocElem]
      | _ => simp [rereadElem, valueToken, Elem.In]
  | float =>
      cases value with
      | fval x =>
          simp only [rereadElem, valueToken, Elem.In, kept, Option.bind_eq_bind, Option.bind_some]
          cases floatToken ft x <;> simp [unitValue, allocElem]
      | _ => simp [rereadElem, valueToken, Elem.In]
  | boolean =>
      cases value with
      | ival n =>
          simp only [rereadElem, valueToken, Elem.In, unitValue, allocElem, Option.bind_eq_bind,
            Option.bind_some, Option.some.injEq, Elem.mk.injEq, Scalar.ival.injEq, true_and]
          by_cases hn : n = 0
          · rw [if_pos hn]
            exact ⟨fun _ => Or.inl hn, fun _ => hn.symm⟩
          · rw [if_neg hn]
            exact ⟨fun h => Or.inr h.symm, fun h => (h.resolve_left hn).symm⟩
      | _ => simp [rereadElem, valueToken, Elem.In]
  | list => simp [rereadElem, valueToken, Elem.In]

/-- A map that may fail gives a list when it gives each element. -/
theorem mapM_eq_some {α β : Type} {f : α → Option β} {l : List α} {l' : List β} :
    l.mapM f = some l' ↔ List.Forall₂ (fun a b => f a = some b) l l' := by
  induction l generalizing l' with
  | nil => simp [eq_comm]
  | cons a l ih =>
      rw [List.mapM_cons]
      cases hf : f a with
      | none => simp [List.forall₂_cons_left_iff, hf]
      | some b =>
          cases hl : l.mapM f with
          | none =>
              have hno : ∀ l', ¬ List.Forall₂ (fun a b => f a = some b) l l' := by
                intro l' h
                rw [← ih, hl] at h
                cases h
              simp [List.forall₂_cons_left_iff, hno]
          | some l₂ =>
              simp only [List.forall₂_cons_left_iff, hf, ← ih, hl]
              simp [eq_comm]

theorem exists_mapM_eq_some {α β : Type} {f : α → Option β} {l : List α}
    (h : ∀ a ∈ l, ∃ b, f a = some b) : ∃ l', l.mapM f = some l' := by
  induction l with
  | nil => exact ⟨[], rfl⟩
  | cons a l ih =>
      rw [List.forall_mem_cons] at h
      obtain ⟨b, hb⟩ := h.1
      obtain ⟨l', hl⟩ := ih h.2
      exact ⟨b :: l', by simp [List.mapM_cons, hb, hl]⟩

theorem getElem?_of_mapM {α β : Type} {f : α → Option β} {l : List α} {l' : List β}
    (h : l.mapM f = some l') (i : ℕ) : l'[i]? = l[i]?.bind f := by
  induction mapM_eq_some.mp h generalizing i with
  | nil => rfl
  | cons hab hrest ih =>
      cases i with
      | zero => exact hab.symm
      | succ i => exact ih (mapM_eq_some.mpr hrest) i

theorem mapM_eq_self {α : Type} {f : α → Option α} {l : List α} :
    l.mapM f = some l ↔ ∀ a ∈ l, f a = some a := by
  rw [mapM_eq_some, List.forall₂_same]

/-- The parameters of the domain `kept` are read as themselves, and no others. -/
theorem rereadParam_eq_self {p : ConfigParameter F} (h : p.In Domain.quotable) :
    rereadParam ft p = some p ↔ p.In (kept ft) := by
  obtain ⟨name, val⟩ := p
  obtain ⟨hname, hval⟩ := h
  have hin : (ConfigParameter.mk name val).In (kept ft) ↔ val.In (kept ft) :=
    and_iff_right hname
  rw [hin]
  obtain ⟨ptype, payload⟩ := val
  cases payload with
  | scalar value =>
      have hparam : rereadParam ft { name := name, val := allocPValue ptype value } = _ :=
        rereadParam_scalar hname.2
      refine Iff.trans ?_ (rereadElem_eq_self (e := allocElem ptype value))
      rw [show ParamValue.mk ptype (.scalar value) = allocPValue ptype value from rfl, hparam,
        Option.map_eq_some_iff]
      constructor
      · rintro ⟨e, he, heq⟩
        obtain ⟨ptype', value'⟩ := e
        cases heq
        exact he
      · exact fun he => ⟨_, he, rfl⟩
  | array numParams elems =>
      obtain ⟨hptype, hlen, hne, helems⟩ := hval
      cases hptype
      subst hlen
      have hparam : rereadParam ft { name := name, val := allocPValueList elems } = _ :=
        rereadParam_list hname.2
      rw [show ParamValue.mk .list (.array elems.length elems) = allocPValueList elems from rfl,
        hparam, Option.map_eq_some_iff]
      constructor
      · rintro ⟨es, hes, heq⟩
        obtain rfl : es = elems := by
          simp only [allocPValueList, ConfigParameter.mk.injEq, ParamValue.mk.injEq,
            Payload.array.injEq, true_and] at heq
          exact heq.2
        exact ⟨rfl, rfl, hne, fun e he => rereadElem_eq_self.mp (mapM_eq_self.mp hes e he)⟩
      · rintro ⟨-, -, -, h⟩
        exact ⟨elems, mapM_eq_self.mpr fun e he => rereadElem_eq_self.mpr (h e he), rfl⟩

end Config

end Infra
