import Infra.Config.Comments
import Infra.Config.Grammar
import Infra.Config.RoundTrip

/-!
# Saving one parameter

A program sets a parameter of a configuration that comes back, and saves it. The
setter changes the first parameter with the name or adds one, and the file is
read as the same sequence with that parameter read by itself. An integer loses
its sign, so that it survives when it has none, or when it is the one `int` that
is its own negative. A string is written without escapes, so that it survives
when it can stand between quotes as it is.
-/

namespace Infra

namespace Config

open Infra.Ascii

variable {F : Type} {ft : FloatText F} {cfg cfg₁ : ConfigCB F} {name : CString}
  {p q : ConfigParameter F}

/-- The parameters without the one that the name finds. -/
def others (cfg : ConfigCB F) (name : CString) : List (ConfigParameter F) :=
  cfg.params.eraseP fun p => p.name = name

theorem others_append {pre post : List (ConfigParameter F)}
    (hparams : cfg.params = pre ++ p :: post)
    (hp : p.name = name) (hpre : ∀ q ∈ pre, q.name ≠ name) : others cfg name = pre ++ post := by
  rw [others, hparams, List.eraseP_append_right _ (by simpa using hpre),
    List.eraseP_cons_of_pos (by simpa using hp)]

theorem others_of_absent (h : lookupConfig cfg name = none) : others cfg name = cfg.params := by
  rw [others, List.eraseP_of_forall_not]
  simpa using lookupConfig_eq_none.mp h

/-- The second configuration has the parameter where its name finds one in the
first, or at the end, and the other parameters of the first. -/
def Puts (cfg cfg₁ : ConfigCB F) (p : ConfigParameter F) : Prop :=
  ∃ pre post, others cfg p.name = pre ++ post ∧ (∀ q ∈ pre, q.name ≠ p.name) ∧
    cfg₁.params = pre ++ p :: post

theorem puts_addParameter (h : lookupConfig cfg p.name = none) :
    Puts cfg (addParameter cfg p) p :=
  ⟨cfg.params, [], by rw [others_of_absent h, List.append_nil], lookupConfig_eq_none.mp h, rfl⟩

theorem puts_storeFirst {payload : Payload F} (h : lookupConfig cfg name = some p) :
    Puts cfg (storeFirst cfg name payload)
      { name := name, val := { ptype := p.val.ptype, payload := payload } } := by
  obtain ⟨hp, pre, post, hparams, hpre⟩ := lookupConfig_eq_some.mp h
  refine ⟨pre, post, others_append hparams hp hpre, hpre, ?_⟩
  rw [storeFirst_append hparams hp hpre, hp]

theorem lookup_in {D : Domain F} (hcfg : cfg.In D) (h : lookupConfig cfg name = some p) :
    p.In D := by
  obtain ⟨-, pre, post, hparams, -⟩ := lookupConfig_eq_some.mp h
  exact hcfg.1 p (by simp [hparams])

theorem puts_setParamString {D : Domain F} {v : CString} (hcfg : cfg.In D)
    (htype : ∀ p, lookupConfig cfg name = some p → p.val.ptype = .string) :
    ∃ cfg₁, setParamString cfg name v = some cfg₁ ∧
      Puts cfg cfg₁ { name := name, val := allocPValue .string (.sval v) } := by
  unfold setParamString
  cases h : lookupConfig cfg name with
  | none => exact ⟨_, rfl, puts_addParameter h⟩
  | some p =>
      have hput : Puts cfg (storeFirst cfg name (.scalar (.sval v))) _ := puts_storeFirst h
      rw [htype p h] at hput
      have hin := (lookup_in hcfg h).2
      obtain ⟨pname, ptype, payload⟩ := p
      have hptype : ptype = .string := htype _ h
      subst hptype
      cases payload with
      | scalar value =>
          cases value with
          | sval s => exact ⟨_, rfl, hput⟩
          | ival n => exact hin.elim
          | fval x => exact hin.elim
      | array n elems => exact absurd hin.1 (by simp)

theorem rereadParam_name (h : rereadParam ft p = some q) : q.name = p.name := by
  unfold rereadParam at h
  split at h
  · cases h
  · split at h
    · obtain ⟨e, -, h⟩ := Option.bind_eq_some_iff.mp h
      cases h
      rfl
    · obtain ⟨es, -, h⟩ := Option.bind_eq_some_iff.mp h
      cases h
      rfl

/-- What is read when one parameter of a configuration that comes back is put
anew. -/
theorem reads_put (hcfg : Reproduces ft cfg) (hput : Puts cfg cfg₁ p) (hp : Legible ft p) :
    ∃ text, writeConfig ft cfg₁ = some text ∧
      (∀ cfg', Reads ft text cfg' → ∃ q, rereadParam ft p = some q ∧
        lookupConfig cfg' p.name = some q ∧ others cfg' p.name = others cfg p.name) ∧
      ∀ q, rereadParam ft p = some q → ∃ cfg', Reads ft text cfg' := by
  obtain ⟨pre, post, hothers, hpre, hparams⟩ := hput
  have hkept : ∀ q ∈ pre ++ post, q.In (kept ft) := by
    intro q hq
    rw [← hothers] at hq
    exact (reproduces_iff.mp hcfg).1 q (List.mem_of_mem_eraseP hq)
  obtain ⟨text, htext, hreads⟩ := reads_inserted hparams hkept hp
  refine ⟨text, htext, fun cfg' h => ?_, fun q hq => ?_⟩
  · obtain ⟨q, hq, hparams', -⟩ := (hreads cfg').mp h
    have hname := rereadParam_name hq
    exact ⟨q, hq, lookupConfig_append hparams' hname hpre,
      (others_append hparams' hname hpre).trans hothers.symm⟩
  · exact ⟨{ params := pre ++ q :: post, numParams := (pre ++ q :: post).length },
      (hreads _).mpr ⟨q, hq, rfl, rfl⟩⟩

/-! ## Integers -/

/-- A string is set and saved, looking it up in what is read gives it, and the
other parameters are those of the configuration. -/
def StringSaved (ft : FloatText F) (cfg : ConfigCB F) (name v : CString) : Prop :=
  ∃ cfg₁ text cfg', setParamString cfg name v = some cfg₁ ∧ writeConfig ft cfg₁ = some text ∧
    Reads ft text cfg' ∧ lookupStr cfg' name = some (some v) ∧ others cfg' name = others cfg name

theorem rereadParam_string {v : CString} (hkey : ¬ IsKeyword name) (hv : IsLiteralBody v) :
    rereadParam ft { name := name, val := allocPValue .string (.sval v) } =
      some { name := name, val := allocPValue .string (.sval v) } :=
  (rereadParam_scalar hkey).trans
    (congrArg _ (rereadElem_eq_self (e := allocElem .string (.sval v)) |>.mpr hv))

/-- A string that is looked up in what is read stood between quotes, under a name
of a parameter. -/
theorem literalBody_of_stringSaved {v : CString} (h : StringSaved ft cfg name v) :
    ¬ IsKeyword name ∧ IsLiteralBody v := by
  obtain ⟨cfg₁, text, cfg', -, htext, hread, hstr, -⟩ := h
  have hquotable := quotable_of_saved htext hread
  unfold lookupStr at hstr
  cases hlookup : lookupConfig cfg' name with
  | none => simp [hlookup] at hstr
  | some p =>
      obtain ⟨hname, hval⟩ := lookup_in hquotable hlookup
      obtain ⟨hp, -⟩ := lookupConfig_eq_some.mp hlookup
      obtain ⟨pname, ptype, payload⟩ := p
      subst hp
      rw [hlookup] at hstr
      refine ⟨hname.2, ?_⟩
      cases payload with
      | scalar value =>
          cases value with
          | sval s =>
              obtain rfl : s = v := by simpa using hstr
              cases ptype with
              | string => exact hval
              | _ => exact hval.elim
          | ival n => simp at hstr
          | fval x => simp at hstr
      | array n elems => simp at hstr

/-- A set string is saved, and nothing else is changed by it, if and only if the
name is that of a parameter and the string may stand between quotes as it is. -/
theorem string_saved_iff (ft : FloatText F) (cfg : ConfigCB F) (name v : CString)
    (hcfg : Reproduces ft cfg) (hname : IsIdentifier name.bytes)
    (htype : ∀ p, lookupConfig cfg name = some p → p.val.ptype = .string) :
    StringSaved ft cfg name v ↔ ¬ IsKeyword name ∧ IsLiteralBody v := by
  constructor
  · exact literalBody_of_stringSaved
  · rintro ⟨hkey, hv⟩
    obtain ⟨cfg₁, hset, hput⟩ := puts_setParamString (v := v) (reproduces_iff.mp hcfg) htype
    have hlegible : Legible ft { name := name, val := allocPValue .string (.sval v) } :=
      legible hname hv
    obtain ⟨text, htext, hread, hexists⟩ := reads_put hcfg hput hlegible
    have hreread : rereadParam ft { name := name, val := allocPValue .string (.sval v) } = _ :=
      rereadParam_string hkey hv
    obtain ⟨cfg', h⟩ := hexists _ hreread
    obtain ⟨q, hq, hlookup, hothers⟩ := hread cfg' h
    obtain rfl := Option.some.inj (hreread.symm.trans hq)
    exact ⟨cfg₁, text, cfg', hset, htext, h, by rw [lookupStr, hlookup]; rfl, hothers⟩

theorem string_saved_iff_sample :
    StringSaved FloatText.zero sample (.ofBytes (bytes "s")) (.ofBytes (bytes "a = 1 # b")) := by
  have hname : IsName (.ofBytes (bytes "s")) := isName_single (by decide)
  refine (string_saved_iff _ _ _ _ reproduces_sample hname.1 ?_).mpr
    ⟨hname.2, Regex.accepts_iff.mp (by decide)⟩
  intro p hp
  cases hp
  rfl

/-- A quote in a string ends the string when it is read, and what follows it is read
as other parameters. -/
theorem quoted_string_not_saved :
    Reproduces FloatText.zero sample ∧ IsIdentifier (CString.ofBytes (bytes "x")).bytes ∧
      lookupConfig sample (.ofBytes (bytes "x")) = none ∧
      ¬ StringSaved FloatText.zero sample (.ofBytes (bytes "x"))
        (.ofBytes (bytes "\" y = \"")) := by
  have hname : IsName (.ofBytes (bytes "x")) := isName_single (by decide)
  refine ⟨reproduces_sample, hname.1, by decide, fun hsaved => ?_⟩
  have hbody := Regex.accepts_iff.mpr (literalBody_of_stringSaved hsaved).2
  exact absurd hbody (by decide)

end Config

end Infra
