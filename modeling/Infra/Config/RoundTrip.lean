import Infra.Config.Reread

/-!
# Writing a configuration and reading it again

A configuration comes back from the file it is written to just when its values
are read as themselves. One direction is the scan of the written text; for the
other, what comes back was read from a text without NUL, so that its names and
strings are such as can be written. When one parameter is new among parameters
that come back, what is read differs from the configuration in this parameter
only.
-/

namespace Infra

namespace Config

open Infra.Ascii

variable {F : Type} {ft : FloatText F} {cfg : ConfigCB F} {text : List UInt8}

/-! ## The written text has no NUL -/

theorem zero_not_mem_writeValue {e : Elem F} (h : writeValue ft e = some text) : 0 ∉ text := by
  have hdigit : ∀ w : List UInt8, (∀ c ∈ w, isDigit c) → 0 ∉ w :=
    fun w hw h0 => absurd (hw 0 h0) (by decide)
  obtain ⟨ptype, value⟩ := e
  unfold writeValue at h
  split at h
  · next s _ _ =>
    cases h
    simp only [List.mem_append, s.noNul, or_false, not_or]
    exact ⟨by decide, by decide⟩
  · next n _ _ =>
    cases h
    have hnum := hdigit _ fun c => isDigit_of_mem_decimal (n := n.toInt.natAbs) (c := c)
    rw [formatInt, List.mem_append, not_or]
    refine ⟨?_, hnum⟩
    split <;> decide
  · next x _ _ =>
    cases h
    obtain ⟨hsign, hbody⟩ := unsigned_format ft x
    have hunsigned : 0 ∉ unsigned (ft.format x) := by
      rcases hbody with ⟨u, v, hbody, -, -, hu, hv⟩ | hbody | hbody
      · rw [hbody, List.mem_append, List.mem_cons, not_or, not_or]
        exact ⟨hdigit u hu, by decide, hdigit v hv⟩
      · rw [hbody]
        decide
      · rw [hbody]
        decide
    rcases hsign with hsign | hsign
    · rwa [hsign]
    · rw [hsign, List.mem_cons, not_or]
      exact ⟨by decide, hunsigned⟩
  · cases h
    split <;> decide
  · cases h
    simp
  · cases h

theorem zero_not_mem_writeElems {es : List (Elem F)} (h : writeElems ft es = some text) :
    0 ∉ text := by
  induction es generalizing text with
  | nil =>
      cases h
      simp
  | cons e es ih =>
      cases es with
      | nil => exact zero_not_mem_writeValue h
      | cons e₂ es =>
          obtain ⟨text₁, htext₁, h⟩ := Option.bind_eq_some_iff.mp h
          obtain ⟨text₂, htext₂, h⟩ := Option.bind_eq_some_iff.mp h
          cases h
          rw [List.mem_append, List.mem_append, not_or, not_or]
          exact ⟨⟨zero_not_mem_writeValue htext₁, by decide⟩, ih htext₂⟩

theorem zero_not_mem_writeParameter {p : ConfigParameter F} (h : writeParameter ft p = some text) :
    0 ∉ text := by
  have hpad : 0 ∉ padName p.name := by
    rw [padName, List.mem_append, List.mem_replicate, not_or, not_and_or]
    exact ⟨p.name.noNul, Or.inr (by decide)⟩
  unfold writeParameter at h
  split at h
  · split at h
    · obtain ⟨text, htext, h⟩ := Option.bind_eq_some_iff.mp h
      cases h
      simp only [List.mem_append, not_or]
      exact ⟨⟨⟨hpad, by decide⟩, zero_not_mem_writeElems htext⟩, by decide⟩
    · cases h
  · cases h
  · cases h
  · obtain ⟨text, htext, h⟩ := Option.bind_eq_some_iff.mp h
    cases h
    simp only [List.mem_append, not_or]
    exact ⟨⟨⟨hpad, by decide⟩, zero_not_mem_writeValue htext⟩, by decide⟩

theorem zero_not_mem_writeParameters {ps : List (ConfigParameter F)}
    (h : writeParameters ft ps = some text) : 0 ∉ text := by
  induction ps generalizing text with
  | nil =>
      cases h
      simp
  | cons p ps ih =>
      obtain ⟨line, hline, h⟩ := Option.bind_eq_some_iff.mp h
      obtain ⟨lines, hlines, h⟩ := Option.bind_eq_some_iff.mp h
      cases h
      rw [List.mem_append, not_or]
      exact ⟨zero_not_mem_writeParameter hline, ih hlines⟩

theorem zero_not_mem_writeConfig (h : writeConfig ft cfg = some text) : 0 ∉ text := by
  obtain ⟨lines, hlines, h⟩ := Option.bind_eq_some_iff.mp h
  cases h
  rw [List.mem_append, not_or]
  exact ⟨by decide, zero_not_mem_writeParameters hlines⟩

/-! ## Configurations that come back -/

/-- What is read from a written text can be written. -/
theorem quotable_of_saved {cfg' : ConfigCB F} (htext : writeConfig ft cfg = some text)
    (h : Reads ft text cfg') : cfg'.In Domain.quotable :=
  h.quotable (zero_not_mem_writeConfig htext)

theorem legible_of_quotable (h : ∀ p ∈ cfg.params, p.In Domain.quotable) :
    ∀ p ∈ cfg.params, Legible ft p := fun p hp => legible (h p hp).1.1 (h p hp).2

/-- The configuration is written and read as itself. -/
def Reproduces (ft : FloatText F) (cfg : ConfigCB F) : Prop :=
  ∃ text, writeConfig ft cfg = some text ∧ Reads ft text cfg

theorem mapM_rereadParam_eq_self {ps : List (ConfigParameter F)}
    (h : ∀ p ∈ ps, p.In Domain.quotable) :
    ps.mapM (rereadParam ft) = some ps ↔ ∀ p ∈ ps, p.In (kept ft) := by
  rw [mapM_eq_self]
  exact forall₂_congr fun p hp => rereadParam_eq_self (h p hp)

/-- A configuration is reproduced when its values are read as themselves. -/
theorem reproduces_iff : Reproduces ft cfg ↔ cfg.In (kept ft) := by
  constructor
  · rintro ⟨text, htext, hread⟩
    have hquotable := quotable_of_saved htext hread
    obtain ⟨text', htext', hreads⟩ := reads_writeConfig (legible_of_quotable hquotable.1)
    obtain rfl : text = text' := Option.some.inj (htext.symm.trans htext')
    obtain ⟨hmap, hnum⟩ := (hreads cfg).mp hread
    exact ⟨(mapM_rereadParam_eq_self hquotable.1).mp hmap, hnum⟩
  · rintro ⟨hkept, hnum⟩
    have hquotable : ∀ p ∈ cfg.params, p.In Domain.quotable :=
      fun p hp => (hkept p hp).mono kept_le_quotable
    obtain ⟨text, htext, hreads⟩ := reads_writeConfig (legible_of_quotable hquotable)
    exact ⟨text, htext, (hreads cfg).mpr ⟨(mapM_rereadParam_eq_self hquotable).mpr hkept, hnum⟩⟩

/-- One legible parameter among others that are read as themselves. -/
theorem reads_inserted {pre post : List (ConfigParameter F)} {p : ConfigParameter F}
    (hparams : cfg.params = pre ++ p :: post) (hothers : ∀ q ∈ pre ++ post, q.In (kept ft))
    (hp : Legible ft p) :
    ∃ text, writeConfig ft cfg = some text ∧ ∀ cfg', Reads ft text cfg' ↔
      ∃ q, rereadParam ft p = some q ∧ cfg'.params = pre ++ q :: post ∧
        cfg'.numParams = cfg'.params.length := by
  have hquotable : ∀ q ∈ pre ++ post, q.In Domain.quotable :=
    fun q hq => (hothers q hq).mono kept_le_quotable
  have hlegible : ∀ q ∈ cfg.params, Legible ft q := by
    intro q hq
    rw [hparams, List.mem_append, List.mem_cons] at hq
    rcases hq with hq | rfl | hq
    · have hin := hquotable q (List.mem_append_left _ hq)
      exact legible hin.1.1 hin.2
    · exact hp
    · have hin := hquotable q (List.mem_append_right _ hq)
      exact legible hin.1.1 hin.2
  have hpre : pre.mapM (rereadParam ft) = some pre :=
    (mapM_rereadParam_eq_self fun q hq => hquotable q (List.mem_append_left _ hq)).mpr
      fun q hq => hothers q (List.mem_append_left _ hq)
  have hpost : post.mapM (rereadParam ft) = some post :=
    (mapM_rereadParam_eq_self fun q hq => hquotable q (List.mem_append_right _ hq)).mpr
      fun q hq => hothers q (List.mem_append_right _ hq)
  have hmap : cfg.params.mapM (rereadParam ft) =
      (rereadParam ft p).map fun q => pre ++ q :: post := by
    rw [hparams, List.mapM_append, List.mapM_cons, hpre, hpost]
    cases rereadParam ft p <;> rfl
  obtain ⟨text, htext, hreads⟩ := reads_writeConfig hlegible
  refine ⟨text, htext, fun cfg' => ?_⟩
  rw [hreads, hmap, Option.map_eq_some_iff]
  constructor
  · rintro ⟨⟨q, hq, hcfg⟩, hnum⟩
    exact ⟨q, hq, hcfg.symm, hnum⟩
  · rintro ⟨q, hq, hcfg, hnum⟩
    exact ⟨⟨q, hq, hcfg.symm⟩, hnum⟩

/-! ## The configurations without signs, fractions and quotes -/

/-- Integers that are not negative, and the strings that may stand between
quotes. -/
def Domain.writable : Domain F where
  int n := 0 ≤ n.toInt
  str := IsLiteralBody
  flt _ := False

theorem writable_le_kept : Domain.writable ≤ kept ft :=
  ⟨fun _ hn => magnitude_eq_self.mpr (Or.inl hn), fun _ hs => hs, fun _ hx => hx.elim⟩

/-- A configuration of writable values is written and read as the same parameters
in the same order, with their number. -/
theorem parse_write_eq (ft : FloatText F) (cfg : ConfigCB F)
    (hcfg : ∀ p ∈ cfg.params, p.In Domain.writable) :
    ∃ text, writeConfig ft cfg = some text ∧
      Reads ft text { params := cfg.params, numParams := cfg.params.length } := by
  have hkept : ∀ p ∈ cfg.params, p.In (kept ft) := fun p hp => (hcfg p hp).mono writable_le_kept
  have hquotable : ∀ p ∈ cfg.params, p.In Domain.quotable :=
    fun p hp => (hkept p hp).mono kept_le_quotable
  obtain ⟨text, htext, hreads⟩ := reads_writeConfig (legible_of_quotable hquotable)
  exact ⟨text, htext, (hreads _).mpr ⟨(mapM_rereadParam_eq_self hquotable).mpr hkept, rfl⟩⟩

/-- A value of each kind, and a name that stands twice. -/
def sample : ConfigCB Unit where
  params :=
    [ { name := .ofBytes (bytes "n"), val := allocPValue .integer (.ival 5) },
      { name := .ofBytes (bytes "b"), val := allocPValue .boolean (.ival 1) },
      { name := .ofBytes (bytes "s"),
        val := allocPValue .string (.sval (.ofBytes (bytes "#, ]"))) },
      { name := .ofBytes (bytes "n"),
        val := allocPValueList [allocElem .integer (.ival 0), allocElem .boolean (.ival 0)] } ]
  numParams := 4

theorem sample_in : ∀ p ∈ sample.params, p.In Domain.writable := by
  have hbody : IsLiteralBody (.ofBytes (bytes "#, ]")) := Regex.accepts_iff.mp (by decide)
  simp only [sample, List.forall_mem_cons, List.not_mem_nil, IsEmpty.forall_iff, implies_true,
    and_true]
  refine ⟨⟨isName_single (by decide), ?_⟩, ⟨isName_single (by decide), Or.inr rfl⟩,
    ⟨isName_single (by decide), hbody⟩, ⟨isName_single (by decide), rfl, rfl, by simp, ?_⟩⟩
  · exact (by decide : 0 ≤ (5 : BitVec 32).toInt)
  · rw [List.forall_mem_cons, List.forall_mem_singleton]
    exact ⟨(by decide : 0 ≤ (0 : BitVec 32).toInt), Or.inl rfl⟩

theorem parse_write_eq_sample : ∃ text, writeConfig FloatText.zero sample = some text ∧
    Reads FloatText.zero text { params := sample.params, numParams := sample.params.length } :=
  parse_write_eq FloatText.zero sample sample_in

theorem reproduces_sample : Reproduces FloatText.zero sample :=
  reproduces_iff.mpr ⟨fun p hp => (sample_in p hp).mono writable_le_kept, rfl⟩

end Config

end Infra
