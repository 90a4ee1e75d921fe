import Infra.Config.Domain
import Infra.Config.History
import Infra.Config.Writer
import Mathlib.Data.Set.List

/-!
# The tags of the values

A value is tagged when its type names the member of the union that was last
written. The functions that write, free and read values then take the right
member. A setter stores its member without a look at the type, so the tags are
kept by just those calls that find no parameter, or one of their own type.
-/

namespace Infra

namespace Config

open Infra.Ascii

variable {F : Type} {ft : FloatText F} {cfg cfg' start : ConfigCB F} {name : CString}
  {p : ConfigParameter F} {op : Op F} {ops : List (Op F)}

/-- The member last written is the one that the type names. -/
def Elem.Tagged (e : Elem F) : Prop :=
  match e.ptype, e.value with
  | .string, .sval _ => True
  | .float, .fval _ => True
  | .integer, .ival _ => True
  | .boolean, .ival _ => True
  | _, _ => False

/-- The value is a tagged scalar, or a list of tagged scalars with their number. -/
def ParamValue.Tagged (v : ParamValue F) : Prop :=
  match v.payload with
  | .scalar value => (allocElem v.ptype value).Tagged
  | .array numParams elems =>
      v.ptype = .list ∧ numParams = elems.length ∧ ∀ e ∈ elems, e.Tagged

/-- Every value is tagged. -/
def ConfigCB.Tagged (cfg : ConfigCB F) : Prop := ∀ p ∈ cfg.params, p.val.Tagged

/-- The first parameter with the name, if there is one, has the type. -/
def Accepts (cfg : ConfigCB F) (name : CString) (type : ParamType) : Prop :=
  ∀ p, lookupConfig cfg name = some p → p.val.ptype = type

/-- The call is made as its types ask for: a value that is added is tagged, a setter
meets its own type, and a parameter that is deleted is there. -/
def Op.Typed (op : Op F) (cfg : ConfigCB F) : Prop :=
  match op with
  | .addConfigParam _ pval => pval.Tagged
  | .setParamString name _ => Accepts cfg name .string
  | .setParamInteger name _ => Accepts cfg name .integer
  | .setParamBool name _ => Accepts cfg name .boolean
  | .delParameter param => param < cfg.params.length
  | _ => True

/-- A step of a history whose calls are typed. -/
def TypedCalls (cfg : ConfigCB F) (op : Op F) (cfg' : ConfigCB F) : Prop :=
  op.Typed cfg ∧ Calls cfg op cfg'

/-- The parameter that the name finds has the type and the value. -/
def Finds (cfg : ConfigCB F) (name : CString) (type : ParamType) (value : Scalar F) : Prop :=
  ∃ p, lookupConfig cfg name = some p ∧ p.val = allocPValue type value

/-- After a setter the parameter of its name has its type and its value. -/
def Op.Stored (op : Op F) (cfg : ConfigCB F) : Prop :=
  match op with
  | .setParamString name value => Finds cfg name .string (.sval value)
  | .setParamInteger name value => Finds cfg name .integer (.ival value)
  | .setParamBool name value => Finds cfg name .boolean (.ival value)
  | _ => True

/-! ## Tagged values -/

theorem ListArg.elem_tagged (arg : ListArg F) : arg.elem.Tagged := by
  cases arg <;> trivial

theorem Elem.In.tagged {e : Elem F} {D : Domain F} (h : e.In D) : e.Tagged := by
  obtain ⟨ptype, value⟩ := e
  cases ptype <;> cases value <;> trivial

theorem ParamValue.In.tagged {v : ParamValue F} {D : Domain F} (h : v.In D) : v.Tagged := by
  obtain ⟨ptype, payload⟩ := v
  cases payload with
  | scalar value => exact Elem.In.tagged (e := allocElem ptype value) h
  | array numParams elems => exact ⟨h.1, h.2.1, fun e he => (h.2.2.2 e he).tagged⟩

/-- The tagged values are those that `allocPValue` makes of an argument of the
type. -/
theorem tagged_iff {v : ParamValue F} : v.Tagged ↔
    (∃ arg : ListArg F, v = allocPValue arg.elem.ptype arg.elem.value) ∨
      ∃ args : List (ListArg F), v = allocPValueList (args.map ListArg.elem) := by
  have helem : ∀ e : Elem F, e.Tagged → ∃ arg : ListArg F, arg.elem = e := by
    rintro ⟨ptype, value⟩ h
    cases ptype <;> cases value <;> first
      | exact h.elim
      | exact ⟨.string _, rfl⟩
      | exact ⟨.float _, rfl⟩
      | exact ⟨.integer _, rfl⟩
      | exact ⟨.boolean _, rfl⟩
  constructor
  · obtain ⟨ptype, payload⟩ := v
    cases payload with
    | scalar value =>
        intro h
        obtain ⟨arg, harg⟩ := helem _ h
        exact Or.inl ⟨arg, by rw [harg]; rfl⟩
    | array numParams elems =>
        rintro ⟨hptype, hlen, helems⟩
        have hrange : elems ∈ Set.range (List.map (ListArg.elem : ListArg F → Elem F)) := by
          rw [Set.range_list_map]
          exact fun e he => helem e (helems e he)
        obtain ⟨args, rfl⟩ := hrange
        refine Or.inr ⟨args, ?_⟩
        cases hptype
        cases hlen
        rfl
  · rintro (⟨arg, rfl⟩ | ⟨args, rfl⟩)
    · exact arg.elem_tagged
    · refine ⟨rfl, rfl, fun e he => ?_⟩
      obtain ⟨arg, -, rfl⟩ := List.mem_map.mp he
      exact arg.elem_tagged

/-! ## The readers of a tagged value -/

theorem writeValue_isSome (ft : FloatText F) {e : Elem F} (h : e.Tagged) :
    ∃ text, writeValue ft e = some text := by
  obtain ⟨ptype, value⟩ := e
  cases ptype <;> cases value <;> first | exact h.elim | exact ⟨_, rfl⟩

theorem writeElems_isSome (ft : FloatText F) {es : List (Elem F)} (h : ∀ e ∈ es, e.Tagged) :
    ∃ text, writeElems ft es = some text := by
  induction es with
  | nil => exact ⟨[], rfl⟩
  | cons e es ih =>
      rw [List.forall_mem_cons] at h
      obtain ⟨text, htext⟩ := writeValue_isSome ft h.1
      cases es with
      | nil => exact ⟨text, htext⟩
      | cons e₂ es =>
          obtain ⟨rest, hrest⟩ := ih h.2
          exact ⟨text ++ bytes " , " ++ rest, by simp [writeElems, htext, hrest]⟩

theorem writeParameter_isSome (ft : FloatText F) (h : p.val.Tagged) :
    ∃ line, writeParameter ft p = some line := by
  obtain ⟨name, ptype, payload⟩ := p
  cases payload with
  | scalar value =>
      have hvalue : (allocElem ptype value).Tagged := h
      obtain ⟨text, htext⟩ := writeValue_isSome ft hvalue
      cases ptype with
      | list => cases value <;> exact hvalue.elim
      | _ =>
          exact ⟨padName name ++ bytes "= " ++ text ++ bytes "\n",
            by simp [writeParameter, htext]⟩
  | array numParams elems =>
      obtain ⟨hptype, hlen, helems⟩ := h
      cases hptype
      cases hlen
      obtain ⟨text, htext⟩ := writeElems_isSome ft helems
      exact ⟨padName name ++ bytes "= [ " ++ text ++ bytes " ]\n", by simp [writeParameter, htext]⟩

/-- A tagged configuration is written. -/
theorem ConfigCB.Tagged.writeConfig (h : cfg.Tagged) :
    ∃ text, writeConfig ft cfg = some text := by
  have hlines : ∀ ps : List (ConfigParameter F), (∀ p ∈ ps, p.val.Tagged) →
      ∃ lines, writeParameters ft ps = some lines := by
    intro ps hps
    induction ps with
    | nil => exact ⟨[], rfl⟩
    | cons p ps ih =>
        rw [List.forall_mem_cons] at hps
        obtain ⟨line, hline⟩ := writeParameter_isSome ft hps.1
        obtain ⟨lines, hlines⟩ := ih hps.2
        exact ⟨line ++ lines, by simp [writeParameters, hline, hlines]⟩
  obtain ⟨lines, hlines⟩ := hlines cfg.params h
  exact ⟨bytes "#\n#\n#\n\n" ++ lines, by simp [Config.writeConfig, hlines]⟩

theorem freeElem_of_tagged {e : Elem F} (h : e.Tagged) : freeElem e = some () := by
  obtain ⟨ptype, value⟩ := e
  cases ptype <;> cases value <;> first | exact h.elim | rfl

/-- A tagged value is freed. -/
theorem ParamValue.Tagged.freePValue {v : ParamValue F} (h : v.Tagged) :
    freePValue v = some () := by
  obtain ⟨ptype, payload⟩ := v
  cases payload with
  | scalar value => cases ptype <;> cases value <;> first | exact h.elim | rfl
  | array numParams elems =>
      obtain ⟨hptype, hlen, helems⟩ := h
      cases hptype
      cases hlen
      have hloop : elems.forM freeElem = some () := by
        induction elems with
        | nil => rfl
        | cons e es ih =>
            rw [List.forall_mem_cons] at helems
            rw [List.forM, freeElem_of_tagged helems.1]
            exact ih helems.2
      simp [Config.freePValue, hloop]

/-- What the lookups read of the parameter that the name finds: the value of its
type. -/
def LooksUp (cfg : ConfigCB F) (name : CString) (val : ParamValue F) : Prop :=
  match val.ptype with
  | .string => ∃ s, lookupStr cfg name = some (some s) ∧ val = allocPValue .string (.sval s)
  | .float => ∃ x, lookupFloat cfg name = some (some x) ∧ val = allocPValue .float (.fval x)
  | .integer => ∃ n, lookupInt cfg name = some n ∧ val = allocPValue .integer (.ival n)
  | .boolean => ∃ n, lookupInt cfg name = some n ∧ val = allocPValue .boolean (.ival n)
  | .list => ∃ elems, val = allocPValueList elems

theorem looksUp_of_tagged (hp : lookupConfig cfg name = some p) (h : p.val.Tagged) :
    LooksUp cfg name p.val := by
  obtain ⟨pname, ptype, payload⟩ := p
  cases payload with
  | scalar value =>
      cases ptype <;> cases value <;> first
        | exact h.elim
        | exact ⟨_, by simp [lookupStr, lookupFloat, lookupInt, hp], rfl⟩
  | array numParams elems =>
      obtain ⟨hptype, hlen, -⟩ := h
      cases hptype
      cases hlen
      exact ⟨elems, rfl⟩

/-! ## One call -/

section Call

variable {type : ParamType} {value : Scalar F} {v : ParamValue F}

theorem ConfigCB.Tagged.addParameter (hcfg : cfg.Tagged) (hv : v.Tagged) :
    (addParameter cfg { name := name, val := v }).Tagged := by
  intro p hp
  rcases List.mem_append.mp hp with hp | hp
  · exact hcfg p hp
  · rw [List.mem_singleton.mp hp]
    exact hv

theorem addParameter_tagged_iff (hcfg : cfg.Tagged) :
    (addParameter cfg { name := name, val := v }).Tagged ↔ v.Tagged :=
  ⟨fun h => h _ (List.mem_append_right _ (List.mem_singleton_self _)), hcfg.addParameter⟩

theorem ConfigCB.Tagged.storeFirst (hcfg : cfg.Tagged) (hp : lookupConfig cfg name = some p)
    (hv : (allocPValue p.val.ptype value).Tagged) :
    (storeFirst cfg name (.scalar value)).Tagged := by
  obtain ⟨hname, pre, post, hparams, hpre⟩ := lookupConfig_eq_some.mp hp
  intro q hq
  rw [storeFirst_append hparams hname hpre, List.mem_append, List.mem_cons] at hq
  rcases hq with hq | rfl | hq
  · exact hcfg q (by simp [hparams, hq])
  · exact hv
  · exact hcfg q (by simp [hparams, hq])

/-- A setter that finds its own type, or nothing, keeps the tags. -/
theorem ConfigCB.Tagged.putValue (hcfg : cfg.Tagged) (hv : (allocPValue type value).Tagged)
    (hname : Accepts cfg name type) : (putValue cfg name type value).Tagged := by
  unfold Config.putValue
  cases h : lookupConfig cfg name with
  | none => exact hcfg.addParameter hv
  | some p => exact hcfg.storeFirst h (hname p h ▸ hv)

/-- A setter stores its value under its own type just when it finds this type, or
nothing. -/
theorem finds_putValue_iff :
    Finds (putValue cfg name type value) name type value ↔ Accepts cfg name type := by
  obtain ⟨p, hp, hpayload, hptype⟩ := lookupConfig_putValue cfg name type value
  constructor
  · rintro ⟨p', hp', hval⟩ q hq
    obtain rfl := Option.some.inj (hp.symm.trans hp')
    rw [hq, hval] at hptype
    exact hptype.symm
  · intro hname
    refine ⟨p, hp, ?_⟩
    have htype : p.val.ptype = type := by
      rw [hptype]
      cases h : lookupConfig cfg name with
      | none => rfl
      | some q => exact hname q h
    obtain ⟨pname, ptype, payload⟩ := p
    cases htype
    cases hpayload
    rfl

/-- A setter that has a result, keeps the tags and leaves its value under its type
is one that finds its own type, or nothing. -/
theorem accepts_iff (hcfg : cfg.Tagged) (hv : (allocPValue type value).Tagged) :
    Accepts cfg name type ↔ (putValue cfg name type value).Tagged ∧
      Finds (putValue cfg name type value) name type value :=
  ⟨fun h => ⟨hcfg.putValue hv h, finds_putValue_iff.mpr h⟩, fun h => finds_putValue_iff.mp h.2⟩

/-- The member that `setParamString` frees is a string. -/
theorem ConfigCB.Tagged.sval (hcfg : cfg.Tagged) (hname : Accepts cfg name .string)
    (hp : lookupConfig cfg name = some p) : ∃ old, p.val.payload = .scalar (.sval old) := by
  obtain ⟨-, pre, post, hparams, -⟩ := lookupConfig_eq_some.mp hp
  have htagged : p.val.Tagged := hcfg p (by simp [hparams])
  have htype := hname p hp
  obtain ⟨pname, ptype, payload⟩ := p
  cases htype
  cases payload with
  | scalar value => cases value <;> first | exact htagged.elim | exact ⟨_, rfl⟩
  | array numParams elems => exact absurd htagged.1 (by simp)

theorem delParameter_isSome (hcfg : cfg.Tagged) {i : ℕ} (hi : i < cfg.params.length) :
    delParameter cfg i =
      some { params := cfg.params.eraseIdx i, numParams := cfg.numParams - 1 } := by
  have hfree : freePValue cfg.params[i].val = some () :=
    (hcfg _ (List.getElem_mem hi)).freePValue
  simp [delParameter, List.getElem?_eq_getElem hi, hfree]

/-- The calls that are typed are those that have a result, keep the tags and store
their value under their type. -/
theorem typed_iff (hcfg : cfg.Tagged) :
    op.Typed cfg ↔ ∃ cfg', op.call cfg = some cfg' ∧ cfg'.Tagged ∧ op.Stored cfg' := by
  have hadd : ∀ {name} {v : ParamValue F}, v.Tagged → (True ↔ ∃ cfg',
      some (addParameter cfg { name := name, val := v }) = some cfg' ∧ cfg'.Tagged ∧ True) :=
    fun hv => ⟨fun _ => ⟨_, rfl, hcfg.addParameter hv, trivial⟩, fun _ => trivial⟩
  have hset : ∀ {name type} {value : Scalar F}, (allocPValue type value).Tagged →
      (Accepts cfg name type ↔ ∃ cfg', some (putValue cfg name type value) = some cfg' ∧
        cfg'.Tagged ∧ Finds cfg' name type value) := by
    intro name type value hv
    rw [accepts_iff hcfg hv]
    simp
  cases op with
  | addIntegerValue name value => exact hadd (by trivial)
  | addStringValue name str => exact hadd (by trivial)
  | addFloatValue name value => exact hadd (by trivial)
  | addBoolValue name value => exact hadd (by trivial)
  | addListValue name args =>
      exact hadd (tagged_iff.mpr (Or.inr ⟨args, rfl⟩))
  | addConfigParam name pval =>
      constructor
      · exact fun h => ⟨_, rfl, hcfg.addParameter h, trivial⟩
      · rintro ⟨cfg', hcall, h, -⟩
        cases hcall
        exact (addParameter_tagged_iff hcfg).mp h
  | setParamString name value =>
      have hv : (allocPValue .string (.sval value) : ParamValue F).Tagged := trivial
      refine Iff.trans (accepts_iff hcfg hv) ⟨fun h => ?_, ?_⟩
      · have hname := finds_putValue_iff.mp h.2
        exact ⟨_, setParamString_eq_some.mpr ⟨fun p hp => hcfg.sval hname hp, rfl⟩, h⟩
      · rintro ⟨cfg', hcall, h⟩
        obtain ⟨-, rfl⟩ := setParamString_eq_some.mp hcall
        exact h
  | setParamInteger name value =>
      exact hset trivial
  | setParamBool name value =>
      exact hset trivial
  | delParameter i =>
      constructor
      · intro hi
        refine ⟨_, delParameter_isSome hcfg hi, fun p hp => ?_, trivial⟩
        exact hcfg p (List.mem_of_mem_eraseIdx hp)
      · rintro ⟨cfg', hcall, -⟩
        obtain ⟨p, hp, -⟩ := Option.bind_eq_some_iff.mp hcall
        exact (List.getElem?_eq_some_iff.mp hp).1

end Call

/-! ## Histories -/

/-- An empty configuration, or what `parseConfig` leaves. -/
def Opened (ft : FloatText F) (cfg : ConfigCB F) : Prop :=
  cfg = initConfig ∨ ∃ fuel file ret, parseConfig ft fuel file = some (ret, cfg)

theorem Opened.tagged (h : Opened ft cfg) : cfg.Tagged := by
  rcases h with rfl | ⟨fuel, file, ret, h⟩
  · intro p hp
    cases hp
  · exact fun p hp => (parsed_in h p hp).2.tagged

theorem tagged_of_trace (hrun : Trace TypedCalls start ops cfg) (hstart : start.Tagged) :
    cfg.Tagged := by
  refine hrun.invariant (fun cfg op cfg' hcfg hstep => ?_) hstart
  obtain ⟨cfg'', hcall, htagged, -⟩ := (typed_iff hcfg).mp hstep.1
  obtain rfl := Option.some.inj (hstep.2.symm.trans hcall)
  exact htagged

/-- In every state of a history of typed calls the tags are right, so that the
configuration is written, its values are freed and each lookup reads the member of
the type. A call goes on like this just when it is typed: it has a result, keeps
the tags and leaves under its name its type and its value. -/
theorem tags_match_iff (hstart : Opened ft start) (hrun : Trace TypedCalls start ops cfg) :
    cfg.Tagged ∧ (∃ text, writeConfig ft cfg = some text) ∧
      (∀ p ∈ cfg.params, freePValue p.val = some ()) ∧
      (∀ name p, lookupConfig cfg name = some p → LooksUp cfg name p.val) ∧
      ∀ op : Op F, op.Typed cfg ↔
        ∃ cfg', op.call cfg = some cfg' ∧ cfg'.Tagged ∧ op.Stored cfg' := by
  have htagged : cfg.Tagged := tagged_of_trace hrun hstart.tagged
  refine ⟨htagged, htagged.writeConfig, fun p hp => (htagged p hp).freePValue, ?_,
    fun op => typed_iff htagged⟩
  intro name p hp
  obtain ⟨-, pre, post, hparams, -⟩ := lookupConfig_eq_some.mp hp
  exact looksUp_of_tagged hp (htagged p (by simp [hparams]))

section Sample

/-- The name of the parameters below. -/
def nameA : CString := .ofBytes (bytes "a")

/-- A configuration with one string. -/
def oneString : ConfigCB Unit := addStringValue initConfig nameA nameA

/-- A string is added and set, another one is added and deleted again. -/
theorem trace_oneString : Trace TypedCalls initConfig
    [.addStringValue nameA nameA, .setParamString nameA nameA, .addBoolValue nameA 1,
      .delParameter 1] oneString := by
  have hadd : TypedCalls initConfig (.addStringValue nameA nameA) oneString := ⟨trivial, rfl⟩
  have hset : TypedCalls oneString (.setParamString nameA nameA) oneString := by
    refine ⟨fun p hp => ?_, rfl⟩
    cases hp
    rfl
  have hbool : TypedCalls oneString (.addBoolValue nameA 1) (addBoolValue oneString nameA 1) :=
    ⟨trivial, rfl⟩
  have hdel : TypedCalls (addBoolValue oneString nameA 1) (.delParameter 1) oneString :=
    ⟨Nat.lt_succ_self 1, rfl⟩
  exact (((Trace.single hadd).concat hset).concat hbool).concat hdel

theorem tags_match_iff_sample :
    oneString.Tagged ∧ (∃ text, writeConfig FloatText.zero oneString = some text) ∧
      (∀ p ∈ oneString.params, freePValue p.val = some ()) ∧
      (∀ name p, lookupConfig oneString name = some p → LooksUp oneString name p.val) ∧
      ∀ op : Op Unit, op.Typed oneString ↔
        ∃ cfg', op.call oneString = some cfg' ∧ cfg'.Tagged ∧ op.Stored cfg' :=
  tags_match_iff (Or.inl rfl) trace_oneString

/-- A setter for an integer on a string leaves an integer under the tag of a
string. -/
theorem tag_lost : ¬ ∀ (ops : List (Op Unit)) (cfg : ConfigCB Unit),
    Trace Calls initConfig ops cfg → cfg.Tagged := by
  intro h
  have hadd : Calls initConfig (.addStringValue nameA nameA) oneString := rfl
  have hset : Calls oneString (.setParamInteger nameA 5) (setParamInteger oneString nameA 5) := rfl
  have htagged := h _ _ ((Trace.single hadd).concat hset)
  exact htagged { name := nameA, val := { ptype := .string, payload := .scalar (.ival 5) } }
    (List.mem_singleton_self _)

end Sample

end Config

end Infra
