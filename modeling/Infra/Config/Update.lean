import Infra.Config.RoundTrip

/-!
# `update_bim_cfg`

An update parses the file, stores the given values in the parameters that their
names find, and writes the whole configuration again. The names and the types
stay, and each value that is not given has to come back from the new file. This
it does when it is read as itself; an integer that was read from a numeral too
large, and a string that was cut by a NUL, need not be.
-/

namespace Infra

namespace Config

open Infra.Ascii

variable {F : Type}

/-- A value of the argument list; `dbl` is the argument as it is stored. -/
inductive Arg (F : Type) where
  | str (sval : CString)
  | int (ival : BitVec 32)
  | dbl (fval : F)

/-- The member of the union that an argument is stored in. -/
def Arg.payload : Arg F → Payload F
  | .str sval => .scalar (.sval sval)
  | .int ival => .scalar (.ival ival)
  | .dbl fval => .scalar (.fval fval)

/-- The body of the loop over the arguments. The inner `none` is the jump to
`fail`; an argument that is not of the type that is read has no result. -/
def updateParam (cfg : ConfigCB F) (pname : CString) (arg : Arg F) :
    Option (Option (ConfigCB F)) :=
  match lookupConfig cfg pname with
  | none => some none
  | some param =>
      match param.val.ptype, arg with
      | .string, .str _ =>
          match param.val.payload with
          | .scalar (.sval _) => some (some (storeFirst cfg pname arg.payload))
          | _ => none
      | .float, .dbl _ => some (some (storeFirst cfg pname arg.payload))
      | .integer, .int _ => some (some (storeFirst cfg pname arg.payload))
      | .boolean, .int _ => some (some (storeFirst cfg pname arg.payload))
      | .list, _ => some none
      | _, _ => none

/-- The loop over the arguments. -/
def updateParams (cfg : ConfigCB F) : List (CString × Arg F) → Option (Option (ConfigCB F))
  | [] => some (some cfg)
  | (pname, arg) :: args => do
      let result ← updateParam cfg pname arg
      match result with
      | none => some none
      | some cfg => updateParams cfg args

/-- `update_bim_cfg`: the returned value and the file after the call. The lock is
empty. -/
def updateBimCfg (ft : FloatText F) (fuel : ℕ) (file : Option (List UInt8))
    (args : List (CString × Arg F)) : Option (ℤ × Option (List UInt8)) := do
  let (ret, cfg) ← parseConfig ft fuel file
  if ret ≠ 0 then some (-1, file)
  else
    let result ← updateParams cfg args
    match result with
    | none => some (-1, file)
    | some cfg => do
        let text ← writeConfig ft cfg
        some (0, some text)

/-! ## The updated configuration -/

/-- The position of the parameter that a name finds. -/
def firstIndex (cfg : ConfigCB F) (name : CString) : Option ℕ :=
  (cfg.params.map (·.name)).idxOf? name

/-- The last value that is given for a name. -/
def lastValue : List (CString × Arg F) → CString → Option (Arg F)
  | [], _ => none
  | (pname, arg) :: args, name =>
      (lastValue args name).or (if pname = name then some arg else none)

/-- The parameter at a position after the update: the first one of its name has
the last value given for it. -/
def updatedParam (cfg : ConfigCB F) (args : List (CString × Arg F)) (i : ℕ)
    (p : ConfigParameter F) : ConfigParameter F :=
  match lastValue args p.name with
  | some arg =>
      if firstIndex cfg p.name = some i then
        { p with val := { p.val with payload := arg.payload } }
      else p
  | none => p

/-- The name of the argument exists, and its value has the type of the parameter:
an integer that is not negative, a truth value, or a string that may stand between
quotes. -/
def Fits (cfg : ConfigCB F) (arg : CString × Arg F) : Prop :=
  ∃ p, lookupConfig cfg arg.1 = some p ∧
    ParamValue.In { ptype := p.val.ptype, payload := arg.2.payload } Domain.writable

variable {ft : FloatText F} {cfg cfg₁ : ConfigCB F} {name m : CString}
  {p : ConfigParameter F} {arg : Arg F} {args : List (CString × Arg F)}

/-- A change of the first parameter with a name is a change at its position. -/
theorem replaceF_eq_mapIdx {ps : List (ConfigParameter F)}
    {f : ConfigParameter F → ConfigParameter F} :
    ps.replaceF (fun p => if p.name = name then some (f p) else none) =
      ps.mapIdx fun i p =>
        if p.name = name ∧ (ps.map (·.name)).idxOf? name = some i then f p else p := by
  induction ps with
  | nil => rfl
  | cons q ps ih =>
      simp only [List.mapIdx_cons, List.replaceF, List.map_cons, List.idxOf?_cons]
      by_cases hq : q.name = name
      · have hrest : ps.mapIdx (fun _ p => p) = ps := by simp [List.mapIdx_eq_iff]
        simp [hq, hrest]
      · simp [hq, ih]

theorem updatedParam_name {i : ℕ} : (updatedParam cfg args i p).name = p.name := by
  unfold updatedParam
  split
  · split <;> rfl
  · rfl

theorem updatedParam_of_not_first {i : ℕ} (h : firstIndex cfg p.name ≠ some i) :
    updatedParam cfg args i p = p := by
  unfold updatedParam
  split
  · rw [if_neg h]
  · rfl

theorem updatedParam_of_first {i : ℕ} (h : firstIndex cfg p.name = some i) :
    updatedParam cfg args i p =
      match lastValue args p.name with
      | some arg => { p with val := { p.val with payload := arg.payload } }
      | none => p := by
  unfold updatedParam
  split
  · rw [if_pos h]
  · rfl

theorem map_name_mapIdx : (cfg.params.mapIdx (updatedParam cfg args)).map (·.name) =
    cfg.params.map (·.name) := by
  refine List.ext_getElem (by simp) fun i _ _ => ?_
  simp [updatedParam_name]

theorem storeFirst_updated : (storeFirst cfg name arg.payload).params =
    cfg.params.mapIdx (updatedParam cfg [(name, arg)]) := by
  refine replaceF_eq_mapIdx.trans ?_
  congr 1
  funext i p
  by_cases hp : name = p.name
  · subst hp
    simp only [updatedParam, lastValue, firstIndex, true_and, Option.none_or, if_true]
    rfl
  · simp [updatedParam, lastValue, hp, Ne.symm hp]

/-! ## The loop over the arguments -/

theorem updateParam_eq (hlookup : lookupConfig cfg name = some p) (hp : p.val.In Domain.all.noFloat)
    (harg : ParamValue.In { ptype := p.val.ptype, payload := arg.payload } Domain.writable) :
    updateParam cfg name arg = some (some (storeFirst cfg name arg.payload)) := by
  obtain ⟨pname, ptype, payload⟩ := p
  rw [updateParam, hlookup]
  cases ptype with
  | string =>
      cases arg with
      | str sval =>
          cases payload with
          | scalar value =>
              cases value with
              | sval s => rfl
              | ival n => exact hp.elim
              | fval x => exact hp.elim
          | array n elems => exact absurd hp.1 (by simp)
      | int ival => exact harg.elim
      | dbl fval => exact harg.elim
  | integer =>
      cases arg with
      | int ival => rfl
      | str sval => exact harg.elim
      | dbl fval => exact harg.elim
  | boolean =>
      cases arg with
      | int ival => rfl
      | str sval => exact harg.elim
      | dbl fval => exact harg.elim
  | float => cases arg <;> exact harg.elim
  | list => cases arg <;> exact harg.elim

theorem writable_le_noFloat : (Domain.writable : Domain F) ≤ Domain.all.noFloat :=
  ⟨fun _ _ => trivial, fun _ _ => trivial, fun _ hx => hx⟩

/-- What the loop needs of the configuration: the parameters that are found hold
values of their types. -/
def Found (cfg : ConfigCB F) : Prop :=
  ∀ name p, lookupConfig cfg name = some p → p.val.In Domain.all.noFloat

theorem Found.storeFirst (h : Found cfg) (harg : Fits cfg (name, arg)) :
    Found (storeFirst cfg name arg.payload) := by
  intro m q hq
  rw [lookupConfig_storeFirst, Option.map_eq_some_iff] at hq
  obtain ⟨p, hp, rfl⟩ := hq
  split
  · next hm =>
    subst hm
    obtain ⟨p', hp', hin⟩ := harg
    obtain rfl : p' = p := Option.some.inj (hp'.symm.trans hp)
    exact hin.mono writable_le_noFloat
  · exact h m p hp

theorem Fits.storeFirst {a : CString × Arg F} {payload : Payload F} (h : Fits cfg a) :
    Fits (storeFirst cfg name payload) a := by
  obtain ⟨p, hp, hin⟩ := h
  rw [Fits, lookupConfig_storeFirst, hp]
  refine ⟨_, rfl, ?_⟩
  split
  · exact hin
  · exact hin

theorem firstIndex_updated (hparams : cfg₁.params = cfg.params.mapIdx (updatedParam cfg args)) :
    firstIndex cfg₁ m = firstIndex cfg m := by
  rw [firstIndex, hparams, map_name_mapIdx, firstIndex]

/-- An update with one argument, then with the others. -/
theorem updatedParam_cons {i : ℕ} (hfirst : firstIndex cfg₁ p.name = firstIndex cfg p.name) :
    updatedParam cfg₁ args i (updatedParam cfg [(name, arg)] i p) =
      updatedParam cfg ((name, arg) :: args) i p := by
  by_cases h : firstIndex cfg p.name = some i
  · have hone : updatedParam cfg [(name, arg)] i p = _ := updatedParam_of_first h
    have hall : updatedParam cfg ((name, arg) :: args) i p = _ := updatedParam_of_first h
    have hrest : updatedParam cfg₁ args i (updatedParam cfg [(name, arg)] i p) = _ :=
      updatedParam_of_first (by rw [updatedParam_name, hfirst, h])
    rw [hrest, updatedParam_name, hall, hone]
    simp only [lastValue, Option.none_or]
    cases lastValue args p.name with
    | none => rfl
    | some arg' =>
        by_cases hname : name = p.name
        · rw [if_pos hname]
          rfl
        · rw [if_neg hname]
          rfl
  · rw [updatedParam_of_not_first h, updatedParam_of_not_first h,
      updatedParam_of_not_first (hfirst ▸ h)]

/-- The loop stores the last value of each name in the parameter that the name
finds. -/
theorem updateParams_eq (hcfg : Found cfg) (hargs : ∀ a ∈ args, Fits cfg a) :
    ∃ cfg₁, updateParams cfg args = some (some cfg₁) ∧
      cfg₁.params = cfg.params.mapIdx (updatedParam cfg args) ∧
      cfg₁.numParams = cfg.numParams := by
  induction args generalizing cfg with
  | nil =>
      refine ⟨cfg, rfl, ?_, rfl⟩
      rw [eq_comm, List.mapIdx_eq_iff]
      intro i
      have hid : updatedParam cfg [] i = id := rfl
      rw [hid, Option.map_id_apply]
  | cons a args ih =>
      obtain ⟨name, arg⟩ := a
      rw [List.forall_mem_cons] at hargs
      obtain ⟨p, hlookup, hin⟩ := hargs.1
      have hstep := updateParam_eq hlookup (hcfg name p hlookup) hin
      obtain ⟨cfg₁, hrun, hparams, hnum⟩ :=
        ih (hcfg.storeFirst hargs.1) fun a ha => (hargs.2 a ha).storeFirst
      refine ⟨cfg₁, by simp [updateParams, hstep, hrun], ?_, hnum⟩
      have hstore : (storeFirst cfg name arg.payload).params = _ := storeFirst_updated
      rw [hparams, hstore, List.mapIdx_mapIdx]
      congr 1
      funext i q
      exact updatedParam_cons (firstIndex_updated hstore)

/-! ## Which updates keep the rest -/

/-- The parameter that a name finds stands at the first position of the name. -/
theorem lookupConfig_of_firstIndex {i : ℕ} (hi : cfg.params[i]? = some p)
    (hfirst : firstIndex cfg p.name = some i) : lookupConfig cfg p.name = some p := by
  have hindex : firstIndex cfg p.name = cfg.params.findIdx? fun q => q.name = p.name := by
    rw [firstIndex, List.idxOf?, List.findIdx?_map]
    congr 1
  rw [lookupConfig, List.find?_eq_bind_findIdx?_getElem?, ← hindex, hfirst]
  exact hi

theorem mem_of_lastValue (h : lastValue args name = some arg) : (name, arg) ∈ args := by
  induction args with
  | nil => cases h
  | cons a args ih =>
      obtain ⟨pname, arg'⟩ := a
      rw [lastValue, Option.or_eq_some_iff] at h
      rcases h with h | ⟨-, h⟩
      · exact List.mem_cons_of_mem _ (ih h)
      · split at h
        · next hname =>
          cases h
          exact hname ▸ List.mem_cons_self
        · cases h

/-- No value is given for the parameter at the position: none for its name, or an
earlier parameter has the name. -/
def Untouched (cfg : ConfigCB F) (args : List (CString × Arg F)) (i : ℕ)
    (p : ConfigParameter F) : Prop :=
  lastValue args p.name = none ∨ firstIndex cfg p.name ≠ some i

theorem updatedParam_of_untouched {i : ℕ} (h : Untouched cfg args i p) :
    updatedParam cfg args i p = p := by
  rcases h with h | h
  · unfold updatedParam
    rw [h]
  · exact updatedParam_of_not_first h

/-- The value of a parameter that is not untouched is one that was given. -/
theorem updatedParam_in {i : ℕ} (hargs : ∀ a ∈ args, Fits cfg a) (hi : cfg.params[i]? = some p)
    (h : ¬ Untouched cfg args i p) : (updatedParam cfg args i p).val.In Domain.writable := by
  rw [Untouched, not_or, not_not] at h
  obtain ⟨arg, harg⟩ := Option.ne_none_iff_exists'.mp h.1
  obtain ⟨p', hp', hin⟩ := hargs _ (mem_of_lastValue harg)
  obtain rfl := Option.some.inj (hp'.symm.trans (lookupConfig_of_firstIndex hi h.2))
  rw [updatedParam_of_first h.2, harg]
  exact hin

/-- The values that come back from the file: integers without a sign or the
smallest `int`, and the strings that may stand between quotes. -/
def Domain.durable : Domain F where
  int n := 0 ≤ n.toInt ∨ n.toInt = CInt.intMin
  str := IsLiteralBody
  flt _ := False

theorem elem_durable_iff {e : Elem F} (he : e.In Domain.all.noFloat) :
    e.In (kept ft) ↔ e.In Domain.durable := by
  obtain ⟨ptype, value⟩ := e
  cases ptype with
  | string =>
      cases value with
      | sval s => exact Iff.rfl
      | _ => exact he.elim
  | integer =>
      cases value with
      | ival n => exact magnitude_eq_self
      | _ => exact he.elim
  | boolean =>
      cases value with
      | ival n => exact Iff.rfl
      | _ => exact he.elim
  | float => cases value <;> exact he.elim
  | list => cases value <;> exact he.elim

theorem durable_iff {p : ConfigParameter F} (hp : p.In Domain.all.noFloat) :
    p.In (kept ft) ↔ p.val.In Domain.durable := by
  obtain ⟨name, ptype, payload⟩ := p
  obtain ⟨hname, hval⟩ := hp
  refine (and_iff_right hname).trans ?_
  cases payload with
  | scalar value => exact elem_durable_iff hval
  | array numParams elems =>
      refine and_congr_right fun _ => and_congr_right fun _ => and_congr_right fun _ => ?_
      exact forall₂_congr fun e he => elem_durable_iff (hval.2.2.2 e he)

/-- The updated configuration is reproduced when the untouched values come
back. -/
theorem reproduces_updated_iff (hcfg : cfg.In Domain.all.noFloat)
    (hargs : ∀ a ∈ args, Fits cfg a)
    (hparams : cfg₁.params = cfg.params.mapIdx (updatedParam cfg args))
    (hnum : cfg₁.numParams = cfg.numParams) :
    Reproduces ft cfg₁ ↔ ∀ i p, cfg.params[i]? = some p → Untouched cfg args i p →
      p.val.In Domain.durable := by
  have hlen : cfg₁.numParams = cfg₁.params.length := by
    rw [hnum, hcfg.2, hparams, List.length_mapIdx]
  have hin : ∀ i (p : ConfigParameter F), cfg.params[i]? = some p → p.In Domain.all.noFloat :=
    fun i p hi => hcfg.1 p (List.mem_of_getElem? hi)
  have hget : ∀ i, cfg₁.params[i]? = cfg.params[i]?.map (updatedParam cfg args i) := fun i => by
    rw [hparams, List.getElem?_mapIdx]
  rw [reproduces_iff, ConfigCB.In, and_iff_left hlen]
  constructor
  · intro h i p hi huntouched
    rw [← durable_iff (hin i p hi), ← updatedParam_of_untouched huntouched]
    exact h _ (List.mem_of_getElem? (i := i) (by rw [hget, hi, Option.map_some]))
  · intro h q hq
    obtain ⟨i, hi⟩ := List.mem_iff_getElem?.mp hq
    rw [hget, Option.map_eq_some_iff] at hi
    obtain ⟨p, hp, rfl⟩ := hi
    by_cases huntouched : Untouched cfg args i p
    · rw [updatedParam_of_untouched huntouched]
      exact (durable_iff (hin i p hp)).mpr (h i p hp huntouched)
    · refine ⟨?_, (updatedParam_in hargs hp huntouched).mono writable_le_kept⟩
      rw [updatedParam_name]
      exact (hin i p hp).1

/-- The update returns 0, and the new file is read as the old configuration with the
given values in the first parameters of their names. -/
def KeepsRest (ft : FloatText F) (file : List UInt8) (cfg : ConfigCB F)
    (args : List (CString × Arg F)) : Prop :=
  ∃ N text cfg',
    (∀ fuel, N ≤ fuel → updateBimCfg ft fuel (some file) args = some (0, some text)) ∧
      Reads ft text cfg' ∧ cfg'.params = cfg.params.mapIdx (updatedParam cfg args)

/-- An update is as good as the configuration that it writes. -/
theorem keepsRest_iff_reproduces {file : List UInt8} (hread : Reads ft file cfg)
    (hcfg : cfg.In Domain.all.noFloat) (hrun : updateParams cfg args = some (some cfg₁))
    (hparams : cfg₁.params = cfg.params.mapIdx (updatedParam cfg args))
    (hnum : cfg₁.numParams = cfg.numParams) :
    KeepsRest ft file cfg args ↔ Reproduces ft cfg₁ := by
  obtain ⟨M, hparse⟩ := hread
  have hupdate : ∀ fuel, M ≤ fuel → updateBimCfg ft fuel (some file) args =
      (writeConfig ft cfg₁).map fun text => (0, some text) := by
    intro fuel hfuel
    simp [updateBimCfg, hparse fuel hfuel, hrun, Option.map_eq_bind]
  constructor
  · rintro ⟨N, text, cfg', hreturn, hreads, hparams'⟩
    have htext := (hupdate (max N M) (le_max_right N M)).symm.trans (hreturn _ (le_max_left N M))
    obtain ⟨text', htext', heq⟩ := Option.map_eq_some_iff.mp htext
    obtain rfl : text' = text := by simpa using heq
    have hnum' := (quotable_of_saved htext' hreads).2
    have hcfg' : cfg' = cfg₁ := by
      obtain ⟨params', numParams'⟩ := cfg'
      obtain ⟨params₁, numParams₁⟩ := cfg₁
      simp only at hparams hparams' hnum hnum'
      rw [hparams', ← hparams, ConfigCB.mk.injEq, hnum', hnum, hcfg.2, hparams', List.length_mapIdx]
      exact ⟨rfl, rfl⟩
    exact ⟨text', htext', hcfg' ▸ hreads⟩
  · rintro ⟨text, htext, hreads⟩
    refine ⟨M, text, cfg₁, fun fuel hfuel => ?_, hreads, hparams⟩
    rw [hupdate fuel hfuel, htext]
    rfl

theorem found_of_in (hcfg : cfg.In Domain.all.noFloat) : Found cfg := by
  intro name p h
  obtain ⟨-, pre, post, hparams, -⟩ := lookupConfig_eq_some.mp h
  exact (hcfg.1 p (by simp [hparams])).2

theorem keepsRest_iff {file : List UInt8} (hread : Reads ft file cfg)
    (hcfg : cfg.In Domain.all.noFloat) (hargs : ∀ a ∈ args, Fits cfg a) :
    KeepsRest ft file cfg args ↔ ∀ i p, cfg.params[i]? = some p → Untouched cfg args i p →
      p.val.In Domain.durable := by
  obtain ⟨cfg₁, hrun, hparams, hnum⟩ := updateParams_eq (found_of_in hcfg) hargs
  rw [keepsRest_iff_reproduces hread hcfg hrun hparams hnum,
    reproduces_updated_iff hcfg hargs hparams hnum]

/-- An update of a file without a `float` changes what it was asked to change and
nothing else, if and only if every value that it was not asked to change comes
back when it is written. -/
theorem update_keeps_rest_iff (ft : FloatText F) (file : List UInt8) (cfg : ConfigCB F)
    (args : List (CString × Arg F)) (hread : Reads ft file cfg)
    (hfloat : ∀ fuel ts x, tokens ft fuel file = some ts → .float x ∉ ts)
    (hargs : ∀ a ∈ args, Fits cfg a) :
    KeepsRest ft file cfg args ↔ ∀ i p, cfg.params[i]? = some p → Untouched cfg args i p →
      p.val.In Domain.durable :=
  keepsRest_iff hread (hread.noFloat hfloat) hargs

/-- Two integer parameters. -/
def integersAB (m n : BitVec 32) : ConfigCB Unit :=
  { params := [{ name := .ofBytes (bytes "a"), val := allocPValue .integer (.ival m) },
      { name := .ofBytes (bytes "b"), val := allocPValue .integer (.ival n) }]
    numParams := 2 }

/-- The tokens of a file with these parameters. -/
def tokensAB (m n : BitVec 32) : List (Token Unit) :=
  [.parameter (.ofBytes (bytes "a")), .assignment, .decimal m,
    .parameter (.ofBytes (bytes "b")), .assignment, .decimal n]

theorem reads_integersAB {file : List UInt8} {fuel : ℕ} {m n : BitVec 32}
    (h : tokens FloatText.zero fuel file = some (tokensAB m n)) :
    Reads FloatText.zero file (integersAB m n) :=
  reads_iff.mpr ⟨_, scans_of_tokens h, rfl⟩

theorem no_float_tokensAB {file : List UInt8} {fuel : ℕ} {m n : BitVec 32}
    (h : tokens FloatText.zero fuel file = some (tokensAB m n)) :
    ∀ fuel ts x, tokens FloatText.zero fuel file = some ts → .float x ∉ ts := by
  intro fuel' ts x h'
  obtain rfl := (scans_of_tokens h').unique (scans_of_tokens h)
  simp [tokensAB]

theorem fits_integersAB {m n v : BitVec 32} (hv : 0 ≤ v.toInt) :
    Fits (integersAB m n) (.ofBytes (bytes "b"), .int v) :=
  ⟨{ name := .ofBytes (bytes "b"), val := allocPValue .integer (.ival n) }, rfl, hv⟩

theorem update_keeps_rest_iff_hex :
    KeepsRest FloatText.zero (bytes "a = 0x10u\nb = 1\n") (integersAB 16 1)
      [(.ofBytes (bytes "b"), .int 7), (.ofBytes (bytes "b"), .int 2)] := by
  have htokens : tokens FloatText.zero 30 (bytes "a = 0x10u\nb = 1\n") =
      some (tokensAB 16 1) := by decide +kernel
  refine (update_keeps_rest_iff _ _ _ _ (reads_integersAB htokens)
    (no_float_tokensAB htokens) ?_).mpr ?_
  · rw [List.forall_mem_cons, List.forall_mem_singleton]
    exact ⟨fits_integersAB (by decide), fits_integersAB (by decide)⟩
  · intro i p hi _
    rcases List.mem_pair.mp (List.mem_of_getElem? hi) with rfl | rfl
    · exact Or.inl (by decide)
    · exact Or.inl (by decide)

/-- A numeral of 32 ones is read as the integer -1, and this comes back as 1 from the
file after an update of another parameter. -/
theorem update_loses_large_numeral :
    Reads FloatText.zero (bytes "a = 0xFFFFFFFF\nb = 1\n") (integersAB (-1) 1) ∧
      (∀ fuel ts x, tokens FloatText.zero fuel (bytes "a = 0xFFFFFFFF\nb = 1\n") = some ts →
        .float x ∉ ts) ∧
      (∀ a ∈ [(CString.ofBytes (bytes "b"), (Arg.int 2 : Arg Unit))],
        Fits (integersAB (-1) 1) a) ∧
      ¬ KeepsRest FloatText.zero (bytes "a = 0xFFFFFFFF\nb = 1\n") (integersAB (-1) 1)
        [(.ofBytes (bytes "b"), .int 2)] := by
  have htokens : tokens FloatText.zero 30 (bytes "a = 0xFFFFFFFF\nb = 1\n") =
      some (tokensAB (-1) 1) := by decide +kernel
  have hread := reads_integersAB htokens
  have hfloat := no_float_tokensAB htokens
  have hargs : ∀ a ∈ [(CString.ofBytes (bytes "b"), (Arg.int 2 : Arg Unit))],
      Fits (integersAB (-1) 1) a := by
    rw [List.forall_mem_singleton]
    exact fits_integersAB (by decide)
  refine ⟨hread, hfloat, hargs, fun hkeeps => ?_⟩
  have hdurable := (keepsRest_iff hread (hread.noFloat hfloat) hargs).mp hkeeps 0
    { name := .ofBytes (bytes "a"), val := allocPValue .integer (.ival (-1)) } rfl
    (Or.inl (by decide))
  have hsign : ¬ (0 ≤ (-1 : BitVec 32).toInt ∨ (-1 : BitVec 32).toInt = CInt.intMin) := by decide
  exact hsign hdurable

end Config

end Infra
