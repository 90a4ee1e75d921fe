import Infra.Config.Tags
import Infra.Foundation.Multimap

/-!
# A configuration is an ordered multimap

The entries of a configuration are its names with their values, in the order of the
list. Each call does to them what its name says, and a name is looked up, searched
further and iterated over at the positions of its entries.
-/

namespace Infra

namespace Config

open Multimap

variable {F : Type} {ft : FloatText F} {cfg cfg' start : ConfigCB F} {name : CString}
  {p : ConfigParameter F} {op : Op F} {ops : List (Op F)}

/-- The names with their values. -/
def entries (cfg : ConfigCB F) : List (CString × ParamValue F) :=
  cfg.params.map fun p => (p.name, p.val)

/-- What a call does to the entries: an add appends one, a setter puts its value, and
a deletion takes the entry at its position out. -/
def Op.apply (m : List (CString × ParamValue F)) : Op F → List (CString × ParamValue F)
  | .addIntegerValue name value => m ++ [(name, allocPValue .integer (.ival value))]
  | .addStringValue name str => m ++ [(name, allocPValue .string (.sval str))]
  | .addFloatValue name value => m ++ [(name, allocPValue .float (.fval value))]
  | .addBoolValue name value => m ++ [(name, allocPValue .boolean (.ival value))]
  | .addListValue name args => m ++ [(name, allocPValueList (args.map ListArg.elem))]
  | .addConfigParam name pval => m ++ [(name, pval)]
  | .setParamString name value => put m name (allocPValue .string (.sval value))
  | .setParamInteger name value => put m name (allocPValue .integer (.ival value))
  | .setParamBool name value => put m name (allocPValue .boolean (.ival value))
  | .delParameter param => m.eraseIdx param

/-- A setter meets no parameter of its name or one of its type, and a parameter that is
deleted is there. -/
def Op.Proper (op : Op F) (cfg : ConfigCB F) : Prop :=
  match op with
  | .setParamString name _ => Accepts cfg name .string
  | .setParamInteger name _ => Accepts cfg name .integer
  | .setParamBool name _ => Accepts cfg name .boolean
  | .delParameter param => param < cfg.params.length
  | _ => True

/-- A value that is given to `addConfigParam` is one that `allocPValue` makes. -/
def Op.AddsTagged (op : Op F) : Prop :=
  match op with
  | .addConfigParam _ pval => pval.Tagged
  | _ => True

/-- A step of a history whose calls are proper. -/
def ProperCalls (cfg : ConfigCB F) (op : Op F) (cfg' : ConfigCB F) : Prop :=
  op.Proper cfg ∧ Calls cfg op cfg'

/-- From a pointer on, or from NULL, `lookupNextConfig` visits the positions. -/
inductive Visits (cfg : ConfigCB F) (name : CString) : Option ℕ → List ℕ → Prop where
  | stop : Visits cfg name none []
  | next {i : ℕ} {is : List ℕ} (h : Visits cfg name (lookupNextConfig cfg i name) is) :
      Visits cfg name (some i) (i :: is)

theorem typed_of_proper (hop : op.Proper cfg) (htagged : op.AddsTagged) : op.Typed cfg := by
  cases op <;> first | exact hop | exact htagged

/-! ## The calls -/

@[simp] theorem entries_addParameter {v : ParamValue F} :
    entries (addParameter cfg { name := name, val := v }) = entries cfg ++ [(name, v)] := by
  simp [entries, addParameter]

theorem first_entries : first (entries cfg) name = (lookupConfig cfg name).map (·.val) := by
  rw [first, entries, List.find?_map, Option.map_map]
  rfl

/-- A setter that meets its own type, or nothing, puts its value. -/
theorem entries_putValue {type : ParamType} {value : Scalar F} (hname : Accepts cfg name type) :
    entries (putValue cfg name type value) = put (entries cfg) name (allocPValue type value) := by
  unfold putValue put
  rw [first_entries]
  cases h : lookupConfig cfg name with
  | none => simp
  | some p =>
      obtain ⟨rfl, pre, post, hparams, hpre⟩ := lookupConfig_eq_some.mp h
      have hentries : entries cfg = pre.map (fun q => (q.name, q.val)) ++
          (p.name, p.val) :: post.map fun q => (q.name, q.val) := by
        simp [entries, hparams]
      have hfront : ∀ e ∈ pre.map (fun q => (q.name, q.val)), e.1 ≠ p.name := by
        simpa using hpre
      have hval : ({ p.val with payload := .scalar value } : ParamValue F) =
          allocPValue type value := by
        rw [← hname p h]
        rfl
      rw [Option.map_some, Option.isSome_some, if_pos rfl, hentries, modifyFirst_append hfront,
        ← hval, entries, storeFirst_append hparams rfl hpre]
      simp

/-- A proper call that returns does to the entries what its name says. -/
theorem entries_call (hop : op.Proper cfg) (h : op.call cfg = some cfg') :
    entries cfg' = op.apply (entries cfg) := by
  cases op with
  | addIntegerValue name value =>
      obtain rfl := Option.some.inj h
      exact entries_addParameter
  | addStringValue name str =>
      obtain rfl := Option.some.inj h
      exact entries_addParameter
  | addFloatValue name value =>
      obtain rfl := Option.some.inj h
      exact entries_addParameter
  | addBoolValue name value =>
      obtain rfl := Option.some.inj h
      exact entries_addParameter
  | addListValue name args =>
      obtain rfl := Option.some.inj h
      exact entries_addParameter
  | addConfigParam name pval =>
      obtain rfl := Option.some.inj h
      exact entries_addParameter
  | setParamString name value =>
      obtain ⟨-, rfl⟩ := setParamString_eq_some.mp h
      exact entries_putValue hop
  | setParamInteger name value =>
      obtain rfl := Option.some.inj h
      rw [setParamInteger_eq]
      exact entries_putValue hop
  | setParamBool name value =>
      obtain rfl := Option.some.inj h
      rw [setParamBool_eq]
      exact entries_putValue hop
  | delParameter param =>
      obtain ⟨p, -, hrest⟩ := Option.bind_eq_some_iff.mp h
      obtain ⟨-, -, hcfg⟩ := Option.bind_eq_some_iff.mp hrest
      obtain rfl := Option.some.inj hcfg
      exact (List.eraseIdx_map _ _ _).symm

/-! ## The positions of a name -/

/-- From a position on the search visits the positions that are left. -/
theorem visits_from {i : ℕ} {ps : List (ConfigParameter F)} (hps : cfg.params.drop i = ps) :
    Visits cfg name (searchName name i ps)
      (positionsFrom i (ps.map fun p => (p.name, p.val)) name) := by
  induction ps generalizing i with
  | nil => exact .stop
  | cons p ps ih =>
      have hrest : cfg.params.drop (i + 1) = ps := by
        rw [← List.tail_drop, hps, List.tail_cons]
      rw [List.map_cons, searchName]
      by_cases h : p.name = name
      · rw [if_pos h, positionsFrom_cons_self h]
        refine .next ?_
        rw [lookupNextConfig, hrest]
        exact ih hrest
      · rw [if_neg h, positionsFrom_cons_of_ne h]
        exact ih hrest

/-- The parameter that a name finds stands at its first position. -/
theorem lookupConfig_eq_ptr :
    lookupConfig cfg name = (lookupConfigPtr cfg name).bind (cfg.params[·]?) := by
  have hfrom : ∀ (ps : List (ConfigParameter F)) i, cfg.params.drop i = ps →
      ps.find? (fun p => p.name = name) = (searchName name i ps).bind (cfg.params[·]?) := by
    intro ps
    induction ps with
    | nil => exact fun _ _ => rfl
    | cons p ps ih =>
        intro i hps
        rw [searchName]
        by_cases h : p.name = name
        · have hi : cfg.params[i]? = some p := by
            rw [← List.head?_drop, hps, List.head?_cons]
          simp [h, hi]
        · have hrest : cfg.params.drop (i + 1) = ps := by
            rw [← List.tail_drop, hps, List.tail_cons]
          rw [if_neg h, ← ih (i + 1) hrest]
          simp [h]
  exact hfrom cfg.params 0 rfl

theorem iterateFrom_name {σ : Type} {it : σ → ℕ → σ} {s : σ} {i : ℕ}
    {ps : List (ConfigParameter F)} : iterateFrom it (fun p => p.name = name) s i ps =
      (positionsFrom i (ps.map fun p => (p.name, p.val)) name).foldl it s := by
  induction ps generalizing i s with
  | nil => rfl
  | cons p ps ih =>
      rw [iterateFrom, List.map_cons]
      by_cases h : p.name = name
      · rw [positionsFrom_cons_self h, List.foldl_cons, ih]
        simp [h]
      · rw [positionsFrom_cons_of_ne h, ih]
        simp [h]

theorem iterateFrom_all {σ : Type} {it : σ → ℕ → σ} {s : σ} {i : ℕ}
    {ps : List (ConfigParameter F)} :
    iterateFrom it (fun _ => true) s i ps = (List.range' i ps.length).foldl it s := by
  induction ps generalizing i s with
  | nil => rfl
  | cons p ps ih =>
      rw [iterateFrom, ih, List.length_cons, List.range'_succ, List.foldl_cons, if_pos rfl]

/-! ## Histories -/

/-- In a history whose values are tagged the configuration stays tagged. -/
theorem tagged_of_proper (hrun : Trace ProperCalls start ops cfg) (hstart : start.Tagged)
    (hops : ∀ op ∈ ops, op.AddsTagged) : cfg.Tagged := by
  refine hrun.rule (I := fun _ cfg => cfg.Tagged) hops hstart fun _ cfg op cfg' hop hcfg hstep => ?_
  obtain ⟨cfg'', hcall, htagged, -⟩ := (typed_iff hcfg).mp (typed_of_proper hstep.1 hop)
  obtain rfl := Option.some.inj (hstep.2.symm.trans hcall)
  exact htagged

/-- After every history of proper calls the entries are those that appending, putting
and erasing make of the first ones. A name finds its first entry; a search that goes on
from there visits its entries once each, in their order, and these are those that
`iterate_over_name` visits, among all the positions that `iterate_over_cfg` visits. A
further proper call returns when only tagged values were added. -/
theorem config_refines_multimap (hstart : Opened ft start)
    (hrun : Trace ProperCalls start ops cfg) :
    entries cfg = ops.foldl Op.apply (entries start) ∧
      (∀ name, (lookupConfig cfg name).map (·.val) = first (entries cfg) name ∧
        lookupConfig cfg name = (lookupConfigPtr cfg name).bind (cfg.params[·]?)) ∧
      (∀ name, Visits cfg name (lookupConfigPtr cfg name) (positions (entries cfg) name) ∧
        (positions (entries cfg) name).Sublist (List.range (entries cfg).length) ∧
        ∀ i, i ∈ positions (entries cfg) name ↔ ∃ val, (entries cfg)[i]? = some (name, val)) ∧
      (∀ (σ : Type) (it : σ → ℕ → σ) (s : σ),
        (∀ name, iterateOverName cfg name it s = (positions (entries cfg) name).foldl it s) ∧
        iterateOverCfg cfg it s = (List.range (entries cfg).length).foldl it s) ∧
      ((∀ op ∈ ops, op.AddsTagged) → ∀ op : Op F, op.Proper cfg → op.AddsTagged →
        ∃ cfg', op.call cfg = some cfg') := by
  refine ⟨?_, fun name => ⟨first_entries.symm, lookupConfig_eq_ptr⟩,
    fun name => ⟨visits_from rfl, positions_sublist, fun i => mem_positions⟩,
    fun σ it s => ⟨fun name => iterateFrom_name, ?_⟩, fun hops op hop htagged => ?_⟩
  · clear hstart
    induction hrun with
    | nil => rfl
    | concat _ hstep ih => rw [entries_call hstep.1 hstep.2, ih, List.foldl_concat]
  · rw [iterateOverCfg, iterateFrom_all, ← List.range_eq_range', entries, List.length_map]
  · obtain ⟨cfg', hcall, -⟩ := (typed_iff (tagged_of_proper hrun hstart.tagged hops)).mp
      (typed_of_proper hop htagged)
    exact ⟨cfg', hcall⟩

section Sample

/-- Two entries of a name, of which the first is deleted and the second one set. -/
def duplicates : List (Op Unit) :=
  [.addIntegerValue nameA 1, .addBoolValue nameA 1, .delParameter 0, .setParamBool nameA 0]

/-- The boolean that is left. -/
def oneBool : ConfigCB Unit := addBoolValue initConfig nameA 0

theorem trace_duplicates : Trace ProperCalls initConfig duplicates oneBool := by
  have hadd : ProperCalls initConfig (.addIntegerValue nameA 1)
      (addIntegerValue (initConfig : ConfigCB Unit) nameA 1) := ⟨trivial, rfl⟩
  have hagain : ProperCalls (addIntegerValue (initConfig : ConfigCB Unit) nameA 1)
      (.addBoolValue nameA 1) (addBoolValue (addIntegerValue initConfig nameA 1) nameA 1) :=
    ⟨trivial, rfl⟩
  have hdel : ProperCalls (addBoolValue (addIntegerValue (initConfig : ConfigCB Unit) nameA 1)
      nameA 1) (.delParameter 0) (addBoolValue initConfig nameA 1) := ⟨Nat.zero_lt_two, rfl⟩
  have hset : ProperCalls (addBoolValue (initConfig : ConfigCB Unit) nameA 1)
      (.setParamBool nameA 0) oneBool := by
    refine ⟨fun p hp => ?_, rfl⟩
    cases hp
    rfl
  exact (((Trace.single hadd).concat hagain).concat hdel).concat hset

theorem config_refines_multimap_duplicates :
    entries oneBool = duplicates.foldl Op.apply [] ∧
      Visits oneBool nameA (lookupConfigPtr oneBool nameA) (positions (entries oneBool) nameA) ∧
      ∃ cfg', (Op.delParameter 0).call oneBool = some cfg' := by
  obtain ⟨hentries, -, hvisits, -, hcall⟩ :=
    config_refines_multimap (show Opened FloatText.zero initConfig from Or.inl rfl)
      trace_duplicates
  refine ⟨hentries, (hvisits nameA).1, hcall ?_ _ Nat.zero_lt_one trivial⟩
  simp [duplicates, Op.AddsTagged]

end Sample

end Config

end Infra
