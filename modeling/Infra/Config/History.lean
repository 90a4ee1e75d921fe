import Infra.Config.Basic
import Infra.Foundation.Trace

/-!
# Histories of a configuration

The other functions of `cfg_loader.c` that change a configuration or walk over
it. A pointer to a parameter of the list is its position there, and a function
that frees a value, or reads it, has no result when it takes the union by another
member than the one last written.
-/

namespace Infra

namespace Config

/-- A value in the argument list of `addListValue`, with the type before it. -/
inductive ListArg (F : Type) where
  | string (sval : CString)
  | float (fval : F)
  | integer (ival : BitVec 32)
  | boolean (ival : BitVec 32)

/-- A call that changes the configuration. -/
inductive Op (F : Type) where
  | addIntegerValue (name : CString) (value : BitVec 32)
  | addStringValue (name str : CString)
  | addFloatValue (name : CString) (value : F)
  | addBoolValue (name : CString) (value : BitVec 32)
  | addListValue (name : CString) (args : List (ListArg F))
  | addConfigParam (name : CString) (pval : ParamValue F)
  | setParamString (name value : CString)
  | setParamInteger (name : CString) (value : BitVec 32)
  | setParamBool (name : CString) (value : BitVec 32)
  | delParameter (param : ℕ)

section Functions

variable {F : Type}

/-- The element that the loop of `addListValue` makes of an argument. -/
def ListArg.elem : ListArg F → Elem F
  | .string sval => allocElem .string (.sval sval)
  | .float fval => allocElem .float (.fval fval)
  | .integer ival => allocElem .integer (.ival ival)
  | .boolean ival => allocElem .boolean (.ival ival)

/-- `addFloatValue`. -/
def addFloatValue (cfg : ConfigCB F) (name : CString) (value : F) : ConfigCB F :=
  addParameter cfg { name := name, val := allocPValue .float (.fval value) }

/-- `addBoolValue`. -/
def addBoolValue (cfg : ConfigCB F) (name : CString) (value : BitVec 32) : ConfigCB F :=
  addParameter cfg { name := name, val := allocPValue .boolean (.ival value) }

/-- `setParamBool`. -/
def setParamBool (cfg : ConfigCB F) (name : CString) (value : BitVec 32) : ConfigCB F :=
  match lookupConfig cfg name with
  | none => addBoolValue cfg name value
  | some _ => storeFirst cfg name (.scalar (.ival value))

/-- `lookupFloat`; the inner `none` is `0.0f`. -/
def lookupFloat (cfg : ConfigCB F) (name : CString) : Option (Option F) :=
  match lookupConfig cfg name with
  | none => some none
  | some p =>
      match p.val.payload with
      | .scalar (.fval x) => some (some x)
      | _ => none

/-- `freePValue` of an element of a list. -/
def freeElem (e : Elem F) : Option Unit :=
  match e.ptype, e.value with
  | .string, .sval _ => some ()
  | .string, _ => none
  | .list, _ => none
  | _, _ => some ()

/-- `freePValue`. -/
def freePValue (pval : ParamValue F) : Option Unit :=
  match pval.ptype, pval.payload with
  | .string, .scalar (.sval _) => some ()
  | .string, _ => none
  | .list, .array numParams elems =>
      if numParams ≤ elems.length then (elems.take numParams.toNat).forM freeElem else none
  | .list, .scalar _ => none
  | _, _ => some ()

/-- `delParameter` of the parameter at a position. -/
def delParameter (cfg : ConfigCB F) (param : ℕ) : Option (ConfigCB F) := do
  let p ← cfg.params[param]?
  freePValue p.val
  some { params := cfg.params.eraseIdx param, numParams := cfg.numParams - 1 }

/-- What a call makes of the configuration. -/
def Op.call (cfg : ConfigCB F) : Op F → Option (ConfigCB F)
  | .addIntegerValue name value => some (Config.addIntegerValue cfg name value)
  | .addStringValue name str => some (Config.addStringValue cfg name str)
  | .addFloatValue name value => some (Config.addFloatValue cfg name value)
  | .addBoolValue name value => some (Config.addBoolValue cfg name value)
  | .addListValue name args => some (Config.addListValue cfg name (args.map ListArg.elem))
  | .addConfigParam name pval => some (Config.addConfigParam cfg name pval)
  | .setParamString name value => Config.setParamString cfg name value
  | .setParamInteger name value => some (Config.setParamInteger cfg name value)
  | .setParamBool name value => some (Config.setParamBool cfg name value)
  | .delParameter param => Config.delParameter cfg param

/-- A step of a history. -/
def Calls (cfg : ConfigCB F) (op : Op F) (cfg' : ConfigCB F) : Prop := op.call cfg = some cfg'

/-- The loop over the parameters from a position on: the first of them with the
name. -/
def searchName (name : CString) : ℕ → List (ConfigParameter F) → Option ℕ
  | _, [] => none
  | i, p :: ps => if p.name = name then some i else searchName name (i + 1) ps

/-- The pointer that `lookupConfig` returns. -/
def lookupConfigPtr (cfg : ConfigCB F) (name : CString) : Option ℕ := searchName name 0 cfg.params

/-- `lookupNextConfig`: the loop goes on after `current`. -/
def lookupNextConfig (cfg : ConfigCB F) (current : ℕ) (name : CString) : Option ℕ :=
  searchName name (current + 1) (cfg.params.drop (current + 1))

/-- The loop over the parameters from a position on, with a callback for those
that are chosen. -/
def iterateFrom {σ : Type} (it : σ → ℕ → σ) (chosen : ConfigParameter F → Bool) :
    σ → ℕ → List (ConfigParameter F) → σ
  | s, _, [] => s
  | s, i, p :: ps => iterateFrom it chosen (if chosen p then it s i else s) (i + 1) ps

/-- `iterate_over_cfg`; the callback changes a state of its own. -/
def iterateOverCfg {σ : Type} (cfg : ConfigCB F) (it : σ → ℕ → σ) (s : σ) : σ :=
  iterateFrom it (fun _ => true) s 0 cfg.params

/-- `iterate_over_name`. -/
def iterateOverName {σ : Type} (cfg : ConfigCB F) (name : CString) (it : σ → ℕ → σ) (s : σ) : σ :=
  iterateFrom it (fun p => p.name = name) s 0 cfg.params

end Functions

/-! ## The setters -/

section Setters

variable {F : Type} {cfg cfg' : ConfigCB F} {name s : CString} {n : BitVec 32}

/-- What the setters have in common: a store through the name, or a new parameter
of the type. -/
def putValue (cfg : ConfigCB F) (name : CString) (type : ParamType) (value : Scalar F) :
    ConfigCB F :=
  match lookupConfig cfg name with
  | none => addParameter cfg { name := name, val := allocPValue type value }
  | some _ => storeFirst cfg name (.scalar value)

theorem setParamInteger_eq : setParamInteger cfg name n = putValue cfg name .integer (.ival n) :=
  rfl

theorem setParamBool_eq : setParamBool cfg name n = putValue cfg name .boolean (.ival n) := rfl

/-- The old member is freed as a string before the new one is stored. -/
theorem setParamString_eq_some : setParamString cfg name s = some cfg' ↔
    (∀ p, lookupConfig cfg name = some p → ∃ old, p.val.payload = .scalar (.sval old)) ∧
      cfg' = putValue cfg name .string (.sval s) := by
  unfold setParamString putValue
  cases h : lookupConfig cfg name with
  | none => simp [addStringValue, eq_comm]
  | some p =>
      cases hp : p.val.payload with
      | array numParams elems => simp [hp]
      | scalar value => cases value <;> simp [hp, eq_comm]

/-- A setter leaves the given value under the name; its type is that of the
parameter that was there. -/
theorem lookupConfig_putValue (cfg : ConfigCB F) (name : CString) (type : ParamType)
    (value : Scalar F) : ∃ p, lookupConfig (putValue cfg name type value) name = some p ∧
      p.val.payload = .scalar value ∧
      p.val.ptype = ((lookupConfig cfg name).map (·.val.ptype)).getD type := by
  unfold putValue
  cases h : lookupConfig cfg name with
  | none =>
      refine ⟨{ name := name, val := allocPValue type value }, ?_, rfl, rfl⟩
      exact lookupConfig_append rfl rfl (lookupConfig_eq_none.mp h)
  | some p =>
      refine ⟨{ p with val := { p.val with payload := .scalar value } }, ?_, rfl, rfl⟩
      simp [lookupConfig_storeFirst, h]

end Setters

end Config

end Infra
