import Infra.Foundation.CString
import Mathlib.Data.BitVec

/-!
# The configuration of `cfg_loader.c`

A configuration is a sequence of parameters with a counter. The value of a
parameter has a type tag, and a union of which one member is the last written; a
function that reads another member has no result. The elements of a list are
scalars. An `int` is a word of 32 bits, and `F` is the type `float`.

Memory allocation succeeds.
-/

namespace Infra

namespace Config

/-- `ParamType`. -/
inductive ParamType where
  | string
  | float
  | integer
  | boolean
  | list
  deriving DecidableEq

/-- The union of a scalar `ParamValue`, by the member last written. -/
inductive Scalar (F : Type) where
  | ival (n : BitVec 32)
  | sval (s : CString)
  | fval (x : F)
  deriving DecidableEq

/-- A `ParamValue` that is an element of a list. -/
structure Elem (F : Type) where
  ptype : ParamType
  value : Scalar F
  deriving DecidableEq

/-- The union of a `ParamValue`, by the member last written; an array comes with
the field `numParams`. Its elements were on the stack of the parser or in a list of
arguments, which both end long before an `int` does, so they are counted without
bound. -/
inductive Payload (F : Type) where
  | scalar (value : Scalar F)
  | array (numParams : ℤ) (elems : List (Elem F))
  deriving DecidableEq

/-- `ParamValue`. -/
structure ParamValue (F : Type) where
  ptype : ParamType
  payload : Payload F
  deriving DecidableEq

/-- `ConfigParameter`. -/
structure ConfigParameter (F : Type) where
  name : CString
  val : ParamValue F
  deriving DecidableEq

/-- `ConfigCB`. -/
structure ConfigCB (F : Type) where
  params : List (ConfigParameter F)
  numParams : BitVec 32
  deriving DecidableEq

section Functions

variable {F : Type}

/-- `__init_config`. -/
def initConfig : ConfigCB F := { params := [], numParams := 0 }

/-- `allocPValue` of a scalar, as an element of a list. -/
def allocElem (type : ParamType) (value : Scalar F) : Elem F := { ptype := type, value := value }

/-- `allocPValue` of a scalar. -/
def allocPValue (type : ParamType) (value : Scalar F) : ParamValue F :=
  { ptype := type, payload := .scalar value }

/-- `allocPValue` of a list: the first pass counts the elements, the second one
moves them to the array. -/
def allocPValueList (elems : List (Elem F)) : ParamValue F :=
  { ptype := .list, payload := .array elems.length elems }

/-- `addParameter`. -/
def addParameter (cfg : ConfigCB F) (param : ConfigParameter F) : ConfigCB F :=
  { params := cfg.params ++ [param], numParams := cfg.numParams + 1 }

/-- `addConfigParam`. -/
def addConfigParam (cfg : ConfigCB F) (name : CString) (pval : ParamValue F) : ConfigCB F :=
  addParameter cfg { name := name, val := pval }

/-- `freeConfig`: the counter is left alone. -/
def freeConfig (cfg : ConfigCB F) : ConfigCB F := { cfg with params := [] }

/-- `lookupConfig`. -/
def lookupConfig (cfg : ConfigCB F) (name : CString) : Option (ConfigParameter F) :=
  cfg.params.find? fun p => p.name = name

/-- `addIntegerValue`. -/
def addIntegerValue (cfg : ConfigCB F) (name : CString) (value : BitVec 32) : ConfigCB F :=
  addParameter cfg { name := name, val := allocPValue .integer (.ival value) }

/-- `addStringValue`. -/
def addStringValue (cfg : ConfigCB F) (name str : CString) : ConfigCB F :=
  addParameter cfg { name := name, val := allocPValue .string (.sval str) }

/-- `addListValue`; the elements are the results of `allocPValue` on the
arguments. -/
def addListValue (cfg : ConfigCB F) (name : CString) (elems : List (Elem F)) : ConfigCB F :=
  addParameter cfg { name := name, val := allocPValueList elems }

/-- A store through the pointer that `lookupConfig` returns. -/
def storeFirst (cfg : ConfigCB F) (name : CString) (payload : Payload F) : ConfigCB F :=
  { cfg with
    params := cfg.params.replaceF fun p =>
      if p.name = name then some { p with val := { p.val with payload := payload } } else none }

/-- `setParamString`: the old member is freed as a string. -/
def setParamString (cfg : ConfigCB F) (name value : CString) : Option (ConfigCB F) :=
  match lookupConfig cfg name with
  | none => some (addStringValue cfg name value)
  | some param =>
      match param.val.payload with
      | .scalar (.sval _) => some (storeFirst cfg name (.scalar (.sval value)))
      | _ => none

/-- `setParamInteger`. -/
def setParamInteger (cfg : ConfigCB F) (name : CString) (value : BitVec 32) : ConfigCB F :=
  match lookupConfig cfg name with
  | none => addIntegerValue cfg name value
  | some _ => storeFirst cfg name (.scalar (.ival value))

/-- `lookupInt`. -/
def lookupInt (cfg : ConfigCB F) (name : CString) : Option (BitVec 32) :=
  match lookupConfig cfg name with
  | none => some 0
  | some p =>
      match p.val.payload with
      | .scalar (.ival n) => some n
      | _ => none

/-- `lookupStr`; the inner `none` is NULL. -/
def lookupStr (cfg : ConfigCB F) (name : CString) : Option (Option CString) :=
  match lookupConfig cfg name with
  | none => some none
  | some p =>
      match p.val.payload with
      | .scalar (.sval s) => some (some s)
      | _ => none

end Functions

/-! ## The parameter that a name finds -/

section Lookup

variable {F : Type} {cfg : ConfigCB F} {name : CString} {p : ConfigParameter F}
  {pre post : List (ConfigParameter F)}

theorem lookupConfig_eq_some : lookupConfig cfg name = some p ↔
    p.name = name ∧ ∃ pre post, cfg.params = pre ++ p :: post ∧ ∀ q ∈ pre, q.name ≠ name := by
  rw [lookupConfig, List.find?_eq_some_iff_append]
  simp

theorem lookupConfig_eq_none : lookupConfig cfg name = none ↔ ∀ q ∈ cfg.params, q.name ≠ name := by
  rw [lookupConfig, List.find?_eq_none]
  simp

/-- The first parameter with the name is found. -/
theorem lookupConfig_append (hparams : cfg.params = pre ++ p :: post) (hp : p.name = name)
    (hpre : ∀ q ∈ pre, q.name ≠ name) : lookupConfig cfg name = some p :=
  lookupConfig_eq_some.mpr ⟨hp, pre, post, hparams, hpre⟩

/-- A store changes the value of the parameter that its name finds. -/
theorem storeFirst_append {payload : Payload F} (hparams : cfg.params = pre ++ p :: post)
    (hp : p.name = name) (hpre : ∀ q ∈ pre, q.name ≠ name) :
    (storeFirst cfg name payload).params =
      pre ++ { p with val := { p.val with payload := payload } } :: post := by
  rw [storeFirst, hparams]
  clear hparams
  induction pre with
  | nil => simp [List.replaceF, hp]
  | cons q pre ih =>
      rw [List.forall_mem_cons] at hpre
      simp only [List.cons_append, List.replaceF, if_neg hpre.1]
      exact congrArg (q :: ·) (ih hpre.2)

/-- A store is seen through its name only. -/
theorem lookupConfig_storeFirst {payload : Payload F} {m : CString} :
    lookupConfig (storeFirst cfg name payload) m = (lookupConfig cfg m).map fun p =>
      if m = name then { p with val := { p.val with payload := payload } } else p := by
  obtain ⟨ps, n⟩ := cfg
  simp only [storeFirst, lookupConfig]
  induction ps with
  | nil => rfl
  | cons q ps ih =>
      rw [List.replaceF]
      by_cases hq : q.name = name
      · by_cases hm : q.name = m
        · simp [hq, ← hm]
        · have hne : ¬ m = name := fun h => hm (hq.trans h.symm)
          have hne' : ¬ name = m := fun h => hne h.symm
          simp [hq, hne, hne']
      · by_cases hm : q.name = m
        · have hne : ¬ m = name := fun h => hq (hm.trans h)
          simp [hm, hne]
        · simp [hq, hm, ih]

end Lookup

end Config

end Infra
