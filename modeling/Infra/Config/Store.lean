import Infra.Config.Entries
import Infra.Foundation.BlockStore
import Infra.LinkedList.Iterate

/-!
# `cfg_loader.c` on the heap

The functions of `cfg_loader.c` as loads and stores. A `ConfigParameter`, a `ParamValue`, a
string and the array of a list are blocks of `malloc` that point to each other, and the
parameters are linked into the list at `parm_list`. A function has no result when it goes
through NULL, when it reads a block for what it is not, or when it frees what is not in use.
-/

namespace Infra

namespace Config

open Infra.Ascii LinkedList

/-- A `struct list_head`: that of the configuration, the one on the stack of
`addListValue`, or the one in a block. -/
inductive Link (ε : Type) where
  | parmList
  | list
  | block (ptr : ε)
  deriving DecidableEq

/-- The union of a `ParamValue`, by the member last written; an array comes with the field
`numParams`. -/
inductive Member (F ε : Type) where
  | ival (n : BitVec 32)
  | sval (ptr : Option ε)
  | fval (x : F)
  | array (numParams : ℤ) (ptr : Option ε)

/-- A `ParamValue`, less its links. The union of a list is not set at first. -/
structure ValueBlock (F ε : Type) where
  ptype : ParamType
  member : Option (Member F ε)

/-- A `ConfigParameter`, less its links. -/
structure ParamBlock (ε : Type) where
  name : Option ε
  val : Option ε

/-- What is in a block. An array is filled from its front. -/
inductive Block (F ε : Type) where
  | chars (str : CString)
  | array (size : ℤ) (elems : List ε)
  | value (v : ValueBlock F ε)
  | param (p : ParamBlock ε)

/-- The blocks and the links, and the counter of the configuration. -/
structure Store (F ε : Type) extends BlockStore ε (Block F ε) where
  lists : Heap (Link ε)
  numParams : BitVec 32

namespace Store

variable {F ε : Type} [DecidableEq ε]

/-- A `char*` that a caller hands over: to a string of its own, or to a block. -/
inductive CharPtr (ε : Type) where
  | own (str : CString)
  | block (ptr : ε)

/-! ## The blocks -/

/-- The string that a pointer points to. -/
def chars (s : Store F ε) (ptr : Option ε) : Option CString := do
  match ← s.load (← ptr) with
  | .chars str => some str
  | _ => none

/-- The string that a pointer of a caller points to. -/
def deref (s : Store F ε) : CharPtr ε → Option CString
  | .own str => some str
  | .block ptr => s.chars (some ptr)

/-- The `ParamValue` that a pointer points to. -/
def value (s : Store F ε) (ptr : Option ε) : Option (ValueBlock F ε) := do
  match ← s.load (← ptr) with
  | .value v => some v
  | _ => none

/-- The `ConfigParameter` that a pointer points to. -/
def param (s : Store F ε) (ptr : Option ε) : Option (ParamBlock ε) := do
  match ← s.load (← ptr) with
  | .param p => some p
  | _ => none

/-- The array that a pointer points to, with its size. -/
def array (s : Store F ε) (ptr : Option ε) : Option (ℤ × List ε) := do
  match ← s.load (← ptr) with
  | .array size elems => some (size, elems)
  | _ => none

/-- A store through a pointer. -/
def put (s : Store F ε) (ptr : ε) (b : Block F ε) : Option (Store F ε) := do
  let blocks ← s.toBlockStore.store ptr b
  some { s with toBlockStore := blocks }

/-- A store to the name of a parameter. -/
def setName (s : Store F ε) (ptr : ε) (name : Option ε) : Option (Store F ε) := do
  let p ← s.param ptr
  s.put ptr (.param { p with name := name })

/-- A store to the value of a parameter. -/
def setVal (s : Store F ε) (ptr : ε) (val : Option ε) : Option (Store F ε) := do
  let p ← s.param ptr
  s.put ptr (.param { p with val := val })

/-- A store to the union of a value. -/
def setMember (s : Store F ε) (ptr : Option ε) (member : Member F ε) : Option (Store F ε) := do
  let v ← s.value ptr
  s.put (← ptr) (.value { v with member := some member })

/-- `malloc` of a block without links. -/
def malloc (A : Allocator ε) (s : Store F ε) (b : Block F ε) : Option ε × Store F ε :=
  let (ptr, blocks) := s.toBlockStore.malloc A b
  (ptr, { s with toBlockStore := blocks })

/-- `malloc` of a block with links, which `INIT_LIST_HEAD` then sets. -/
def mallocLinked (A : Allocator ε) (s : Store F ε) (b : Block F ε) :
    Option (Option ε × Store F ε) :=
  match s.malloc A b with
  | (none, s) => some (none, s)
  | (some ptr, s) => do
      let lists ← initListHead (s.lists.alloc (.block ptr)) (.block ptr)
      some (some ptr, { s with lists := lists })

/-- `free`. -/
def free (s : Store F ε) : Option ε → Option (Store F ε)
  | none => some s
  | some ptr => do
      let blocks ← s.toBlockStore.free ptr
      some { s with toBlockStore := blocks, lists := s.lists.free (.block ptr) }

/-- `strdup`. -/
def strdup (A : Allocator ε) (s : Store F ε) (str : CString) : Option ε × Store F ε :=
  s.malloc A (.chars str)

/-! ## Values and parameters -/

/-- `__init_config`. -/
def initConfig (s : Store F ε) : Option (Store F ε) := do
  let lists ← initListHead s.lists .parmList
  some { s with lists := lists, numParams := 0 }

/-- `allocConfigParam`. -/
def allocConfigParam (A : Allocator ε) (s : Store F ε) : Option (Option ε × Store F ε) :=
  s.mallocLinked A (.param { name := none, val := none })

/-- `allocPValue` of a scalar. -/
def allocPValue (A : Allocator ε) (s : Store F ε) (type : ParamType) (value : Member F ε) :
    Option (Option ε × Store F ε) :=
  s.mallocLinked A (.value { ptype := type, member := some value })

/-- One round of the second pass of `allocPValue` over a list. -/
def moveToArray (pv : ε) (pos : Link ε) (s : Store F ε) : Option (Store F ε) := do
  let lists ← listDel s.lists pos
  let s := { s with lists := lists }
  let v ← s.value pv
  match pos, v.member with
  | .block pos, some (.array _ (some ptr)) => do
      let (size, elems) ← s.array ptr
      if elems.length < size then s.put ptr (.array size (elems ++ [pos])) else none
  | _, _ => none

/-- `allocPValue` of a list. -/
def allocPValueList (A : Allocator ε) (fuel : ℕ) (s : Store F ε) (l : Link ε) :
    Option (Option ε × Store F ε) := do
  let (pv, s) ← s.mallocLinked A (.value { ptype := .list, member := none })
  match pv with
  | none => some (none, s)
  | some pv => do
      let count ← listForEach s.lists (fun _ count => some (count + 1)) l fuel (0 : ℤ)
      let (array, s) := s.malloc A (.array count [])
      let s ← s.setMember pv (.array count array)
      let s ← listForEachSafe lists (moveToArray pv) l fuel s
      some (some pv, s)

/-- `pval->array[i]`. -/
def elemAt (s : Store F ε) (pval : Option ε) (i : ℕ) : Option ε := do
  let v ← s.value pval
  match ← v.member with
  | .array _ ptr => do
      let (_, elems) ← s.array ptr
      elems[i]?
  | _ => none

/-- `freePValue`; the depth is that of the recursion. -/
def freePValue : ℕ → Store F ε → Option ε → Option (Store F ε)
  | 0, _, _ => none
  | depth + 1, s, pval => do
      let v ← s.value pval
      let s ← match v.ptype, v.member with
        | .string, some (.sval ptr) => s.free ptr
        | .string, _ => none
        | .list, some (.array numParams ptr) => do
            let s ← (List.range numParams.toNat).foldlM (fun s i => do
              let elem ← s.elemAt pval i
              freePValue depth s (some elem)) s
            s.free ptr
        | .list, _ => none
        | _, _ => some s
      s.free pval

/-- `freeConfigParam`. -/
def freeConfigParam (depth : ℕ) (s : Store F ε) (p : ε) : Option (Store F ε) := do
  let c ← s.param p
  let s ← freePValue depth s c.val
  let c ← s.param p
  let s ← s.free c.name
  s.free (some p)

/-- `addParameter`. -/
def addParameter (s : Store F ε) (param : ε) : Option (Store F ε) := do
  let lists ← listAddTail s.lists (.block param) .parmList
  some { s with lists := lists, numParams := s.numParams + 1 }

/-- `delParameter`. -/
def delParameter (depth : ℕ) (s : Store F ε) (param : ε) : Option (Store F ε) := do
  let lists ← listDel s.lists (.block param)
  freeConfigParam depth { s with lists := lists, numParams := s.numParams - 1 } param

/-- `addConfigParam`. -/
def addConfigParam (A : Allocator ε) (s : Store F ε) (name pval : Option ε) :
    Option (Store F ε) := do
  let (param, s) ← s.allocConfigParam A
  match param with
  | none => some s
  | some param => do
      let s ← s.setName param name
      let s ← s.setVal param pval
      s.addParameter param

/-- The body of the loop of `freeConfig`. -/
def freeBody (depth : ℕ) (pos : Link ε) (s : Store F ε) : Option (Store F ε) := do
  let lists ← listDel s.lists pos
  match pos with
  | .block p => freeConfigParam depth { s with lists := lists } p
  | _ => none

/-- `freeConfig`. -/
def freeConfig (depth fuel : ℕ) (s : Store F ε) : Option (Store F ε) :=
  listForEachSafe lists (freeBody depth) .parmList fuel s

/-! ## Looking up -/

/-- The parameter of a position of the list. -/
def entryOf : Link ε → Option ε
  | .block p => some p
  | _ => none

/-- The comparison of the name at a position. -/
def nameIs (s : Store F ε) (name : CString) (pos : Link ε) : Option Bool := do
  let c ← s.param (entryOf pos)
  let str ← s.chars c.name
  some (decide (str = name))

/-- `lookupConfig`. -/
def lookupConfig (fuel : ℕ) (s : Store F ε) (name : CString) : Option (Option ε) := do
  let pos ← listFind s.lists (s.nameIs name) .parmList fuel
  some (pos.bind entryOf)

/-- `lookupNextConfig`. -/
def lookupNextConfig (fuel : ℕ) (s : Store F ε) (current : ε) (name : CString) :
    Option (Option ε) := do
  let pos ← s.lists.next (.block current)
  let pos ← listFindFrom s.lists (s.nameIs name) .parmList fuel pos
  some (pos.bind entryOf)

/-- `iterate_over_cfg`; the callback reads the parameter and changes a state of its own. -/
def iterateOverCfg {σ : Type} (fuel : ℕ) (s : Store F ε) (it : ε → σ → Option σ) (t : σ) :
    Option σ :=
  listForEach s.lists (fun pos t => do it (← entryOf pos) t) .parmList fuel t

/-- `iterate_over_name`. -/
def iterateOverName {σ : Type} (fuel : ℕ) (s : Store F ε) (name : CString)
    (it : ε → σ → Option σ) (t : σ) : Option σ :=
  listForEach s.lists (fun pos t => do
    if ← s.nameIs name pos then it (← entryOf pos) t else some t) .parmList fuel t

/-- The union of the value that a name finds; the inner `none` is NULL. -/
def lookupMember (fuel : ℕ) (s : Store F ε) (name : CString) :
    Option (Option (Member F ε)) := do
  match ← s.lookupConfig fuel name with
  | none => some none
  | some p => do
      let c ← s.param p
      let v ← s.value c.val
      let m ← v.member
      some (some m)

/-- `lookupInt`. -/
def lookupInt (fuel : ℕ) (s : Store F ε) (name : CString) : Option (BitVec 32) := do
  match ← s.lookupMember fuel name with
  | none => some 0
  | some (.ival n) => some n
  | _ => none

/-- `lookupStr`. -/
def lookupStr (fuel : ℕ) (s : Store F ε) (name : CString) : Option (Option ε) := do
  match ← s.lookupMember fuel name with
  | none => some none
  | some (.sval ptr) => some ptr
  | _ => none

/-- `lookupFloat`; the inner `none` is `0.0f`. -/
def lookupFloat (fuel : ℕ) (s : Store F ε) (name : CString) : Option (Option F) := do
  match ← s.lookupMember fuel name with
  | none => some none
  | some (.fval x) => some (some x)
  | _ => none

/-! ## Adding and setting -/

/-- What the functions that add a scalar do with their new parameter. -/
def addScalar (A : Allocator ε) (s : Store F ε) (param : ε) (name : CString) (type : ParamType)
    (value : Member F ε) : Option (Store F ε) := do
  let (str, s) := s.strdup A name
  let s ← s.setName param str
  let (val, s) ← s.allocPValue A type value
  let s ← s.setVal param val
  s.addParameter param

/-- What the functions that add a scalar other than a string have in common. -/
def addValue (A : Allocator ε) (s : Store F ε) (name : CString) (type : ParamType)
    (value : Member F ε) : Option (Store F ε) := do
  let (param, s) ← s.allocConfigParam A
  match param with
  | none => some s
  | some param => s.addScalar A param name type value

/-- `addIntegerValue`. -/
def addIntegerValue (A : Allocator ε) (s : Store F ε) (name : CString) (value : BitVec 32) :
    Option (Store F ε) :=
  s.addValue A name .integer (.ival value)

/-- `addFloatValue`. -/
def addFloatValue (A : Allocator ε) (s : Store F ε) (name : CString) (value : F) :
    Option (Store F ε) :=
  s.addValue A name .float (.fval value)

/-- `addBoolValue`. -/
def addBoolValue (A : Allocator ε) (s : Store F ε) (name : CString) (value : BitVec 32) :
    Option (Store F ε) :=
  s.addValue A name .boolean (.ival value)

/-- `addStringValue`; the copy is freed when there is no parameter for it. -/
def addStringValue (A : Allocator ε) (s : Store F ε) (name str : CString) :
    Option (Store F ε) := do
  let (dup, s) := s.strdup A str
  let (param, s) ← s.allocConfigParam A
  match param with
  | none => s.free dup
  | some param => s.addScalar A param name .string (.sval dup)

/-- The value that `addListValue` makes of an argument. -/
def allocArg (A : Allocator ε) (s : Store F ε) : ListArg F → Option (Option ε × Store F ε)
  | .string sval =>
      let (ptr, s) := s.strdup A sval
      s.allocPValue A .string (.sval ptr)
  | .float fval => s.allocPValue A .float (.fval fval)
  | .integer ival => s.allocPValue A .integer (.ival ival)
  | .boolean ival => s.allocPValue A .boolean (.ival ival)

/-- One round of the loop of `addListValue`. -/
def addArg (A : Allocator ε) (s : Store F ε) (arg : ListArg F) : Option (Store F ε) := do
  let (val, s) ← s.allocArg A arg
  let lists ← listAddTail s.lists (.block (← val)) .list
  some { s with lists := lists }

/-- `addListValue`; its list is on the stack. -/
def addListValue (A : Allocator ε) (fuel : ℕ) (s : Store F ε) (name : CString)
    (args : List (ListArg F)) : Option (Store F ε) := do
  let (param, s) ← s.allocConfigParam A
  match param with
  | none => some s
  | some param => do
      let lists ← initListHead (s.lists.alloc .list) .list
      let s ← args.foldlM (fun s arg => s.addArg A arg) { s with lists := lists }
      let (str, s) := s.strdup A name
      let s ← s.setName param str
      let (val, s) ← s.allocPValueList A fuel .list
      let s ← s.setVal param val
      let s ← s.addParameter param
      some { s with lists := s.lists.free .list }

/-- `setParamString`; the old string is freed before the new one is read. -/
def setParamString (A : Allocator ε) (fuel : ℕ) (s : Store F ε) (name : CString)
    (value : CharPtr ε) : Option (Store F ε) := do
  match ← s.lookupConfig fuel name with
  | none => do
      let str ← s.deref value
      s.addStringValue A name str
  | some p => do
      let c ← s.param p
      let v ← s.value c.val
      match ← v.member with
      | .sval ptr => do
          let s ← s.free ptr
          let str ← s.deref value
          let (dup, s) := s.strdup A str
          s.setMember c.val (.sval dup)
      | _ => none

/-- The store of the setters of `ival`. -/
def storeInt (s : Store F ε) (p : ε) (value : BitVec 32) : Option (Store F ε) := do
  let c ← s.param p
  s.setMember c.val (.ival value)

/-- `setParamInteger`. -/
def setParamInteger (A : Allocator ε) (fuel : ℕ) (s : Store F ε) (name : CString)
    (value : BitVec 32) : Option (Store F ε) := do
  match ← s.lookupConfig fuel name with
  | none => s.addIntegerValue A name value
  | some p => s.storeInt p value

/-- `setParamBool`. -/
def setParamBool (A : Allocator ε) (fuel : ℕ) (s : Store F ε) (name : CString)
    (value : BitVec 32) : Option (Store F ε) := do
  match ← s.lookupConfig fuel name with
  | none => s.addBoolValue A name value
  | some p => s.storeInt p value

/-! ## Reading -/

/-- The scalar in a union, with its string. -/
def readMember (s : Store F ε) : Member F ε → Option (Scalar F)
  | .ival n => some (.ival n)
  | .sval ptr => (s.chars ptr).map .sval
  | .fval x => some (.fval x)
  | .array _ _ => none

/-- The element of a list that a pointer points to. -/
def readElem (s : Store F ε) (ptr : ε) : Option (Elem F) := do
  let v ← s.value ptr
  let value ← s.readMember (← v.member)
  some { ptype := v.ptype, value := value }

/-- The value that a pointer points to. -/
def readValue (s : Store F ε) (ptr : Option ε) : Option (ParamValue F) := do
  let v ← s.value ptr
  match ← v.member with
  | .array numParams ptr => do
      let (_, elems) ← s.array ptr
      let elems ← elems.mapM s.readElem
      some { ptype := v.ptype, payload := .array numParams elems }
  | m => do
      let value ← s.readMember m
      some { ptype := v.ptype, payload := .scalar value }

/-- The parameter that a pointer points to. -/
def readParam (s : Store F ε) (p : ε) : Option (ConfigParameter F) := do
  let c ← s.param p
  let name ← s.chars c.name
  let val ← s.readValue c.val
  some { name := name, val := val }

/-- The body of the loop of `writeConfig`. -/
def writeLine (ft : FloatText F) (s : Store F ε) (p : ε) (text : List UInt8) :
    Option (List UInt8) := do
  let line ← writeParameter ft (← s.readParam p)
  some (text ++ line)

/-- What `writeConfig` writes to the file when it returns 0. -/
def writeConfig (ft : FloatText F) (fuel : ℕ) (s : Store F ε) : Option (List UInt8) := do
  let lines ← s.iterateOverCfg fuel (s.writeLine ft) []
  some (bytes "#\n#\n#\n\n" ++ lines)

end Store

end Config

end Infra
