import Infra.Config.Scanner

/-!
# `writeConfig`

A configuration is written as a head of comments and one line for each
parameter. A value is printed by its type tag, so a tag that is not that of the
member last written has no text.
-/

namespace Infra

namespace Config

open Infra.Ascii

section Functions

variable {F : Type}

/-- The conversion `%-20s`. -/
def padName (name : CString) : List UInt8 :=
  name.bytes ++ List.replicate (20 - name.length) (byte ' ')

/-- The conversion `%d`. -/
def formatInt (n : BitVec 32) : List UInt8 :=
  (if n.toInt < 0 then bytes "-" else []) ++ decimal n.toInt.natAbs

/-- `writeValue`. -/
def writeValue (ft : FloatText F) (val : Elem F) : Option (List UInt8) :=
  match val.ptype, val.value with
  | .string, .sval s => some (bytes "\"" ++ s.bytes ++ bytes "\"")
  | .integer, .ival n => some (formatInt n)
  | .float, .fval x => some (ft.format x)
  | .boolean, .ival n => some (if n = 0 then bytes "false" else bytes "true")
  | .list, _ => some []
  | _, _ => none

/-- The loop of `writeParameter` over the elements of a list. -/
def writeElems (ft : FloatText F) : List (Elem F) → Option (List UInt8)
  | [] => some []
  | [e] => writeValue ft e
  | e :: es => do
      let text ← writeValue ft e
      let rest ← writeElems ft es
      some (text ++ bytes " , " ++ rest)

/-- `writeParameter`; it returns 0 for every type. -/
def writeParameter (ft : FloatText F) (p : ConfigParameter F) : Option (List UInt8) :=
  match p.val.ptype, p.val.payload with
  | .list, .array numParams elems =>
      if numParams ≤ elems.length then do
        let text ← writeElems ft (elems.take numParams.toNat)
        some (padName p.name ++ bytes "= [ " ++ text ++ bytes " ]\n")
      else none
  | .list, .scalar _ => none
  | _, .array _ _ => none
  | type, .scalar value => do
      let text ← writeValue ft (allocElem type value)
      some (padName p.name ++ bytes "= " ++ text ++ bytes "\n")

/-- The lines of the parameters. -/
def writeParameters (ft : FloatText F) : List (ConfigParameter F) → Option (List UInt8)
  | [] => some []
  | p :: ps => do
      let line ← writeParameter ft p
      let rest ← writeParameters ft ps
      some (line ++ rest)

/-- What `writeConfig` writes to the file when it returns 0. -/
def writeConfig (ft : FloatText F) (cfg : ConfigCB F) : Option (List UInt8) := do
  let lines ← writeParameters ft cfg.params
  some (bytes "#\n#\n#\n\n" ++ lines)

end Functions

end Config

end Infra
