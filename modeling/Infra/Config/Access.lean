import Infra.Config.Atomic
import Mathlib.Data.List.ReduceOption

/-!
# `read_bim_cfg` and `open_bim_system_cfg`

A read parses the file and copies the values of the names that are asked for to the
places that its caller gives. It is left at the first name that is not there or that has
a list; what was copied before stays where it is. The configuration of the system is
read from the backup when its file is not accepted.
-/

namespace Infra

namespace Config

open Infra.Ascii Multimap

variable {F : Type}

/-- `BIM_SYSTEM_CONFIG_ACTIVE`. -/
def bimSystemConfigActive : CString := .ofBytes (bytes "/flash/config/system.cfg")

/-- `BIM_SYSTEM_CONFIG_BACKUP`. -/
def bimSystemConfigBackup : CString := .ofBytes (bytes "/etc/system.cfg")

/-- A pointer of the argument list of a read; a `char*` comes with the size of the array
that it points to. -/
inductive Dest where
  | str (size : ℕ)
  | int
  | dbl

deriving instance DecidableEq for Arg

/-- The body of the loop over the arguments: the value that is copied. The inner `none` is
the jump to `fail`; a pointer of another type, and an array too small for the string and
its NUL, have no result. -/
def readParam (cfg : ConfigCB F) (pname : CString) (dest : Dest) : Option (Option (Arg F)) :=
  match lookupConfig cfg pname with
  | none => some none
  | some param =>
      match param.val.ptype, dest with
      | .string, .str size =>
          match param.val.payload with
          | .scalar (.sval s) => if s.length < size then some (some (.str s)) else none
          | _ => none
      | .float, .dbl =>
          match param.val.payload with
          | .scalar (.fval x) => some (some (.dbl x))
          | _ => none
      | .integer, .int | .boolean, .int =>
          match param.val.payload with
          | .scalar (.ival n) => some (some (.int n))
          | _ => none
      | .list, _ => some none
      | _, _ => none

/-- The loop over the arguments: the values that are copied, and whether the loop comes to
the end of the arguments. -/
def readParams (cfg : ConfigCB F) : List (CString × Dest) → Option (List (Arg F) × Bool)
  | [] => some ([], true)
  | (pname, dest) :: args => do
      let result ← readParam cfg pname dest
      match result with
      | none => some ([], false)
      | some val => do
          let (vals, ok) ← readParams cfg args
          some (val :: vals, ok)

/-- `read_bim_cfg`: the returned value and the values at the places of the caller. The lock
is empty. -/
def readBimCfg (ft : FloatText F) (fuel : ℕ) (file : Option (List UInt8))
    (args : List (CString × Dest)) : Option (ℤ × List (Arg F)) := do
  let (ret, cfg) ← parseConfig ft fuel file
  if ret ≠ 0 then some (-1, [])
  else
    let (vals, ok) ← readParams cfg args
    some (if ok then ret else -1, vals)

/-- `open_bim_system_cfg` on the files at `BIM_SYSTEM_CONFIG_ACTIVE` and
`BIM_SYSTEM_CONFIG_BACKUP`. -/
def openBimSystemCfg (ft : FloatText F) (fuel : ℕ) (active backup : Option (List UInt8)) :
    Option (ℤ × ConfigCB F) := do
  let (ret, cfg) ← parseConfig ft fuel active
  if ret ≠ 0 then
    let (ret, cfg) ← parseConfig ft fuel backup
    some (if ret ≠ 0 then -1 else 0, cfg)
  else some (0, cfg)

/-! ## The values of the entries -/

/-- A value as it is given to an update and got from a read; a list is neither. -/
def ParamValue.arg (v : ParamValue F) : Option (Arg F) :=
  match v.payload with
  | .scalar (.sval s) => some (.str s)
  | .scalar (.ival n) => some (.int n)
  | .scalar (.fval x) => some (.dbl x)
  | .array _ _ => none

/-- The value that a name stands for. -/
def value (m : List (CString × ParamValue F)) (name : CString) : Option (Arg F) :=
  (first m name).bind ParamValue.arg

/-- The arguments have the same type. -/
def Arg.sameType : Arg F → Arg F → Bool
  | .str _, .str _ | .int _, .int _ | .dbl _, .dbl _ => true
  | _, _ => false

/-- The value can be copied to the place. -/
def Arg.goesTo : Arg F → Dest → Bool
  | .str s, .str size => s.length < size
  | .int _, .int | .dbl _, .dbl => true
  | _, _ => false

variable {cfg : ConfigCB F} {name : CString} {p : ConfigParameter F} {v : ParamValue F}
  {a : CString × Arg F} {dest : Dest} {dests : List (CString × Dest)}

theorem value_entries : value (entries cfg) name = (lookupConfig cfg name).bind (·.val.arg) := by
  rw [value, first_entries, Option.bind_map]
  rfl

/-- The type of a tagged value tells what it is given and got as. -/
theorem ParamValue.Tagged.cases (h : v.Tagged) :
    (∃ s, v.ptype = .string ∧ v.payload = .scalar (.sval s) ∧ v.arg = some (.str s)) ∨
    (∃ x, v.ptype = .float ∧ v.payload = .scalar (.fval x) ∧ v.arg = some (.dbl x)) ∨
    (∃ n, (v.ptype = .integer ∨ v.ptype = .boolean) ∧ v.payload = .scalar (.ival n) ∧
      v.arg = some (.int n)) ∨
    v.ptype = .list ∧ v.arg = none := by
  obtain ⟨ptype, payload⟩ := v
  cases payload with
  | scalar value =>
      cases ptype <;> cases value <;>
        first
        | exact h.elim
        | simp [ParamValue.arg]
  | array n elems => exact Or.inr (Or.inr (Or.inr ⟨h.1, rfl⟩))

theorem lookup_tagged (hcfg : cfg.Tagged) (h : lookupConfig cfg name = some p) :
    p.val.Tagged := by
  obtain ⟨-, pre, post, hparams, -⟩ := lookupConfig_eq_some.mp h
  exact hcfg p (by simp [hparams])

/-- An argument fails when its name stands for no value. -/
theorem fails_iff (hcfg : cfg.Tagged) : Fails cfg a ↔ value (entries cfg) a.1 = none := by
  rw [Fails, value_entries]
  cases h : lookupConfig cfg a.1 with
  | none => simp
  | some p =>
      rcases (lookup_tagged hcfg h).cases with ⟨s, ht, -, ha⟩ | ⟨x, ht, -, ha⟩ |
        ⟨n, ht | ht, -, ha⟩ | ⟨ht, ha⟩ <;> simp [ht, ha]

/-- An argument is typed when it has the type of the value that its name stands for. -/
theorem argTyped_iff (hcfg : cfg.Tagged) :
    ArgTyped cfg a ↔ (value (entries cfg) a.1).all (·.sameType a.2) := by
  obtain ⟨name, arg⟩ := a
  rw [ArgTyped, value_entries]
  cases h : lookupConfig cfg name with
  | none => simp
  | some p =>
      rcases (lookup_tagged hcfg h).cases with ⟨s, ht, -, ha⟩ | ⟨x, ht, -, ha⟩ |
        ⟨n, ht | ht, -, ha⟩ | ⟨ht, ha⟩ <;> cases arg <;> simp [ht, ha, Arg.sameType]

/-! ## A read -/

/-- One round of the loop over the arguments. -/
theorem readParam_eq (hcfg : cfg.Tagged)
    (hdest : (value (entries cfg) name).all (·.goesTo dest)) :
    readParam cfg name dest = some (value (entries cfg) name) := by
  rw [value_entries] at hdest ⊢
  unfold readParam
  cases h : lookupConfig cfg name with
  | none => rfl
  | some p =>
      rw [h, Option.bind_some] at hdest
      rw [Option.bind_some]
      rcases (lookup_tagged hcfg h).cases with ⟨s, ht, hp, ha⟩ | ⟨x, ht, hp, ha⟩ |
        ⟨n, ht | ht, hp, ha⟩ | ⟨ht, ha⟩ <;> rw [ha] at hdest ⊢ <;> cases dest <;>
        simp_all [Arg.goesTo]

/-- The loop copies the values up to the first name that stands for none. -/
theorem readParams_eq (hcfg : cfg.Tagged)
    (hdests : ∀ d ∈ dests, (value (entries cfg) d.1).all (·.goesTo d.2)) :
    readParams cfg dests =
      some (((dests.map fun d => value (entries cfg) d.1).takeWhile Option.isSome).reduceOption,
        dests.all fun d => (value (entries cfg) d.1).isSome) := by
  induction dests with
  | nil => rfl
  | cons d dests ih =>
      rw [List.forall_mem_cons] at hdests
      have hstep := readParam_eq hcfg hdests.1
      have hrest := ih hdests.2
      cases hval : value (entries cfg) d.1 with
      | none => simp [readParams, hstep, hval]
      | some val => simp [readParams, hstep, hval, hrest]

end Config

end Infra
