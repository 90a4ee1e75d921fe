import Infra.Config.Tags
import Infra.LinkedList.Iterate

/-!
# The values of a configuration in memory

A `ParamValue` is a block of `malloc` with the links of a `struct list_head` in it. The values
that the parser makes are linked into the list at `_g_list`, until the value of a list takes
all of them over: it counts them first, and then it moves them to its array.

What a block holds is a relation between its address and a value that names every block of
which the value is made, so that two values share no block when no block is named twice.
-/

namespace Infra

namespace Config

open LinkedList

/-- The union of a `ParamValue` in memory; the elements of an array are addresses. -/
inductive Contents (F ε : Type) where
  | scalar (value : Scalar F)
  | array (numParams : ℤ) (elems : List ε)

/-- `ParamValue`, less its links. -/
structure PValue (F ε : Type) where
  ptype : ParamType
  contents : Contents F ε

/-- The links of `_g_list` and of the values, the values, how many blocks `malloc` has given
out, and the configuration with its values by their addresses. -/
structure Memory (F ε : Type) where
  lists : Heap (Unit ⊕ ε)
  values : ε → Option (PValue F ε)
  allocated : ℕ
  params : List (CString × ε)
  numParams : BitVec 32

/-- The blocks that `malloc` gives out, one after the other. -/
structure Malloc (ε : Type) where
  block : ℕ → ε
  distinct : Function.Injective block

namespace Objects

variable {F ε : Type}

/-- `&_g_list`. -/
def gList : Unit ⊕ ε := .inl ()

/-- `__init_config`. -/
def initConfig (m : Memory F ε) : Memory F ε := { m with params := [], numParams := 0 }

/-- `addConfigParam`. -/
def addConfigParam (m : Memory F ε) (name : CString) (pval : ε) : Memory F ε :=
  { m with params := m.params ++ [(name, pval)], numParams := m.numParams + 1 }

section Functions

variable [DecidableEq ε] (malloc : Malloc ε)

/-- The beginning of `allocPValue`, with the links set up. -/
def newPValue (m : Memory F ε) : Option (ε × Memory F ε) := do
  let pv := malloc.block m.allocated
  let lists ← initListHead (m.lists.alloc (.inr pv)) (.inr pv)
  some (pv, { m with lists := lists, allocated := m.allocated + 1 })

/-- A store to the fields of a block. -/
def setPValue (m : Memory F ε) (pv : ε) (v : PValue F ε) : Memory F ε :=
  { m with values := Function.update m.values pv (some v) }

/-- `allocPValue` of a scalar. -/
def allocPValue (type : ParamType) (value : Scalar F) (m : Memory F ε) :
    Option (ε × Memory F ε) := do
  let (pv, m) ← newPValue malloc m
  some (pv, setPValue m pv { ptype := type, contents := .scalar value })

/-- One round of the second pass of `allocPValue` over a list; the array has `count`
places. -/
def moveToArray (count : ℤ) (pos : Unit ⊕ ε) (s : Heap (Unit ⊕ ε) × List ε) :
    Option (Heap (Unit ⊕ ε) × List ε) := do
  let lists ← listDel s.1 pos
  match pos with
  | .inl _ => none
  | .inr pos => if s.2.length < count then some (lists, s.2 ++ [pos]) else none

/-- `allocPValue` of the list at `_g_list`. -/
def allocPValueList (fuel : ℕ) (m : Memory F ε) : Option (ε × Memory F ε) := do
  let (pv, m) ← newPValue malloc m
  let count ← listForEach m.lists (fun _ count => some (count + 1)) gList fuel (0 : ℤ)
  let (lists, array) ← listForEachSafe Prod.fst (moveToArray count) gList fuel (m.lists, [])
  let m := { m with lists := lists }
  some (pv, setPValue m pv { ptype := .list, contents := .array count array })

/-- `INIT_LIST_HEAD(&_g_list)`. -/
def initGList (m : Memory F ε) : Option (Memory F ε) := do
  let lists ← initListHead m.lists gList
  some { m with lists := lists }

/-- `list_add_tail(&pv->list, &_g_list)`. -/
def addToGList (m : Memory F ε) (pv : ε) : Option (Memory F ε) := do
  let lists ← listAddTail m.lists (.inr pv) gList
  some { m with lists := lists }

/-- `free` of a `ParamValue`. -/
def free (m : Memory F ε) (pv : ε) : Option (Memory F ε) :=
  (m.values pv).map fun _ =>
    { m with lists := m.lists.free (.inr pv), values := Function.update m.values pv none }

/-- `freePValue`; the string or the array of the union goes first. -/
def freePValue : ℕ → ε → Memory F ε → Option (Memory F ε)
  | 0, _, _ => none
  | fuel + 1, pval, m => do
      let m ← match ← m.values pval with
        | ⟨.string, .scalar (.sval _)⟩ => some m
        | ⟨.string, _⟩ => none
        | ⟨.list, .array numParams elems⟩ =>
            if numParams ≤ elems.length then
              (elems.take numParams.toNat).foldlM (fun m pv => freePValue fuel pv m) m
            else none
        | ⟨.list, _⟩ => none
        | _ => some m
      free m pval

/-- `freeConfig`. -/
def freeConfig (fuel : ℕ) (m : Memory F ε) : Option (Memory F ε) := do
  let m ← m.params.foldlM (fun m p => freePValue fuel p.2 m) m
  some { m with params := [] }

end Functions

/-! ### What the blocks hold -/

/-- The block is the scalar, with the union member that its type names. -/
def HasElem (values : ε → Option (PValue F ε)) (pv : ε) (e : Elem F) : Prop :=
  values pv = some { ptype := e.ptype, contents := .scalar e.value } ∧ e.Tagged

/-- The block is the value, which is made of the blocks of the list. -/
inductive HasValue (values : ε → Option (PValue F ε)) : ε → ParamValue F → List ε → Prop
  | scalar {pv : ε} {e : Elem F} (h : HasElem values pv e) :
      HasValue values pv (Config.allocPValue e.ptype e.value) [pv]
  | list {pv : ε} {es : List ε} {elems : List (Elem F)}
      (h : values pv = some { ptype := .list, contents := .array elems.length es })
      (hes : List.Forall₂ (HasElem values) es elems) :
      HasValue values pv (Config.allocPValueList elems) (pv :: es)

/-- The names with their blocks are the parameters, whose values are made of the blocks of
the list. -/
inductive HasParams (values : ε → Option (PValue F ε)) :
    List (CString × ε) → List (ConfigParameter F) → List ε → Prop
  | nil : HasParams values [] [] []
  | cons {name : CString} {pv : ε} {v : ParamValue F} {bs bs' : List ε}
      {ps : List (CString × ε)} {params : List (ConfigParameter F)}
      (h : HasValue values pv v bs) (hrest : HasParams values ps params bs') :
      HasParams values ((name, pv) :: ps) ({ name := name, val := v } :: params) (bs ++ bs')

section Frame

variable {values values' : ε → Option (PValue F ε)} {pv : ε} {v : ParamValue F} {name : CString}
  {bs bs' es : List ε} {elems : List (Elem F)} {ps : List (CString × ε)}
  {params : List (ConfigParameter F)}

theorem hasElems_congr (h : List.Forall₂ (HasElem values) es elems)
    (hsame : ∀ x ∈ es, values' x = values x) : List.Forall₂ (HasElem values') es elems := by
  induction h with
  | nil => exact .nil
  | cons helem _ ih =>
      rw [List.forall_mem_cons] at hsame
      exact .cons ⟨hsame.1.trans helem.1, helem.2⟩ (ih hsame.2)

/-- A value depends on the blocks that it is made of. -/
theorem HasValue.congr (h : HasValue values pv v bs) (hsame : ∀ x ∈ bs, values' x = values x) :
    HasValue values' pv v bs := by
  cases h with
  | scalar h => exact .scalar ⟨(hsame pv List.mem_cons_self).trans h.1, h.2⟩
  | list h hes =>
      rw [List.forall_mem_cons] at hsame
      exact .list (hsame.1.trans h) (hasElems_congr hes hsame.2)

theorem HasParams.congr (h : HasParams values ps params bs)
    (hsame : ∀ x ∈ bs, values' x = values x) : HasParams values' ps params bs := by
  induction h with
  | nil => exact .nil
  | cons h _ ih =>
      rw [List.forall_mem_append] at hsame
      exact .cons (h.congr hsame.1) (ih hsame.2)

/-- A parameter is added at the end. -/
theorem HasParams.concat (h : HasParams values ps params bs) (hv : HasValue values pv v bs') :
    HasParams values (ps ++ [(name, pv)]) (params ++ [{ name := name, val := v }]) (bs ++ bs') := by
  induction h with
  | nil => simpa using HasParams.cons hv HasParams.nil
  | cons h _ ih =>
      rw [List.append_assoc]
      exact .cons h ih

end Frame

section Free

variable [DecidableEq ε] {m : Memory F ε} {pv : ε} {e : Elem F} {v : ParamValue F} {fuel : ℕ}
  {bs es : List ε} {elems : List (Elem F)}

theorem free_spec (m : Memory F ε) (pv : ε) (h : (m.values pv).isSome) :
    ∃ m', free m pv = some m' ∧ m'.params = m.params ∧ ∀ x, x ≠ pv → m'.values x = m.values x := by
  obtain ⟨v, hv⟩ := Option.isSome_iff_exists.mp h
  refine ⟨{ m with lists := m.lists.free (.inr pv), values := Function.update m.values pv none },
    by rw [free, hv, Option.map_some], rfl, fun x hx => ?_⟩
  exact Function.update_of_ne hx _ _

theorem freePValue_scalar (h : HasElem m.values pv e) :
    freePValue (fuel + 1) pv m = free m pv := by
  obtain ⟨hvalue, htag⟩ := h
  obtain ⟨ptype, value⟩ := e
  rw [freePValue, hvalue]
  cases ptype <;> cases value <;> first | rfl | cases htag

theorem freeElems_spec (h : List.Forall₂ (HasElem m.values) es elems) (hnodup : es.Nodup) :
    ∃ m', (∀ fuel, es.foldlM (fun m pv => freePValue (fuel + 1) pv m) m = some m') ∧
      m'.params = m.params ∧ ∀ x, x ∉ es → m'.values x = m.values x := by
  induction es generalizing m elems with
  | nil => exact ⟨m, fun _ => rfl, rfl, fun _ _ => rfl⟩
  | cons pv es ih =>
      obtain ⟨e, elems, helem, hrest, rfl⟩ := List.forall₂_cons_left_iff.mp h
      rw [List.nodup_cons] at hnodup
      obtain ⟨m₁, hfree, hparams, hsame⟩ := free_spec m pv (by rw [helem.1]; rfl)
      have hrest₁ : List.Forall₂ (HasElem m₁.values) es elems :=
        hasElems_congr hrest fun x hx => hsame x (ne_of_mem_of_not_mem hx hnodup.1)
      obtain ⟨m₂, hloop, hparams₂, hsame₂⟩ := ih hrest₁ hnodup.2
      refine ⟨m₂, fun fuel => ?_, hparams₂.trans hparams, fun x hx => ?_⟩
      · rw [List.foldlM_cons, freePValue_scalar helem, hfree]
        exact hloop fuel
      · rw [List.mem_cons, not_or] at hx
        rw [hsame₂ x hx.2, hsame x hx.1]

/-- A value is freed once, block by block. -/
theorem freePValue_spec (h : HasValue m.values pv v bs) (hnodup : bs.Nodup) :
    ∃ m', (∀ fuel, freePValue (fuel + 2) pv m = some m') ∧ m'.params = m.params ∧
      ∀ x, x ∉ bs → m'.values x = m.values x := by
  cases h with
  | scalar h =>
      obtain ⟨m', hfree, hparams, hsame⟩ := free_spec m pv (by rw [h.1]; rfl)
      exact ⟨m', fun fuel => (freePValue_scalar h).trans hfree, hparams,
        fun x hx => hsame x fun heq => hx (List.mem_singleton.mpr heq)⟩
  | @list es elems h hes =>
      rw [List.nodup_cons] at hnodup
      obtain ⟨m₁, hloop, hparams₁, hsame₁⟩ := freeElems_spec hes hnodup.2
      obtain ⟨m₂, hfree, hparams₂, hsame₂⟩ := free_spec m₁ pv
        (by rw [hsame₁ pv hnodup.1, h]; rfl)
      refine ⟨m₂, fun fuel => ?_, hparams₂.trans hparams₁, fun x hx => ?_⟩
      · have hlen : (elems.length : ℤ) = es.length := by rw [hes.length_eq]
        rw [freePValue, h]
        simp only [Option.bind_eq_bind, Option.bind_some, hlen, le_refl, if_true, Int.toNat_natCast,
          List.take_length, hloop, hfree]
      · rw [List.mem_cons, not_or] at hx
        rw [hsame₂ x hx.1, hsame₁ x hx.2]

/-- A configuration whose values share no block is freed, and no parameter is left. -/
theorem freeConfig_spec {ps : List (CString × ε)} {params : List (ConfigParameter F)}
    (h : HasParams m.values ps params bs) (hps : m.params = ps) (hnodup : bs.Nodup) :
    ∃ m', (∀ fuel, freeConfig (fuel + 2) m = some m') ∧ m'.params = [] := by
  have hloop : ∃ m', ∀ fuel, ps.foldlM (fun m p => freePValue (fuel + 2) p.2 m) m = some m' := by
    clear hps
    induction ps generalizing m params bs with
    | nil => exact ⟨m, fun _ => rfl⟩
    | cons p ps ih =>
        cases h with
        | @cons name pv v bs bs' _ params h hrest =>
            obtain ⟨hbs, hbs', hdisjoint⟩ := List.nodup_append'.mp hnodup
            obtain ⟨m₁, hfree, -, hsame⟩ := freePValue_spec h hbs
            have hrest₁ : HasParams m₁.values ps params bs' :=
              hrest.congr fun x hx => hsame x fun hx' => hdisjoint hx' hx
            obtain ⟨m₂, hm₂⟩ := ih hrest₁ hbs'
            refine ⟨m₂, fun fuel => ?_⟩
            rw [List.foldlM_cons, hfree]
            exact hm₂ fuel
  obtain ⟨m', hm'⟩ := hloop
  exact ⟨{ m' with params := [] }, fun fuel => by rw [freeConfig, hps, hm']; rfl, rfl⟩

end Free

end Objects

end Config

end Infra
