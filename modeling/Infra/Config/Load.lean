import Infra.Config.History
import Infra.Foundation.Ascii
import Infra.Foundation.ByteMemory
import Infra.Foundation.LittleEndian

/-!
# Loading parameters into a structure

`load_parameter` goes through an array of definitions, each with the name of a parameter, a
type and the place of a field. It writes fields of two types only, and it looks at the type
of the definition, not at that of the value: a field of another type is left as it was, and
a value of another type is read through the member of the definition. Both count as
success.
-/

namespace Infra

namespace Config

open ByteMemory Ascii

/-- `ConfigStructDef`, with a type that is a `ParamType`. -/
structure ConfigStructDef where
  name : CString
  type : ParamType
  offset : ℤ

/-- The answers of `strdup`, one for each entry of an array: 0 is NULL, and blocks that are
given out are distinct. -/
structure Strdup where
  ptr : ℕ → BitVec 64
  distinct : ∀ i j, ptr i = ptr j → ptr i ≠ 0 → i = j

/-- The memory that fields are written to, and the strings in blocks of `strdup`. -/
structure LoadMemory where
  fields : ByteMemory
  strings : BitVec 64 → Option CString

section Functions

variable {F : Type}

/-- The `switch` of `load_parameter`; a member that is not the last written has no
value. -/
def loadEntry (ptr : BitVec 64) (d : ConfigStructDef) (val : ParamValue F) (m : LoadMemory) :
    Option LoadMemory :=
  match d.type, val.payload with
  | .integer, .scalar (.ival n) =>
      some { m with fields := store m.fields d.offset (leBytes 4 n.toNat) }
  | .integer, _ => none
  | .string, .scalar (.sval s) =>
      some { fields := store m.fields d.offset (leBytes 8 ptr.toNat)
             strings := if ptr = 0 then m.strings else Function.update m.strings ptr (some s) }
  | .string, _ => none
  | _, _ => some m

/-- The loop of `load_parameter` from the entry `i` on. -/
def loadFrom (cfg : ConfigCB F) (strdup : Strdup) :
    ℕ → List ConfigStructDef → LoadMemory → Option (LoadMemory × ℤ)
  | _, [], m => some (m, 0)
  | i, d :: defs, m =>
      match lookupConfig cfg d.name with
      | none => some (m, -1)
      | some p => do
          let m ← loadEntry (strdup.ptr i) d p.val m
          loadFrom cfg strdup (i + 1) defs m

/-- `load_parameter`. -/
def loadParameter (cfg : ConfigCB F) (strdup : Strdup) (defs : List ConfigStructDef)
    (m : LoadMemory) : Option (LoadMemory × ℤ) := loadFrom cfg strdup 0 defs m

/-- The size of a field. There are no fields for lists. -/
def fieldSize : ParamType → ℕ
  | .integer | .boolean | .float => 4
  | .string => 8
  | .list => 0

/-- The fields of two entries do not overlap. -/
def Apart (d e : ConfigStructDef) : Prop :=
  d.offset + fieldSize d.type ≤ e.offset ∨ e.offset + fieldSize e.type ≤ d.offset

instance : DecidableRel Apart := fun _ _ => inferInstanceAs (Decidable (_ ∨ _))

/-- The field of an entry has a value: a string is a copy, in a block of its own. `bits` are
those of a `float`. -/
def Carries (bits : F → BitVec 32) (m : LoadMemory) (d : ConfigStructDef) (val : ParamValue F) :
    Prop :=
  match d.type, val.payload with
  | .integer, .scalar (.ival n) | .boolean, .scalar (.ival n) =>
      HoldsAt m.fields d.offset (leBytes 4 n.toNat)
  | .float, .scalar (.fval x) => HoldsAt m.fields d.offset (leBytes 4 (bits x).toNat)
  | .string, .scalar (.sval s) => ∃ ptr : BitVec 64, ptr ≠ 0 ∧
      HoldsAt m.fields d.offset (leBytes 8 ptr.toNat) ∧ m.strings ptr = some s
  | _, _ => False

/-- Whatever the memory held before, `load_parameter` returns, and if it returns 0 then each
entry has found a parameter of its type, and its field has the value of that parameter. -/
def Delivers (bits : F → BitVec 32) (cfg : ConfigCB F) (strdup : Strdup)
    (defs : List ConfigStructDef) : Prop :=
  ∀ m, ∃ m' ret, loadParameter cfg strdup defs m = some (m', ret) ∧
    (ret = 0 → ∀ d ∈ defs, ∃ p, lookupConfig cfg d.name = some p ∧ p.val.ptype = d.type ∧
      Carries bits m' d p.val)

/-- The entry finds a parameter, and reads no member of it that is not the last written. -/
def ReadsOwn (cfg : ConfigCB F) (d : ConfigStructDef) : Prop :=
  ∃ p, lookupConfig cfg d.name = some p ∧
    (d.type = .integer → ∃ n, p.val.payload = .scalar (.ival n)) ∧
    (d.type = .string → ∃ s, p.val.payload = .scalar (.sval s))

/-- An entry finds no parameter, after others that read their own members. -/
def Misses (cfg : ConfigCB F) (defs : List ConfigStructDef) : Prop :=
  ∃ pre d post, defs = pre ++ d :: post ∧ (∀ e ∈ pre, ReadsOwn cfg e) ∧
    lookupConfig cfg d.name = none

/-- The entry is of a type that is written, finds a parameter of this type, and gets memory
for a string. -/
def Loads (cfg : ConfigCB F) (ptr : BitVec 64) (d : ConfigStructDef) : Prop :=
  (d.type = .integer ∨ d.type = .string) ∧ ReadsOwn cfg d ∧
    (∀ p, lookupConfig cfg d.name = some p → p.val.ptype = d.type) ∧ (d.type = .string → ptr ≠ 0)

end Functions

/-! ## One entry -/

section Entry

variable {F : Type} {cfg : ConfigCB F} {ptr : BitVec 64} {d : ConfigStructDef}
  {val : ParamValue F} {m m' : LoadMemory}

/-- What an entry does. -/
theorem loadEntry_cases (h : loadEntry ptr d val m = some m') :
    (d.type = .integer ∧ ∃ n, val.payload = .scalar (.ival n) ∧
      m' = { m with fields := store m.fields d.offset (leBytes 4 n.toNat) }) ∨
    (d.type = .string ∧ ∃ s, val.payload = .scalar (.sval s) ∧
      m' = { fields := store m.fields d.offset (leBytes 8 ptr.toNat)
             strings := if ptr = 0 then m.strings else Function.update m.strings ptr (some s) }) ∨
    (d.type ≠ .integer ∧ d.type ≠ .string ∧ m' = m) := by
  obtain ⟨name, type, offset⟩ := d
  obtain ⟨ptype, payload⟩ := val
  cases type with
  | integer =>
      refine Or.inl ⟨rfl, ?_⟩
      rcases payload with (n | s | x) | _ <;> cases h
      exact ⟨n, rfl, rfl⟩
  | string =>
      refine Or.inr (Or.inl ⟨rfl, ?_⟩)
      rcases payload with (n | s | x) | _ <;> cases h
      exact ⟨s, rfl, rfl⟩
  | float | boolean | list =>
      cases h
      exact Or.inr (Or.inr ⟨by simp, by simp, rfl⟩)

/-- An entry returns if it reads its own member. -/
theorem loadEntry_isSome : (loadEntry ptr d val m).isSome ↔
    (d.type = .integer → ∃ n, val.payload = .scalar (.ival n)) ∧
      (d.type = .string → ∃ s, val.payload = .scalar (.sval s)) := by
  rcases d with ⟨name, type, offset⟩
  rcases val with ⟨ptype, payload⟩
  cases type <;> rcases payload with (n | s | x) | _ <;> simp [loadEntry]

/-- An entry writes to its field and to its block only. -/
theorem loadEntry_frame (h : loadEntry ptr d val m = some m') :
    (∀ x, Outside d.offset (fieldSize d.type) x → m'.fields x = m.fields x) ∧
      ∀ q, q ≠ ptr → m'.strings q = m.strings q := by
  rcases loadEntry_cases h with ⟨hd, n, -, rfl⟩ | ⟨hd, s, -, rfl⟩ | ⟨-, -, rfl⟩
  · refine ⟨fun x hx => store_of_outside ?_, fun q _ => rfl⟩
    simpa [hd, fieldSize] using hx
  · refine ⟨fun x hx => store_of_outside ?_, fun q hq => ?_⟩
    · simpa [hd, fieldSize] using hx
    · dsimp only
      split
      · rfl
      · exact Function.update_of_ne hq _ _
  · exact ⟨fun _ _ => rfl, fun _ _ => rfl⟩

end Entry

/-! ## The loop -/

section Loop

variable {F : Type} {bits : F → BitVec 32} {cfg : ConfigCB F} {strdup : Strdup}
  {defs : List ConfigStructDef} {d : ConfigStructDef} {m m' : LoadMemory} {i : ℕ} {ret : ℤ}

/-- The loop goes on behind entries that read their own members. -/
theorem loadFrom_append {pre : List ConfigStructDef} (h : ∀ d ∈ pre, ReadsOwn cfg d) :
    ∃ m₁, ∀ post, loadFrom cfg strdup i (pre ++ post) m =
      loadFrom cfg strdup (i + pre.length) post m₁ := by
  induction pre generalizing i m with
  | nil => exact ⟨m, fun _ => rfl⟩
  | cons d pre ih =>
      obtain ⟨p, hp, hreads⟩ := h d List.mem_cons_self
      have hentry : (loadEntry (strdup.ptr i) d p.val m).isSome := loadEntry_isSome.mpr hreads
      obtain ⟨m₁, hm₁⟩ := Option.isSome_iff_exists.mp hentry
      obtain ⟨m₂, hm₂⟩ := ih (i := i + 1) (m := m₁) fun e he => h e (List.mem_cons_of_mem d he)
      refine ⟨m₂, fun post => ?_⟩
      simp only [List.cons_append, loadFrom, hp, hm₁, hm₂, Option.bind_eq_bind, Option.bind_some,
        List.length_cons]
      rw [Nat.add_right_comm, Nat.add_assoc]

theorem loadFrom_of_reads (h : ∀ d ∈ defs, ReadsOwn cfg d) :
    ∃ m', loadFrom cfg strdup i defs m = some (m', 0) := by
  obtain ⟨m₁, hm₁⟩ : ∃ m₁, ∀ post, loadFrom cfg strdup i (defs ++ post) m =
      loadFrom cfg strdup (i + defs.length) post m₁ := loadFrom_append h
  exact ⟨m₁, by rw [← List.append_nil defs, hm₁, loadFrom]⟩

theorem loadFrom_of_misses (h : Misses cfg defs) :
    ∃ m', loadFrom cfg strdup i defs m = some (m', -1) := by
  obtain ⟨pre, d, post, rfl, hpre, hd⟩ := h
  obtain ⟨m₁, hm₁⟩ : ∃ m₁, ∀ post, loadFrom cfg strdup i (pre ++ post) m =
      loadFrom cfg strdup (i + pre.length) post m₁ := loadFrom_append hpre
  exact ⟨m₁, by simp only [hm₁, loadFrom, hd]⟩

/-- Otherwise it does not return. -/
theorem reads_of_loadFrom (h : loadFrom cfg strdup i defs m = some (m', ret)) :
    (ret = 0 ∧ ∀ d ∈ defs, ReadsOwn cfg d) ∨ (ret = -1 ∧ Misses cfg defs) := by
  induction defs generalizing i m with
  | nil =>
      obtain ⟨-, rfl⟩ := Prod.mk.inj (Option.some.inj h)
      exact Or.inl ⟨rfl, by simp⟩
  | cons d defs ih =>
      simp only [loadFrom] at h
      cases hp : lookupConfig cfg d.name with
      | none =>
          rw [hp] at h
          obtain ⟨-, rfl⟩ := Prod.mk.inj (Option.some.inj h)
          exact Or.inr ⟨rfl, [], d, defs, rfl, by simp, hp⟩
      | some p =>
          rw [hp] at h
          obtain ⟨m₁, hm₁, h⟩ := Option.bind_eq_some_iff.mp h
          have hd : ReadsOwn cfg d := ⟨p, hp, loadEntry_isSome.mp (by rw [hm₁]; rfl)⟩
          rcases ih h with ⟨rfl, hreads⟩ | ⟨rfl, pre, e, post, rfl, hpre, he⟩
          · exact Or.inl ⟨rfl, List.forall_mem_cons.mpr ⟨hd, hreads⟩⟩
          · exact Or.inr ⟨rfl, d :: pre, e, post, rfl, List.forall_mem_cons.mpr ⟨hd, hpre⟩, he⟩

/-- The loop writes to the fields and the blocks of its entries only. -/
theorem loadFrom_frame (h : loadFrom cfg strdup i defs m = some (m', ret)) :
    (∀ x, (∀ d ∈ defs, Outside d.offset (fieldSize d.type) x) → m'.fields x = m.fields x) ∧
      ∀ q, (∀ j, i ≤ j → strdup.ptr j ≠ q) → m'.strings q = m.strings q := by
  induction defs generalizing i m with
  | nil =>
      obtain ⟨rfl, -⟩ := Prod.mk.inj (Option.some.inj h)
      exact ⟨fun _ _ => rfl, fun _ _ => rfl⟩
  | cons d defs ih =>
      simp only [loadFrom] at h
      cases hp : lookupConfig cfg d.name with
      | none =>
          rw [hp] at h
          obtain ⟨rfl, -⟩ := Prod.mk.inj (Option.some.inj h)
          exact ⟨fun _ _ => rfl, fun _ _ => rfl⟩
      | some p =>
          rw [hp] at h
          obtain ⟨m₁, hm₁, h⟩ := Option.bind_eq_some_iff.mp h
          obtain ⟨hfields, hstrings⟩ := loadEntry_frame hm₁
          obtain ⟨hfields', hstrings'⟩ := ih h
          constructor
          · intro x hx
            rw [hfields' x fun e he => hx e (List.mem_cons_of_mem d he),
              hfields x (hx d List.mem_cons_self)]
          · intro q hq
            rw [hstrings' q fun j hj => hq j (by omega), hstrings q (hq i le_rfl).symm]

/-- Each entry has its effect on its field and its block, and the others have none. -/
theorem loadFrom_entry (h : loadFrom cfg strdup i defs m = some (m', 0))
    (hdefs : defs.Pairwise Apart) {k : ℕ} (hk : defs[k]? = some d) :
    ∃ p m₁ m₂, lookupConfig cfg d.name = some p ∧
      loadEntry (strdup.ptr (i + k)) d p.val m₁ = some m₂ ∧
      (∀ x, ¬ Outside d.offset (fieldSize d.type) x →
        m₁.fields x = m.fields x ∧ m'.fields x = m₂.fields x) ∧
      (strdup.ptr (i + k) ≠ 0 →
        m'.strings (strdup.ptr (i + k)) = m₂.strings (strdup.ptr (i + k))) := by
  induction defs generalizing i m k with
  | nil => simp at hk
  | cons e defs ih =>
      obtain ⟨hapart, hdefs⟩ := List.pairwise_cons.mp hdefs
      simp only [loadFrom] at h
      cases hp : lookupConfig cfg e.name with
      | none =>
          rw [hp] at h
          cases (Prod.mk.inj (Option.some.inj h)).2
      | some p =>
          rw [hp] at h
          obtain ⟨m₁, hm₁, h⟩ := Option.bind_eq_some_iff.mp h
          have hout : ∀ f, Apart e f → ∀ x, ¬ Outside e.offset (fieldSize e.type) x →
              Outside f.offset (fieldSize f.type) x := by
            intro f hf x hx
            simp only [Apart, Outside] at hf hx ⊢
            omega
          cases k with
          | zero =>
              obtain rfl := Option.some.inj hk
              obtain ⟨hfields, hstrings⟩ := loadFrom_frame h
              refine ⟨p, m, m₁, hp, hm₁, fun x hx => ⟨rfl, ?_⟩, fun hptr => ?_⟩
              · exact hfields x fun f hf => hout f (hapart f hf) x hx
              · refine hstrings _ fun j hj heq => ?_
                have := strdup.distinct j i heq (heq ▸ hptr)
                omega
          | succ k =>
              obtain ⟨p', m₂, m₃, hp', hm₃, hfields, hstrings⟩ := ih h hdefs hk
              have hindex : i + 1 + k = i + (k + 1) := by omega
              rw [hindex] at hm₃ hstrings
              refine ⟨p', m₂, m₃, hp', hm₃, fun x hx => ⟨?_, (hfields x hx).2⟩, hstrings⟩
              rw [(hfields x hx).1, (loadEntry_frame hm₁).1 x]
              have hd := hapart d (List.mem_of_getElem? hk)
              simp only [Apart, Outside] at hd hx ⊢
              omega

end Loop

/-! ## What is delivered -/

section Delivers

variable {F : Type} {bits : F → BitVec 32} {cfg : ConfigCB F} {strdup : Strdup}
  {defs : List ConfigStructDef} {d : ConfigStructDef} {m m' m₁ m₂ : LoadMemory}
  {p : ConfigParameter F} {ptr : BitVec 64}

/-- The field of an entry that is loaded has the value. -/
theorem Loads.carries (hl : Loads cfg ptr d) (h : loadEntry ptr d p.val m₁ = some m₂)
    (hfields : ∀ x, ¬ Outside d.offset (fieldSize d.type) x → m'.fields x = m₂.fields x)
    (hstrings : ptr ≠ 0 → m'.strings ptr = m₂.strings ptr) : Carries bits m' d p.val := by
  rcases loadEntry_cases h with ⟨hd, n, hv, rfl⟩ | ⟨hd, s, hv, rfl⟩ | ⟨hint, hstr, -⟩
  · rw [hd] at hfields
    simp only [Carries, hd, hv]
    exact (holdsAt_store m₁.fields _ _).congr fun x hx =>
      hfields x (by simpa [fieldSize] using hx)
  · have hptr := hl.2.2.2 hd
    rw [hd] at hfields
    simp only [Carries, hd, hv]
    refine ⟨ptr, hptr, (holdsAt_store m₁.fields _ _).congr fun x hx => ?_, ?_⟩
    · exact hfields x (by simpa [fieldSize] using hx)
    · rw [hstrings hptr]
      simp only [if_neg hptr, Function.update_self]
  · rcases hl.1 with hd | hd
    · exact absurd hd hint
    · exact absurd hd hstr

/-- A field of another type has the value in two memories only if these agree on it. -/
theorem Carries.agree (hint : d.type ≠ .integer) (hstr : d.type ≠ .string) {val : ParamValue F}
    (h : Carries bits m d val) (h' : Carries bits m' d val) :
    ¬ Outside d.offset (fieldSize d.type) d.offset ∧ m.fields d.offset = m'.fields d.offset := by
  obtain ⟨name, type, offset⟩ := d
  obtain ⟨ptype, payload⟩ := val
  cases type with
  | integer => exact absurd rfl hint
  | string => exact absurd rfl hstr
  | list => exact h.elim
  | boolean =>
      refine ⟨by simp [Outside, fieldSize], ?_⟩
      rcases payload with (n | s | x) | _
      · have hm : HoldsAt m.fields offset (leBytes 4 n.toNat) := h
        exact hm.agree h' (by simp)
      all_goals exact h.elim
  | float =>
      refine ⟨by simp [Outside, fieldSize], ?_⟩
      rcases payload with (n | s | x) | _
      · exact h.elim
      · exact h.elim
      · have hm : HoldsAt m.fields offset (leBytes 4 (bits x).toNat) := h
        exact hm.agree h' (by simp)
      · exact h.elim

/-- A string that is delivered is in a block. -/
theorem ptr_ne_zero_of_carries (hd : d.type = .string) (h : loadEntry ptr d p.val m₁ = some m₂)
    (hfields : ∀ x, ¬ Outside d.offset (fieldSize d.type) x → m'.fields x = m₂.fields x)
    (hcarries : Carries bits m' d p.val) : ptr ≠ 0 := by
  rcases loadEntry_cases h with ⟨hint, -⟩ | ⟨-, s, hv, rfl⟩ | ⟨-, hstr, -⟩
  · rw [hd] at hint
    cases hint
  · rw [hd] at hfields
    simp only [Carries, hd, hv] at hcarries
    obtain ⟨ptr', hne, hholds, -⟩ := hcarries
    have hstored : HoldsAt m'.fields d.offset (leBytes 8 ptr.toNat) :=
      (holdsAt_store m₁.fields _ _).congr fun x hx => hfields x (by simpa [fieldSize] using hx)
    have hbytes := hholds.unique hstored (by simp)
    have hnat : ptr'.toNat = ptr.toNat := leBytes_injective ptr'.isLt ptr.isLt hbytes
    rintro rfl
    exact hne (BitVec.eq_of_toNat_eq hnat)
  · exact absurd hd hstr

/-- An array that is delivered whatever the memory held is loaded, or an entry misses. -/
theorem Delivers.loads (h : Delivers bits cfg strdup defs) (hdefs : defs.Pairwise Apart)
    (hmiss : ¬ Misses cfg defs) {k : ℕ} (hk : defs[k]? = some d) :
    Loads cfg (strdup.ptr k) d := by
  have hmem := List.mem_of_getElem? hk
  have hrun : ∀ m : LoadMemory, ∃ p m₁ m₂ m', lookupConfig cfg d.name = some p ∧ ReadsOwn cfg d ∧
      p.val.ptype = d.type ∧ Carries bits m' d p.val ∧
      loadEntry (strdup.ptr k) d p.val m₁ = some m₂ ∧
      ∀ x, ¬ Outside d.offset (fieldSize d.type) x →
        m₁.fields x = m.fields x ∧ m'.fields x = m₂.fields x := by
    intro m
    obtain ⟨m', ret, hm', hret⟩ := h m
    rcases reads_of_loadFrom hm' with ⟨rfl, hreads⟩ | ⟨-, hmisses⟩
    · obtain ⟨p, hp, hptype, hcarries⟩ := hret rfl d hmem
      obtain ⟨p', m₁, m₂, hp', hentry, hfields, -⟩ := loadFrom_entry hm' hdefs hk
      obtain rfl := Option.some.inj (hp.symm.trans hp')
      rw [Nat.zero_add] at hentry
      exact ⟨p, m₁, m₂, m', hp, hreads d hmem, hptype, hcarries, hentry, hfields⟩
    · exact absurd hmisses hmiss
  obtain ⟨p, m₁, m₂, m', hp, hreads, hptype, hcarries, hentry, hfields⟩ :=
    hrun ⟨fun _ => 0, fun _ => none⟩
  obtain ⟨p', m₁', m₂', m'', hp', -, -, hcarries', hentry', hfields'⟩ :=
    hrun ⟨fun _ => 1, fun _ => none⟩
  obtain rfl := Option.some.inj (hp.symm.trans hp')
  refine ⟨?_, hreads, fun q hq => ?_, fun hd => ?_⟩
  · by_contra hother
    rw [not_or] at hother
    obtain ⟨hin, hsame⟩ := hcarries.agree hother.1 hother.2 hcarries'
    -- such an entry writes nothing, so that its field holds what it held before
    rcases loadEntry_cases hentry with ⟨hd, -⟩ | ⟨hd, -⟩ | ⟨-, -, rfl⟩
    · exact hother.1 hd
    · exact hother.2 hd
    · rcases loadEntry_cases hentry' with ⟨hd, -⟩ | ⟨hd, -⟩ | ⟨-, -, rfl⟩
      · exact hother.1 hd
      · exact hother.2 hd
      · rw [(hfields _ hin).2, (hfields _ hin).1, (hfields' _ hin).2, (hfields' _ hin).1] at hsame
        have hbits : (0 : UInt8) = 1 := hsame
        exact absurd hbits (by decide)
  · obtain rfl := Option.some.inj (hp.symm.trans hq)
    exact hptype
  · exact ptr_ne_zero_of_carries hd hentry (fun x hx => (hfields x hx).2) hcarries

/-- `load_parameter` delivers what it promises if and only if an entry finds no parameter,
after others that read their own members, or each entry is of a type that is written, is of
the type of the parameter it finds, and gets memory for a string. -/
theorem load_parameter_delivers_iff (bits : F → BitVec 32) (cfg : ConfigCB F) (strdup : Strdup)
    {defs : List ConfigStructDef} (hdefs : defs.Pairwise Apart) :
    Delivers bits cfg strdup defs ↔
      Misses cfg defs ∨ ∀ k d, defs[k]? = some d → Loads cfg (strdup.ptr k) d := by
  constructor
  · intro h
    by_cases hmiss : Misses cfg defs
    · exact Or.inl hmiss
    · exact Or.inr fun k d hk => h.loads hdefs hmiss hk
  · rintro (hmiss | hloads) m
    · obtain ⟨m', hm'⟩ : ∃ m', loadParameter cfg strdup defs m = some (m', -1) :=
        loadFrom_of_misses hmiss
      exact ⟨m', -1, hm', fun hret => absurd hret (by decide)⟩
    · have hreads : ∀ d ∈ defs, ReadsOwn cfg d := by
        intro d hd
        obtain ⟨k, hk⟩ := List.getElem?_of_mem hd
        exact (hloads k d hk).2.1
      obtain ⟨m', hm'⟩ : ∃ m', loadParameter cfg strdup defs m = some (m', 0) :=
        loadFrom_of_reads hreads
      refine ⟨m', 0, hm', fun _ d hd => ?_⟩
      obtain ⟨k, hk⟩ := List.getElem?_of_mem hd
      obtain ⟨p, m₁, m₂, hp, hentry, hfields, hstrings⟩ := loadFrom_entry hm' hdefs hk
      rw [Nat.zero_add] at hentry hstrings
      exact ⟨p, hp, (hloads k d hk).2.2.1 p hp,
        (hloads k d hk).carries hentry (fun x hx => (hfields x hx).2) hstrings⟩

end Delivers

section Sample

/-- The name of the number below. -/
def portName : CString := .ofBytes (bytes "port")

/-- The name of the string below. -/
def hostName : CString := .ofBytes (bytes "host")

/-- A structure with a number and a string. -/
def portThenHost : List ConfigStructDef := [⟨portName, .integer, 0⟩, ⟨hostName, .string, 8⟩]

/-- There is memory for the string of the second entry. -/
def onceSecond : Strdup where
  ptr i := if i = 1 then 4096 else 0
  distinct i j h hne := by
    by_cases hi : i = 1
    · by_cases hj : j = 1
      · rw [hi, hj]
      · rw [if_pos hi, if_neg hj] at h
        cases h
    · exact absurd (if_neg hi) hne

/-- A configuration for this structure. -/
def portAndHost : ConfigCB Unit :=
  addStringValue (addIntegerValue initConfig portName 7) hostName portName

theorem load_parameter_delivers_two :
    Delivers (fun _ => 0) portAndHost onceSecond portThenHost := by
  have hport : lookupConfig portAndHost portName =
      some ⟨portName, allocPValue .integer (.ival 7)⟩ := rfl
  have hhost : lookupConfig portAndHost hostName =
      some ⟨hostName, allocPValue .string (.sval portName)⟩ := rfl
  refine (load_parameter_delivers_iff _ _ _ (by decide)).mpr (Or.inr fun k d hk => ?_)
  rcases k with _ | _ | k
  · obtain rfl := Option.some.inj hk
    refine ⟨Or.inl rfl, ⟨_, hport, fun _ => ⟨7, rfl⟩, by simp⟩, fun p hp => ?_, by simp⟩
    obtain rfl := Option.some.inj (hport.symm.trans hp)
    rfl
  · obtain rfl := Option.some.inj hk
    refine ⟨Or.inr rfl, ⟨_, hhost, by simp, fun _ => ⟨portName, rfl⟩⟩, fun p hp => ?_,
      fun _ => by decide⟩
    obtain rfl := Option.some.inj (hhost.symm.trans hp)
    rfl
  · cases hk

/-- A boolean is not written to its field. -/
theorem boolean_not_loaded : ¬ Delivers (fun _ => 0)
    (addBoolValue initConfig portName 1 : ConfigCB Unit) onceSecond
    [⟨portName, .boolean, 0⟩] := by
  intro h
  obtain ⟨m', ret, hm', hret⟩ := h ⟨fun _ => 0, fun _ => none⟩
  cases hm'
  obtain ⟨p, hp, -, hcarries⟩ := hret rfl _ List.mem_cons_self
  cases hp
  have hbyte : (0 : UInt8) = 1 := hcarries 0 (by decide)
  exact absurd hbyte (by decide)

end Sample

end Config

end Infra
