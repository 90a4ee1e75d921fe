import Infra.Config.Release

/-!
# New parameters on the heap

A new parameter is made block by block, and becomes one of the configuration when it is
linked. When its own block is refused the configuration is left as it was, and what was
made before is freed.
-/

namespace Infra

namespace Config

open LinkedList

namespace Store

variable {F ε : Type} [DecidableEq ε] {A : Allocator ε} {s s' : Store F ε} {cfg : ConfigCB F}
  {ps bs other cs es : List ε} {a b p nm pv : ε} {e : Elem F} {x : Scalar F} {v : ParamValue F}
  {q : ConfigParameter F} {m : Member F ε} {type : ParamType} {name : CString}

/-! ## Blocks besides the configuration -/

theorem Holds.malloc (h : Holds s cfg ps bs other) (blk : Block F ε)
    (hA : A.refuses s.calls = false) :
    ∃ a s', s.malloc A blk = (some a, s') ∧ Holds s' cfg ps bs (a :: other) ∧ a ∉ s.used ∧
      s'.calls = s.calls + 1 ∧ s'.load = Function.update s.load a (some blk) ∧ Grows s s' ∧
      s'.lists = s.lists := by
  obtain ⟨a, s', hmalloc, hnew, hused, hcalls, hload, hg, hlists⟩ := malloc_spec s blk hA
  refine ⟨a, s', hmalloc, h.grows hg ?_, hnew, hcalls, hload, hg, hlists⟩
  rw [hused]
  exact (h.used.cons a).trans List.perm_middle.symm

theorem Holds.mallocLinked (h : Holds s cfg ps bs other) (blk : Block F ε)
    (hA : A.refuses s.calls = false) :
    ∃ a s', s.mallocLinked A blk = some (some a, s') ∧ Holds s' cfg ps bs (a :: other) ∧
      a ∉ s.used ∧ s'.calls = s.calls + 1 ∧ s'.load = Function.update s.load a (some blk) ∧
      Grows s s' ∧ s'.lists.Live (.block a) := by
  obtain ⟨a, s', hmalloc, hnew, hused, hcalls, hload, hg, hlive⟩ := mallocLinked_spec s blk hA
  refine ⟨a, s', hmalloc, h.grows hg ?_, hnew, hcalls, hload, hg, hlive⟩
  rw [hused]
  exact (h.used.cons a).trans List.perm_middle.symm

theorem Holds.put (h : Holds s cfg ps bs other) (ha : a ∈ other) (blk : Block F ε) :
    ∃ s', s.put a blk = some s' ∧ Holds s' cfg ps bs other ∧ s'.calls = s.calls ∧
      s'.load = Function.update s.load a (some blk) ∧ s'.lists = s.lists := by
  obtain ⟨s', hput, hused, hcalls, hload, hlists, hcount⟩ :=
    put_spec s blk (h.mem_used.mpr (.inr ha))
  refine ⟨s', hput, h.congr (fun b hb => ?_) (fun l _ => by rw [hlists]) (hused.trans h.used)
    hcount, hcalls, hload, hlists⟩
  rw [hload, Function.update_of_ne (ne_of_mem_of_not_mem hb (h.notMem ha))]

/-- `allocPValue` of a scalar. -/
theorem Holds.allocPValue (h : Holds s cfg ps bs (cs ++ other)) (type : ParamType)
    (hm : HasScalar s.load m x cs) (htag : (allocElem type x).Tagged)
    (hA : A.refuses s.calls = false) :
    ∃ pv s', s.allocPValue A type m = some (some pv, s') ∧
      Holds s' cfg ps bs (pv :: cs ++ other) ∧ s'.calls = s.calls + 1 ∧
      HasElem s'.load pv (allocElem type x) (pv :: cs) ∧ Grows s s' ∧
      s'.lists.Live (.block pv) := by
  obtain ⟨pv, s', hmalloc, hholds, hnew, hcalls, hload, hg, hlive⟩ :=
    h.mallocLinked (.value { ptype := type, member := some m }) hA
  have hsame : ∀ b ∈ cs, s'.load b = s.load b := fun b hb =>
    hg.load b (h.mem_used.mpr (.inr (List.mem_append_left _ hb)))
  refine ⟨pv, s', hmalloc, hholds, hcalls, .mk ?_ (hm.congr hsame) htag, hg, hlive⟩
  rw [hload, Function.update_self]
  rfl

/-- The name of a new parameter, whose value may have been begun. -/
theorem Holds.setName (h : Holds s cfg ps bs (p :: cs ++ other))
    (hp : s.load p = some (.param { name := none, val := none })) (name : CString)
    (hA : A.refuses s.calls = false) :
    ∃ nm s₁ s', s.strdup A name = (some nm, s₁) ∧ s₁.setName p (some nm) = some s' ∧
      Holds s' cfg ps bs (cs ++ nm :: p :: other) ∧ s'.calls = s.calls + 1 ∧
      s'.load p = some (.param { name := some nm, val := none }) ∧
      s'.load nm = some (.chars name) ∧ (∀ b ∈ cs ++ other, s'.load b = s.load b) ∧
      s'.lists = s.lists := by
  obtain ⟨nm, s₁, hmalloc, h₁, hnew, hcalls₁, hload₁, hg, hlists₁⟩ := h.malloc (.chars name) hA
  have hused : ∀ b ∈ p :: cs ++ other, b ∈ s.used := fun b hb => h.mem_used.mpr (.inr hb)
  have hne : nm ≠ p := fun heq => hnew (heq ▸ hused p List.mem_cons_self)
  have hp₁ := (hg.load p (hused p List.mem_cons_self)).trans hp
  have hpcs : p ∉ cs ++ other := (List.nodup_cons.mp (List.nodup_append'.mp h.nodup).2.1).1
  have hperm : (nm :: p :: cs ++ other).Perm (cs ++ nm :: p :: other) :=
    (List.Perm.swap p nm _).trans (perm_pair nm p cs other).symm
  obtain ⟨s₂, hput, h₂, hcalls₂, hload₂, hlists₂⟩ :=
    h₁.put (a := p) (by simp) (.param { name := some nm, val := none })
  refine ⟨nm, s₁, s₂, hmalloc, by simp [Store.setName, param_eq hp₁, hput], h₂.perm hperm,
    hcalls₂.trans hcalls₁, ?_, ?_, fun b hb => ?_, hlists₂.trans hlists₁⟩
  · rw [hload₂, Function.update_self]
  · rw [hload₂, Function.update_of_ne hne, hload₁, Function.update_self]
  · rw [hload₂, Function.update_of_ne (ne_of_mem_of_not_mem hb hpcs)]
    exact hg.load b (hused b (List.mem_cons_of_mem p hb))

/-- A new parameter gets its value and is linked. -/
theorem Holds.setVal (h : Holds s cfg ps bs (cs ++ nm :: p :: other))
    (hp : s.load p = some (.param { name := some nm, val := none }))
    (hnm : s.load nm = some (.chars name)) (hv : HasValue s.load pv v cs)
    (hlive : s.lists.Live (.block p)) :
    ∃ s₁ s', s.setVal p (some pv) = some s₁ ∧ s₁.addParameter p = some s' ∧
      Holds s' (Config.addParameter cfg { name := name, val := v }) (ps ++ [p])
        (bs ++ p :: nm :: cs) other ∧
      s'.calls = s.calls ∧ ∀ b ∈ other, s'.load b = s.load b := by
  have hnodup : (cs ++ nm :: p :: other).Nodup := (List.nodup_append'.mp h.nodup).2.1
  have hne : ∀ b ∈ nm :: cs, b ≠ p := by
    rintro b hb rfl
    have hcs := hnodup
    rw [(perm_pair nm b cs other).nodup_iff, List.cons_append, List.nodup_cons] at hcs
    exact hcs.1 (List.mem_append_left other hb)
  obtain ⟨s₁, hput, h₁, hcalls₁, hload₁, hlists₁⟩ :=
    h.put (a := p) (by simp) (.param { name := some nm, val := some pv })
  have hpbs : p ∉ bs := h.notMem (by simp)
  have hq : HasParam s₁.load p { name := name, val := v } (p :: nm :: cs) := by
    have hsame : ∀ b ∈ nm :: cs, s₁.load b = s.load b := fun b hb => by
      rw [hload₁, Function.update_of_ne (hne b hb)]
    rw [List.forall_mem_cons] at hsame
    exact .mk (by rw [hload₁, Function.update_self]) (hsame.1.trans hnm) (hv.congr hsame.2)
  obtain ⟨lists, hadd, hring, -⟩ := h₁.ring.listAddTail_spec (x := .block p) (hlists₁ ▸ hlive)
    (h.notMem_ring hpbs)
  refine ⟨s₁, { s₁ with lists := lists, numParams := s₁.numParams + 1 },
    by simp [Store.setVal, param_eq hp, hput], by rw [addParameter, hadd]; rfl,
    ⟨by simpa using hring, h₁.params.append (.single hq), ?_, by
      simp [Config.addParameter, h₁.count]⟩, hcalls₁, fun b hb => ?_⟩
  · refine h₁.used.trans ?_
    rw [List.append_assoc]
    exact (perm_pair nm p cs other).append_left bs
  · have hbp : b ≠ p := by
      rintro rfl
      have hcs := hnodup
      rw [List.nodup_append', List.nodup_cons, List.nodup_cons] at hcs
      exact hcs.2.1.2.1 hb
    change s₁.load b = s.load b
    rw [hload₁, Function.update_of_ne hbp]

/-! ## Scalars -/

/-- The next calls of `malloc` are granted. -/
def Grants (A : Allocator ε) (calls n : ℕ) : Prop := ∀ i < n, A.refuses (calls + i) = false

omit [DecidableEq ε] in
theorem grants_add {calls m n : ℕ} :
    Grants A calls (m + n) ↔ Grants A calls m ∧ Grants A (calls + m) n := by
  constructor
  · intro h
    refine ⟨fun i hi => h i (by omega), fun i hi => ?_⟩
    rw [Nat.add_assoc]
    exact h (m + i) (by omega)
  · rintro ⟨hm, hn⟩ i hi
    by_cases him : i < m
    · exact hm i him
    · have hrest := hn (i - m) (by omega)
      rwa [Nat.add_assoc, Nat.add_sub_cancel' (by omega)] at hrest

omit [DecidableEq ε] in
theorem grants_one {calls : ℕ} : Grants A calls 1 ↔ A.refuses calls = false := by
  simp [Grants]

/-- What a call leaves: the configuration in memory after some calls of `malloc`, and the
other blocks as they were. -/
structure Leaves (s s' : Store F ε) (cfg : ConfigCB F) (other : List ε) (n : ℕ) : Prop where
  holds : ∃ ps bs, Holds s' cfg ps bs other
  calls : s'.calls = s.calls + n
  load : ∀ b ∈ other, s'.load b = s.load b

/-- A parameter that has its block gets its name and its value. -/
theorem Holds.addScalar (h : Holds s cfg ps bs (p :: cs ++ other))
    (hp : s.load p = some (.param { name := none, val := none }))
    (hlive : s.lists.Live (.block p)) (hm : HasScalar s.load m x cs)
    (type : ParamType) (htag : (allocElem type x).Tagged) (name : CString)
    (hA : Grants A s.calls 2) :
    ∃ s', s.addScalar A p name type m = some s' ∧
      Leaves s s' (Config.addParameter cfg { name := name, val := Config.allocPValue type x })
        other 2 := by
  obtain ⟨hA₁, hA₂⟩ := (grants_add (m := 1) (n := 1)).mp hA
  rw [grants_one] at hA₁ hA₂
  obtain ⟨nm, s₁, s₂, hdup, hname, h₂, hcalls₂, hp₂, hnm₂, hload₂, hlists₂⟩ := h.setName hp name hA₁
  have hm₂ : HasScalar s₂.load m x cs := hm.congr fun b hb => hload₂ b (List.mem_append_left _ hb)
  obtain ⟨pv, s₃, halloc, h₃, hcalls₃, he, hg, -⟩ := h₂.allocPValue type hm₂ htag (hcalls₂ ▸ hA₂)
  have hused : ∀ b ∈ nm :: p :: other, s₃.load b = s₂.load b := fun b hb =>
    hg.load b (h₂.mem_used.mpr (.inr (List.mem_append_right cs hb)))
  have hlive₃ : s₃.lists.Live (.block p) := by
    rw [Heap.Live, hg.lists (.block p) fun b hb => ?_, hlists₂]
    · exact hlive
    · cases hb
      exact h₂.mem_used.mpr (.inr (by simp))
  obtain ⟨s₄, s₅, hval, hadd, h₅, hcalls₅, hload₅⟩ :=
    h₃.setVal ((hused p (by simp)).trans hp₂) ((hused nm (by simp)).trans hnm₂)
      (.scalar he) hlive₃
  refine ⟨s₅, ?_, ⟨_, _, h₅⟩, ?_, fun b hb => ?_⟩
  · simp [Store.addScalar, hdup, hname, halloc, hval, hadd]
  · rw [hcalls₅, hcalls₃, hcalls₂]
  · rw [hload₅ b hb, hused b (by simp [hb]), hload₂ b (List.mem_append_right cs hb)]

theorem Holds.leaves (h : Holds s cfg ps bs other) (hg : Grows s s') (hused : s'.used = s.used)
    {n : ℕ} (hcalls : s'.calls = s.calls + n) : Leaves s s' cfg other n :=
  ⟨⟨ps, bs, h.grows hg (hused ▸ h.used)⟩, hcalls, fun b hb => hg.load b (h.mem_used.mpr (.inr hb))⟩

/-- The block of a new parameter. -/
theorem Holds.allocConfigParam (h : Holds s cfg ps bs other) (hA : A.refuses s.calls = false) :
    ∃ p s', s.allocConfigParam A = some (some p, s') ∧ Holds s' cfg ps bs (p :: other) ∧
      s'.calls = s.calls + 1 ∧ s'.load p = some (.param { name := none, val := none }) ∧
      Grows s s' ∧ s'.lists.Live (.block p) := by
  obtain ⟨p, s', halloc, h', -, hcalls, hload, hg, hlive⟩ := h.mallocLinked (.param _) hA
  exact ⟨p, s', halloc, h', hcalls, by rw [hload, Function.update_self], hg, hlive⟩

theorem allocConfigParam_refused (s : Store F ε) (hA : A.refuses s.calls = true) :
    ∃ s', s.allocConfigParam A = some (none, s') ∧ s'.used = s.used ∧ s'.calls = s.calls + 1 ∧
      Grows s s' := mallocLinked_refused s _ hA

theorem Holds.addValue_refused (h : Holds s cfg ps bs other) (name : CString) (type : ParamType)
    (m : Member F ε) (hA : A.refuses s.calls = true) :
    ∃ s', s.addValue A name type m = some s' ∧ Leaves s s' cfg other 1 := by
  obtain ⟨s', halloc, hused, hcalls, hg⟩ := allocConfigParam_refused s hA
  exact ⟨s', by simp [Store.addValue, halloc], h.leaves hg hused hcalls⟩

/-- A number gets a parameter at the end of the configuration. -/
theorem Holds.addValue (h : Holds s cfg ps bs other) (hm : HasScalar s.load m x [])
    (htag : (allocElem type x).Tagged) (name : CString) (hA : Grants A s.calls 3) :
    ∃ s', s.addValue A name type m = some s' ∧
      Leaves s s' (Config.addParameter cfg { name := name, val := Config.allocPValue type x })
        other 3 := by
  obtain ⟨hA₁, hA₂⟩ := (grants_add (m := 1) (n := 2)).mp hA
  obtain ⟨p, s₁, halloc, h₁, hcalls₁, hp, hg, hlive⟩ := h.allocConfigParam (grants_one.mp hA₁)
  have hm₁ : HasScalar s₁.load m x [] := hm.congr (by simp)
  have h₁' : Holds s₁ cfg ps bs ([p] ++ other) := h₁
  obtain ⟨s', hadd, hleaves⟩ := h₁'.addScalar hp hlive hm₁ type htag name (hcalls₁ ▸ hA₂)
  refine ⟨s', by simp [Store.addValue, halloc, hadd], hleaves.holds, ?_, fun b hb => ?_⟩
  · rw [hleaves.calls, hcalls₁]
  · rw [hleaves.load b hb, hg.load b (h.mem_used.mpr (.inr hb))]

/-- A string that has no parameter is freed, when it was made at all. -/
theorem Holds.addStringValue_refused (h : Holds s cfg ps bs other) (name str : CString)
    (hA : A.refuses (s.calls + 1) = true) :
    ∃ s', s.addStringValue A name str = some s' ∧ Leaves s s' cfg other 2 := by
  cases hdup : A.refuses s.calls with
  | true =>
      obtain ⟨s₁, hmalloc, hused₁, hcalls₁, hg₁⟩ := malloc_refused s (.chars str) hdup
      obtain ⟨s₂, halloc, hused₂, hcalls₂, hg₂⟩ := allocConfigParam_refused s₁ (hcalls₁ ▸ hA)
      refine ⟨s₂, ?_, h.leaves (hg₁.trans hg₂) (hused₂.trans hused₁) ?_⟩
      · simp [Store.addStringValue, strdup, hmalloc, halloc, Store.free]
      · rw [hcalls₂, hcalls₁]
  | false =>
      obtain ⟨c, s₁, hmalloc, h₁, hnew, hcalls₁, hload₁, hg₁, -⟩ := h.malloc (.chars str) hdup
      obtain ⟨s₂, halloc, hused₂, hcalls₂, hg₂⟩ := allocConfigParam_refused s₁ (hcalls₁ ▸ hA)
      obtain ⟨s₃, hfree, h₃, hcalls₃, hload₃⟩ := (h₁.grows hg₂ (hused₂ ▸ h₁.used)).free
      refine ⟨s₃, ?_, ⟨ps, bs, h₃⟩, ?_, fun b hb => ?_⟩
      · simp [Store.addStringValue, strdup, hmalloc, halloc, hfree]
      · rw [hcalls₃, hcalls₂, hcalls₁]
      · have hb' : b ∈ s.used := h.mem_used.mpr (.inr hb)
        rw [hload₃ b (ne_of_mem_of_not_mem hb' hnew), hg₂.load b (hg₁.used hb'), hg₁.load b hb']

/-- A string gets a parameter at the end of the configuration. -/
theorem Holds.addStringValue (h : Holds s cfg ps bs other) (name str : CString)
    (hA : Grants A s.calls 4) :
    ∃ s', s.addStringValue A name str = some s' ∧
      Leaves s s' (Config.addStringValue cfg name str) other 4 := by
  obtain ⟨hA₁, hA₂⟩ := (grants_add (m := 1) (n := 3)).mp hA
  obtain ⟨hA₂, hA₃⟩ := (grants_add (m := 1) (n := 2)).mp hA₂
  rw [grants_one] at hA₁ hA₂
  obtain ⟨c, s₁, hmalloc, h₁, -, hcalls₁, hload₁, hg₁, -⟩ := h.malloc (.chars str) hA₁
  obtain ⟨p, s₂, halloc, h₂, hcalls₂, hp, hg₂, hlive⟩ := h₁.allocConfigParam (hcalls₁ ▸ hA₂)
  have hc : s₂.load c = some (.chars str) := by
    rw [hg₂.load c (h₁.mem_used.mpr (.inr List.mem_cons_self)), hload₁, Function.update_self]
  have h₂' : Holds s₂ cfg ps bs ([p, c] ++ other) := h₂
  obtain ⟨s₃, hadd, hleaves⟩ := h₂'.addScalar hp hlive (.sval hc) .string trivial name
    (by rw [hcalls₂, hcalls₁]; exact hA₃)
  refine ⟨s₃, ?_, hleaves.holds, ?_, fun b hb => ?_⟩
  · simp [Store.addStringValue, strdup, hmalloc, halloc, hadd]
  · rw [hleaves.calls, hcalls₂, hcalls₁]
  · have hb' : b ∈ s.used := h.mem_used.mpr (.inr hb)
    rw [hleaves.load b hb, hg₂.load b (hg₁.used hb'), hg₁.load b hb']

/-! ## Lists -/

/-- The elements so far are linked at the head on the stack, besides the configuration. -/
structure Gathers (s : Store F ε) (cfg : ConfigCB F) (ps bs es cs other : List ε)
    (elems : List (Elem F)) : Prop where
  holds : Holds s cfg ps bs (cs ++ other)
  ring : Ring s.lists .list (es.map .block)
  elems : Each (HasElem s.load) es elems cs

variable {elems : List (Elem F)}

/-- The value of an argument of `addListValue`. -/
theorem Holds.allocArg (h : Holds s cfg ps bs other) (arg : ListArg F)
    (hA : Grants A s.calls (elemBlocks arg.elem)) :
    ∃ pv cs s', s.allocArg A arg = some (some pv, s') ∧ Holds s' cfg ps bs (cs ++ other) ∧
      s'.calls = s.calls + elemBlocks arg.elem ∧ HasElem s'.load pv arg.elem cs ∧ Grows s s' ∧
      s'.lists.Live (.block pv) := by
  have h' : Holds s cfg ps bs ([] ++ other) := h
  cases arg with
  | string sval =>
      obtain ⟨hA₁, hA₂⟩ := (grants_add (m := 1) (n := 1)).mp hA
      rw [grants_one] at hA₁ hA₂
      obtain ⟨c, s₁, hmalloc, h₁, -, hcalls₁, hload₁, hg₁, -⟩ := h.malloc (.chars sval) hA₁
      have hc : HasScalar s₁.load (.sval (some c)) (.sval sval) [c] :=
        .sval (by rw [hload₁, Function.update_self])
      have h₁' : Holds s₁ cfg ps bs ([c] ++ other) := h₁
      obtain ⟨pv, s₂, halloc, h₂, hcalls₂, he, hg₂, hlive⟩ :=
        h₁'.allocPValue .string hc trivial (hcalls₁ ▸ hA₂)
      refine ⟨pv, [pv, c], s₂, ?_, h₂, ?_, he, hg₁.trans hg₂, hlive⟩
      · simp [Store.allocArg, strdup, hmalloc, halloc]
      · rw [hcalls₂, hcalls₁]
        rfl
  | float fval =>
      obtain ⟨pv, s', halloc, hholds, hcalls, he, hg, hlive⟩ :=
        h'.allocPValue .float (.fval (x := fval)) trivial (grants_one.mp hA)
      exact ⟨pv, [pv], s', halloc, hholds, hcalls, he, hg, hlive⟩
  | integer ival =>
      obtain ⟨pv, s', halloc, hholds, hcalls, he, hg, hlive⟩ :=
        h'.allocPValue .integer (.ival (n := ival)) trivial (grants_one.mp hA)
      exact ⟨pv, [pv], s', halloc, hholds, hcalls, he, hg, hlive⟩
  | boolean ival =>
      obtain ⟨pv, s', halloc, hholds, hcalls, he, hg, hlive⟩ :=
        h'.allocPValue .boolean (.ival (n := ival)) trivial (grants_one.mp hA)
      exact ⟨pv, [pv], s', halloc, hholds, hcalls, he, hg, hlive⟩

/-- One round of the loop of `addListValue`. -/
theorem Gathers.addArg (h : Gathers s cfg ps bs es cs other elems) (arg : ListArg F)
    (hA : Grants A s.calls (elemBlocks arg.elem)) :
    ∃ pv cs' s', s.addArg A arg = some s' ∧
      Gathers s' cfg ps bs (es ++ [pv]) (cs ++ cs') other (elems ++ [arg.elem]) ∧
      s'.calls = s.calls + elemBlocks arg.elem ∧ (∀ b ∈ s.used, s'.load b = s.load b) ∧
      ∀ b ∈ s.used, s.lists.Live (.block b) → s'.lists.Live (.block b) := by
  obtain ⟨pv, cs', s₁, halloc, h₁, hcalls, he, hg, hlive⟩ := h.holds.allocArg arg hA
  have hes : es ⊆ cs := h.elems.subset fun _ _ _ he => he.mem
  have hring : Ring s₁.lists .list (es.map .block) := by
    refine h.ring.congr fun l hl => hg.lists l fun b hb => ?_
    subst hb
    exact h.holds.mem_used.mpr (.inr (List.mem_append_left _ (hes (by simpa using hl))))
  have hnodup := (List.nodup_append'.mp h₁.nodup).2.1
  have hpv : pv ∉ es := fun hmem =>
    (List.nodup_append'.mp hnodup).2.2 he.mem (List.mem_append_left _ (hes hmem))
  obtain ⟨lists, hadd, hring', hsame⟩ :=
    hring.listAddTail_spec (x := .block pv) hlive (by simpa using hpv)
  -- the parameters have their links elsewhere
  have hlists : ∀ l ∈ Link.parmList :: ps.map .block, lists l = s₁.lists l := by
    intro l hl
    refine hsame.eq l ?_
    rintro (rfl | hmem)
    · exact h₁.notMem_ring (h₁.notMem (List.mem_append_left _ he.mem)) hl
    · rcases List.mem_cons.mp hmem with rfl | hmem
      · simp at hl
      · obtain ⟨b, hb, rfl⟩ := List.mem_map.mp hmem
        exact h₁.notMem_ring (h₁.notMem (by simp [hes hb])) hl
  have hperm : (cs' ++ (cs ++ other)).Perm (cs ++ cs' ++ other) := by
    rw [List.append_assoc]
    exact List.perm_append_comm_assoc cs' cs other
  refine ⟨pv, cs', { s₁ with lists := lists }, by simp [Store.addArg, halloc, hadd],
    ⟨?_, by simpa using hring', ?_⟩, hcalls, hg.load, fun b hb hb' => (hsame.live _).mpr ?_⟩
  · exact h₁.congr (fun _ _ => rfl) hlists (h₁.used.trans (hperm.append_left bs)) rfl
  · refine (h.elems.imp fun _ _ _ he hsub => he.congr fun b hb => ?_).append (.single he)
    exact hg.load b (h.holds.mem_used.mpr (.inr (List.mem_append_left _ (hsub hb))))
  · rw [Heap.Live, hg.lists _ fun b' hb' => by cases hb'; exact hb]
    exact hb'

/-- The number of blocks of the arguments of `addListValue`. -/
def argsBlocks (args : List (ListArg F)) : ℕ := (args.map fun arg => elemBlocks arg.elem).sum

/-- The loop of `addListValue`. -/
theorem Gathers.addArgs (h : Gathers s cfg ps bs es cs other elems) (args : List (ListArg F))
    (hA : Grants A s.calls (argsBlocks args)) :
    ∃ es' cs' s', args.foldlM (fun s arg => Store.addArg A s arg) s = some s' ∧
      Gathers s' cfg ps bs es' cs' other (elems ++ args.map ListArg.elem) ∧
      s'.calls = s.calls + argsBlocks args ∧ (∀ b ∈ other, s'.load b = s.load b) ∧
      ∀ b ∈ other, s.lists.Live (.block b) → s'.lists.Live (.block b) := by
  induction args generalizing s es cs elems with
  | nil => exact ⟨es, cs, s, rfl, by simpa using h, rfl, fun _ _ => rfl, fun _ _ hb => hb⟩
  | cons arg args ih =>
      rw [argsBlocks, List.map_cons, List.sum_cons, grants_add] at hA
      have hother : ∀ b ∈ other, b ∈ s.used := fun b hb =>
        h.holds.mem_used.mpr (.inr (List.mem_append_right _ hb))
      obtain ⟨pv, cs₁, s₁, hadd, h₁, hcalls₁, hload₁, hlive₁⟩ := h.addArg arg hA.1
      obtain ⟨es', cs', s', hloop, h', hcalls, hload, hlive⟩ := ih h₁ (hcalls₁ ▸ hA.2)
      refine ⟨es', cs', s', ?_, ?_, ?_, fun b hb => ?_, fun b hb hb' => ?_⟩
      · rw [List.foldlM_cons, hadd]
        exact hloop
      · rw [List.map_cons, List.append_cons]
        exact h'
      · rw [hcalls, hcalls₁, argsBlocks, argsBlocks, List.map_cons, List.sum_cons, Nat.add_assoc]
      · rw [hload b hb, hload₁ b (hother b hb)]
      · exact hlive b hb (hlive₁ b (hother b hb) hb')

/-- The count of the first pass of `allocPValue`. -/
theorem count_eq {ν : Type} [DecidableEq ν] {lists : Heap ν} {head : ν} {xs : List ν} {fuel : ℕ}
    (hring : Ring lists head xs) (hfuel : xs.length < fuel) :
    listForEach lists (fun _ count => some (count + 1)) head fuel (0 : ℤ) =
      some (xs.length : ℤ) := by
  have hcount : ∀ (l : List ν) (n : ℤ),
      l.foldlM (fun count _ => some (count + 1)) n = some (n + l.length) := by
    intro l
    induction l with
    | nil => simp
    | cons x l ih =>
        intro n
        rw [List.foldlM_cons, Option.bind_eq_bind, Option.bind_some, ih, List.length_cons]
        push_cast
        ring_nf
  rw [hring.listForEach_eq hfuel, hcount, zero_add]

/-- The second pass of `allocPValue`: what was moved is in the array, and the rest is still
linked. -/
structure Moves (s₀ : Store F ε) (cfg : ConfigCB F) (ps bs es other : List ε) (arr : ε)
    (before after : List ε) (s : Store F ε) : Prop where
  split : before ++ after = es
  ring : Ring s.lists .list (after.map .block)
  holds : Holds s cfg ps bs (arr :: other)
  load : s.load = Function.update s₀.load arr (some (.array es.length before))
  calls : s.calls = s₀.calls
  live : ∀ l, s.lists.Live l ↔ s₀.lists.Live l

theorem Moves.step {s₀ : Store F ε} {arr y : ε} {before after : List ε}
    (h : Moves s₀ cfg ps bs es other arr before (y :: after) s) (hes : es ⊆ other) (hpv : pv ≠ arr)
    (hval : s₀.load pv = some (.value
      { ptype := .list, member := some (.array es.length (some arr)) })) :
    ∃ s', moveToArray pv (.block y) s = some s' ∧
      Moves s₀ cfg ps bs es other arr (before ++ [y]) after s' := by
  have hfirst : Ring s.lists .list ([] ++ .block y :: after.map .block) := by simpa using h.ring
  obtain ⟨lists, hdel, hring, hsame⟩ := hfirst.listDel_spec
  have hafter : ∀ b ∈ y :: after, b ∈ other := fun b hb =>
    hes (h.split ▸ List.mem_append_right before hb)
  -- the parameters have their links elsewhere
  have hlists : ∀ l ∈ Link.parmList :: ps.map .block, lists l = s.lists l := by
    intro l hl
    refine hsame.eq l fun hmem => ?_
    rw [List.nil_append, ← List.map_cons, List.mem_cons] at hmem
    rcases hmem with rfl | hmem
    · simp at hl
    · obtain ⟨b, hb, rfl⟩ := List.mem_map.mp hmem
      exact h.holds.notMem_ring (h.holds.notMem (List.mem_cons_of_mem arr (hafter b hb))) hl
  have h₁ : Holds { s with lists := lists } cfg ps bs (arr :: other) :=
    h.holds.congr (fun _ _ => rfl) hlists h.holds.used rfl
  obtain ⟨s', hput, h₂, hcalls, hload, hlists'⟩ :=
    h₁.put List.mem_cons_self (.array es.length (before ++ [y]))
  have hvalue : ({ s with lists := lists } : Store F ε).value (some pv) =
      some { ptype := .list, member := some (.array es.length (some arr)) } := by
    refine value_eq ?_
    change s.load pv = _
    rw [h.load, Function.update_of_ne hpv]
    exact hval
  have harray : ({ s with lists := lists } : Store F ε).array (some arr) =
      some ((es.length : ℤ), before) := by
    refine array_eq ?_
    change s.load arr = _
    rw [h.load, Function.update_self]
  have hroom : (before.length : ℤ) < es.length := by
    have hlen := congrArg List.length h.split
    rw [List.length_append, List.length_cons] at hlen
    omega
  refine ⟨s', ?_, by rw [← h.split, List.append_assoc]; rfl, ?_, h₂, ?_, hcalls.trans h.calls,
    fun l => ?_⟩
  · simp [moveToArray, hdel, hvalue, harray, hroom, hput]
  · rw [hlists']
    exact hring
  · calc s'.load = Function.update s.load arr (some (.array es.length (before ++ [y]))) := hload
      _ = _ := by rw [h.load, Function.update_idem]
  · rw [hlists']
    exact (hsame.live l).trans (h.live l)

/-- The links of a list that gets moved. -/
def Moving (s₀ : Store F ε) (cfg : ConfigCB F) (ps bs es other : List ε) (arr : ε)
    (done todo : List (Link ε)) (s : Store F ε) : Prop :=
  ∃ before after, done = before.map .block ∧ todo = after.map .block ∧
    Moves s₀ cfg ps bs es other arr before after s

/-- The second pass moves all elements to the array, in their order. -/
theorem Moves.run {s₀ : Store F ε} {arr : ε} (h : Moves s₀ cfg ps bs es other arr [] es s)
    (hes : es ⊆ other) (hpv : pv ≠ arr)
    (hval : s₀.load pv = some (.value
      { ptype := .list, member := some (.array es.length (some arr)) })) :
    ∃ s', (∀ fuel, es.length < fuel →
        listForEachSafe lists (moveToArray pv) .list fuel s = some s') ∧
      Moves s₀ cfg ps bs es other arr es [] s' := by
  have hwalk : ∀ done todo t, Moving s₀ cfg ps bs es other arr done todo t →
      Walk t.lists .list todo := by
    rintro done todo t ⟨before, after, -, rfl, h⟩
    exact (Walk.of_ring h.ring).1
  have hstep : ∀ done pos todo t, Moving s₀ cfg ps bs es other arr done (pos :: todo) t →
      ∃ t', moveToArray pv pos t = some t' ∧
        Moving s₀ cfg ps bs es other arr (done ++ [pos]) todo t' := by
    rintro done pos todo t ⟨before, after, rfl, htodo, h⟩
    cases after with
    | nil => cases htodo
    | cons y after =>
        obtain ⟨rfl, rfl⟩ := List.cons.inj htodo
        obtain ⟨t', hmove, h'⟩ := h.step hes hpv hval
        exact ⟨t', hmove, before ++ [y], after, by simp, rfl, h'⟩
  obtain ⟨s', hloop, before, after, -, hafter, h'⟩ :=
    Ring.listForEachSafe_rule hwalk hstep h.ring ⟨[], es, rfl, rfl, h⟩ (Nat.lt_succ_self _)
  obtain rfl : after = [] := List.map_eq_nil_iff.mp hafter.symm
  obtain rfl : before = es := by rw [← h'.split, List.append_nil]
  refine ⟨s', fun fuel hfuel => listForEachSafe_mono ?_ hloop, h'⟩
  rwa [List.length_map]

/-- The block of a list, and its array with nothing in it yet. -/
theorem Holds.allocArray (h : Holds s cfg ps bs other) (size : ℤ) (hA : Grants A s.calls 2) :
    ∃ pv arr s₁ s₂ s₃,
      s.mallocLinked A (.value { ptype := .list, member := none }) = some (some pv, s₁) ∧
      s₁.malloc A (.array size []) = (some arr, s₂) ∧
      s₂.setMember (some pv) (.array size (some arr)) = some s₃ ∧
      Holds s₃ cfg ps bs (arr :: pv :: other) ∧ s₃.calls = s.calls + 2 ∧
      s₃.load pv = some (.value { ptype := .list, member := some (.array size (some arr)) }) ∧
      s₃.load arr = some (.array size []) ∧ (∀ b ∈ s.used, b ≠ arr ∧ s₃.load b = s.load b) ∧
      s₃.lists = s₁.lists ∧
      ∀ l, (∀ b, l = .block b → b ∈ s.used) → s₁.lists l = s.lists l := by
  obtain ⟨hA₁, hA₂⟩ := (grants_add (m := 1) (n := 1)).mp hA
  rw [grants_one] at hA₁ hA₂
  obtain ⟨pv, s₁, halloc, h₁, hnew₁, hcalls₁, hload₁, hg₁, -⟩ :=
    h.mallocLinked (.value { ptype := .list, member := none }) hA₁
  obtain ⟨arr, s₂, hmalloc, h₂, hnew₂, hcalls₂, hload₂, hg₂, hlists₂⟩ :=
    h₁.malloc (.array size []) (hcalls₁ ▸ hA₂)
  have hpv₁ : pv ∈ s₁.used := h₁.mem_used.mpr (.inr List.mem_cons_self)
  have hpv₂ : s₂.load pv = some (.value { ptype := .list, member := none }) := by
    rw [hg₂.load pv hpv₁, hload₁, Function.update_self]
  have harr₂ : s₂.load arr = some (.array size []) := by rw [hload₂, Function.update_self]
  obtain ⟨s₃, hput, h₃, hcalls₃, hload₃, hlists₃⟩ := h₂.put (a := pv) (by simp)
    (.value { ptype := .list, member := some (.array size (some arr)) })
  refine ⟨pv, arr, s₁, s₂, s₃, halloc, hmalloc, by simp [setMember, value_eq hpv₂, hput], h₃, ?_,
    ?_, ?_, fun b hb => ⟨ne_of_mem_of_not_mem (hg₁.used hb) hnew₂, ?_⟩, hlists₃.trans hlists₂,
    hg₁.lists⟩
  · rw [hcalls₃, hcalls₂, hcalls₁]
  · rw [hload₃, Function.update_self]
  · rw [hload₃, Function.update_of_ne (ne_of_load harr₂ hpv₂ nofun), harr₂]
  · rw [hload₃, Function.update_of_ne (ne_of_mem_of_not_mem hb hnew₁), hg₂.load b (hg₁.used hb),
      hg₁.load b hb]

/-- `allocPValue` of a list takes the elements over. -/
theorem Gathers.allocPValueList (h : Gathers s cfg ps bs es cs other elems)
    (hA : Grants A s.calls 2) :
    ∃ pv arr s', (∀ fuel, es.length < fuel →
        s.allocPValueList A fuel .list = some (some pv, s')) ∧
      Holds s' cfg ps bs (pv :: arr :: cs ++ other) ∧ s'.calls = s.calls + 2 ∧
      HasValue s'.load pv (Config.allocPValueList elems) (pv :: arr :: cs) ∧
      (∀ b ∈ other, s'.load b = s.load b) ∧
      ∀ b ∈ other, s.lists.Live (.block b) → s'.lists.Live (.block b) := by
  have hes : es ⊆ cs := h.elems.subset fun _ _ _ he => he.mem
  have hused : ∀ b ∈ cs ++ other, b ∈ s.used := fun b hb => h.holds.mem_used.mpr (.inr hb)
  obtain ⟨pv, arr, s₁, s₂, s₃, halloc, hmalloc, hset, h₃, hcalls₃, hpv₃, harr₃, hload₃, hlists₃,
    hlists₁⟩ := h.holds.allocArray es.length hA
  have hring₁ : Ring s₁.lists .list (es.map .block) := by
    refine h.ring.congr fun l hl => hlists₁ l fun b hb => ?_
    subst hb
    exact hused b (List.mem_append_left _ (hes (by simpa using hl)))
  have hne : pv ≠ arr := ne_of_load hpv₃ harr₃ nofun
  have hstart : Moves s₃ cfg ps bs es (pv :: (cs ++ other)) arr [] es s₃ := by
    refine ⟨rfl, hlists₃ ▸ hring₁, h₃, ?_, rfl, fun _ => Iff.rfl⟩
    rw [← harr₃, Function.update_eq_self]
  obtain ⟨s₄, hloop, hmoves⟩ := hstart.run
    (fun b hb => List.mem_cons_of_mem _ (List.mem_append_left _ (hes hb))) hne hpv₃
  -- the blocks that were in use are as they were
  have hsame : ∀ b ∈ cs ++ other, s₄.load b = s.load b := by
    intro b hb
    obtain ⟨hbarr, hb'⟩ := hload₃ b (hused b hb)
    rw [hmoves.load, Function.update_of_ne hbarr, hb']
  have helems : (elems.length : ℤ) = es.length := by rw [h.elems.length_eq]
  have hvalue : HasValue s₄.load pv (Config.allocPValueList elems) (pv :: arr :: cs) := by
    have harray : s₄.load arr = some (.array elems.length es) := by
      rw [hmoves.load, Function.update_self, helems]
    refine .list ?_ harray (h.elems.imp fun _ _ _ he hsub => he.congr fun b hb => ?_)
    · rw [hmoves.load, Function.update_of_ne hne, hpv₃, helems]
    · exact hsame b (List.mem_append_left _ (hsub hb))
  refine ⟨pv, arr, s₄, fun fuel hfuel => ?_, hmoves.holds.perm (.swap pv arr _),
    hmoves.calls.trans hcalls₃, hvalue, fun b hb => hsame b (List.mem_append_right _ hb),
    fun b hb hlive => (hmoves.live _).mpr ?_⟩
  · have hlen : (es.map Link.block).length < fuel := by rwa [List.length_map]
    have hcount := count_eq hring₁ hlen
    rw [List.length_map] at hcount
    simp [Store.allocPValueList, halloc, hcount, hmalloc, hset, hloop fuel hfuel]
  · rw [Heap.Live, hlists₃, hlists₁ _ fun b' hb' => ?_]
    · exact hlive
    · cases hb'
      exact hused b (List.mem_append_right _ hb)

theorem Holds.addListValue_refused (h : Holds s cfg ps bs other) (name : CString)
    (args : List (ListArg F)) (hA : A.refuses s.calls = true) :
    ∃ s', (∀ fuel, s.addListValue A fuel name args = some s') ∧ Leaves s s' cfg other 1 := by
  obtain ⟨s', halloc, hused, hcalls, hg⟩ := allocConfigParam_refused s hA
  exact ⟨s', fun fuel => by simp [Store.addListValue, halloc], h.leaves hg hused hcalls⟩

/-- `addListValue` sets up the head of its list. -/
theorem Holds.enter (h : Holds s cfg ps bs other) :
    ∃ lists, initListHead (s.lists.alloc .list) .list = some lists ∧
      Gathers { s with lists := lists } cfg ps bs [] [] other [] ∧
      ∀ b, lists (.block b) = s.lists (.block b) := by
  have hlive : (s.lists.alloc .list).Live Link.list := by simp [Heap.Live, Heap.alloc]
  obtain ⟨lists, hinit, hsame, hring⟩ := Ring.of_initListHead Link.list hlive
  have hlists : ∀ l, l ≠ .list → lists l = s.lists l := fun l hl =>
    (hsame.eq l hl).trans (Function.update_of_ne hl _ _)
  refine ⟨lists, hinit, ⟨h.congr (fun _ _ => rfl) (fun l hl => hlists l ?_) h.used rfl, hring,
    .nil⟩, fun b => hlists (.block b) (by simp)⟩
  rintro rfl
  simp at hl

/-- The links on the stack go when `addListValue` returns. -/
theorem Holds.leave (h : Holds s cfg ps bs other) :
    Holds { s with lists := s.lists.free .list } cfg ps bs other := by
  refine h.congr (fun _ _ => rfl) (fun l hl => Function.update_of_ne ?_ _ _) h.used rfl
  rintro rfl
  simp at hl

/-- A list gets a parameter at the end of the configuration. -/
theorem Holds.addListValue (h : Holds s cfg ps bs other) (name : CString) (args : List (ListArg F))
    (hA : Grants A s.calls (4 + argsBlocks args)) :
    ∃ N s', (∀ fuel, N ≤ fuel → s.addListValue A fuel name args = some s') ∧
      Leaves s s' (Config.addListValue cfg name (args.map ListArg.elem)) other
        (4 + argsBlocks args) := by
  rw [show 4 + argsBlocks args = 1 + (argsBlocks args + (1 + 2)) by omega, grants_add, grants_add,
    grants_add, grants_one, grants_one] at hA
  obtain ⟨hA₁, hA₂, hA₃, hA₄⟩ := hA
  obtain ⟨p, s₁, halloc, h₁, hcalls₁, hp₁, hg₁, hlive₁⟩ := h.allocConfigParam hA₁
  obtain ⟨lists, hinit, hgathers, hlists⟩ := h₁.enter
  obtain ⟨es, cs, s₂, hloop, hgathers₂, hcalls₂, hload₂, hlive₂⟩ :=
    hgathers.addArgs args (hcalls₁ ▸ hA₂)
  have hp₂ := (hload₂ p List.mem_cons_self).trans hp₁
  have hcalls₂' : s₂.calls = s.calls + 1 + argsBlocks args := by
    rw [hcalls₂]
    exact congrArg (· + argsBlocks args) hcalls₁
  obtain ⟨nm, s₃, s₄, hdup, hname, h₄, hcalls₄, hp₄, hnm₄, hload₄, hlists₄⟩ :=
    (hgathers₂.holds.perm List.perm_middle).setName hp₂ name (hcalls₂' ▸ hA₃)
  have hcalls₄' : s₄.calls = s.calls + 1 + argsBlocks args + 1 := by rw [hcalls₄, hcalls₂']
  have hgathers₄ : Gathers s₄ cfg ps bs es cs (nm :: p :: other) (args.map ListArg.elem) :=
    ⟨h₄, hlists₄ ▸ hgathers₂.ring, hgathers₂.elems.imp fun _ _ _ he hsub => he.congr fun b hb =>
      hload₄ b (List.mem_append_left _ (hsub hb))⟩
  obtain ⟨pv, arr, s₅, halloc₅, h₅, hcalls₅, hv₅, hload₅, hlive₅⟩ :=
    hgathers₄.allocPValueList (hcalls₄' ▸ hA₄)
  have hlive₀ : lists.Live (.block p) := by
    rw [Heap.Live, hlists p]
    exact hlive₁
  have hlive : s₅.lists.Live (.block p) := by
    refine hlive₅ p (by simp) ?_
    rw [hlists₄]
    exact hlive₂ p List.mem_cons_self hlive₀
  obtain ⟨s₆, s₇, hval, hadd, h₇, hcalls₇, hload₇⟩ := h₅.setVal
    ((hload₅ p (by simp)).trans hp₄) ((hload₅ nm (by simp)).trans hnm₄) hv₅ hlive
  refine ⟨es.length + 1, { s₇ with lists := s₇.lists.free .list }, fun fuel hfuel => ?_,
    ⟨_, _, h₇.leave⟩, ?_, fun b hb => ?_⟩
  · simp [Store.addListValue, halloc, hinit, hloop, hdup, hname, halloc₅ fuel hfuel, hval, hadd]
  · change s₇.calls = _
    rw [hcalls₇, hcalls₅, hcalls₄']
    omega
  · change s₇.load b = _
    rw [hload₇ b hb, hload₅ b (by simp [hb]), hload₄ b (by simp [hb]), hload₂ b (by simp [hb])]
    exact hg₁.load b (h.mem_used.mpr (.inr hb))

/-! ## Values of the caller -/

/-- `addConfigParam` takes a name and a value of its caller over. -/
theorem Holds.addConfigParam (h : Holds s cfg ps bs (cs ++ nm :: other))
    (hnm : s.load nm = some (.chars name)) (hv : HasValue s.load pv v cs)
    (hA : A.refuses s.calls = false) :
    ∃ s', s.addConfigParam A (some nm) (some pv) = some s' ∧
      Leaves s s' (Config.addConfigParam cfg name v) other 1 := by
  obtain ⟨p, s₁, halloc, h₁, hcalls₁, hp₁, hg, hlive₁⟩ := h.allocConfigParam hA
  have hused : ∀ b ∈ cs ++ nm :: other, b ∈ s.used ∧ b ≠ p := by
    refine fun b hb => ⟨h.mem_used.mpr (.inr hb), ?_⟩
    rintro rfl
    exact (List.nodup_cons.mp (List.nodup_append'.mp h₁.nodup).2.1).1 hb
  obtain ⟨s₂, hput, h₂, hcalls₂, hload₂, hlists₂⟩ :=
    h₁.put (a := p) (by simp) (.param { name := some nm, val := none })
  have hsame : ∀ b ∈ cs ++ nm :: other, s₂.load b = s.load b := fun b hb => by
    rw [hload₂, Function.update_of_ne (hused b hb).2, hg.load b (hused b hb).1]
  have hp₂ : s₂.load p = some (.param { name := some nm, val := none }) := by
    rw [hload₂, Function.update_self]
  have hperm : (p :: (cs ++ nm :: other)).Perm (cs ++ nm :: p :: other) :=
    (List.perm_middle.cons p).trans (perm_pair nm p cs other).symm
  obtain ⟨s₃, s₄, hval, hadd, h₄, hcalls₄, hload₄⟩ := (h₂.perm hperm).setVal hp₂
    ((hsame nm (by simp)).trans hnm) (hv.congr fun b hb => hsame b (by simp [hb]))
    (hlists₂ ▸ hlive₁)
  refine ⟨s₄, ?_, ⟨_, _, h₄⟩, ?_, fun b hb => ?_⟩
  · simp [Store.addConfigParam, halloc, Store.setName, param_eq hp₁, hput, hval, hadd]
  · rw [hcalls₄, hcalls₂, hcalls₁]
  · rw [hload₄ b hb, hsame b (by simp [hb])]

end Store

end Config

end Infra
