import Infra.Config.Store

/-!
# The blocks of a configuration

A parameter is made of the blocks that can be reached from it: its own, its name, its value,
and what the value points to. A configuration in memory is a ring of parameters that share
no block, and besides their blocks others may be in use. The primitive operations are
described by what they do to both.
-/

namespace Infra

namespace Config

open LinkedList

namespace Store

variable {F ε : Type}

/-! ## What the blocks hold -/

/-- The member is the scalar, made of the blocks of the list. -/
inductive HasScalar (load : ε → Option (Block F ε)) : Member F ε → Scalar F → List ε → Prop
  | ival {n : BitVec 32} : HasScalar load (.ival n) (.ival n) []
  | fval {x : F} : HasScalar load (.fval x) (.fval x) []
  | sval {c : ε} {str : CString} (h : load c = some (.chars str)) :
      HasScalar load (.sval (some c)) (.sval str) [c]

/-- The block is the scalar value. -/
inductive HasElem (load : ε → Option (Block F ε)) : ε → Elem F → List ε → Prop
  | mk {pv : ε} {e : Elem F} {m : Member F ε} {bs : List ε}
      (h : load pv = some (.value { ptype := e.ptype, member := some m }))
      (hm : HasScalar load m e.value bs) (htag : e.Tagged) : HasElem load pv e (pv :: bs)

/-- The block is the value. -/
inductive HasValue (load : ε → Option (Block F ε)) : ε → ParamValue F → List ε → Prop
  | scalar {pv : ε} {e : Elem F} {bs : List ε} (h : HasElem load pv e bs) :
      HasValue load pv (Config.allocPValue e.ptype e.value) bs
  | list {pv arr : ε} {es bs : List ε} {elems : List (Elem F)}
      (h : load pv = some (.value
        { ptype := .list, member := some (.array elems.length (some arr)) }))
      (harr : load arr = some (.array elems.length es))
      (hes : Each (HasElem load) es elems bs) :
      HasValue load pv (Config.allocPValueList elems) (pv :: arr :: bs)

/-- The block is the parameter. -/
inductive HasParam (load : ε → Option (Block F ε)) : ε → ConfigParameter F → List ε → Prop
  | mk {p nm pv : ε} {name : CString} {v : ParamValue F} {bs : List ε}
      (h : load p = some (.param { name := some nm, val := some pv }))
      (hname : load nm = some (.chars name)) (hval : HasValue load pv v bs) :
      HasParam load p { name := name, val := v } (p :: nm :: bs)

section Frame

variable {load load' : ε → Option (Block F ε)} {m : Member F ε} {x : Scalar F} {e : Elem F}
  {v : ParamValue F} {q : ConfigParameter F} {p pv : ε} {bs : List ε}

theorem HasScalar.congr (h : HasScalar load m x bs) (hsame : ∀ b ∈ bs, load' b = load b) :
    HasScalar load' m x bs := by
  cases h with
  | ival => exact .ival
  | fval => exact .fval
  | sval h => exact .sval ((hsame _ List.mem_cons_self).trans h)

theorem HasElem.congr (h : HasElem load pv e bs) (hsame : ∀ b ∈ bs, load' b = load b) :
    HasElem load' pv e bs := by
  cases h with
  | mk h hm htag =>
      rw [List.forall_mem_cons] at hsame
      exact .mk (hsame.1.trans h) (hm.congr hsame.2) htag

theorem HasValue.congr (h : HasValue load pv v bs) (hsame : ∀ b ∈ bs, load' b = load b) :
    HasValue load' pv v bs := by
  cases h with
  | scalar h => exact .scalar (h.congr hsame)
  | list h harr hes =>
      rw [List.forall_mem_cons, List.forall_mem_cons] at hsame
      obtain ⟨hpv, ha, hbs⟩ := hsame
      exact .list (hpv.trans h) (ha.trans harr)
        (hes.imp fun _ _ _ he hsub => he.congr fun b hb => hbs b (hsub hb))

theorem HasParam.congr (h : HasParam load p q bs) (hsame : ∀ b ∈ bs, load' b = load b) :
    HasParam load' p q bs := by
  cases h with
  | mk h hname hval =>
      rw [List.forall_mem_cons, List.forall_mem_cons] at hsame
      obtain ⟨hp, hnm, hbs⟩ := hsame
      exact .mk (hp.trans h) (hnm.trans hname) (hval.congr hbs)

theorem HasElem.mem (h : HasElem load pv e bs) : pv ∈ bs := by
  cases h
  exact List.mem_cons_self

theorem HasParam.mem (h : HasParam load p q bs) : p ∈ bs := by
  cases h with
  | mk => exact List.mem_cons_self

end Frame

/-! ## The number of the blocks -/

/-- How many blocks a scalar is made of. -/
def scalarBlocks : Scalar F → ℕ
  | .sval _ => 1
  | _ => 0

/-- How many blocks an element of a list is made of. -/
def elemBlocks (e : Elem F) : ℕ := 1 + scalarBlocks e.value

/-- How many blocks a value is made of. -/
def valueBlocks (v : ParamValue F) : ℕ :=
  match v.payload with
  | .scalar value => 1 + scalarBlocks value
  | .array _ elems => 2 + (elems.map elemBlocks).sum

section Count

variable {load : ε → Option (Block F ε)} {m : Member F ε} {x : Scalar F} {e : Elem F}
  {v : ParamValue F} {q : ConfigParameter F} {p pv : ε} {bs : List ε}

theorem HasScalar.length_eq (h : HasScalar load m x bs) : bs.length = scalarBlocks x := by
  cases h <;> rfl

theorem HasElem.length_eq (h : HasElem load pv e bs) : bs.length = elemBlocks e := by
  cases h with
  | mk _ hm _ => rw [List.length_cons, hm.length_eq, elemBlocks, Nat.add_comm]

theorem HasValue.length_eq (h : HasValue load pv v bs) : bs.length = valueBlocks v := by
  cases h with
  | scalar h => exact h.length_eq
  | list _ _ hes =>
      rw [List.length_cons, List.length_cons, hes.length_blocks fun _ _ _ he => he.length_eq]
      simp only [valueBlocks, Config.allocPValueList]
      omega

theorem HasParam.length_eq (h : HasParam load p q bs) : bs.length = 2 + valueBlocks q.val := by
  cases h with
  | mk _ _ hval =>
      rw [List.length_cons, List.length_cons, hval.length_eq, Nat.add_comm 2]

end Count

/-! ## Configurations -/

/-- Two blocks that are behind others, in front of them. -/
theorem perm_pair (a b : ε) (cs other : List ε) :
    (cs ++ a :: b :: other).Perm (b :: a :: cs ++ other) :=
  (List.perm_middle.trans (List.perm_middle.cons a)).trans (.swap b a _)

variable [DecidableEq ε]

/-- The configuration in memory: its parameters are at `ps` and made of the blocks `bs`, and
other blocks are in use. -/
structure Holds (s : Store F ε) (cfg : ConfigCB F) (ps bs other : List ε) : Prop where
  ring : Ring s.lists .parmList (ps.map .block)
  params : Each (HasParam s.load) ps cfg.params bs
  used : s.used.Perm (bs ++ other)
  count : s.numParams = cfg.numParams

/-- What an allocation leaves: what was in use is as it was, and so are the links that are
not in the new blocks. -/
structure Grows (s s' : Store F ε) : Prop where
  load : ∀ b ∈ s.used, s'.load b = s.load b
  lists : ∀ l, (∀ b, l = .block b → b ∈ s.used) → s'.lists l = s.lists l
  used : s.used ⊆ s'.used
  count : s'.numParams = s.numParams

variable {A : Allocator ε} {s s' s'' : Store F ε} {cfg : ConfigCB F}
  {ps bs other other' cs : List ε} {a b p : ε} {blk : Block F ε}

namespace Grows

theorem refl (s : Store F ε) : Grows s s :=
  ⟨fun _ _ => rfl, fun _ _ => rfl, fun _ hb => hb, rfl⟩

theorem trans (h : Grows s s') (h' : Grows s' s'') : Grows s s'' where
  load _ hb := (h'.load _ (h.used hb)).trans (h.load _ hb)
  lists l hl := (h'.lists l fun b hb => h.used (hl b hb)).trans (h.lists l hl)
  used _ hb := h'.used (h.used hb)
  count := h'.count.trans h.count

end Grows

namespace Holds

theorem perm (h : Holds s cfg ps bs other) (hperm : other.Perm other') :
    Holds s cfg ps bs other' :=
  ⟨h.ring, h.params, h.used.trans (hperm.append_left bs), h.count⟩

theorem nodup (h : Holds s cfg ps bs other) : (bs ++ other).Nodup :=
  h.used.nodup_iff.mp s.nodup_used

theorem mem_used (h : Holds s cfg ps bs other) : b ∈ s.used ↔ b ∈ bs ∨ b ∈ other := by
  rw [h.used.mem_iff, List.mem_append]

theorem subset (h : Holds s cfg ps bs other) : ps ⊆ bs :=
  h.params.subset fun _ _ _ hp => hp.mem

theorem notMem (h : Holds s cfg ps bs other) (hb : b ∈ other) : b ∉ bs :=
  fun hbs => (List.nodup_append'.mp h.nodup).2.2 hbs hb

/-- A block that is not one of the configuration has no link in the list. -/
theorem notMem_ring (h : Holds s cfg ps bs other) (hb : b ∉ bs) :
    Link.block b ∉ Link.parmList :: ps.map .block := by
  have hps : b ∉ ps := fun hmem => hb (h.subset hmem)
  simpa using hps

/-- The configuration is where its blocks and its links are as they were. -/
theorem congr (h : Holds s cfg ps bs other) (hload : ∀ b ∈ bs, s'.load b = s.load b)
    (hlists : ∀ l ∈ Link.parmList :: ps.map .block, s'.lists l = s.lists l)
    (hused : s'.used.Perm (bs ++ other')) (hcount : s'.numParams = s.numParams) :
    Holds s' cfg ps bs other' where
  ring := h.ring.congr hlists
  params := h.params.imp fun _ _ _ hp hsub => hp.congr fun b hb => hload b (hsub hb)
  used := hused
  count := hcount.trans h.count

theorem grows (h : Holds s cfg ps bs other) (hg : Grows s s')
    (hused : s'.used.Perm (bs ++ other')) : Holds s' cfg ps bs other' := by
  refine h.congr (fun b hb => hg.load b (h.mem_used.mpr (.inl hb))) (fun l hl => ?_) hused hg.count
  refine hg.lists l fun b hb => h.mem_used.mpr (.inl (h.subset ?_))
  subst hb
  simpa using hl

end Holds

/-! ## The primitive operations -/

/-- `malloc` when it is not refused. -/
theorem malloc_spec (s : Store F ε) (blk : Block F ε) (hA : A.refuses s.calls = false) :
    ∃ a s', s.malloc A blk = (some a, s') ∧ a ∉ s.used ∧ s'.used = a :: s.used ∧
      s'.calls = s.calls + 1 ∧ s'.load = Function.update s.load a (some blk) ∧ Grows s s' ∧
      s'.lists = s.lists := by
  obtain ⟨a, s₁, hmalloc, hnew, hused, hcalls, hload⟩ := BlockStore.malloc_granted
    (s := s.toBlockStore) (v := blk) hA
  refine ⟨a, { s with toBlockStore := s₁ }, by rw [malloc, hmalloc], hnew, hused, hcalls, hload,
    ⟨fun b hb => ?_, fun _ _ => rfl, fun b hb => ?_, rfl⟩, rfl⟩
  · rw [hload, Function.update_of_ne (ne_of_mem_of_not_mem hb hnew)]
  · exact hused ▸ List.mem_cons_of_mem a hb

theorem malloc_refused (s : Store F ε) (blk : Block F ε) (hA : A.refuses s.calls = true) :
    ∃ s', s.malloc A blk = (none, s') ∧ s'.used = s.used ∧ s'.calls = s.calls + 1 ∧
      Grows s s' := by
  refine ⟨{ s with toBlockStore := { s.toBlockStore with calls := s.calls + 1 } },
    by rw [malloc, BlockStore.malloc_refused hA], rfl, rfl, ?_⟩
  exact ⟨fun _ _ => rfl, fun _ _ => rfl, fun _ hb => hb, rfl⟩

theorem mallocLinked_spec (s : Store F ε) (blk : Block F ε) (hA : A.refuses s.calls = false) :
    ∃ a s', s.mallocLinked A blk = some (some a, s') ∧ a ∉ s.used ∧ s'.used = a :: s.used ∧
      s'.calls = s.calls + 1 ∧ s'.load = Function.update s.load a (some blk) ∧ Grows s s' ∧
      s'.lists.Live (.block a) := by
  obtain ⟨a, s₁, hmalloc, hnew, hused, hcalls, hload, hg, -⟩ := malloc_spec s blk hA
  have hlive : (s₁.lists.alloc (.block a)).Live (.block a) := by simp [Heap.Live, Heap.alloc]
  obtain ⟨lists, hinit, hsame, -⟩ := initListHead_spec _ _ hlive
  refine ⟨a, { s₁ with lists := lists }, by simp [mallocLinked, hmalloc, hinit], hnew, hused,
    hcalls, hload, ⟨hg.load, fun l hl => ?_, hg.used, hg.count⟩, (hsame.live _).mpr hlive⟩
  have hne : l ≠ .block a := fun heq => hnew (hl a heq)
  calc lists l = s₁.lists.alloc (.block a) l := hsame.eq l hne
    _ = s₁.lists l := Function.update_of_ne hne _ _
    _ = s.lists l := hg.lists l hl

theorem mallocLinked_refused (s : Store F ε) (blk : Block F ε) (hA : A.refuses s.calls = true) :
    ∃ s', s.mallocLinked A blk = some (none, s') ∧ s'.used = s.used ∧ s'.calls = s.calls + 1 ∧
      Grows s s' := by
  obtain ⟨s', hmalloc, hused, hcalls, hg⟩ := malloc_refused s blk hA
  exact ⟨s', by rw [mallocLinked, hmalloc], hused, hcalls, hg⟩

theorem put_spec (s : Store F ε) (blk : Block F ε) (ha : a ∈ s.used) :
    ∃ s', s.put a blk = some s' ∧ s'.used.Perm s.used ∧ s'.calls = s.calls ∧
      s'.load = Function.update s.load a (some blk) ∧ s'.lists = s.lists ∧
      s'.numParams = s.numParams := by
  obtain ⟨s₁, hstore, hused, hcalls, hload⟩ := BlockStore.store_spec ha blk
  exact ⟨{ s with toBlockStore := s₁ }, by rw [put, hstore]; rfl, hused, hcalls, hload, rfl, rfl⟩

theorem free_spec (ha : a ∈ s.used) :
    ∃ s', s.free (some a) = some s' ∧ s.used.Perm (a :: s'.used) ∧ s'.calls = s.calls ∧
      (∀ b, b ≠ a → s'.load b = s.load b) ∧ (∀ l, l ≠ .block a → s'.lists l = s.lists l) ∧
      s'.numParams = s.numParams := by
  obtain ⟨s₁, hfree, hused, hcalls, hload⟩ := BlockStore.free_spec ha
  refine ⟨{ s with toBlockStore := s₁, lists := s.lists.free (.block a) },
    by rw [free, hfree]; rfl, hused, hcalls, hload, fun l hl => ?_, rfl⟩
  exact Function.update_of_ne hl _ _

/-- `free` of a block besides the configuration. -/
theorem Holds.free (h : Holds s cfg ps bs (a :: other)) :
    ∃ s', s.free (some a) = some s' ∧ Holds s' cfg ps bs other ∧ s'.calls = s.calls ∧
      ∀ b, b ≠ a → s'.load b = s.load b := by
  have hnew : a ∉ bs := h.notMem List.mem_cons_self
  obtain ⟨s', hfree, hused, hcalls, hload, hlists, hcount⟩ :=
    free_spec (h.mem_used.mpr (.inr List.mem_cons_self))
  refine ⟨s', hfree, h.congr (fun b hb => ?_) (fun l hl => ?_) ?_ hcount, hcalls, hload⟩
  · exact hload b (ne_of_mem_of_not_mem hb hnew)
  · exact hlists l (ne_of_mem_of_not_mem hl (h.notMem_ring hnew))
  · exact (hused.symm.trans (h.used.trans List.perm_middle)).cons_inv

end Store

end Config

end Infra
