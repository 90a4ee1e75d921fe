import Infra.Config.Objects

/-!
# Collecting the elements of a list

Between the actions of the parser the memory holds the configuration so far and the
elements that are not in it yet, all of them in blocks of their own. What `allocPValue` and
`list_add_tail` do to such a memory, one lemma each.
-/

namespace Infra

namespace Config

namespace Objects

open LinkedList

variable {F ε : Type} {malloc : Malloc ε} {m : Memory F ε} {cfg : ConfigCB F}
  {bs vbs es : List ε} {elems : List (Elem F)} {pv : ε} {v : ParamValue F}

/-- The block is one of those that `malloc` has given out. -/
def Given (malloc : Malloc ε) (m : Memory F ε) (x : ε) : Prop :=
  ∃ i, i < m.allocated ∧ malloc.block i = x

/-- The configuration in memory, made of the blocks `bs`, with other blocks in use. -/
structure Holds (malloc : Malloc ε) (m : Memory F ε) (cfg : ConfigCB F) (bs other : List ε) :
    Prop where
  params : HasParams m.values m.params cfg.params bs
  count : m.numParams = cfg.numParams
  nodup : (bs ++ other).Nodup
  given : ∀ x ∈ bs ++ other, Given malloc m x
  head : m.lists.Live gList

/-- The configuration with the elements that are to be in a list. -/
structure Collects (malloc : Malloc ε) (m : Memory F ε) (cfg : ConfigCB F) (bs es : List ε)
    (elems : List (Elem F)) : Prop extends Holds malloc m cfg bs es where
  elems : List.Forall₂ (HasElem m.values) es elems
  live : ∀ x ∈ es, m.lists.Live (.inr x)

/-- The configuration with a value that is to be that of a parameter. -/
structure Made (malloc : Malloc ε) (m : Memory F ε) (cfg : ConfigCB F) (bs : List ε) (pv : ε)
    (v : ParamValue F) (vbs : List ε) : Prop extends Holds malloc m cfg bs vbs where
  value : HasValue m.values pv v vbs

theorem Given.mono {m' : Memory F ε} {x : ε} (h : Given malloc m x)
    (hle : m.allocated ≤ m'.allocated) : Given malloc m' x := by
  obtain ⟨i, hi, hx⟩ := h
  exact ⟨i, by omega, hx⟩

theorem not_given_block : ¬ Given malloc m (malloc.block m.allocated) := by
  rintro ⟨i, hi, hx⟩
  exact absurd (malloc.distinct hx) (by omega)

/-- The links do not matter to a configuration, but for the nodes that are there. -/
theorem Holds.of_lists {lists : Heap (Unit ⊕ ε)} (h : Holds malloc m cfg bs es)
    (hlive : lists.Live gList) : Holds malloc { m with lists := lists } cfg bs es :=
  ⟨h.params, h.count, h.nodup, h.given, hlive⟩

theorem Holds.perm (h : Holds malloc m cfg bs es) (hperm : es.Perm vbs) :
    Holds malloc m cfg bs vbs :=
  ⟨h.params, h.count, (hperm.append_left bs).nodup_iff.mp h.nodup,
    fun x hx => h.given x ((hperm.append_left bs).mem_iff.mpr hx), h.head⟩

theorem Collects.of_lists {lists : Heap (Unit ⊕ ε)} (h : Collects malloc m cfg bs es elems)
    (hlive : ∀ a, lists.Live a ↔ m.lists.Live a) :
    Collects malloc { m with lists := lists } cfg bs es elems :=
  ⟨h.toHolds.of_lists ((hlive gList).mpr h.head), h.elems,
    fun x hx => (hlive _).mpr (h.live x hx)⟩

/-- The value becomes that of a parameter at the end of the configuration. -/
theorem Made.addConfigParam (h : Made malloc m cfg bs pv v vbs) (name : CString) :
    Collects malloc (addConfigParam m name pv) (Config.addConfigParam cfg name v) (bs ++ vbs) []
      [] := by
  have hcount : m.numParams + 1 = cfg.numParams + 1 := by rw [h.count]
  refine ⟨⟨h.params.concat h.value, hcount, ?_, ?_, h.head⟩, .nil, by simp⟩
  · rw [List.append_nil]
    exact h.nodup
  · rw [List.append_nil]
    exact h.given

/-- The block that has been made last is not in the list yet. -/
theorem Collects.notMem_ring (h : Collects malloc m cfg bs (es ++ [pv]) elems) :
    (.inr pv : Unit ⊕ ε) ∉ gList :: es.map .inr := by
  have hdisjoint := (List.nodup_append'.mp (List.nodup_append'.mp h.nodup).2.1).2.2
  have hnew : pv ∉ es := fun hmem => hdisjoint hmem (List.mem_singleton_self pv)
  simpa [gList] using hnew

/-- One scalar is the value of a parameter. -/
theorem Collects.made {e : Elem F} (h : Collects malloc m cfg bs [pv] [e]) :
    Made malloc m cfg bs pv (Config.allocPValue e.ptype e.value) [pv] :=
  ⟨h.toHolds, .scalar (List.forall₂_cons.mp h.elems).1⟩

section Operations

variable [DecidableEq ε]

/-! ### `malloc` -/

theorem newPValue_spec (malloc : Malloc ε) (m : Memory F ε) :
    ∃ lists, newPValue malloc m = some (malloc.block m.allocated,
        { m with lists := lists, allocated := m.allocated + 1 }) ∧
      lists.Live (.inr (malloc.block m.allocated)) ∧
      ∀ a, a ≠ .inr (malloc.block m.allocated) → lists a = m.lists a := by
  have hlive : (m.lists.alloc (.inr (malloc.block m.allocated))).Live
      (.inr (malloc.block m.allocated)) := by simp [Heap.Live, Heap.alloc]
  obtain ⟨lists, hinit, hsame, -⟩ := initListHead_spec _ _ hlive
  refine ⟨lists, by rw [newPValue, hinit]; rfl, (hsame.live _).mpr hlive, fun a ha => ?_⟩
  rw [hsame.eq a ha]
  exact Function.update_of_ne ha _ _

/-- A new block with its fields is besides all blocks in use. -/
theorem Holds.setPValue {lists : Heap (Unit ⊕ ε)} {c : PValue F ε}
    (h : Holds malloc m cfg bs es) (hlive : lists.Live gList) :
    Holds malloc (setPValue { m with lists := lists, allocated := m.allocated + 1 }
        (malloc.block m.allocated) c) cfg bs (es ++ [malloc.block m.allocated]) ∧
      (∀ x ∈ bs ++ es, Function.update m.values (malloc.block m.allocated) (some c) x =
        m.values x) := by
  have hnew : malloc.block m.allocated ∉ bs ++ es := fun hmem => not_given_block (h.given _ hmem)
  have hsame : ∀ x ∈ bs ++ es, Function.update m.values (malloc.block m.allocated) (some c) x =
      m.values x := fun x hx => Function.update_of_ne (ne_of_mem_of_not_mem hx hnew) _ _
  refine ⟨⟨h.params.congr fun x hx => hsame x (List.mem_append_left es hx), h.count, ?_, ?_, hlive⟩,
    hsame⟩
  · rw [← List.append_assoc]
    exact h.nodup.append (List.nodup_singleton _) (by simpa using hnew)
  · rw [← List.append_assoc, List.forall_mem_append, List.forall_mem_singleton]
    exact ⟨fun x hx => (h.given x hx).mono (Nat.le_succ _), m.allocated, Nat.lt_succ_self _, rfl⟩

/-- A scalar is made, and waits with the others. -/
theorem Collects.allocPValue {type : ParamType} {value : Scalar F}
    (h : Collects malloc m cfg bs es elems) (htag : (allocElem type value).Tagged) :
    ∃ pv m', allocPValue malloc type value m = some (pv, m') ∧
      Collects malloc m' cfg bs (es ++ [pv]) (elems ++ [allocElem type value]) ∧
      ∀ a, a ≠ .inr pv → m'.lists a = m.lists a := by
  obtain ⟨lists, hnew, hlive, hsame⟩ := newPValue_spec malloc m
  have hhead : lists.Live gList := by
    rw [Heap.Live, hsame gList (by simp [gList])]
    exact h.head
  obtain ⟨hholds, hvalues⟩ := h.toHolds.setPValue
    (c := { ptype := type, contents := .scalar value }) hhead
  refine ⟨_, _, by rw [Objects.allocPValue, hnew]; rfl, ⟨hholds, ?_, ?_⟩, hsame⟩
  · refine List.rel_append (hasElems_congr h.elems fun x hx => ?_) (.cons ⟨?_, htag⟩ .nil)
    · exact hvalues x (List.mem_append_right bs hx)
    · exact Function.update_self _ _ _
  · rw [List.forall_mem_append, List.forall_mem_singleton]
    refine ⟨fun x hx => ?_, hlive⟩
    have hne : x ≠ malloc.block m.allocated := by
      rintro rfl
      exact not_given_block (h.given _ (List.mem_append_right bs hx))
    simp only [Objects.setPValue, Heap.Live, hsame (.inr x) (by simpa using hne)]
    exact h.live x hx

/-! ### `_g_list` -/

theorem Collects.initGList (h : Collects malloc m cfg bs es elems) :
    ∃ m', initGList m = some m' ∧ Collects malloc m' cfg bs es elems ∧
      Ring m'.lists gList [] := by
  obtain ⟨lists, hinit, hsame, hring⟩ := Ring.of_initListHead gList h.head
  exact ⟨_, by rw [Objects.initGList, hinit]; rfl, h.of_lists hsame.live, hring⟩

theorem Made.initGList (h : Made malloc m cfg bs pv v vbs) :
    ∃ m', initGList m = some m' ∧ Made malloc m' cfg bs pv v vbs := by
  obtain ⟨lists, hinit, hsame, -⟩ := Ring.of_initListHead gList h.head
  exact ⟨_, by rw [Objects.initGList, hinit]; rfl,
    h.toHolds.of_lists ((hsame.live gList).mpr h.head), h.value⟩

/-- An element that waits becomes the last one of the list at `_g_list`. -/
theorem Collects.addToGList (h : Collects malloc m cfg bs (es ++ [pv]) elems)
    (hring : Ring m.lists gList (es.map .inr)) :
    ∃ m', addToGList m pv = some m' ∧ Collects malloc m' cfg bs (es ++ [pv]) elems ∧
      Ring m'.lists gList ((es ++ [pv]).map .inr) := by
  obtain ⟨lists, hadd, hring', hsame⟩ :=
    hring.listAddTail_spec (h.live pv (by simp)) h.notMem_ring
  refine ⟨_, by rw [Objects.addToGList, hadd]; rfl, h.of_lists hsame.live, ?_⟩
  rw [List.map_append]
  exact hring'

/-- The second pass: what is still linked is a ring, and the others are in the array. -/
def Moving (es : List ε) (lists₀ : Heap (Unit ⊕ ε)) (done todo : List (Unit ⊕ ε))
    (s : Heap (Unit ⊕ ε) × List ε) : Prop :=
  Ring s.1 gList todo ∧ done = s.2.map .inr ∧ done ++ todo = es.map .inr ∧
    ∀ a, s.1.Live a ↔ lists₀.Live a

theorem moving_step {lists₀ : Heap (Unit ⊕ ε)} {done todo : List (Unit ⊕ ε)} {pos : Unit ⊕ ε}
    {s : Heap (Unit ⊕ ε) × List ε} (h : Moving es lists₀ done (pos :: todo) s) :
    ∃ s', moveToArray es.length pos s = some s' ∧ Moving es lists₀ (done ++ [pos]) todo s' := by
  obtain ⟨hring, hdone, hes, hlive⟩ := h
  have hfirst : Ring s.1 gList ([] ++ pos :: todo) := hring
  obtain ⟨lists, hdel, hring', hsame⟩ := hfirst.listDel_spec
  obtain ⟨x, -, rfl⟩ : ∃ x ∈ es, .inr x = pos := by
    rw [← List.mem_map, ← hes]
    simp
  have hroom : (s.2.length : ℤ) < es.length := by
    have hlen := congrArg List.length hes
    simp only [hdone, List.length_append, List.length_map, List.length_cons] at hlen
    omega
  refine ⟨(lists, s.2 ++ [x]), ?_, hring', by simp [hdone], by simpa using hes,
    fun a => (hsame.live a).trans (hlive a)⟩
  simp [moveToArray, hdel, hroom]

/-- The first pass counts the elements, and the second one moves them to the array, in
their order and with none left behind. -/
theorem passes_spec {lists : Heap (Unit ⊕ ε)} {fuel : ℕ}
    (hring : Ring lists gList (es.map .inr)) (hfuel : es.length < fuel) :
    listForEach lists (fun _ count => some (count + 1)) gList fuel (0 : ℤ) = some (es.length : ℤ) ∧
      ∃ lists', listForEachSafe Prod.fst (moveToArray es.length) gList fuel (lists, []) =
          some (lists', es) ∧ ∀ a, lists'.Live a ↔ lists.Live a := by
  have hlen : (es.map .inr : List (Unit ⊕ ε)).length < fuel := by rwa [List.length_map]
  constructor
  · have hcount : ∀ (l : List (Unit ⊕ ε)) (n : ℤ),
        l.foldlM (fun count _ => some (count + 1)) n = some (n + l.length) := by
      intro l
      induction l with
      | nil => simp
      | cons x l ih =>
          intro n
          rw [List.foldlM_cons, Option.bind_eq_bind, Option.bind_some, ih, List.length_cons]
          push_cast
          ring_nf
    rw [hring.listForEach_eq hlen, hcount, zero_add, List.length_map]
  · obtain ⟨⟨lists', array⟩, hloop, -, harray, hes, hlive⟩ :=
      Ring.listForEachSafe_rule (I := Moving es lists) (fun done todo s h => (Walk.of_ring h.1).1)
        (fun done x todo s h => moving_step h) (s := (lists, [])) hring
        ⟨hring, rfl, rfl, fun _ => Iff.rfl⟩ hlen
    rw [List.append_nil] at hes
    obtain rfl : array = es := List.map_injective_iff.mpr Sum.inr_injective (harray.symm.trans hes)
    exact ⟨lists', hloop, hlive⟩

/-- `allocPValue` of a list takes all elements over. -/
theorem Collects.allocPValueList (h : Collects malloc m cfg bs es elems)
    (hring : Ring m.lists gList (es.map .inr)) :
    ∃ pv m', (∃ N, ∀ fuel, N ≤ fuel → allocPValueList malloc fuel m = some (pv, m')) ∧
      Made malloc m' cfg bs pv (Config.allocPValueList elems) (pv :: es) := by
  obtain ⟨lists, hnew, -, hsame⟩ := newPValue_spec malloc m
  have hfresh : ∀ x ∈ es, x ≠ malloc.block m.allocated := by
    rintro x hx rfl
    exact not_given_block (h.given _ (List.mem_append_right bs hx))
  have hhead : lists.Live gList := by
    rw [Heap.Live, hsame gList (by simp [gList])]
    exact h.head
  have hring' : Ring lists gList (es.map .inr) := by
    refine hring.congr fun a ha => hsame a ?_
    rintro rfl
    simp only [gList, List.mem_cons, reduceCtorEq, List.mem_map, Sum.inr.injEq, exists_eq_right,
      false_or] at ha
    exact hfresh _ ha rfl
  obtain ⟨-, lists', hmove, hlive⟩ := passes_spec hring' (Nat.lt_succ_self _)
  have hholds := (h.toHolds.setPValue
    (c := { ptype := .list, contents := .array es.length es }) ((hlive gList).mpr hhead))
  refine ⟨malloc.block m.allocated, _, ⟨es.length + 1, fun fuel hfuel => ?_⟩,
    hholds.1.perm (List.perm_append_singleton _ _), .list ?_ ?_⟩
  · have hcount := (passes_spec hring' (Nat.lt_of_succ_le hfuel)).1
    have hmove' := listForEachSafe_mono hfuel hmove
    rw [Objects.allocPValueList, hnew]
    simp only [Option.bind_eq_bind, Option.bind_some, hcount, hmove']
  · rw [← h.elems.length_eq]
    exact Function.update_self _ _ _
  · exact hasElems_congr h.elems fun x hx => hholds.2 x (List.mem_append_right bs hx)

end Operations

end Objects

end Config

end Infra
