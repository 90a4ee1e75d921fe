import Mathlib.Logic.Function.Basic
import Mathlib.Data.List.Chain
import Mathlib.Data.List.Nodup

/-!
# The linked list of `list.h`

A `struct list_head` holds a `next` and a `prev` pointer, and every list of the
library is a cycle of such nodes through a head node. The memory is a partial
map from addresses to nodes: an address with no node is memory that is not
allocated, and a link that is `none` is the NULL pointer. Each function of
`list.h` is the sequence of its loads and stores, in the source's order, and it
has no result when one of them goes through NULL or through memory that is not
allocated.

The views `next` and `prev` read one field of one address; the equations of
this file say what each store leaves in them, so that later proofs never look
inside the memory itself.
-/

namespace Infra

namespace LinkedList

/-- `struct list_head`: the two links of a node. A link is `none` when it is
NULL. -/
structure ListHead (ν : Type*) where
  next : Option ν
  prev : Option ν

/-- The memory that holds the nodes. An address is `none` when no node is
allocated there. -/
abbrev Heap (ν : Type*) := ν → Option (ListHead ν)

namespace Heap

variable {ν : Type*}

/-- The address `a` holds a node. -/
def Live (h : Heap ν) (a : ν) : Prop := (h a).isSome

/-- The `next` link of the node at `a`, absent when it is NULL or when no node
is there. -/
def next (h : Heap ν) (a : ν) : Option ν := (h a).bind ListHead.next

/-- The `prev` link of the node at `a`. -/
def prev (h : Heap ν) (a : ν) : Option ν := (h a).bind ListHead.prev

variable [DecidableEq ν]

/-- Store both links of the node at `a`. -/
def store (h : Heap ν) (a : ν) (c : ListHead ν) : Option (Heap ν) :=
  (h a).map fun _ => Function.update h a (some c)

/-- The store `a->next = v`. -/
def setNext (h : Heap ν) (a : ν) (v : ν) : Option (Heap ν) :=
  (h a).map fun c => Function.update h a (some { c with next := some v })

/-- The store `a->prev = v`. -/
def setPrev (h : Heap ν) (a : ν) (v : ν) : Option (Heap ν) :=
  (h a).map fun c => Function.update h a (some { c with prev := some v })

/-- `malloc` of the structure around a node: its links hold no list yet. -/
def alloc (h : Heap ν) (a : ν) : Heap ν := Function.update h a (some ⟨none, none⟩)

/-- `free` of the structure around a node. -/
def free (h : Heap ν) (a : ν) : Heap ν := Function.update h a none

end Heap

section Operations

variable {ν : Type*} [DecidableEq ν]

/-- `INIT_LIST_HEAD`. -/
def initListHead (h : Heap ν) (list : ν) : Option (Heap ν) := do
  let h ← h.setNext list list
  h.setPrev list list

/-- `__list_add`. -/
def listAddBetween (h : Heap ν) (new prev next : ν) : Option (Heap ν) := do
  let h ← h.setPrev next new
  let h ← h.setNext new next
  let h ← h.setPrev new prev
  h.setNext prev new

/-- `list_add_tail`. -/
def listAddTail (h : Heap ν) (new head : ν) : Option (Heap ν) := do
  let prev ← h.prev head
  listAddBetween h new prev head

/-- `__list_del`. -/
def listDelBetween (h : Heap ν) (prev next : ν) : Option (Heap ν) := do
  let h ← h.setPrev next prev
  h.setNext prev next

/-- `__list_del_entry`. -/
def listDelEntry (h : Heap ν) (entry : ν) : Option (Heap ν) := do
  let prev ← h.prev entry
  let next ← h.next entry
  listDelBetween h prev next

/-- `list_del`: the links of the deleted entry become NULL. -/
def listDel (h : Heap ν) (entry : ν) : Option (Heap ν) := do
  let h ← listDelEntry h entry
  h.store entry ⟨none, none⟩

/-- `list_del_init`. -/
def listDelInit (h : Heap ν) (entry : ν) : Option (Heap ν) := do
  let h ← listDelEntry h entry
  initListHead h entry

/-- `list_empty`. -/
def listEmpty (h : Heap ν) (head : ν) : Option Bool :=
  (h head).map fun c => decide (c.next = some head)

/-- `malloc` of an array of list heads; `heads i` is the address of the `i`-th. -/
def mallocHeads (h : Heap ν) (heads : ℕ → ν) : ℕ → Heap ν
  | 0 => h
  | n + 1 => (mallocHeads h heads n).alloc (heads n)

/-- The loop that applies `INIT_LIST_HEAD` to each head of an array. -/
def initHeads (h : Heap ν) (heads : ℕ → ν) : ℕ → Option (Heap ν)
  | 0 => some h
  | n + 1 => do
      let h ← initHeads h heads n
      initListHead h (heads n)

end Operations

section Operations

variable {ν : Type} [DecidableEq ν]

/-- `list_add`. -/
def listAdd (h : Heap ν) (new head : ν) : Option (Heap ν) := do
  let next ← h.next head
  listAddBetween h new head next

/-- `list_replace`. The links of `new` are read back as they were just stored. -/
def listReplace (h : Heap ν) (old new : ν) : Option (Heap ν) := do
  let next ← h.next old
  let h ← h.setNext new next
  let next ← h.next new
  let h ← h.setPrev next new
  let prev ← h.prev old
  let h ← h.setPrev new prev
  let prev ← h.prev new
  h.setNext prev new

/-- `list_replace_init`. -/
def listReplaceInit (h : Heap ν) (old new : ν) : Option (Heap ν) := do
  let h ← listReplace h old new
  initListHead h old

/-- `list_move`. -/
def listMove (h : Heap ν) (list head : ν) : Option (Heap ν) := do
  let h ← listDelEntry h list
  listAdd h list head

/-- `list_move_tail`. -/
def listMoveTail (h : Heap ν) (list head : ν) : Option (Heap ν) := do
  let h ← listDelEntry h list
  listAddTail h list head

/-- `list_is_last`. -/
def listIsLast (h : Heap ν) (list head : ν) : Option Bool :=
  (h list).map fun c => decide (c.next = some head)

/-- `list_empty_careful`. -/
def listEmptyCareful (h : Heap ν) (head : ν) : Option Bool :=
  (h head).map fun c => decide (c.next = some head) && decide (c.next = c.prev)

/-- `list_is_singular`. -/
def listIsSingular (h : Heap ν) (head : ν) : Option Bool :=
  (h head).map fun c => !decide (c.next = some head) && decide (c.next = c.prev)

/-- `list_rotate_left`. -/
def listRotateLeft (h : Heap ν) (head : ν) : Option (Heap ν) := do
  let empty ← listEmpty h head
  if empty then some h
  else do
    let first ← h.next head
    listMoveTail h first head

/-- `__list_cut_position`. -/
def listCutAt (h : Heap ν) (list head entry : ν) : Option (Heap ν) := do
  let newFirst ← h.next entry
  let first ← h.next head
  let h ← h.setNext list first
  let first ← h.next list
  let h ← h.setPrev first list
  let h ← h.setPrev list entry
  let h ← h.setNext entry list
  let h ← h.setNext head newFirst
  h.setPrev newFirst head

/-- `list_cut_position`. -/
def listCutPosition (h : Heap ν) (list head entry : ν) : Option (Heap ν) := do
  let empty ← listEmpty h head
  if empty then some h
  else do
    let singular ← listIsSingular h head
    let first ← h.next head
    if singular && (decide (first ≠ entry) && decide (head ≠ entry)) then some h
    else if entry = head then initListHead h list
    else listCutAt h list head entry

/-- `__list_splice`. -/
def listSpliceBetween (h : Heap ν) (list prev next : ν) : Option (Heap ν) := do
  let first ← h.next list
  let last ← h.prev list
  let h ← h.setPrev first prev
  let h ← h.setNext prev first
  let h ← h.setNext last next
  h.setPrev next last

/-- `list_splice`. -/
def listSplice (h : Heap ν) (list head : ν) : Option (Heap ν) := do
  let empty ← listEmpty h list
  if empty then some h
  else do
    let next ← h.next head
    listSpliceBetween h list head next

/-- `list_splice_tail`. -/
def listSpliceTail (h : Heap ν) (list head : ν) : Option (Heap ν) := do
  let empty ← listEmpty h list
  if empty then some h
  else do
    let prev ← h.prev head
    listSpliceBetween h list prev head

/-- `list_splice_init`. -/
def listSpliceInit (h : Heap ν) (list head : ν) : Option (Heap ν) := do
  let empty ← listEmpty h list
  if empty then some h
  else do
    let next ← h.next head
    let h ← listSpliceBetween h list head next
    initListHead h list

/-- `list_splice_tail_init`. -/
def listSpliceTailInit (h : Heap ν) (list head : ν) : Option (Heap ν) := do
  let empty ← listEmpty h list
  if empty then some h
  else do
    let prev ← h.prev head
    let h ← listSpliceBetween h list prev head
    initListHead h list

end Operations

/-! ## What the stores leave in the views -/

namespace Heap

variable {ν : Type*}

theorem Live.of_next {h : Heap ν} {a b : ν} (hn : h.next a = some b) : h.Live a := by
  cases ha : h a with
  | none => simp [next, ha] at hn
  | some c => simp [Live, ha]

theorem Live.of_prev {h : Heap ν} {a b : ν} (hp : h.prev a = some b) : h.Live a := by
  cases ha : h a with
  | none => simp [prev, ha] at hp
  | some c => simp [Live, ha]

theorem next_congr {h h' : Heap ν} {a : ν} (e : h' a = h a) : h'.next a = h.next a := by
  simp [next, e]

theorem prev_congr {h h' : Heap ν} {a : ν} (e : h' a = h a) : h'.prev a = h.prev a := by
  simp [prev, e]

end Heap

/-- `h'` has the nodes of `h`, and outside `S` it has the same links. -/
structure SameOutside {ν : Type*} (h h' : Heap ν) (S : ν → Prop) : Prop where
  live : ∀ a, h'.Live a ↔ h.Live a
  eq : ∀ a, ¬ S a → h' a = h a

namespace SameOutside

variable {ν : Type*} {h h' h'' : Heap ν} {S T : ν → Prop}

theorem trans (h₁ : SameOutside h h' S) (h₂ : SameOutside h' h'' S) :
    SameOutside h h'' S :=
  ⟨fun a => (h₂.live a).trans (h₁.live a), fun a ha => (h₂.eq a ha).trans (h₁.eq a ha)⟩

theorem mono (h₁ : SameOutside h h' S) (hST : ∀ a, S a → T a) : SameOutside h h' T :=
  ⟨h₁.live, fun a ha => h₁.eq a fun hs => ha (hST a hs)⟩

end SameOutside

section Views

variable {ν : Type*} [DecidableEq ν]

/-- A store of `next` through an allocated node succeeds and changes that one
link. -/
theorem setNext_spec (h : Heap ν) (a v : ν) (ha : h.Live a) :
    ∃ h', h.setNext a v = some h' ∧ SameOutside h h' (· = a) ∧
      h'.next = Function.update h.next a (some v) ∧ h'.prev = h.prev := by
  obtain ⟨c, hc⟩ := Option.isSome_iff_exists.mp ha
  refine ⟨Function.update h a (some { c with next := some v }), by simp [Heap.setNext, hc],
    ⟨fun b => ?_, fun b hb => by simp [Function.update_of_ne hb]⟩, ?_, ?_⟩
  · by_cases hb : b = a
    · subst hb; simp [Heap.Live, hc]
    · simp [Heap.Live, Function.update_of_ne hb]
  all_goals
    funext b
    by_cases hb : b = a
    · subst hb; simp [Heap.next, Heap.prev, hc]
    · simp [Heap.next, Heap.prev, Function.update_of_ne hb]

/-- A store of `prev` through an allocated node succeeds and changes that one
link. -/
theorem setPrev_spec (h : Heap ν) (a v : ν) (ha : h.Live a) :
    ∃ h', h.setPrev a v = some h' ∧ SameOutside h h' (· = a) ∧
      h'.next = h.next ∧ h'.prev = Function.update h.prev a (some v) := by
  obtain ⟨c, hc⟩ := Option.isSome_iff_exists.mp ha
  refine ⟨Function.update h a (some { c with prev := some v }), by simp [Heap.setPrev, hc],
    ⟨fun b => ?_, fun b hb => by simp [Function.update_of_ne hb]⟩, ?_, ?_⟩
  · by_cases hb : b = a
    · subst hb; simp [Heap.Live, hc]
    · simp [Heap.Live, Function.update_of_ne hb]
  all_goals
    funext b
    by_cases hb : b = a
    · subst hb; simp [Heap.next, Heap.prev, hc]
    · simp [Heap.next, Heap.prev, Function.update_of_ne hb]

theorem initListHead_spec (h : Heap ν) (a : ν) (ha : h.Live a) :
    ∃ h', initListHead h a = some h' ∧ SameOutside h h' (· = a) ∧
      h'.next = Function.update h.next a (some a) ∧
      h'.prev = Function.update h.prev a (some a) := by
  obtain ⟨h₁, e₁, s₁, n₁, p₁⟩ := setNext_spec h a a ha
  obtain ⟨h₂, e₂, s₂, n₂, p₂⟩ := setPrev_spec h₁ a a ((s₁.live a).mpr ha)
  exact ⟨h₂, by simp [initListHead, e₁, e₂], s₁.trans s₂, by rw [n₂, n₁], by rw [p₂, p₁]⟩

/-- `__list_add` links `new` between `prev` and `next`. -/
theorem listAddBetween_spec (h : Heap ν) (new prev next : ν) (hnew : h.Live new)
    (hprev : h.Live prev) (hnext : h.Live next) :
    ∃ h', listAddBetween h new prev next = some h' ∧
      SameOutside h h' (fun a => a = new ∨ a = prev ∨ a = next) ∧
      h'.next = Function.update (Function.update h.next new (some next)) prev (some new) ∧
      h'.prev = Function.update (Function.update h.prev next (some new)) new (some prev) := by
  obtain ⟨h₁, e₁, s₁, n₁, p₁⟩ := setPrev_spec h next new hnext
  obtain ⟨h₂, e₂, s₂, n₂, p₂⟩ := setNext_spec h₁ new next ((s₁.live new).mpr hnew)
  have s₁₂ := (s₁.mono (T := fun a => a = new ∨ a = next) (by tauto)).trans
    (s₂.mono (by tauto))
  obtain ⟨h₃, e₃, s₃, n₃, p₃⟩ := setPrev_spec h₂ new prev ((s₁₂.live new).mpr hnew)
  have s₁₃ := s₁₂.trans (s₃.mono (by tauto))
  obtain ⟨h₄, e₄, s₄, n₄, p₄⟩ := setNext_spec h₃ prev new ((s₁₃.live prev).mpr hprev)
  refine ⟨h₄, by simp [listAddBetween, e₁, e₂, e₃, e₄],
    (s₁₃.mono (by tauto)).trans (s₄.mono (by tauto)), ?_, ?_⟩
  · rw [n₄, n₃, n₂, n₁]
  · rw [p₄, p₃, p₂, p₁]

/-- `__list_del` makes `prev` and `next` point to each other. -/
theorem listDelBetween_spec (h : Heap ν) (prev next : ν)
    (hprev : h.Live prev) (hnext : h.Live next) :
    ∃ h', listDelBetween h prev next = some h' ∧
      SameOutside h h' (fun a => a = prev ∨ a = next) ∧
      h'.next = Function.update h.next prev (some next) ∧
      h'.prev = Function.update h.prev next (some prev) := by
  obtain ⟨h₁, e₁, s₁, n₁, p₁⟩ := setPrev_spec h next prev hnext
  obtain ⟨h₂, e₂, s₂, n₂, p₂⟩ := setNext_spec h₁ prev next ((s₁.live prev).mpr hprev)
  exact ⟨h₂, by simp [listDelBetween, e₁, e₂],
    (s₁.mono (by tauto)).trans (s₂.mono (by tauto)), by rw [n₂, n₁], by rw [p₂, p₁]⟩

theorem store_spec (h : Heap ν) (a : ν) (c : ListHead ν) (ha : h.Live a) :
    ∃ h', h.store a c = some h' ∧ SameOutside h h' (· = a) := by
  obtain ⟨d, hd⟩ := Option.isSome_iff_exists.mp ha
  refine ⟨Function.update h a (some c), by simp [Heap.store, hd],
    fun b => ?_, fun b hb => by simp [Function.update_of_ne hb]⟩
  by_cases hb : b = a
  · subst hb; simp [Heap.Live, hd]
  · simp [Heap.Live, Function.update_of_ne hb]

end Views

/-! ## What the operations leave allocated -/

section Allocation

variable {ν : Type*} [DecidableEq ν] {h h' : Heap ν} {a b v : ν}

theorem Heap.live_update {c : ListHead ν} (ha : h.Live a) :
    Heap.Live (Function.update h a (some c)) b ↔ h.Live b := by
  by_cases hb : b = a
  · subst hb
    simpa [Heap.Live] using ha
  · simp [Heap.Live, Function.update_of_ne hb]

theorem Heap.live_setNext (e : h.setNext a v = some h') : h'.Live b ↔ h.Live b := by
  obtain ⟨c, hc, rfl⟩ := Option.map_eq_some_iff.mp e
  exact Heap.live_update (Option.isSome_iff_exists.mpr ⟨c, hc⟩)

theorem Heap.live_setPrev (e : h.setPrev a v = some h') : h'.Live b ↔ h.Live b := by
  obtain ⟨c, hc, rfl⟩ := Option.map_eq_some_iff.mp e
  exact Heap.live_update (Option.isSome_iff_exists.mpr ⟨c, hc⟩)

theorem live_initListHead (e : initListHead h a = some h') : h'.Live b ↔ h.Live b := by
  obtain ⟨h₁, e₁, e₂⟩ := Option.bind_eq_some_iff.mp e
  exact (Heap.live_setPrev e₂).trans (Heap.live_setNext e₁)

theorem live_listAddTail (e : listAddTail h a v = some h') : h'.Live b ↔ h.Live b := by
  obtain ⟨p, -, e⟩ := Option.bind_eq_some_iff.mp e
  obtain ⟨h₁, e₁, e⟩ := Option.bind_eq_some_iff.mp e
  obtain ⟨h₂, e₂, e⟩ := Option.bind_eq_some_iff.mp e
  obtain ⟨h₃, e₃, e₄⟩ := Option.bind_eq_some_iff.mp e
  exact (Heap.live_setNext e₄).trans ((Heap.live_setPrev e₃).trans
    ((Heap.live_setNext e₂).trans (Heap.live_setPrev e₁)))

theorem live_listDelEntry (e : listDelEntry h a = some h') : h'.Live b ↔ h.Live b := by
  obtain ⟨p, -, e⟩ := Option.bind_eq_some_iff.mp e
  obtain ⟨n, -, e⟩ := Option.bind_eq_some_iff.mp e
  obtain ⟨h₁, e₁, e₂⟩ := Option.bind_eq_some_iff.mp e
  exact (Heap.live_setNext e₂).trans (Heap.live_setPrev e₁)

theorem live_listDel (e : listDel h a = some h') : h'.Live b ↔ h.Live b := by
  obtain ⟨h₁, e₁, e₂⟩ := Option.bind_eq_some_iff.mp e
  obtain ⟨c, hc, rfl⟩ := Option.map_eq_some_iff.mp e₂
  exact (Heap.live_update (Option.isSome_iff_exists.mpr ⟨c, hc⟩)).trans (live_listDelEntry e₁)

theorem live_listDelInit (e : listDelInit h a = some h') : h'.Live b ↔ h.Live b := by
  obtain ⟨h₁, e₁, e₂⟩ := Option.bind_eq_some_iff.mp e
  exact (live_initListHead e₂).trans (live_listDelEntry e₁)

end Allocation

end LinkedList

end Infra
