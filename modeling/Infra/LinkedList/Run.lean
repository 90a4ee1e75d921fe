import Infra.Foundation.Simulation
import Infra.LinkedList.Iterate
import Infra.LinkedList.Weave

/-!
# Runs of list operations

A client calls the functions of `list.h` on nodes that it has allocated. `sequences`
is what it may rely on: a family of sequences without common elements, each known by
the node it starts from. It does not take what a client must not do, such as to add a
node that is already in a list, to follow a node that was deleted, or to delete the
head of a list that has entries. The linked lists answer every run that `sequences`
takes in the same way.
-/

namespace Infra

namespace LinkedList

open Infra.Sequences

/-- The operations of `list.h`, and the two walks. -/
inductive Op (ν : Type) where
  | init (list : ν)
  | add (new head : ν)
  | addTail (new head : ν)
  | del (entry : ν)
  | delInit (entry : ν)
  | replace (old new : ν)
  | replaceInit (old new : ν)
  | move (list head : ν)
  | moveTail (list head : ν)
  | rotateLeft (head : ν)
  | cutPosition (list head entry : ν)
  | splice (list head : ν)
  | spliceTail (list head : ν)
  | spliceInit (list head : ν)
  | spliceTailInit (list head : ν)
  | isLast (list head : ν)
  | empty (head : ν)
  | emptyCareful (head : ν)
  | isSingular (head : ν)
  | forEach (head : ν)
  | forEachPrev (head : ν)

/-- What a client gets. -/
inductive Answer (ν : Type) where
  | done
  | flag (b : Bool)
  | nodes (xs : List ν)
  deriving DecidableEq

section Machines

variable {ν : Type} [DecidableEq ν]

/-- A change of the memory. -/
def changed (h : Option (Heap ν)) : Option (Heap ν × Answer ν) := h.map fun h => (h, .done)

/-- The linked lists, as a machine. -/
def linkedLists (fuel : ℕ) : Machine (Heap ν) (Op ν) (Answer ν) where
  step h
    | .init list => changed (initListHead h list)
    | .add new head => changed (listAdd h new head)
    | .addTail new head => changed (listAddTail h new head)
    | .del entry => changed (listDel h entry)
    | .delInit entry => changed (listDelInit h entry)
    | .replace old new => changed (listReplace h old new)
    | .replaceInit old new => changed (listReplaceInit h old new)
    | .move list head => changed (listMove h list head)
    | .moveTail list head => changed (listMoveTail h list head)
    | .rotateLeft head => changed (listRotateLeft h head)
    | .cutPosition list head entry => changed (listCutPosition h list head entry)
    | .splice list head => changed (listSplice h list head)
    | .spliceTail list head => changed (listSpliceTail h list head)
    | .spliceInit list head => changed (listSpliceInit h list head)
    | .spliceTailInit list head => changed (listSpliceTailInit h list head)
    | .isLast list head => (listIsLast h list head).map fun b => (h, .flag b)
    | .empty head => (listEmpty h head).map fun b => (h, .flag b)
    | .emptyCareful head => (listEmptyCareful h head).map fun b => (h, .flag b)
    | .isSingular head => (listIsSingular h head).map fun b => (h, .flag b)
    | .forEach head =>
        (listForEach h (fun x xs => some (xs ++ [x])) head fuel []).map fun xs => (h, .nodes xs)
    | .forEachPrev head =>
        (listForEachPrev h (fun x xs => some (xs ++ [x])) head fuel []).map fun xs =>
          (h, .nodes xs)

/-- The entries of `list` go behind the node `head`, or before it. A list that has entries is
lost with them, unless it is initialised again. -/
def splice (before init : Bool) (list head : ν) (R : List (List ν)) :
    Option (List (List ν)) := do
  let (xs, R₁) ← headed list R
  if xs = [] then some R
  else do
    let (r, R₂) ← owner head R₁
    let r := if before then insertBefore head xs r else insertAfter head xs r
    some (if init then [list] :: r :: R₂ else r :: R₂)

/-- The entries of `head` up to `entry` become those of `list`. Nothing is done when `head` has
no entries, or only one that is not `entry`. -/
def cut (list head entry : ν) (R : List (List ν)) : Option (List (List ν)) := do
  let (xs, R₁) ← headed head R
  if xs = [] ∨ xs.length = 1 ∧ entry ∉ head :: xs then some R
  else if entry = head then do
    let R ← forget list R
    some ([list] :: R)
  else if entry ∈ xs ∧ list ∉ head :: xs then do
    let R ← forget list R₁
    let i := xs.idxOf entry + 1
    some ((list :: xs.take i) :: (head :: xs.drop i) :: R)
  else none

/-- What each operation that is a change does to the family. -/
def change (R : List (List ν)) : Op ν → Option (List (List ν))
  | .init list => do
      let R ← forget list R
      some ([list] :: R)
  | .add new head => do
      let R ← release new R
      let (r, R) ← owner head R
      some (insertAfter head [new] r :: R)
  | .addTail new head => do
      let R ← release new R
      let (r, R) ← owner head R
      some (insertBefore head [new] r :: R)
  | .del entry => remove entry R
  | .delInit entry => do
      let R ← remove entry R
      some ([entry] :: R)
  | .replace old new => do
      let R ← release new R
      let (r, R) ← owner old R
      some (r.map (fun x => if x = old then new else x) :: R)
  | .replaceInit old new => do
      let R ← release new R
      let (r, R) ← owner old R
      some ([old] :: r.map (fun x => if x = old then new else x) :: R)
  | .move list head => do
      let R ← remove list R
      let (r, R) ← owner head R
      some (insertAfter head [list] r :: R)
  | .moveTail list head => do
      let R ← remove list R
      let (r, R) ← owner head R
      some (insertBefore head [list] r :: R)
  | .rotateLeft head => do
      let (xs, R) ← headed head R
      some ((head :: xs.rotate 1) :: R)
  | .cutPosition list head entry => cut list head entry R
  | .splice list head => splice false false list head R
  | .spliceTail list head => splice true false list head R
  | .spliceInit list head => splice false true list head R
  | .spliceTailInit list head => splice true true list head R
  | _ => some R

/-- What each question is answered. -/
def answer (R : List (List ν)) : Op ν → Option (Answer ν)
  | .isLast list head => do
      let (xs, _) ← headed head R
      if list ∈ R.flatten then some (.flag (decide ((head :: xs).getLast? = some list))) else none
  | .empty head | .emptyCareful head => do
      let (r, _) ← owner head R
      some (.flag (decide (r.length = 1)))
  | .isSingular head => do
      let (r, _) ← owner head R
      some (.flag (decide (r.length = 2)))
  | .forEach head => do
      let (xs, _) ← headed head R
      some (.nodes xs)
  | .forEachPrev head => do
      let (xs, _) ← headed head R
      some (.nodes xs.reverse)
  | _ => some .done

/-- The family of sequences, as a machine that takes what a client may do. -/
def sequences : Machine (List (List ν)) (Op ν) (Answer ν) where
  step R op := do
    let a ← answer R op
    let R ← change R op
    some (R, a)

end Machines

section Lengths

variable {ν : Type} [DecidableEq ν] {R R' : List (List ν)} {list head entry : ν}

theorem length_splice_le {before init : Bool} (h : splice before init list head R = some R') :
    R'.flatten.length ≤ R.flatten.length := by
  simp only [splice, Option.bind_eq_bind, Option.bind_eq_some_iff, Prod.exists] at h
  obtain ⟨xs, R₁, h₁, h⟩ := h
  split at h
  · obtain rfl := Option.some.inj h
    exact le_refl _
  · simp only [Option.bind_eq_some_iff, Prod.exists, Option.some.injEq] at h
    obtain ⟨r, R₂, h₂, rfl⟩ := h
    have hmem := (owner_eq_some h₂).2
    have hlen : (if before then insertBefore head xs r else insertAfter head xs r).length =
        xs.length + r.length := by
      split
      · rw [(perm_insertBefore hmem).length_eq, List.length_append]
      · rw [(perm_insertAfter hmem).length_eq, List.length_append]
    rw [length_headed h₁, length_owner h₂]
    split <;> simp only [List.flatten_cons, List.length_append, List.length_singleton, hlen] <;>
      omega

theorem length_cut_le (h : cut list head entry R = some R') :
    R'.flatten.length ≤ R.flatten.length + 1 := by
  simp only [cut, Option.bind_eq_bind, Option.bind_eq_some_iff, Prod.exists] at h
  obtain ⟨xs, R₁, h₁, h⟩ := h
  split at h
  · obtain rfl := Option.some.inj h
    exact Nat.le_succ _
  split at h
  · simp only [Option.bind_eq_some_iff, Option.some.injEq] at h
    obtain ⟨R₂, h₂, rfl⟩ := h
    have := length_forget_le h₂
    simp only [List.flatten_cons, List.length_append, List.length_singleton]
    omega
  split at h
  · simp only [Option.bind_eq_some_iff, Option.some.injEq] at h
    obtain ⟨R₂, h₂, rfl⟩ := h
    have := length_forget_le h₂
    rw [length_headed h₁]
    simp only [List.flatten_cons, List.length_append, List.length_cons, List.length_take,
      List.length_drop]
    omega
  · simp at h

end Lengths

/-- The memory `h` holds the family `R`, and `fuel` rounds are enough for a walk while at most
`n` operations are still to come. -/
structure Keeps {ν : Type} (fuel n : ℕ) (h : Heap ν) (R : List (List ν)) : Prop where
  weave : Weave h R
  fuel : R.flatten.length + n < fuel

section Changes

variable {ν : Type} [DecidableEq ν] {fuel n : ℕ} {h h' : Heap ν} {R R' : List (List ν)}
  {head list entry new old : ν}

namespace Keeps

omit [DecidableEq ν] in
theorem next (k : Keeps fuel (n + 1) h R) (w : Weave h' R')
    (hlen : R'.flatten.length ≤ R.flatten.length + 1) : Keeps fuel n h' R' :=
  ⟨w, by have := k.fuel; omega⟩

omit [DecidableEq ν] in
theorem same (k : Keeps fuel (n + 1) h R) : Keeps fuel n h R := k.next k.weave (Nat.le_succ _)

theorem init (k : Keeps fuel (n + 1) h R) (hc : change R (.init list) = some R') :
    ∃ h', initListHead h list = some h' ∧ Keeps fuel n h' R' := by
  simp only [change, Option.bind_eq_bind, Option.bind_eq_some_iff, Option.some.injEq] at hc
  obtain ⟨R₁, h₁, rfl⟩ := hc
  obtain ⟨w, hnot⟩ := k.weave.forget h₁
  obtain ⟨h', e, w'⟩ := w.initListHead_spec hnot
  refine ⟨h', e, k.next w' ?_⟩
  have := length_forget_le h₁
  simp only [List.flatten_cons, List.length_append, List.length_singleton]
  omega

/-- `list_add` and `list_add_tail` of a node that is in no sequence of others. -/
theorem added (k : Keeps fuel (n + 1) h R) {R₁ R₂ : List (List ν)} {r : List ν}
    (h₁ : release new R = some R₁) (h₂ : owner head R₁ = some (r, R₂)) :
    (∃ h', listAdd h new head = some h' ∧ Keeps fuel n h' (insertAfter head [new] r :: R₂)) ∧
      ∃ h', listAddTail h new head = some h' ∧
        Keeps fuel n h' (insertBefore head [new] r :: R₂) := by
  have hf := release_eq_some h₁
  obtain ⟨w, hnot⟩ := k.weave.forget hf
  have hmem := (owner_eq_some h₂).2
  have hlen₁ := length_forget_le hf
  rw [length_owner h₂] at hlen₁
  obtain ⟨h', e, w'⟩ := w.listAdd_spec hnot h₂
  obtain ⟨h'', e', w''⟩ := w.listAddTail_spec hnot h₂
  refine ⟨⟨h', e, k.next w' ?_⟩, h'', e', k.next w'' ?_⟩
  · rw [List.flatten_cons, List.length_append, (perm_insertAfter hmem).length_eq,
      List.length_append, List.length_singleton]
    omega
  · rw [List.flatten_cons, List.length_append, (perm_insertBefore hmem).length_eq,
      List.length_append, List.length_singleton]
    omega

/-- `list_move` and `list_move_tail`. -/
theorem moved (k : Keeps fuel (n + 1) h R) {R₁ R₂ : List (List ν)} {r : List ν}
    (h₁ : remove list R = some R₁) (h₂ : owner head R₁ = some (r, R₂)) :
    (∃ h', listMove h list head = some h' ∧ Keeps fuel n h' (insertAfter head [list] r :: R₂)) ∧
      ∃ h', listMoveTail h list head = some h' ∧
        Keeps fuel n h' (insertBefore head [list] r :: R₂) := by
  obtain ⟨m, em, w, hnot⟩ := k.weave.listDelEntry_spec h₁
  have hmem := (owner_eq_some h₂).2
  have hlen₁ := length_remove h₁
  rw [length_owner h₂] at hlen₁
  obtain ⟨h', e, w'⟩ := w.listAdd_spec hnot h₂
  obtain ⟨h'', e', w''⟩ := w.listAddTail_spec hnot h₂
  refine ⟨⟨h', by simp [listMove, em, e], k.next w' ?_⟩,
    h'', by simp [listMoveTail, em, e'], k.next w'' ?_⟩
  · rw [List.flatten_cons, List.length_append, (perm_insertAfter hmem).length_eq,
      List.length_append, List.length_singleton]
    omega
  · rw [List.flatten_cons, List.length_append, (perm_insertBefore hmem).length_eq,
      List.length_append, List.length_singleton]
    omega

/-- `list_del` and `list_del_init`. -/
theorem deleted (k : Keeps fuel (n + 1) h R) (hr : remove entry R = some R') :
    (∃ h', listDel h entry = some h' ∧ Keeps fuel n h' R') ∧
      ∃ h', listDelInit h entry = some h' ∧ Keeps fuel n h' ([entry] :: R') := by
  obtain ⟨m, em, w, hnot⟩ := k.weave.listDelEntry_spec hr
  have hlen := length_remove hr
  obtain ⟨h', e, s⟩ := store_spec m entry ⟨none, none⟩ (w.live entry)
  obtain ⟨h'', e', w''⟩ := w.initListHead_spec hnot
  have w' : Weave h' R' := w.of_sameOutside s fun b hb => hb ▸ hnot
  refine ⟨⟨h', by simp [listDel, em, e], k.next w' (by omega)⟩,
    h'', by simp [listDelInit, em, e'], k.next w'' ?_⟩
  simp only [List.flatten_cons, List.length_append, List.length_singleton]
  omega

/-- `list_replace` and `list_replace_init`. -/
theorem replaced (k : Keeps fuel (n + 1) h R) {R₁ R₂ : List (List ν)} {r : List ν}
    (h₁ : release new R = some R₁) (h₂ : owner old R₁ = some (r, R₂)) :
    let r' := r.map fun x => if x = old then new else x
    (∃ h', listReplace h old new = some h' ∧ Keeps fuel n h' (r' :: R₂)) ∧
      ∃ h', listReplaceInit h old new = some h' ∧ Keeps fuel n h' ([old] :: r' :: R₂) := by
  have hf := release_eq_some h₁
  obtain ⟨w, hnot⟩ := k.weave.forget hf
  have hlen := length_forget_le hf
  rw [length_owner h₂] at hlen
  obtain ⟨h', e, w', hold⟩ := w.listReplace_spec hnot h₂
  obtain ⟨h'', e', w''⟩ := w'.initListHead_spec hold
  refine ⟨⟨h', e, k.next w' ?_⟩, h'', by simp [listReplaceInit, e, e'], k.next w'' ?_⟩ <;>
  · simp only [List.flatten_cons, List.length_append, List.length_map, List.length_singleton]
    omega

/-- The two forms of `list_splice`, and the two of `list_splice_tail`. -/
theorem spliced (k : Keeps fuel (n + 1) h R) {before init : Bool}
    (hs : splice before init list head R = some R') :
    ∃ h', (match before, init with
        | false, false => listSplice h list head
        | true, false => listSpliceTail h list head
        | false, true => listSpliceInit h list head
        | true, true => listSpliceTailInit h list head) = some h' ∧ Keeps fuel n h' R' := by
  have hlen := length_splice_le hs
  simp only [splice, Option.bind_eq_bind, Option.bind_eq_some_iff, Prod.exists] at hs
  obtain ⟨xs, R₁, h₁, hs⟩ := hs
  have hempty := (k.weave.headed h₁).1.listEmpty_eq
  split at hs
  · next hxs =>
    obtain rfl := Option.some.inj hs
    refine ⟨h, ?_, k.same⟩
    cases before <;> cases init <;>
      simp [listSplice, listSpliceTail, listSpliceInit, listSpliceTailInit, hempty, hxs]
  · next hxs =>
    simp only [Option.bind_eq_some_iff, Prod.exists, Option.some.injEq] at hs
    obtain ⟨r, R₂, h₂, rfl⟩ := hs
    have hfalse : xs.isEmpty = false := by simpa using hxs
    obtain ⟨next, m, hn, e, w, hnot⟩ := k.weave.listSpliceBetween_after h₁ hxs h₂
    obtain ⟨prev, m', hp, e', w', hnot'⟩ := k.weave.listSpliceBetween_before h₁ hxs h₂
    obtain ⟨m₁, e₁, w₁⟩ := w.initListHead_spec hnot
    obtain ⟨m₁', e₁', w₁'⟩ := w'.initListHead_spec hnot'
    cases before <;> cases init
    · exact ⟨m, by simp [listSplice, hempty, hfalse, hn, e], k.next w (by omega)⟩
    · exact ⟨m₁, by simp [listSpliceInit, hempty, hfalse, hn, e, e₁], k.next w₁ (by omega)⟩
    · exact ⟨m', by simp [listSpliceTail, hempty, hfalse, hp, e'], k.next w' (by omega)⟩
    · exact ⟨m₁', by simp [listSpliceTailInit, hempty, hfalse, hp, e', e₁'],
        k.next w₁' (by omega)⟩

theorem rotated (k : Keeps fuel (n + 1) h R) {xs : List ν} {R₁ : List (List ν)}
    (hh : headed head R = some (xs, R₁)) :
    ∃ h', listRotateLeft h head = some h' ∧ Keeps fuel n h' ((head :: xs.rotate 1) :: R₁) := by
  obtain ⟨q, hdis, w⟩ := k.weave.headed hh
  obtain ⟨h', e, q', s⟩ := q.listRotateLeft_spec
  refine ⟨h', e, k.next (w.put q' s hdis fun b hb => hdis b (by simpa using hb)) ?_⟩
  rw [length_headed hh]
  simp only [List.flatten_cons, List.length_append, List.length_cons, List.length_rotate]
  omega

theorem cutOff (k : Keeps fuel (n + 1) h R) (hc : cut list head entry R = some R') :
    ∃ h', listCutPosition h list head entry = some h' ∧ Keeps fuel n h' R' := by
  have hlen := length_cut_le hc
  simp only [cut, Option.bind_eq_bind, Option.bind_eq_some_iff, Prod.exists] at hc
  obtain ⟨xs, R₁, h₁, hc⟩ := hc
  obtain ⟨q, hdis, w⟩ := k.weave.headed h₁
  have hempty := q.listEmpty_eq
  have hsingular := q.listIsSingular_eq
  cases xs with
  | nil =>
      obtain rfl : R = R' := by simpa using hc
      exact ⟨h, by simp [listCutPosition, hempty], k.same⟩
  | cons x xs =>
      have hfirst := q.next_head_cons
      by_cases hone : xs = [] ∧ entry ∉ [head, x]
      · obtain ⟨rfl, hne⟩ := hone
        simp only [List.mem_cons, List.not_mem_nil, or_false, not_or] at hne
        obtain rfl : R = R' := by simpa [hne] using hc
        refine ⟨h, ?_, k.same⟩
        simp [listCutPosition, hempty, hsingular, hfirst, Ne.symm hne.1, Ne.symm hne.2]
      have hnot : ¬ (x :: xs = [] ∨ (x :: xs).length = 1 ∧ entry ∉ head :: x :: xs) := by
        rintro (e | ⟨hl, hne⟩)
        · simp at e
        · obtain rfl : xs = [] := by simpa using hl
          exact hone ⟨rfl, hne⟩
      have hgoes : listCutPosition h list head entry =
          if entry = head then initListHead h list else listCutAt h list head entry := by
        simp only [listCutPosition, hempty, hsingular, hfirst, Option.bind_eq_bind,
          Option.bind_some]
        simp at hone
        grind
      rw [if_neg hnot] at hc
      rw [hgoes]
      by_cases heh : entry = head
      · simp only [if_pos heh, Option.bind_eq_some_iff, Option.some.injEq] at hc ⊢
        obtain ⟨R₂, h₂, rfl⟩ := hc
        obtain ⟨w', hnl⟩ := k.weave.forget h₂
        obtain ⟨h', e, w''⟩ := w'.initListHead_spec hnl
        exact ⟨h', e, k.next w'' hlen⟩
      · rw [if_neg heh] at hc ⊢
        split at hc
        · next hin =>
          obtain ⟨R₂, h₂, hR⟩ := Option.bind_eq_some_iff.mp hc
          obtain rfl := Option.some.inj hR
          obtain ⟨as, bs, hsplit, has⟩ := List.eq_append_cons_of_mem hin.1
          rw [hsplit] at h₁ hin
          obtain ⟨h', e, w'⟩ := k.weave.listCutAt_spec h₁ hin.2 h₂
          have hidx : (x :: xs).idxOf entry + 1 = (as ++ [entry]).length := by
            rw [hsplit, List.idxOf_append_of_notMem has]
            simp
          refine ⟨h', e, k.next ?_ hlen⟩
          rw [hidx, hsplit, show as ++ entry :: bs = (as ++ [entry]) ++ bs by simp,
            List.take_left, List.drop_left]
          exact w'
        · simp at hc

end Keeps

end Changes

section Runs

variable {ν : Type} [DecidableEq ν] {fuel n : ℕ} {h : Heap ν} {R R' : List (List ν)}
  {head : ν} {o : Answer ν}

omit [DecidableEq ν] in
theorem foldlM_collect (xs ys : List ν) :
    xs.foldlM (fun zs x => some (zs ++ [x])) ys = some (ys ++ xs) := by
  induction xs generalizing ys with
  | nil => simp
  | cons x xs ih => simp [ih]

/-- The two tests that look at one node. -/
theorem Keeps.counted (k : Keeps fuel n h R) {r : List ν} (ho : owner head R = some (r, R')) :
    listEmpty h head = some (decide (r.length = 1)) ∧
      listEmptyCareful h head = some (decide (r.length = 1)) ∧
      listIsSingular h head = some (decide (r.length = 2)) := by
  obtain ⟨hc, -, -, hmem⟩ := k.weave.owner ho
  obtain ⟨as, bs, rfl, -, ring⟩ := hc.from_node hmem
  have hlen : (as ++ head :: bs).length = (bs ++ as).length + 1 := by
    simp only [List.length_append, List.length_cons]
    omega
  have hempty : (bs ++ as).isEmpty = decide ((as ++ head :: bs).length = 1) := by
    rw [hlen]
    cases bs ++ as <;> simp
  rw [ring.listEmpty_eq, ring.listEmptyCareful_eq, ring.listIsSingular_eq, hempty, hlen]
  simp

theorem Keeps.rounds (k : Keeps fuel (n + 1) h R) {xs : List ν}
    (hh : headed head R = some (xs, R')) : xs.length < fuel := by
  have := k.fuel
  have := length_headed hh
  omega

/-- The linked lists simulate the sequences. -/
theorem linkedLists_simulates (fuel : ℕ) :
    Machine.Simulates (linkedLists fuel) (sequences (ν := ν)) (Keeps fuel) where
  step := by
    intro n h R op R' o k hstep
    simp only [sequences, Option.bind_eq_bind, Option.bind_eq_some_iff, Option.some.injEq,
      Prod.mk.injEq] at hstep
    obtain ⟨b, ho, S, hc, rfl, rfl⟩ := hstep
    have hdone : ∀ {m : Option (Heap ν)}, (∃ h', m = some h' ∧ Keeps fuel n h' S) →
        ∃ s', changed m = some (s', .done) ∧ Keeps fuel n s' S := by
      rintro m ⟨h', rfl, hk⟩
      exact ⟨h', rfl, hk⟩
    cases op with
    | init list =>
        obtain rfl := Option.some.inj ho
        exact hdone (k.init hc)
    | add new head =>
        obtain rfl := Option.some.inj ho
        simp only [change, Option.bind_eq_bind, Option.bind_eq_some_iff, Prod.exists,
          Option.some.injEq] at hc
        obtain ⟨R₁, h₁, r, R₂, h₂, rfl⟩ := hc
        exact hdone (k.added h₁ h₂).1
    | addTail new head =>
        obtain rfl := Option.some.inj ho
        simp only [change, Option.bind_eq_bind, Option.bind_eq_some_iff, Prod.exists,
          Option.some.injEq] at hc
        obtain ⟨R₁, h₁, r, R₂, h₂, rfl⟩ := hc
        exact hdone (k.added h₁ h₂).2
    | del entry =>
        obtain rfl := Option.some.inj ho
        exact hdone (k.deleted hc).1
    | delInit entry =>
        obtain rfl := Option.some.inj ho
        simp only [change, Option.bind_eq_bind, Option.bind_eq_some_iff, Option.some.injEq] at hc
        obtain ⟨R₁, h₁, rfl⟩ := hc
        exact hdone (k.deleted h₁).2
    | replace old new =>
        obtain rfl := Option.some.inj ho
        simp only [change, Option.bind_eq_bind, Option.bind_eq_some_iff, Prod.exists,
          Option.some.injEq] at hc
        obtain ⟨R₁, h₁, r, R₂, h₂, rfl⟩ := hc
        exact hdone (k.replaced h₁ h₂).1
    | replaceInit old new =>
        obtain rfl := Option.some.inj ho
        simp only [change, Option.bind_eq_bind, Option.bind_eq_some_iff, Prod.exists,
          Option.some.injEq] at hc
        obtain ⟨R₁, h₁, r, R₂, h₂, rfl⟩ := hc
        exact hdone (k.replaced h₁ h₂).2
    | move list head =>
        obtain rfl := Option.some.inj ho
        simp only [change, Option.bind_eq_bind, Option.bind_eq_some_iff, Prod.exists,
          Option.some.injEq] at hc
        obtain ⟨R₁, h₁, r, R₂, h₂, rfl⟩ := hc
        exact hdone (k.moved h₁ h₂).1
    | moveTail list head =>
        obtain rfl := Option.some.inj ho
        simp only [change, Option.bind_eq_bind, Option.bind_eq_some_iff, Prod.exists,
          Option.some.injEq] at hc
        obtain ⟨R₁, h₁, r, R₂, h₂, rfl⟩ := hc
        exact hdone (k.moved h₁ h₂).2
    | rotateLeft head =>
        obtain rfl := Option.some.inj ho
        simp only [change, Option.bind_eq_bind, Option.bind_eq_some_iff, Prod.exists,
          Option.some.injEq] at hc
        obtain ⟨xs, R₁, h₁, rfl⟩ := hc
        exact hdone (k.rotated h₁)
    | cutPosition list head entry =>
        obtain rfl := Option.some.inj ho
        exact hdone (k.cutOff hc)
    | splice list head =>
        obtain rfl := Option.some.inj ho
        exact hdone (k.spliced hc)
    | spliceTail list head =>
        obtain rfl := Option.some.inj ho
        exact hdone (k.spliced hc)
    | spliceInit list head =>
        obtain rfl := Option.some.inj ho
        exact hdone (k.spliced hc)
    | spliceTailInit list head =>
        obtain rfl := Option.some.inj ho
        exact hdone (k.spliced hc)
    | isLast list head =>
        obtain rfl := Option.some.inj hc
        simp only [answer, Option.bind_eq_bind, Option.bind_eq_some_iff, Prod.exists,
          Option.ite_none_right_eq_some, Option.some.injEq] at ho
        obtain ⟨xs, R₁, h₁, hmem, rfl⟩ := ho
        obtain ⟨r, hr, ha⟩ := List.mem_flatten.mp hmem
        have hlast := (k.weave.headed h₁).1.listIsLast_eq (k.weave.circle r hr) ha
        exact ⟨h, by simp [linkedLists, hlast], k.same⟩
    | empty head =>
        obtain rfl := Option.some.inj hc
        simp only [answer, Option.bind_eq_bind, Option.bind_eq_some_iff, Prod.exists,
          Option.some.injEq] at ho
        obtain ⟨r, R₁, h₁, rfl⟩ := ho
        exact ⟨h, by simp [linkedLists, (k.counted h₁).1], k.same⟩
    | emptyCareful head =>
        obtain rfl := Option.some.inj hc
        simp only [answer, Option.bind_eq_bind, Option.bind_eq_some_iff, Prod.exists,
          Option.some.injEq] at ho
        obtain ⟨r, R₁, h₁, rfl⟩ := ho
        exact ⟨h, by simp [linkedLists, (k.counted h₁).2.1], k.same⟩
    | isSingular head =>
        obtain rfl := Option.some.inj hc
        simp only [answer, Option.bind_eq_bind, Option.bind_eq_some_iff, Prod.exists,
          Option.some.injEq] at ho
        obtain ⟨r, R₁, h₁, rfl⟩ := ho
        exact ⟨h, by simp [linkedLists, (k.counted h₁).2.2], k.same⟩
    | forEach head =>
        obtain rfl := Option.some.inj hc
        simp only [answer, Option.bind_eq_bind, Option.bind_eq_some_iff, Prod.exists,
          Option.some.injEq] at ho
        obtain ⟨xs, R₁, h₁, rfl⟩ := ho
        have hwalk : listForEach h (fun x zs => some (zs ++ [x])) head fuel [] = some xs := by
          rw [(k.weave.headed h₁).1.listForEach_eq (k.rounds h₁)]
          exact foldlM_collect xs []
        exact ⟨h, by simp [linkedLists, hwalk], k.same⟩
    | forEachPrev head =>
        obtain rfl := Option.some.inj hc
        simp only [answer, Option.bind_eq_bind, Option.bind_eq_some_iff, Prod.exists,
          Option.some.injEq] at ho
        obtain ⟨xs, R₁, h₁, rfl⟩ := ho
        have hwalk : listForEachPrev h (fun x zs => some (zs ++ [x])) head fuel [] =
            some xs.reverse := by
          rw [(k.weave.headed h₁).1.listForEachPrev_eq (k.rounds h₁)]
          exact foldlM_collect xs.reverse []
        exact ⟨h, by simp [linkedLists, hwalk], k.same⟩

/-- Every run that the sequences take is answered in the same way by the linked lists, from any
memory in which the nodes are allocated, whatever their links contain. Afterwards the memory
holds the sequences. -/
theorem linkedLists_run (hlive : ∀ a, h.Live a) {ops : List (Op ν)} {os : List (Answer ν)}
    (hrun : sequences.run [] ops = some (R, os)) (hfuel : ops.length < fuel) :
    ∃ h', (linkedLists fuel).run h ops = some (h', os) ∧ Weave h' R := by
  have hstart : Keeps fuel ops.length h [] :=
    ⟨⟨hlive, List.nodup_nil, by simp⟩, by simpa using hfuel⟩
  obtain ⟨h', hrun', k⟩ := (linkedLists_simulates fuel).run hstart hrun
  exact ⟨h', hrun', k.weave⟩

/-- Two lists, of which one is cut in two and then spliced into the other. -/
theorem linkedLists_run_splice : ∃ h', (linkedLists 16).run
      (fun _ : Fin 8 => some ⟨none, none⟩)
      [.init 0, .init 1, .addTail 3 0, .addTail 4 0, .add 5 0, .cutPosition 2 0 3, .forEach 2,
        .forEach 0, .addTail 6 1, .spliceTailInit 2 1, .empty 2, .move 6 4, .forEachPrev 0,
        .replace 1 7, .forEach 7] =
      some (h', [.done, .done, .done, .done, .done, .done, .nodes [5, 3], .nodes [4], .done,
        .done, .flag true, .done, .nodes [6, 4], .done, .nodes [5, 3]]) ∧
    Weave h' [[7, 5, 3], [0, 4, 6], [2]] :=
  linkedLists_run (fun _ => by rfl) (by decide) (by decide)

end Runs

end LinkedList

end Infra
