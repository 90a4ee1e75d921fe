import Infra.LinkedList.Basic

/-!
# Rings

`Ring h head xs` says that the nodes `xs` are, in this order, the entries of the
list at `head`: following `next` from the head meets them one after the other
and comes back to the head, and `prev` runs the same cycle backwards. An empty
list is a head that points to itself.

Each operation of `list.h` is given by what it does to the entries: an entry
added at the tail is appended, a deleted entry is erased, and everything outside
the ring is left alone. The operations are total on rings, so no list that
starts as a ring is ever followed through NULL or through freed memory.
-/

namespace Infra

namespace LinkedList

/-- `a` and `b` are neighbours: `b` comes after `a` and `a` before `b`. -/
def Linked {ν : Type*} (h : Heap ν) (a b : ν) : Prop :=
  h.next a = some b ∧ h.prev b = some a

/-- The entries of the list at `head` are `xs`, in this order. -/
structure Ring {ν : Type*} (h : Heap ν) (head : ν) (xs : List ν) : Prop where
  nodup : (head :: xs).Nodup
  chain : (head :: xs ++ [head]).IsChain (Linked h)

instance {ν : Type*} [DecidableEq ν] (h : Heap ν) : DecidableRel (Linked h) :=
  fun a b => inferInstanceAs (Decidable (h.next a = some b ∧ h.prev b = some a))

instance {ν : Type*} [DecidableEq ν] (h : Heap ν) (head : ν) (xs : List ν) :
    Decidable (Ring h head xs) :=
  decidable_of_iff ((head :: xs).Nodup ∧ (head :: xs ++ [head]).IsChain (Linked h))
    ⟨fun r => ⟨r.1, r.2⟩, fun r => ⟨r.nodup, r.chain⟩⟩

/-- A chain survives a change of the relation that is checked on its inner
pairs only. -/
theorem isChain_imp_inner {α : Type*} {R S : α → α → Prop} {l : List α}
    (h : l.IsChain R) (H : ∀ a b, a ∈ l.dropLast → b ∈ l.tail → R a b → S a b) :
    l.IsChain S := by
  rw [List.isChain_iff_forall_rel_of_append_cons_cons] at h ⊢
  rintro a b l₁ l₂ rfl
  refine H a b ?_ ?_ (h rfl)
  · rw [List.dropLast_append_of_ne_nil (by simp)]
    simp
  · cases l₁ <;> simp

namespace Ring

variable {ν : Type*} {h h' : Heap ν} {head : ν} {xs : List ν}

theorem head_notMem (r : Ring h head xs) : head ∉ xs := (List.nodup_cons.mp r.nodup).1

theorem nodup_entries (r : Ring h head xs) : xs.Nodup := (List.nodup_cons.mp r.nodup).2

/-- An entry of a ring occurs in it once. -/
theorem notMem_rest {x : ν} {as bs : List ν} (r : Ring h head (as ++ x :: bs)) :
    x ∉ head :: (as ++ bs) := by
  have hd := r.nodup
  rw [← List.cons_append] at hd
  exact (List.nodup_cons.mp (List.nodup_middle.mp hd)).1

/-- Every node of a ring is allocated. -/
theorem live (r : Ring h head xs) {a : ν} (ha : a ∈ head :: xs) : h.Live a := by
  obtain ⟨as, bs, e⟩ := List.append_of_mem ha
  have hc := r.chain
  rw [e] at hc
  cases bs with
  | nil =>
      rw [List.append_assoc] at hc
      exact Heap.Live.of_next (List.isChain_append_cons_cons.mp hc).2.1.1
  | cons b bs =>
      rw [List.append_assoc] at hc
      exact Heap.Live.of_next (List.isChain_append_cons_cons.mp hc).2.1.1

/-- A ring only depends on the links of its own nodes. -/
theorem congr (r : Ring h head xs) (e : ∀ a ∈ head :: xs, h' a = h a) :
    Ring h' head xs := by
  refine ⟨r.nodup, isChain_imp_inner r.chain ?_⟩
  rintro a b ha hb ⟨hn, hp⟩
  have ha' : a ∈ head :: xs := by rwa [List.dropLast_concat] at ha
  have hb' : b ∈ head :: xs := by simpa [or_comm] using hb
  exact ⟨(Heap.next_congr (e a ha')).trans hn, (Heap.prev_congr (e b hb')).trans hp⟩

theorem of_sameOutside {S : ν → Prop} (r : Ring h head xs) (s : SameOutside h h' S)
    (hS : ∀ a ∈ head :: xs, ¬ S a) : Ring h' head xs :=
  r.congr fun a ha => s.eq a (hS a ha)

/-- A ring of no entries is a head that points to itself. -/
theorem nil_iff : Ring h head [] ↔ h.next head = some head ∧ h.prev head = some head := by
  constructor
  · intro r
    simpa [Linked] using r.chain
  · intro hl
    exact ⟨by simp, by simpa [Linked] using hl⟩

/-- `next` of the head is the first entry. -/
theorem next_head_cons {x : ν} (r : Ring h head (x :: xs)) : h.next head = some x := by
  have hc := r.chain
  simp only [List.cons_append, List.isChain_cons_cons] at hc
  exact hc.1.1

/-- `next` of an entry is the entry after it. -/
theorem next_of_cons {x y : ν} {as : List ν} (r : Ring h head (as ++ x :: y :: xs)) :
    h.next x = some y := by
  have hc := r.chain
  have e : head :: (as ++ x :: y :: xs) ++ [head] =
      (head :: as) ++ x :: y :: (xs ++ [head]) := by simp
  rw [e] at hc
  exact (List.isChain_append_cons_cons.mp hc).2.1.1

/-- `next` of the last entry is the head. -/
theorem next_of_last {x : ν} {as : List ν} (r : Ring h head (as ++ [x])) :
    h.next x = some head := by
  have hc := r.chain
  have e : head :: (as ++ [x]) ++ [head] = (head :: as) ++ x :: head :: [] := by simp
  rw [e] at hc
  exact (List.isChain_append_cons_cons.mp hc).2.1.1

/-- An entry of a ring does not point to itself. -/
theorem next_ne_self {x : ν} (r : Ring h head xs) (hx : x ∈ xs) :
    ∃ y, h.next x = some y ∧ y ≠ x := by
  obtain ⟨as, bs, rfl⟩ := List.append_of_mem hx
  have hnot := r.notMem_rest
  cases bs with
  | nil => exact ⟨head, r.next_of_last, fun e => hnot (by simp [e])⟩
  | cons y bs => exact ⟨y, r.next_of_cons, fun e => hnot (by simp [e])⟩

/-- `prev` of the head is the last node of the cycle. -/
theorem prev_head {ys : List ν} {last : ν} (r : Ring h head xs)
    (e : head :: xs = ys ++ [last]) : h.prev head = some last := by
  have hc := r.chain
  rw [e, List.append_assoc] at hc
  exact (List.isChain_append_cons_cons.mp hc).2.1.2

section Operations

variable [DecidableEq ν]

theorem of_initListHead (a : ν) (ha : h.Live a) :
    ∃ h', initListHead h a = some h' ∧ SameOutside h h' (· = a) ∧ Ring h' a [] := by
  obtain ⟨h', e, s, n, p⟩ := initListHead_spec h a ha
  exact ⟨h', e, s, nil_iff.mpr ⟨by simp [n], by simp [p]⟩⟩

theorem mallocHeads_eq {heads : ℕ → ν} {n : ℕ} {a : ν}
    (ha : ∀ i, i < n → a ≠ heads i) : mallocHeads h heads n a = h a := by
  induction n with
  | zero => rfl
  | succ n ih =>
      rw [mallocHeads, Heap.alloc, Function.update_of_ne (ha n (by omega))]
      exact ih fun i hi => ha i (by omega)

theorem mallocHeads_live {heads : ℕ → ν} {n i : ℕ} (hi : i < n) :
    (mallocHeads h heads n).Live (heads i) := by
  induction n with
  | zero => omega
  | succ n ih =>
      by_cases hin : heads i = heads n
      · simp [Heap.Live, mallocHeads, Heap.alloc, hin]
      · have hne : i ≠ n := fun e => hin (e ▸ rfl)
        simpa [Heap.Live, mallocHeads, Heap.alloc, Function.update_of_ne hin] using ih (by omega)

/-- The loop over an array of allocated heads makes each of them an empty
list. -/
theorem of_initHeads {heads : ℕ → ν} {n : ℕ} (hinj : Function.Injective heads)
    (hl : ∀ i, i < n → h.Live (heads i)) :
    ∃ h', initHeads h heads n = some h' ∧ SameOutside h h' (fun a => ∃ i, i < n ∧ a = heads i) ∧
      ∀ i, i < n → Ring h' (heads i) [] := by
  induction n with
  | zero => exact ⟨h, rfl, ⟨fun _ => Iff.rfl, fun _ _ => rfl⟩, by simp⟩
  | succ n ih =>
      obtain ⟨h₁, e₁, s₁, r₁⟩ := ih fun i hi => hl i (by omega)
      obtain ⟨h₂, e₂, s₂, r₂⟩ := of_initListHead (h := h₁) (heads n)
        ((s₁.live _).mpr (hl n (by omega)))
      refine ⟨h₂, by simp [initHeads, e₁, e₂], ?_, ?_⟩
      · refine (s₁.mono ?_).trans (s₂.mono ?_)
        · rintro a ⟨i, hi, rfl⟩
          exact ⟨i, by omega, rfl⟩
        · rintro a rfl
          exact ⟨n, by omega, rfl⟩
      · intro i hi
        by_cases hin : i = n
        · exact hin ▸ r₂
        · apply (r₁ i (by omega)).of_sameOutside s₂
          intro a ha
          rw [List.mem_singleton.mp ha]
          exact fun e => hin (hinj e)

/-- `list_empty` tells whether the ring has entries. -/
theorem listEmpty_eq (r : Ring h head xs) : listEmpty h head = some xs.isEmpty := by
  have hl := r.live (List.mem_cons_self)
  obtain ⟨c, hc⟩ := Option.isSome_iff_exists.mp hl
  cases xs with
  | nil =>
      have hn := (nil_iff.mp r).1
      simp only [Heap.next, hc, Option.bind_some] at hn
      simp [listEmpty, hc, hn]
  | cons x xs =>
      have hn := r.next_head_cons
      simp only [Heap.next, hc, Option.bind_some] at hn
      have hx : x ≠ head := fun e => r.head_notMem (by simp [e])
      simp [listEmpty, hc, hn, hx]

/-- `list_add_tail` appends the new node. -/
theorem listAddTail_spec (r : Ring h head xs) {x : ν} (hx : h.Live x)
    (hnew : x ∉ head :: xs) :
    ∃ h', listAddTail h x head = some h' ∧ Ring h' head (xs ++ [x]) ∧
      SameOutside h h' (fun a => a = x ∨ a ∈ head :: xs) := by
  obtain ⟨ys, last, e⟩ : ∃ ys last, head :: xs = ys ++ [last] :=
    ⟨_, _, (List.dropLast_append_getLast (List.cons_ne_nil head xs)).symm⟩
  have hlast : last ∈ head :: xs := by simp [e]
  have hp := r.prev_head e
  obtain ⟨h', e', s, hn', hp'⟩ := listAddBetween_spec h x last head hx
    (r.live hlast) (r.live List.mem_cons_self)
  refine ⟨h', by simp [listAddTail, hp, e'], ⟨?_, ?_⟩, s.mono ?_⟩
  · have hd := r.nodup
    rw [← List.cons_append, List.nodup_append]
    exact ⟨hd, by simp, by rintro a ha b hb rfl; simp at hb; exact hnew (hb ▸ ha)⟩
  · have hinner : (head :: xs).IsChain (Linked h') := by
      refine isChain_imp_inner r.chain.left_of_append ?_
      rintro a b ha hb ⟨hna, hpb⟩
      have hal : a ≠ last := by
        rintro rfl
        have hd := r.nodup
        rw [e] at ha hd
        rw [List.dropLast_concat] at ha
        exact (List.nodup_append.mp hd).2.2 a ha a (by simp) rfl
      have hax : a ≠ x := fun h => hnew (h ▸ List.dropLast_subset _ ha)
      have hbh : b ≠ head := fun h => r.head_notMem (h ▸ hb)
      have hbx : b ≠ x := fun h => hnew (h ▸ List.mem_of_mem_tail hb)
      simp [Linked, hn', hp', hal, hax, hbh, hbx, hna, hpb]
    have hlx : last ≠ x := fun h => hnew (h ▸ hlast)
    have hhx : head ≠ x := fun h => hnew (h ▸ List.mem_cons_self)
    have hends : Linked h' last x ∧ Linked h' x head := by
      simp [Linked, hn', hp', hlx.symm, hhx]
    have e₂ : head :: (xs ++ [x]) ++ [head] = ys ++ last :: x :: [head] := by
      rw [show head :: (xs ++ [x]) ++ [head] = (head :: xs) ++ [x, head] by simp, e]
      simp
    rw [e₂, List.isChain_append_cons_cons]
    exact ⟨e ▸ hinner, hends.1, by simpa using hends.2⟩
  · rintro a (rfl | rfl | rfl)
    · exact Or.inl rfl
    · exact Or.inr hlast
    · exact Or.inr List.mem_cons_self

/-- `__list_del_entry` takes the entry out of its ring. -/
theorem listDelEntry_spec {x : ν} {as bs : List ν} (r : Ring h head (as ++ x :: bs)) :
    ∃ h', listDelEntry h x = some h' ∧ Ring h' head (as ++ bs) ∧
      SameOutside h h' (fun a => a ∈ head :: (as ++ bs)) := by
  obtain ⟨ys, p, ep⟩ : ∃ ys p, head :: as = ys ++ [p] :=
    ⟨_, _, (List.dropLast_append_getLast (List.cons_ne_nil head as)).symm⟩
  obtain ⟨n, zs, en⟩ : ∃ n zs, bs ++ [head] = n :: zs :=
    List.exists_cons_of_ne_nil (by simp)
  have hd := r.nodup
  have hc := r.chain
  have ec : head :: (as ++ x :: bs) ++ [head] = ys ++ p :: x :: (n :: zs) := by
    rw [← en, show head :: (as ++ x :: bs) ++ [head] = (head :: as) ++ x :: (bs ++ [head]) by
      simp, ep]
    simp
  rw [ec, List.isChain_append_cons_cons, List.isChain_cons_cons] at hc
  obtain ⟨hleft, hpx, hxn, hright⟩ := hc
  have hpm : p ∈ head :: as := by simp [ep]
  have hnm : n ∈ bs ++ [head] := by simp [en]
  obtain ⟨h', e', s, hn', hp'⟩ := listDelBetween_spec h p n (Heap.Live.of_next hpx.1)
    (Heap.Live.of_prev hxn.2)
  rw [← List.cons_append, List.nodup_append] at hd
  obtain ⟨hda, hdx, hdis⟩ := hd
  refine ⟨h', by simp [listDelEntry, hpx.2, hxn.1, e'], ⟨?_, ?_⟩, s.mono ?_⟩
  · rw [← List.cons_append, List.nodup_append]
    exact ⟨hda, (List.nodup_cons.mp hdx).2, fun a ha b hb => hdis a ha b (by simp [hb])⟩
  · have e₂ : head :: (as ++ bs) ++ [head] = ys ++ p :: (n :: zs) := by
      rw [← en, show head :: (as ++ bs) ++ [head] = (head :: as) ++ (bs ++ [head]) by simp, ep]
      simp
    have hleft' : (ys ++ [p]).IsChain (Linked h') := by
      refine isChain_imp_inner hleft ?_
      rintro a b ha hb ⟨hna, hpb⟩
      have hap : a ≠ p := by
        rintro rfl
        rw [List.dropLast_concat] at ha
        rw [ep] at hda
        exact (List.nodup_append.mp hda).2.2 a ha a (by simp) rfl
      have hbn : b ≠ n := by
        rintro rfl
        rw [← ep, List.tail_cons] at hb
        rcases List.mem_append.mp hnm with hm | hm
        · exact hdis b (by simp [hb]) b (by simp [hm]) rfl
        · simp only [List.mem_singleton] at hm
          exact (List.nodup_cons.mp hda).1 (hm ▸ hb)
      simp [Linked, hn', hp', hap, hbn, hna, hpb]
    have hright' : (n :: zs).IsChain (Linked h') := by
      refine isChain_imp_inner hright ?_
      rintro a b ha hb ⟨hna, hpb⟩
      rw [← en, List.dropLast_concat] at ha
      have hap : a ≠ p := fun h => hdis p hpm a (by simp [ha]) h.symm
      have hbn : b ≠ n := by
        rintro rfl
        have hnd : (b :: zs).Nodup := by
          rw [← en, List.nodup_append]
          refine ⟨(List.nodup_cons.mp hdx).2, by simp, ?_⟩
          intro c hc d hd
          simp only [List.mem_singleton] at hd
          exact fun h => hdis head (by simp) c (by simp [hc]) (by rw [h, hd])
        exact (List.nodup_cons.mp hnd).1 hb
      simp [Linked, hn', hp', hap, hbn, hna, hpb]
    rw [e₂, List.isChain_split]
    exact ⟨hleft', List.isChain_cons_cons.mpr ⟨by simp [Linked, hn', hp'], hright'⟩⟩
  · rintro a (rfl | rfl)
    · have := List.mem_cons.mp hpm
      simp only [List.mem_cons, List.mem_append]
      tauto
    · simp only [List.mem_append, List.mem_singleton] at hnm
      simp only [List.mem_cons, List.mem_append]
      tauto

/-- `list_del` takes the entry out of its ring. -/
theorem listDel_spec {x : ν} {as bs : List ν} (r : Ring h head (as ++ x :: bs)) :
    ∃ h', listDel h x = some h' ∧ Ring h' head (as ++ bs) ∧
      SameOutside h h' (fun a => a ∈ head :: (as ++ x :: bs)) := by
  obtain ⟨h₁, e₁, r₁, s₁⟩ := r.listDelEntry_spec
  have hx := r.notMem_rest
  obtain ⟨h₂, e₂, s₂⟩ := store_spec h₁ x ⟨none, none⟩
    ((s₁.live x).mpr (r.live (by simp)))
  refine ⟨h₂, by simp [listDel, e₁, e₂], r₁.of_sameOutside s₂ ?_, ?_⟩
  · rintro a ha rfl
    exact hx ha
  · refine (s₁.mono ?_).trans (s₂.mono ?_)
    · intro a ha
      simp only [List.mem_cons, List.mem_append] at ha ⊢
      tauto
    · rintro a rfl
      simp

/-- `list_del_init` takes the entry out of its ring and leaves it as a list of
its own. -/
theorem listDelInit_spec {x : ν} {as bs : List ν} (r : Ring h head (as ++ x :: bs)) :
    ∃ h', listDelInit h x = some h' ∧ Ring h' head (as ++ bs) ∧ Ring h' x [] ∧
      SameOutside h h' (fun a => a ∈ head :: (as ++ x :: bs)) := by
  obtain ⟨h₁, e₁, r₁, s₁⟩ := r.listDelEntry_spec
  have hx := r.notMem_rest
  obtain ⟨h₂, e₂, s₂, r₂⟩ := of_initListHead (h := h₁) x
    ((s₁.live x).mpr (r.live (by simp)))
  refine ⟨h₂, by simp [listDelInit, e₁, e₂], r₁.of_sameOutside s₂ ?_, r₂, ?_⟩
  · rintro a ha rfl
    exact hx ha
  · refine (s₁.mono ?_).trans (s₂.mono ?_)
    · intro a ha
      simp only [List.mem_cons, List.mem_append] at ha ⊢
      tauto
    · rintro a rfl
      simp

end Operations

end Ring

end LinkedList

end Infra
