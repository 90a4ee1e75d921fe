import Infra.Foundation.Sequences
import Infra.LinkedList.Splice

/-!
# All lists of a memory

`Weave h R` says that the memory holds the family `R` of sequences: each of them is
a circle of nodes, the one that a list starts from first, and no node is in two of
them. The nodes in no sequence may contain anything. Each operation of `list.h` is
an operation of the family.
-/

namespace Infra

namespace LinkedList

open Infra.Sequences

/-- The memory holds the sequences `R`, each as a circle. -/
structure Weave {ν : Type} (h : Heap ν) (R : List (List ν)) : Prop where
  live : ∀ a, h.Live a
  nodup : R.flatten.Nodup
  circle : ∀ r ∈ R, Circle h r

section Family

variable {ν : Type} {h h' : Heap ν} {R R' : List (List ν)} {r : List ν} {a : ν}

theorem Weave.perm (w : Weave h R) (hp : R.Perm R') : Weave h R' :=
  ⟨w.live, hp.flatten.nodup_iff.mp w.nodup, fun r hr => w.circle r (hp.mem_iff.mpr hr)⟩

theorem weave_cons :
    Weave h (r :: R) ↔ Circle h r ∧ (∀ a ∈ r, a ∉ R.flatten) ∧ Weave h R := by
  constructor
  · rintro ⟨hl, hnd, hc⟩
    rw [List.flatten_cons, List.nodup_append] at hnd
    exact ⟨hc r List.mem_cons_self, fun a ha hR => hnd.2.2 a ha a hR rfl, hl, hnd.2.1,
      fun s hs => hc s (List.mem_cons_of_mem r hs)⟩
  · rintro ⟨hr, hdis, hl, hnd, hc⟩
    refine ⟨hl, ?_, fun s hs => ?_⟩
    · rw [List.flatten_cons, List.nodup_append]
      exact ⟨hr.nodup, hnd, fun a ha b hb e => hdis a ha (e ▸ hb)⟩
    · rcases List.mem_cons.mp hs with rfl | hs
      exacts [hr, hc s hs]

/-- Stores to other nodes leave a family alone. -/
theorem Weave.of_sameOutside {S : ν → Prop} (w : Weave h R) (s : SameOutside h h' S)
    (hS : ∀ a, S a → a ∉ R.flatten) : Weave h' R :=
  ⟨fun a => (s.live a).mpr (w.live a), w.nodup, fun r hr =>
    (w.circle r hr).congr fun a ha =>
      s.eq a fun hSa => hS a hSa (List.mem_flatten.mpr ⟨r, hr, ha⟩)⟩

/-- One sequence is changed, and the others are left alone. -/
theorem Weave.put {S : ν → Prop} (w : Weave h R) (hc : Circle h' r) (s : SameOutside h h' S)
    (hS : ∀ b, S b → b ∉ R.flatten) (hr : ∀ b ∈ r, b ∉ R.flatten) : Weave h' (r :: R) :=
  weave_cons.mpr ⟨hc, hr, w.of_sameOutside s hS⟩

variable [DecidableEq ν] {xs : List ν}

theorem Weave.owner (w : Weave h R) (ho : owner a R = some (r, R')) :
    Circle h r ∧ (∀ b ∈ r, b ∉ R'.flatten) ∧ Weave h R' ∧ a ∈ r := by
  obtain ⟨hp, ha⟩ := owner_eq_some ho
  obtain ⟨hc, hdis, hw⟩ := weave_cons.mp (w.perm hp)
  exact ⟨hc, hdis, hw, ha⟩

theorem Weave.headed (w : Weave h R) (ho : headed a R = some (xs, R')) :
    Ring h a xs ∧ (∀ b ∈ a :: xs, b ∉ R'.flatten) ∧ Weave h R' :=
  weave_cons.mp (w.perm (headed_eq_some ho))

/-- A forgotten node is in no sequence any more. -/
theorem Weave.forget (w : Weave h R) (hf : forget a R = some R') :
    Weave h R' ∧ a ∉ R'.flatten := by
  rcases forget_eq_some hf with ⟨rfl, ha⟩ | ⟨xs, hp⟩
  · exact ⟨w, ha⟩
  · obtain ⟨-, hdis, hw⟩ := weave_cons.mp (w.perm hp)
    exact ⟨hw, hdis a List.mem_cons_self⟩

end Family

section Circles

variable {ν : Type} {h : Heap ν} {p : ν} {r ys : List ν}

/-- A circle, from one of its nodes on. -/
theorem Circle.from_node (c : Circle h r) (hp : p ∈ r) :
    ∃ as bs, r = as ++ p :: bs ∧ p ∉ as ∧ Ring h p (bs ++ as) := by
  obtain ⟨as, bs, rfl, has⟩ := List.eq_append_cons_of_mem hp
  exact ⟨as, bs, rfl, has, c.turn⟩

variable [DecidableEq ν]

/-- What is inserted behind a node. -/
theorem circle_insertAfter {as bs : List ν} (hp : p ∉ as) :
    Circle h (insertAfter p ys (as ++ p :: bs)) ↔ Ring h p (ys ++ (bs ++ as)) := by
  rw [insertAfter_append hp]
  constructor
  · intro c
    have := c.turn
    simpa using this
  · intro c
    have : Circle h ((p :: (ys ++ bs)) ++ as) := by simpa using c
    exact this.turn

/-- What is inserted before a node. -/
theorem circle_insertBefore {as bs : List ν} (hp : p ∉ as) :
    Circle h (insertBefore p ys (as ++ p :: bs)) ↔ Ring h p (bs ++ as ++ ys) := by
  by_cases has : as = []
  · subst has
    rw [List.nil_append, insertBefore_cons]
    simp
  · rw [insertBefore_append hp has]
    constructor
    · intro c
      rw [← List.append_assoc] at c
      have := c.turn
      simpa using this
    · intro c
      have : Circle h ((p :: bs) ++ (as ++ ys)) := by simpa using c
      simpa using this.turn

end Circles

section Operations

variable {ν : Type} [DecidableEq ν] {h : Heap ν} {R R' : List (List ν)} {r xs : List ν}
  {a e p new list : ν}

namespace Weave

theorem initListHead_spec (w : Weave h R) (ha : a ∉ R.flatten) :
    ∃ h', initListHead h a = some h' ∧ Weave h' ([a] :: R) := by
  obtain ⟨h', e, s, r⟩ := Ring.of_initListHead (h := h) a (w.live a)
  refine ⟨h', e, weave_cons.mpr ⟨r, by simpa using ha, w.of_sameOutside s ?_⟩⟩
  rintro b rfl
  exact ha

/-- `list_add` behind any node. -/
theorem listAdd_spec (w : Weave h R) (hnew : new ∉ R.flatten)
    (ho : Sequences.owner p R = some (r, R')) :
    ∃ h', listAdd h new p = some h' ∧ Weave h' (insertAfter p [new] r :: R') := by
  obtain ⟨hc, hdis, hw, hp⟩ := w.owner ho
  rw [mem_flatten_owner ho, not_or] at hnew
  obtain ⟨as, bs, rfl, has, ring⟩ := hc.from_node hp
  have hmem : ∀ b, b = new ∨ b ∈ as ++ p :: bs → b ∉ R'.flatten := by
    rintro b (rfl | hb)
    exacts [hnew.2, hdis b hb]
  obtain ⟨h', e, ring', s⟩ := ring.listAdd_spec (w.live new) (by grind)
  refine ⟨h', e, hw.put ((circle_insertAfter has).mpr ring') s (by grind) fun b hb => ?_⟩
  exact hmem b (by simpa using (perm_insertAfter hp).mem_iff.mp hb)

/-- `list_add_tail` before any node. -/
theorem listAddTail_spec (w : Weave h R) (hnew : new ∉ R.flatten)
    (ho : Sequences.owner p R = some (r, R')) :
    ∃ h', listAddTail h new p = some h' ∧ Weave h' (insertBefore p [new] r :: R') := by
  obtain ⟨hc, hdis, hw, hp⟩ := w.owner ho
  rw [mem_flatten_owner ho, not_or] at hnew
  obtain ⟨as, bs, rfl, has, ring⟩ := hc.from_node hp
  have hmem : ∀ b, b = new ∨ b ∈ as ++ p :: bs → b ∉ R'.flatten := by
    rintro b (rfl | hb)
    exacts [hnew.2, hdis b hb]
  obtain ⟨h', e, ring', s⟩ := ring.listAddTail_spec (w.live new) (by grind)
  refine ⟨h', e, hw.put ((circle_insertBefore has).mpr ring') s (by grind) fun b hb => ?_⟩
  exact hmem b (by simpa using (perm_insertBefore hp).mem_iff.mp hb)

/-- `list_replace` of any node, the head of a list included. -/
theorem listReplace_spec (w : Weave h R) (hnew : new ∉ R.flatten)
    (ho : Sequences.owner p R = some (r, R')) :
    ∃ h', listReplace h p new = some h' ∧
      Weave h' (r.map (fun x => if x = p then new else x) :: R') ∧
      p ∉ (r.map (fun x => if x = p then new else x) :: R').flatten := by
  obtain ⟨hc, hdis, hw, hp⟩ := w.owner ho
  rw [mem_flatten_owner ho, not_or] at hnew
  have hnp : new ≠ p := fun e => hnew.1 (e ▸ hp)
  obtain ⟨as, bs, rfl, has, ring⟩ := hc.from_node hp
  have hbs : p ∉ bs := fun hm => ring.head_notMem (List.mem_append_left as hm)
  have hmap : ∀ zs : List ν, p ∉ zs → zs.map (fun x => if x = p then new else x) = zs := by
    intro zs hzs
    refine (List.map_congr_left fun b hb => if_neg ?_).trans (List.map_id zs)
    rintro rfl
    exact hzs hb
  have hlist : (as ++ p :: bs).map (fun x => if x = p then new else x) = as ++ new :: bs := by
    rw [List.map_append, List.map_cons, if_pos rfl, hmap as has, hmap bs hbs]
  obtain ⟨h', e, ring', s⟩ := ring.listReplace_spec (w.live new) (by grind)
  rw [hlist]
  have hturn : Circle h' (as ++ new :: bs) :=
    Circle.turn (show Circle h' ((new :: bs) ++ as) from ring')
  refine ⟨h', e, hw.put hturn s (by grind) (by grind), ?_⟩
  have hpR := hdis p hp
  simp only [List.flatten_cons, List.mem_append, List.mem_cons]
  tauto

/-- `__list_del_entry` of an entry of a list, or of a list of its own. -/
theorem listDelEntry_spec (w : Weave h R) (hr : Sequences.remove a R = some R') :
    ∃ h', listDelEntry h a = some h' ∧ Weave h' R' ∧ a ∉ R'.flatten := by
  rcases remove_eq_some hr with hp | ⟨k, as, bs, S, hp, rfl⟩
  · obtain ⟨hc, hdis, hw⟩ := weave_cons.mp (w.perm hp)
    obtain ⟨hn, hpv⟩ := Ring.nil_iff.mp hc
    have ha := hdis a List.mem_cons_self
    obtain ⟨h', e, s, -⟩ := listDelBetween_spec h a a (w.live a) (w.live a)
    refine ⟨h', by simp [listDelEntry, hn, hpv, e], hw.of_sameOutside s ?_, ha⟩
    rintro b (rfl | rfl) <;> exact ha
  · obtain ⟨hc, hdis, hw⟩ := weave_cons.mp (w.perm hp)
    have hnot := Ring.notMem_rest hc
    obtain ⟨h', e, ring', s⟩ := Ring.listDelEntry_spec hc
    have hdis' : ∀ b ∈ k :: (as ++ bs), b ∉ S.flatten := fun b hb => hdis b (by grind)
    refine ⟨h', e, hw.put ring' s hdis' hdis', ?_⟩
    have haS := hdis a (by simp)
    simp only [List.flatten_cons, List.mem_append]
    tauto

/-- `__list_splice` behind any node. -/
theorem listSpliceBetween_after (w : Weave h R) (hl : Sequences.headed list R = some (xs, R'))
    (hxs : xs ≠ []) {S : List (List ν)} (ho : Sequences.owner p R' = some (r, S)) :
    ∃ next h', h.next p = some next ∧ listSpliceBetween h list p next = some h' ∧
      Weave h' (insertAfter p xs r :: S) ∧ list ∉ (insertAfter p xs r :: S).flatten := by
  obtain ⟨hlist, hldis, hw'⟩ := w.headed hl
  obtain ⟨hc, hdis, hw, hp⟩ := hw'.owner ho
  have hmem : ∀ b ∈ list :: xs, b ∉ r ∧ b ∉ S.flatten := fun b hb =>
    not_or.mp ((mem_flatten_owner ho).not.mp (hldis b hb))
  obtain ⟨as, bs, rfl, has, ring⟩ := hc.from_node hp
  obtain ⟨next, -, hnext⟩ := ring.exists_next
  obtain ⟨h', e, ring', s⟩ := hlist.listSpliceBetween_spec ring hxs (by grind) hnext
  have hins : ∀ b, b ∈ insertAfter p xs (as ++ p :: bs) ↔ b ∈ xs ∨ b ∈ as ++ p :: bs := by
    intro b
    rw [(perm_insertAfter hp).mem_iff, List.mem_append]
  refine ⟨next, h', hnext, e, hw.put ((circle_insertAfter has).mpr ring') s (by grind)
    (by grind), ?_⟩
  have hnot := hlist.head_notMem
  have hln := hmem list List.mem_cons_self
  simp only [List.flatten_cons, List.mem_append, hins]
  grind

/-- `__list_splice` before any node. -/
theorem listSpliceBetween_before (w : Weave h R) (hl : Sequences.headed list R = some (xs, R'))
    (hxs : xs ≠ []) {S : List (List ν)} (ho : Sequences.owner p R' = some (r, S)) :
    ∃ prev h', h.prev p = some prev ∧ listSpliceBetween h list prev p = some h' ∧
      Weave h' (insertBefore p xs r :: S) ∧ list ∉ (insertBefore p xs r :: S).flatten := by
  obtain ⟨hlist, hldis, hw'⟩ := w.headed hl
  obtain ⟨hc, hdis, hw, hp⟩ := hw'.owner ho
  have hmem : ∀ b ∈ list :: xs, b ∉ r ∧ b ∉ S.flatten := fun b hb =>
    not_or.mp ((mem_flatten_owner ho).not.mp (hldis b hb))
  obtain ⟨as, bs, rfl, has, ring⟩ := hc.from_node hp
  -- the circle from the node before `p` on
  obtain ⟨zs, q, hq⟩ : ∃ zs q, p :: (bs ++ as) = zs ++ [q] :=
    ⟨_, _, (List.dropLast_append_getLast (List.cons_ne_nil p _)).symm⟩
  have hprev := ring.prev_head hq
  have hzq : Circle h (zs ++ [q]) := hq ▸ ring
  have ringq : Ring h q zs := hzq.turn
  have hnext : h.next q = some p := by
    obtain ⟨n, hn, hqn⟩ := ringq.exists_next
    rw [← hq] at hn
    rw [hqn, ← hn]
    rfl
  have hzs : ∀ b, b ∈ q :: zs ↔ b ∈ as ++ p :: bs := by
    intro b
    have : b ∈ p :: (bs ++ as) ↔ b ∈ zs ++ [q] := by rw [hq]
    grind
  obtain ⟨h', e, ring', s⟩ := hlist.listSpliceBetween_spec ringq hxs
    (fun b hb => (hzs b).not.mpr (hmem b (List.mem_cons_of_mem _ hb)).1) hnext
  have hc' : Circle h' (insertBefore p xs (as ++ p :: bs)) := by
    rw [circle_insertBefore has]
    have h₁ : Circle h' ((xs ++ zs) ++ [q]) :=
      Circle.turn (show Circle h' ([q] ++ (xs ++ zs)) from ring')
    rw [List.append_assoc, ← hq] at h₁
    exact h₁.turn
  have hins : ∀ b, b ∈ insertBefore p xs (as ++ p :: bs) ↔ b ∈ xs ∨ b ∈ as ++ p :: bs := by
    intro b
    rw [(perm_insertBefore hp).mem_iff, List.mem_append]
  refine ⟨q, h', hprev, e, hw.put hc' s (by grind) (by grind), ?_⟩
  have hnot := hlist.head_notMem
  have hln := hmem list List.mem_cons_self
  simp only [List.flatten_cons, List.mem_append, hins]
  grind

/-- `__list_cut_position` at an entry of a list. -/
theorem listCutAt_spec (w : Weave h R) {head : ν} {as bs : List ν}
    (hh : Sequences.headed head R = some (as ++ e :: bs, R'))
    (hlist : list ∉ head :: (as ++ e :: bs)) {S : List (List ν)}
    (hf : Sequences.forget list R' = some S) :
    ∃ h', listCutAt h list head e = some h' ∧
      Weave h' ((list :: (as ++ [e])) :: (head :: bs) :: S) := by
  obtain ⟨ring, hdis, hw'⟩ := w.headed hh
  obtain ⟨hw, hlS⟩ := hw'.forget hf
  have hmem : ∀ b ∈ head :: (as ++ e :: bs), b ∉ S.flatten := fun b hb hS =>
    hdis b hb (mem_flatten_forget hf hS)
  obtain ⟨h', e', ring₁, ring₂, s⟩ := ring.listCutAt_spec (w.live list) hlist
  have hnd := ring.nodup
  have hput : Weave h' ((head :: bs) :: S) := hw.put ring₂ s (by grind) (by grind)
  refine ⟨h', e', weave_cons.mpr ⟨ring₁, fun b hb => ?_, hput⟩⟩
  rw [List.flatten_cons, List.mem_append, not_or]
  grind

end Weave

end Operations

end LinkedList

end Infra
