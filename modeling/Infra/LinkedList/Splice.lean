import Infra.LinkedList.Cycle
import Mathlib.Data.List.Rotate

/-!
# Adding, replacing, moving, cutting and splicing

What the remaining operations of `list.h` do to rings. Each of them takes a ring
apart into its head and the part that goes round from there, stores the links where
two parts meet, and leaves the links within a part alone.
-/

namespace Infra

namespace LinkedList

section Views

variable {ν : Type} [DecidableEq ν] {h : Heap ν}

/-- `list_replace` of a node that is linked to others. -/
theorem listReplace_view {old new next prev : ν} (hn : h.next old = some next)
    (hp : h.prev old = some prev) (hnew : h.Live new) (hnext : h.Live next)
    (hprev : h.Live prev) (hself : next ≠ old) :
    ∃ h', listReplace h old new = some h' ∧
      SameOutside h h' (fun a => a = new ∨ a = next ∨ a = prev) ∧
      h'.next = Function.update (Function.update h.next new (some next)) prev (some new) ∧
      h'.prev = Function.update (Function.update h.prev next (some new)) new (some prev) := by
  obtain ⟨h₁, e₁, s₁, n₁, p₁⟩ := setNext_spec h new next hnew
  obtain ⟨h₂, e₂, s₂, n₂, p₂⟩ := setPrev_spec h₁ next new ((s₁.live next).mpr hnext)
  have s₁₂ := (s₁.mono (T := fun a => a = new ∨ a = next) (by tauto)).trans
    (s₂.mono (by tauto))
  obtain ⟨h₃, e₃, s₃, n₃, p₃⟩ := setPrev_spec h₂ new prev ((s₁₂.live new).mpr hnew)
  have s₁₃ := s₁₂.trans (s₃.mono (by tauto))
  obtain ⟨h₄, e₄, s₄, n₄, p₄⟩ := setNext_spec h₃ prev new ((s₁₃.live prev).mpr hprev)
  have hread : h₁.next new = some next := by simp [n₁]
  have hold : h₂.prev old = some prev := by
    rw [p₂, Function.update_of_ne hself.symm, p₁, hp]
  have hread' : h₃.prev new = some prev := by simp [p₃]
  refine ⟨h₄, by simp [listReplace, hn, e₁, hread, e₂, hold, e₃, hread', e₄],
    (s₁₃.mono (by tauto)).trans (s₄.mono (by tauto)), ?_, ?_⟩
  · rw [n₄, n₃, n₂, n₁]
  · rw [p₄, p₃, p₂, p₁]

/-- `list_replace` of a node that is a list of its own: `old` is read again after its `prev`
was stored to, and so `new` comes to point to itself. -/
theorem listReplace_view_self {old new : ν} (hn : h.next old = some old) (hold : h.Live old)
    (hnew : h.Live new) :
    ∃ h', listReplace h old new = some h' ∧ SameOutside h h' (fun a => a = new ∨ a = old) ∧
      h'.next new = some new ∧ h'.prev new = some new := by
  obtain ⟨h₁, e₁, s₁, n₁, p₁⟩ := setNext_spec h new old hnew
  obtain ⟨h₂, e₂, s₂, n₂, p₂⟩ := setPrev_spec h₁ old new ((s₁.live old).mpr hold)
  have s₁₂ := (s₁.mono (T := fun a => a = new ∨ a = old) (by tauto)).trans (s₂.mono (by tauto))
  obtain ⟨h₃, e₃, s₃, n₃, p₃⟩ := setPrev_spec h₂ new new ((s₁₂.live new).mpr hnew)
  have s₁₃ := s₁₂.trans (s₃.mono (by tauto))
  obtain ⟨h₄, e₄, s₄, n₄, p₄⟩ := setNext_spec h₃ new new ((s₁₃.live new).mpr hnew)
  have hread : h₁.next new = some old := by simp [n₁]
  have hread₂ : h₂.prev old = some new := by simp [p₂]
  have hread₃ : h₃.prev new = some new := by simp [p₃]
  exact ⟨h₄, by simp [listReplace, hn, e₁, hread, e₂, hread₂, e₃, hread₃, e₄],
    s₁₃.trans (s₄.mono (by tauto)), by simp [n₄], by rw [p₄, hread₃]⟩

/-- `__list_splice` stores the four links at the ends of the list. -/
theorem listSpliceBetween_view {list prev next first last : ν} (hf : h.next list = some first)
    (hl : h.prev list = some last) (hfirst : h.Live first) (hlast : h.Live last)
    (hprev : h.Live prev) (hnext : h.Live next) :
    ∃ h', listSpliceBetween h list prev next = some h' ∧
      SameOutside h h' (fun a => a = first ∨ a = last ∨ a = prev ∨ a = next) ∧
      h'.next = Function.update (Function.update h.next prev (some first)) last (some next) ∧
      h'.prev = Function.update (Function.update h.prev first (some prev)) next (some last) := by
  obtain ⟨h₁, e₁, s₁, n₁, p₁⟩ := setPrev_spec h first prev hfirst
  obtain ⟨h₂, e₂, s₂, n₂, p₂⟩ := setNext_spec h₁ prev first ((s₁.live prev).mpr hprev)
  have s₁₂ := (s₁.mono (T := fun a => a = first ∨ a = prev) (by tauto)).trans
    (s₂.mono (by tauto))
  obtain ⟨h₃, e₃, s₃, n₃, p₃⟩ := setNext_spec h₂ last next ((s₁₂.live last).mpr hlast)
  have s₁₃ := (s₁₂.mono (T := fun a => a = first ∨ a = last ∨ a = prev) (by tauto)).trans
    (s₃.mono (by tauto))
  obtain ⟨h₄, e₄, s₄, n₄, p₄⟩ := setPrev_spec h₃ next last ((s₁₃.live next).mpr hnext)
  refine ⟨h₄, by simp [listSpliceBetween, hf, hl, e₁, e₂, e₃, e₄],
    (s₁₃.mono (by tauto)).trans (s₄.mono (by tauto)), ?_, ?_⟩
  · rw [n₄, n₃, n₂, n₁]
  · rw [p₄, p₃, p₂, p₁]

/-- `__list_cut_position` stores the six links at the two places of the cut. -/
theorem listCutAt_view {list head entry first newFirst : ν} (hf : h.next head = some first)
    (hn : h.next entry = some newFirst) (hlist : h.Live list) (hfirst : h.Live first)
    (hnew : h.Live newFirst) :
    ∃ h', listCutAt h list head entry = some h' ∧
      SameOutside h h' (fun a => a = list ∨ a = first ∨ a = entry ∨ a = head ∨ a = newFirst) ∧
      h'.next = Function.update (Function.update (Function.update h.next list (some first))
        entry (some list)) head (some newFirst) ∧
      h'.prev = Function.update (Function.update (Function.update h.prev first (some list))
        list (some entry)) newFirst (some head) := by
  obtain ⟨h₁, e₁, s₁, n₁, p₁⟩ := setNext_spec h list first hlist
  obtain ⟨h₂, e₂, s₂, n₂, p₂⟩ := setPrev_spec h₁ first list ((s₁.live first).mpr hfirst)
  have s₁₂ := (s₁.mono (T := fun a => a = list ∨ a = first) (by tauto)).trans
    (s₂.mono (by tauto))
  obtain ⟨h₃, e₃, s₃, n₃, p₃⟩ := setPrev_spec h₂ list entry ((s₁₂.live list).mpr hlist)
  have s₁₃ := s₁₂.trans (s₃.mono (by tauto))
  obtain ⟨h₄, e₄, s₄, n₄, p₄⟩ := setNext_spec h₃ entry list
    ((s₁₃.live entry).mpr (Heap.Live.of_next hn))
  have s₁₄ := (s₁₃.mono (T := fun a => a = list ∨ a = first ∨ a = entry) (by tauto)).trans
    (s₄.mono (by tauto))
  obtain ⟨h₅, e₅, s₅, n₅, p₅⟩ := setNext_spec h₄ head newFirst
    ((s₁₄.live head).mpr (Heap.Live.of_next hf))
  have s₁₅ := (s₁₄.mono (T := fun a => a = list ∨ a = first ∨ a = entry ∨ a = head)
    (by tauto)).trans (s₅.mono (by tauto))
  obtain ⟨h₆, e₆, s₆, n₆, p₆⟩ := setPrev_spec h₅ newFirst head ((s₁₅.live newFirst).mpr hnew)
  have hread : h₁.next list = some first := by simp [n₁]
  refine ⟨h₆, by simp [listCutAt, hn, hf, e₁, hread, e₂, e₃, e₄, e₅, e₆],
    (s₁₅.mono (by tauto)).trans (s₆.mono (by tauto)), ?_, ?_⟩
  · rw [n₆, n₅, n₄, n₃, n₂, n₁]
  · rw [p₆, p₅, p₄, p₃, p₂, p₁]

end Views

section Rings

variable {ν : Type} [DecidableEq ν] {h : Heap ν} {head list new : ν} {xs ys : List ν}

namespace Ring

/-- `list_add` puts the new node right behind the head. -/
theorem listAdd_spec (r : Ring h head xs) (hl : h.Live new) (hnew : new ∉ head :: xs) :
    ∃ h', listAdd h new head = some h' ∧ Ring h' head (new :: xs) ∧
      SameOutside h h' fun a => a = new ∨ a ∈ head :: xs := by
  obtain ⟨n, hfirst, hn⟩ := r.exists_next
  have hmem := mem_part (List.mem_of_head? hfirst)
  obtain ⟨h', e, s, hn', hp'⟩ := listAddBetween_spec h new head n hl (r.live List.mem_cons_self)
    (r.live hmem)
  refine ⟨h', by simp [listAdd, hn, e], ?_, s.mono ?_⟩
  · have hweld : Circle h' ((xs ++ [head]) ++ [new]) := by
      refine Circle.weld n head new new ?_ r.part.2 (List.isChain_singleton new) hfirst
        (by simp) rfl rfl (fun y _ => ?_) fun y _ => ?_
      · refine List.nodup_append_comm.mp (List.nodup_cons.mpr ⟨?_, r.part.1⟩)
        simpa [or_comm] using hnew
      · rw [hn']
        simp only [Function.update_apply]
      · rw [hp']
        simp only [Function.update_apply]
    rw [List.append_assoc] at hweld
    exact hweld.turn
  · rintro a (rfl | rfl | rfl)
    exacts [Or.inl rfl, Or.inr List.mem_cons_self, Or.inr hmem]

/-- `list_replace` puts the new node at the place of the old one. -/
theorem listReplace_spec (r : Ring h head xs) (hl : h.Live new) (hnew : new ∉ head :: xs) :
    ∃ h', listReplace h head new = some h' ∧ Ring h' new xs ∧
      SameOutside h h' fun a => a = new ∨ a ∈ head :: xs := by
  by_cases hxs : xs = []
  · subst hxs
    obtain ⟨h', e, s, hn', hp'⟩ := listReplace_view_self (nil_iff.mp r).1
      (r.live List.mem_cons_self) hl
    exact ⟨h', e, nil_iff.mpr ⟨hn', hp'⟩, s.mono (by simp)⟩
  obtain ⟨n, p, hn, hp⟩ := exists_ends hxs
  have hmn : n ∈ head :: xs := List.mem_cons_of_mem _ (List.mem_of_head? hn)
  have hmp : p ∈ head :: xs := List.mem_cons_of_mem _ (List.mem_of_getLast? hp)
  obtain ⟨h', e, s, hn', hp'⟩ := listReplace_view (r.next_eq hn) (r.prev_eq hp) hl (r.live hmn)
    (r.live hmp) fun e => r.head_notMem (e ▸ List.mem_of_head? hn)
  refine ⟨h', e, ?_, s.mono ?_⟩
  · have hweld : Circle h' (xs ++ [new]) := by
      refine Circle.weld _ _ new new ?_ r.inner (List.isChain_singleton new) hn hp rfl rfl
        (fun y _ => ?_) fun y _ => ?_
      · refine List.nodup_append_comm.mp (List.nodup_cons.mpr ⟨?_, r.nodup_entries⟩)
        exact fun hm => hnew (List.mem_cons_of_mem _ hm)
      · rw [hn']
        simp only [Function.update_apply]
      · rw [hp']
        simp only [Function.update_apply]
    exact hweld.turn
  · rintro a (rfl | rfl | rfl)
    exacts [Or.inl rfl, Or.inr hmn, Or.inr hmp]

/-- `__list_splice` puts the entries of `list` between a node and the next one. -/
theorem listSpliceBetween_spec (r : Ring h list xs) (q : Ring h head ys) (hxs : xs ≠ [])
    (hdis : ∀ a ∈ xs, a ∉ head :: ys) {next : ν} (hnext : h.next head = some next) :
    ∃ h', listSpliceBetween h list head next = some h' ∧ Ring h' head (xs ++ ys) ∧
      SameOutside h h' fun a => a ∈ xs ∨ a ∈ head :: ys := by
  obtain ⟨f, l, hf, hl⟩ := exists_ends hxs
  have hmf := List.mem_of_head? hf
  have hml := List.mem_of_getLast? hl
  obtain ⟨n, hfirst, hn⟩ := q.exists_next
  obtain rfl : n = next := Option.some.inj (hn.symm.trans hnext)
  have hmem := mem_part (List.mem_of_head? hfirst)
  obtain ⟨h', e, s, hn', hp'⟩ := listSpliceBetween_view (r.next_eq hf) (r.prev_eq hl)
    (r.live (List.mem_cons_of_mem _ hmf)) (r.live (List.mem_cons_of_mem _ hml))
    (q.live List.mem_cons_self) (q.live hmem)
  refine ⟨h', e, ?_, s.mono ?_⟩
  · have hlh : l ≠ head := fun e => hdis l hml (by simp [e])
    have hfn : f ≠ n := fun e => hdis f hmf (e ▸ hmem)
    have hweld : Circle h' ((ys ++ [head]) ++ xs) := by
      refine Circle.weld n head f l ?_ q.part.2 r.inner hfirst (by simp) hf hl
        (fun y _ => ?_) fun y _ => ?_
      · refine List.nodup_append.mpr ⟨q.part.1, r.nodup_entries, ?_⟩
        rintro a ha b hb rfl
        exact hdis a hb (mem_part ha)
      · rw [hn', Function.update_comm hlh.symm]
        simp only [Function.update_apply]
      · rw [hp', Function.update_comm hfn]
        simp only [Function.update_apply]
    rw [List.append_assoc] at hweld
    exact hweld.turn
  · rintro a (rfl | rfl | rfl | rfl)
    exacts [Or.inl hmf, Or.inl hml, Or.inr List.mem_cons_self, Or.inr hmem]

/-- `__list_cut_position` moves the entries up to `entry` to the new list. -/
theorem listCutAt_spec {entry : ν} {as bs : List ν} (r : Ring h head (as ++ entry :: bs))
    (hl : h.Live list) (hlist : list ∉ head :: (as ++ entry :: bs)) :
    ∃ h', listCutAt h list head entry = some h' ∧ Ring h' list (as ++ [entry]) ∧
      Ring h' head bs ∧ SameOutside h h' fun a => a = list ∨ a ∈ head :: (as ++ entry :: bs) := by
  have hcut : Circle h ((as ++ [entry]) ++ (bs ++ [head])) := by
    have : Circle h ([head] ++ (as ++ entry :: bs)) := r
    simpa using this.turn
  obtain ⟨hnd, hc₁, hc₂, hj, -⟩ := (circle_append (by simp) (by simp)).mp hcut
  obtain ⟨f, hf⟩ : ∃ f, (as ++ [entry]).head? = some f := exists_head (by simp)
  obtain ⟨n, hn⟩ : ∃ n, (bs ++ [head]).head? = some n := exists_head (by simp)
  have hmf := List.mem_of_head? hf
  have hmn := List.mem_of_head? hn
  have hfirst : h.next head = some f := r.next_eq (by
    rw [show as ++ entry :: bs = (as ++ [entry]) ++ bs by simp,
      List.head?_append_of_ne_nil _ (by simp), hf])
  have hnewFirst : h.next entry = some n := (hj entry (by simp) n hn).1
  have hlive : ∀ a, a ∈ as ++ [entry] ∨ a ∈ bs ++ [head] → h.Live a := fun a ha =>
    hcut.live (List.mem_append.mpr ha)
  obtain ⟨h', e, s, hn', hp'⟩ := listCutAt_view hfirst hnewFirst hl (hlive f (Or.inl hmf))
    (hlive n (Or.inr hmn))
  obtain ⟨hnd₁, hnd₂, hdis⟩ := List.nodup_append.mp hnd
  have hlist' : ∀ a, a ∈ as ++ [entry] ∨ a ∈ bs ++ [head] → a ≠ list := by
    rintro a ha rfl
    refine hlist ?_
    simp only [List.mem_append, List.mem_cons] at ha ⊢
    tauto
  refine ⟨h', e, ?_, ?_, s.mono ?_⟩
  · have hweld : Circle h' ((as ++ [entry]) ++ [list]) := by
      refine Circle.weld _ entry list list ?_ hc₁ (List.isChain_singleton list) hf (by simp)
        rfl rfl (fun y hy => ?_) fun y hy => ?_
      · refine List.nodup_append_comm.mp (List.nodup_cons.mpr ⟨fun hm => ?_, hnd₁⟩)
        exact hlist' list (Or.inl hm) rfl
      · have hyh : y ≠ head := by
          rcases List.mem_append.mp hy with hy | hy
          · exact hdis y hy head (by simp)
          · obtain rfl := List.mem_singleton.mp hy
            exact (hlist' head (Or.inr (by simp))).symm
        rw [hn', Function.update_of_ne hyh]
        simp only [Function.update_apply]
      · have hyn : y ≠ n := by
          rcases List.mem_append.mp hy with hy | hy
          · exact hdis y hy n hmn
          · obtain rfl := List.mem_singleton.mp hy
            exact (hlist' n (Or.inr hmn)).symm
        rw [hp', Function.update_of_ne hyn]
        simp only [Function.update_apply]
    exact hweld.turn
  · have hclose : Circle h' (bs ++ [head]) := by
      refine Circle.close hnd₂ hc₂ hn (b := head) (by simp) (fun y hy => ?_) fun y hy => ?_
      · have hye : y ≠ entry := (hdis entry (by simp) y hy).symm
        simp only [hn', Function.update_apply, if_neg hye, if_neg (hlist' y (Or.inr hy))]
      · have hyf : y ≠ f := (hdis f hmf y hy).symm
        simp only [hp', Function.update_apply, if_neg hyf, if_neg (hlist' y (Or.inr hy))]
    exact hclose.turn
  · have hmem : ∀ a, a ∈ as ++ [entry] ∨ a ∈ bs ++ [head] → a ∈ head :: (as ++ entry :: bs) := by
      intro a ha
      simp only [List.mem_append, List.mem_cons] at ha ⊢
      tauto
    rintro a (rfl | rfl | rfl | rfl | rfl)
    exacts [Or.inl rfl, Or.inr (hmem a (Or.inl hmf)), Or.inr (hmem a (Or.inl (by simp))),
      Or.inr List.mem_cons_self, Or.inr (hmem a (Or.inr hmn))]

end Ring

end Rings

section Questions

variable {ν : Type} [DecidableEq ν] {h : Heap ν} {head a : ν} {r xs : List ν}

theorem listIsLast_eq (ha : h.Live a) :
    listIsLast h a head = some (decide (h.next a = some head)) := by
  obtain ⟨c, hc⟩ := Option.isSome_iff_exists.mp ha
  simp [listIsLast, Heap.next, hc]

/-- `list_is_last` of any node that is in a circle. -/
theorem Ring.listIsLast_eq (q : Ring h head xs) (c : Circle h r) (ha : a ∈ r) :
    listIsLast h a head = some (decide ((head :: xs).getLast? = some a)) := by
  rw [LinkedList.listIsLast_eq (c.live ha)]
  refine congrArg some (decide_eq_decide.mpr ⟨fun hn => ?_, fun hl => ?_⟩)
  · obtain ⟨as, bs, rfl⟩ := List.append_of_mem ha
    have hturn : Circle h (a :: bs ++ as) := c.turn
    obtain ⟨n, -, hlink⟩ := Ring.exists_linked hturn
    obtain rfl : n = head := Option.some.inj (hlink.1.symm.trans hn)
    exact q.prev_getLast.symm.trans hlink.2
  · exact (((circle_iff (List.cons_ne_nil head xs)).mp q).2.2 a hl head rfl).1

theorem Ring.listEmptyCareful_eq (q : Ring h head xs) :
    listEmptyCareful h head = some xs.isEmpty := by
  obtain ⟨c, hc⟩ := Option.isSome_iff_exists.mp (q.live List.mem_cons_self)
  have hprev := q.prev_getLast
  cases xs with
  | nil =>
      have hn := (nil_iff.mp q).1
      simp only [Heap.next, Heap.prev, hc, Option.bind_some] at hn hprev
      simp [listEmptyCareful, hc, hn, hprev]
  | cons x xs =>
      have hn := q.next_head_cons
      have hne : x ≠ head := fun e => q.head_notMem (by simp [e])
      simp only [Heap.next, hc, Option.bind_some] at hn
      simp [listEmptyCareful, hc, hn, hne]

theorem Ring.listIsSingular_eq (q : Ring h head xs) :
    listIsSingular h head = some (decide (xs.length = 1)) := by
  obtain ⟨c, hc⟩ := Option.isSome_iff_exists.mp (q.live List.mem_cons_self)
  have hprev := q.prev_getLast
  cases xs with
  | nil =>
      have hn := (nil_iff.mp q).1
      simp only [Heap.next, hc, Option.bind_some] at hn
      simp [listIsSingular, hc, hn]
  | cons x xs =>
      have hn := q.next_head_cons
      have hne : x ≠ head := fun e => q.head_notMem (by simp [e])
      simp only [Heap.next, Heap.prev, hc, Option.bind_some] at hn hprev
      rw [List.getLast?_cons_cons] at hprev
      have hone : (x :: xs).getLast? = some x ↔ xs = [] := by
        constructor
        · intro hl
          by_contra hxs
          obtain ⟨b, d, -, hd⟩ := exists_ends hxs
          rw [List.getLast?_cons, hd] at hl
          obtain rfl : d = x := by simpa using hl
          exact (List.nodup_cons.mp q.nodup_entries).1 (List.mem_of_getLast? hd)
        · rintro rfl
          rfl
      simp only [listIsSingular, hc, Option.map_some, hn, hprev, Option.some.injEq, hne,
        decide_false, Bool.not_false, Bool.true_and, List.length_cons, Nat.add_eq_right,
        List.length_eq_zero_iff]
      exact decide_eq_decide.mpr ⟨fun e => hone.mp e.symm, fun e => (hone.mpr e).symm⟩

/-- `list_rotate_left` brings the first entry to the end. -/
theorem Ring.listRotateLeft_spec (q : Ring h head xs) :
    ∃ h', listRotateLeft h head = some h' ∧ Ring h' head (xs.rotate 1) ∧
      SameOutside h h' fun a => a ∈ head :: xs := by
  cases xs with
  | nil =>
      exact ⟨h, by simp [listRotateLeft, q.listEmpty_eq], q, fun _ => Iff.rfl, fun _ _ => rfl⟩
  | cons x xs =>
      have hx := (List.nodup_cons.mp q.nodup_entries).1
      have hne : x ≠ head := fun e => q.head_notMem (by simp [e])
      have q₀ : Ring h head ([] ++ x :: xs) := q
      obtain ⟨h₁, e₁, q₁, s₁⟩ := q₀.listDelEntry_spec
      obtain ⟨h₂, e₂, q₂, s₂⟩ := q₁.listAddTail_spec ((s₁.live x).mpr (q.live (by simp)))
        (by simp [hne, hx])
      refine ⟨h₂, ?_, by simpa [List.rotate_cons_succ] using q₂, (s₁.mono ?_).trans (s₂.mono ?_)⟩
      · simp [listRotateLeft, q.listEmpty_eq, q.next_head_cons, listMoveTail, e₁, e₂]
      · intro a ha
        simp only [List.nil_append, List.mem_cons] at ha ⊢
        tauto
      · intro a ha
        simp only [List.nil_append, List.mem_cons] at ha ⊢
        tauto

end Questions

end LinkedList

end Infra
