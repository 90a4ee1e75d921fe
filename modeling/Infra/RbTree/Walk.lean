import Infra.RbTree.Remove

/-!
# Walking over the nodes

The nodes of a tree in memory can be visited in their order and in the opposite
order: `rb_first` and `rb_last` find the ends, and from a node `rb_next` and
`rb_prev` find the node beside it, or NULL at an end. They read memory only, and no
loop makes more rounds than the tree is high.
-/

namespace Infra

namespace RbTree

open Infra.RedBlack

open Infra.RedBlack.ColorTree

variable {m : Store} {p : Path Addr} {t : ColorTree Addr}

/-- The walk down from a node to one end of its subtree. -/
theorem descend_root {s : Side} (h : Lays m (plug p t)) (ht : t ≠ nil) {fuel : ℕ}
    (hfuel : t.height ≤ fuel) : descend s fuel m t.root = some (listing s.flip t).head? := by
  obtain ⟨q, c, y, w, rfl, hq⟩ := exists_outermost s ht
  have hlen := length_add_height_le q (join s c nil y w)
  rw [height_join] at hlen
  rw [listing_outermost hq, root_plug, root_join]
  exact descend_spec (p := p) (by rwa [plug_append]) hq (by omega)

/-- `rb_first` and `rb_last` find the ends of the tree. -/
theorem outermost_spec (s : Side) (h : Lays m t) {fuel : ℕ} (hfuel : t.height ≤ fuel) :
    outermost s fuel m = some (listing s.flip t).head? := by
  rw [outermost, h.rbNode]
  cases t with
  | nil => simp
  | node c l a r => exact descend_root (p := []) h (by simp) hfuel

/-- The walk up from a node to the first one that lies on the side `s` of it. -/
theorem climb_spec {s : Side} {a : Addr} (h : Lays m (plug p t)) (ha : t.root = some a)
    {fuel : ℕ} (hfuel : p.length < fuel) :
    climb s fuel m (some a) = some (beyond s p).head? := by
  induction p generalizing t a fuel with
  | nil =>
      obtain ⟨fuel, rfl⟩ : ∃ i, fuel = i + 1 := ⟨fuel - 1, by omega⟩
      simp [climb, h.parent_eq ha]
  | cons f p ih =>
      obtain ⟨fuel, rfl⟩ : ∃ i, fuel = i + 1 := ⟨fuel - 1, by omega⟩
      have hchild := Store.child_eq h.cell_above s
      rw [climb, h.parent_eq ha]
      by_cases hs : f.side = s
      · subst hs
        rw [Cell.child_sided, ha] at hchild
        have hlen : p.length < fuel := by simpa using hfuel
        rw [beyond_cons_side, ← ih (t := f.fill t) (a := f.val) h (by simp [Frame.fill]) hlen]
        simp [hchild]
      · obtain rfl : s = f.side.flip := Side.eq_flip (Ne.symm hs)
        rw [Cell.child_flip_sided] at hchild
        have hne : some a ≠ f.sibling.root := fun e => h.notMem_around (root_mem ha)
          (mem_around_cons.mpr (Or.inr (Or.inl (root_mem e.symm))))
        rw [beyond_cons_flip]
        simp [hchild, hne]

/-- `rb_next` and `rb_prev` find the node on the side `s` of a node. -/
theorem neighbour_spec {s : Side} {c : Color} {l r : ColorTree Addr} {a : Addr}
    (h : Lays m (plug p (join s c r a l))) {fuel : ℕ}
    (hfuel : (plug p (join s c r a l)).height ≤ fuel) :
    neighbour s fuel m (some a) = some (listing s r ++ beyond s p).head? := by
  have hroot : (join s c r a l).root = some a := root_join ..
  have hlen := length_add_height_le p (join s c r a l)
  rw [height_join] at hlen
  have hself : some (above p) ≠ some (some a) := fun e =>
    h.above_ne (root_mem hroot) (Option.some.inj e)
  rw [neighbour, h.parent_eq hroot, h.child_eq]
  simp only [Option.bind_eq_bind, Option.bind_some]
  rw [if_neg fun e => hself (congrArg some e)]
  by_cases hr : r = nil
  · subst hr
    rw [if_neg (by simp), listing_nil, List.nil_append]
    exact climb_spec h hroot (by omega)
  · have hdown : Lays m (plug (⟨s, c, a, l⟩ :: p) r) := h
    rw [if_pos (Option.isSome_iff_ne_none.mpr (root_eq_none.not.mpr hr)),
      descend_root hdown hr (by omega), Side.flip_flip, List.head?_append_of_ne_nil]
    cases s <;> simpa [listing] using toList_eq_nil.not.mpr hr

/-- `rb_first` returns the first element of the tree. -/
theorem rbFirst_spec (h : Lays m t) {fuel : ℕ} (hfuel : t.height ≤ fuel) :
    rbFirst fuel m = some t.toList.head? :=
  outermost_spec .left h hfuel

/-- `rb_last` returns the last element of the tree. -/
theorem rbLast_spec (h : Lays m t) {fuel : ℕ} (hfuel : t.height ≤ fuel) :
    rbLast fuel m = some t.toList.getLast? := by
  rw [← List.head?_reverse]
  exact outermost_spec .right h hfuel

/-- From an element of the tree, `rb_next` returns the one after it, and `rb_prev` the one
before it. -/
theorem rbNext_rbPrev_spec {xs ys : List Addr} {a : Addr} (h : Lays m t)
    (ht : t.toList = xs ++ a :: ys) {fuel : ℕ} (hfuel : t.height ≤ fuel) :
    rbNext fuel m (some a) = some ys.head? ∧ rbPrev fuel m (some a) = some xs.getLast? := by
  obtain ⟨p, c, l, r, rfl⟩ := exists_plug_of_mem (t := t) (a := a) (by simp [ht])
  have hnd := h.nodup
  rw [toList_plug_node, List.nodup_append, List.nodup_cons] at hnd
  obtain ⟨rfl, -, rfl⟩ := (List.append_cons_inj_of_notMem
    (fun hmem => hnd.2.2 a hmem a (by simp) rfl) hnd.2.1.1).mp
    ((toList_plug_node ..).symm.trans ht)
  constructor
  · exact neighbour_spec (s := .right) h hfuel
  · rw [← List.head?_reverse, List.reverse_append]
    exact neighbour_spec (s := .left) h hfuel

/-! ## Visiting all nodes -/

/-- The node that a client has reached after `i` steps from one end: it starts with `rb_first`
and goes on with `rb_next`, or with `rb_last` and `rb_prev`, until it gets NULL. -/
def visit (start : Store → Option Ptr) (next : Store → Ptr → Option Ptr) (m : Store) :
    ℕ → Option Ptr
  | 0 => start m
  | i + 1 => do
      let n ← visit start next m i
      if n.isSome then next m n else some none

/-- Where a walk that follows a list is after `i` steps. -/
theorem visit_eq {start : Store → Option Ptr} {next : Store → Ptr → Option Ptr} {xs : List Addr}
    (hstart : start m = some xs.head?)
    (hnext : ∀ ys a zs, xs = ys ++ a :: zs → next m (some a) = some zs.head?) (i : ℕ) :
    visit start next m i = some xs[i]? := by
  induction i with
  | zero => rw [visit, hstart, List.head?_eq_getElem?]
  | succ i ih =>
      rw [visit, ih]
      by_cases hi : i < xs.length
      · have hsplit : xs = xs.take i ++ xs[i] :: xs.drop (i + 1) := by simp
        simp [List.getElem?_eq_getElem hi, hnext _ _ _ hsplit, List.head?_drop]
      · simp [List.getElem?_eq_none_iff.mpr (not_lt.mp hi),
          List.getElem?_eq_none_iff.mpr (show xs.length ≤ i + 1 by omega)]

end RbTree

end Infra
