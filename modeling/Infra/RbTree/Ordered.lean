import Infra.Foundation.KeyedList
import Infra.RbTree.Demo
import Infra.RbTree.Insert

/-!
# Searching and inserting by key

In a tree whose keys ascend, the search and the insertion of the client go down one
path. The search returns the element of its key, and the insertion finds either the
element that has the key already or the hole at the place of the new one, in at most
one round more than the tree is high.
-/

namespace Infra

namespace RbTree

open Infra.RedBlack

open Infra.RedBlack.ColorTree

open Infra.KeyedList

/-- The key of an item. -/
def keyOf (items : Items) (a : Addr) : ℤ := (items a).elim 0 MyRBDemo.key

/-- The items of the list are in memory, and their keys ascend. -/
structure Sorted (items : Items) (xs : List Addr) : Prop where
  live : ∀ a ∈ xs, (items a).isSome
  ascending : Ascending (keyOf items) xs

variable {items : Items} {m : Store} {p : Path Addr} {t : ColorTree Addr} {key : ℤ}

theorem Sorted.sublist {xs ys : List Addr} (h : Sorted items xs) (hs : ys.Sublist xs) :
    Sorted items ys :=
  ⟨fun a ha => h.live a (hs.subset ha), h.ascending.sublist hs⟩

/-- The item at the root of a subtree. -/
theorem Sorted.exists_item {xs : List Addr} {a : Addr} (h : Sorted items xs) (ha : a ∈ xs) :
    ∃ d, items a = some d ∧ keyOf items a = d.key := by
  obtain ⟨d, hd⟩ := Option.isSome_iff_exists.mp (h.live a ha)
  exact ⟨d, hd, by simp [keyOf, hd]⟩

/-- The search below a node. -/
theorem searchLoop_spec (h : Lays m (plug p t)) (hs : Sorted items t.toList) {fuel : ℕ}
    (hfuel : t.height < fuel) :
    searchLoop items m key fuel t.root = some (lookup (keyOf items) key t.toList) := by
  induction t generalizing p fuel with
  | nil =>
      obtain ⟨fuel, rfl⟩ : ∃ i, fuel = i + 1 := ⟨fuel - 1, by omega⟩
      rfl
  | node c l a r ihl ihr =>
      obtain ⟨fuel, rfl⟩ : ∃ i, fuel = i + 1 := ⟨fuel - 1, by omega⟩
      rw [height_node] at hfuel
      obtain ⟨d, hd, hkey⟩ := hs.exists_item (a := a) (by simp)
      have hl : Lays m (plug (⟨.left, c, a, r⟩ :: p) l) := h
      have hr : Lays m (plug (⟨.right, c, a, l⟩ :: p) r) := h
      rw [toList_node] at hs ⊢
      simp only [root_node, searchLoop, hd, Option.bind_eq_bind, Option.bind_some, gt_iff_lt]
      rcases lt_trichotomy key d.key with hlt | rfl | hgt
      · rw [if_pos hlt, Store.child_eq hl.cell_above, hs.ascending.lookup_of_lt (hkey ▸ hlt)]
        exact ihl hl (hs.sublist (List.sublist_append_left ..)) (by omega)
      · rw [if_neg (lt_irrefl _), if_neg (lt_irrefl _)]
        exact congrArg some (hs.ascending.lookup_eq_some.mpr ⟨by simp, hkey⟩).symm
      · rw [if_neg hgt.not_gt, if_pos hgt, Store.child_eq hr.cell_above,
          hs.ascending.lookup_of_gt (hkey ▸ hgt)]
        exact ihr hr (hs.sublist ((List.sublist_cons_self ..).trans (List.sublist_append_right ..)))
          (by omega)

/-- `myrbdemo_search` returns the item of its key, or NULL when there is none. -/
theorem myrbdemoSearch_spec (h : Lays m t) (hs : Sorted items t.toList) {fuel : ℕ}
    (hfuel : t.height < fuel) :
    myrbdemoSearch items m fuel key = some (lookup (keyOf items) key t.toList) := by
  rw [myrbdemoSearch, h.rbNode]
  exact searchLoop_spec (p := []) h hs hfuel

/-- The link in a hole leads to the subtree. -/
theorem Lays.readLink_eq (h : Lays m (plug p t)) : m.readLink (holeLink p) = some t.root := by
  cases p with
  | nil => exact congrArg some h.rbNode
  | cons f p => exact (Store.child_eq h.cell_above f.side).trans (by rw [Cell.child_sided])

/-- What the loop of `myrbdemo_insert` finds in the tree `t`. -/
def Place (items : Items) (key : ℤ) (t : ColorTree Addr) : Option (Link × Ptr) → Prop
  | none => ∃ a ∈ t.toList, keyOf items a = key
  | some (link, parent) => ∃ p, t = plug p nil ∧ link = holeLink p ∧ parent = above p ∧
      (∀ b ∈ before p, keyOf items b < key) ∧ ∀ b ∈ after p, key < keyOf items b

/-- The way down to the place of a new key. -/
theorem insertPlace_spec (h : Lays m (plug p t)) (hs : Sorted items (plug p t).toList)
    (hbefore : ∀ b ∈ before p, keyOf items b < key) (hafter : ∀ b ∈ after p, key < keyOf items b)
    {fuel : ℕ} (hfuel : t.height < fuel) :
    Returns (insertPlace items m key fuel (holeLink p) (above p))
      (Place items key (plug p t)) := by
  induction t generalizing p fuel with
  | nil =>
      obtain ⟨fuel, rfl⟩ : ∃ i, fuel = i + 1 := ⟨fuel - 1, by omega⟩
      rw [insertPlace]
      refine Returns.bind_eq h.readLink_eq ?_
      exact Returns.some_iff.mpr ⟨p, rfl, rfl, rfl, hbefore, hafter⟩
  | node c l a r ihl ihr =>
      obtain ⟨fuel, rfl⟩ : ∃ i, fuel = i + 1 := ⟨fuel - 1, by omega⟩
      rw [height_node] at hfuel
      obtain ⟨d, hd, hkey⟩ := hs.exists_item (a := a) (by simp [mem_toList_plug])
      have hasc := hs.ascending
      rw [toList_plug_node] at hasc
      obtain ⟨-, -, hleft, hright, -⟩ := ascending_append_cons.mp hasc
      rw [insertPlace]
      refine Returns.bind_eq h.readLink_eq ?_
      refine Returns.bind_eq hd ?_
      rcases lt_trichotomy key d.key with hlt | rfl | hgt
      · rw [if_pos hlt]
        refine ihl (p := ⟨.left, c, a, r⟩ :: p) h hs hbefore (fun b hb => ?_) (by omega)
        rw [← hkey] at hlt
        simp only [after, List.cons_append, List.mem_cons] at hb
        rcases hb with rfl | hb
        exacts [hlt, hlt.trans (hright b hb)]
      · rw [if_neg (lt_irrefl _), if_neg (lt_irrefl _)]
        exact Returns.some_iff.mpr ⟨a, by simp [mem_toList_plug], hkey⟩
      · rw [if_neg hgt.not_gt, if_pos hgt]
        refine ihr (p := ⟨.right, c, a, l⟩ :: p) h hs (fun b hb => ?_) hafter (by omega)
        rw [← hkey] at hgt
        simp only [before, List.mem_append, List.mem_singleton] at hb
        rcases hb with hb | rfl
        exacts [(hleft b (List.mem_append.mpr hb)).trans hgt, hgt]

end RbTree

end Infra
