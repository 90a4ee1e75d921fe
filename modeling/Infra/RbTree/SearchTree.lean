import Infra.RbTree.Ordered
import Infra.RbTree.Remove
import Infra.RbTree.Replace
import Infra.RbTree.Walk

/-!
# The tree of the client

`Holds items m xs` says that the memory holds a red-black tree of the items `xs`,
with ascending keys. It is what every function of the client keeps, and each of
them has one specification in terms of the list `xs`. A tree of `n` items has at
most `2 * Nat.log 2 (n + 1)` nodes on a way down, and so many rounds are enough for
every loop.
-/

namespace Infra

namespace RbTree

open Infra.RedBlack

open Infra.RedBlack.ColorTree

open Infra.KeyedList

/-- What `myrbdemo_insert` does to the tree: an item whose key is there already stays out. -/
theorem myrbdemoInsert_spec {items : Items} {m : Store} {t : ColorTree Addr} {n : Addr}
    {k : Cell Addr} {d : MyRBDemo} (h : Lays m t) (hrb : IsRedBlack t)
    (hs : Sorted items t.toList) (hn : n ∉ t.toList) (hk : m.cells n = some k)
    (hd : items n = some d) {fuel : ℕ} (hfuel : t.height < fuel) :
    Returns (myrbdemoInsert items m fuel n) fun r =>
      if (lookup (keyOf items) d.key t.toList).isSome then r = (m, -1)
      else r.2 = 0 ∧ ∃ p T, t = plug p nil ∧ Leaves m T r.1 ∧ IsRedBlack T ∧
        T.toList = put (keyOf items) n t.toList ∧ ∃ j, InsertFix j p (node .red nil n nil) T := by
  have hkey : keyOf items n = d.key := by simp [keyOf, hd]
  rw [myrbdemoInsert]
  refine Returns.bind_eq hd ?_
  refine (insertPlace_spec (p := []) h hs (by simp [before]) (by simp [after])
    hfuel).bind fun place hplace => ?_
  cases place with
  | none =>
      obtain ⟨a, ha, hak⟩ := hplace
      rw [hs.ascending.lookup_eq_some.mpr ⟨ha, hak⟩, Returns.some_iff]
      rfl
  | some place =>
      obtain ⟨link, parent⟩ := place
      obtain ⟨p, rfl, rfl, rfl, hbefore, hafter⟩ := hplace
      rw [← hkey] at hbefore hafter
      have hlist : (plug p nil).toList = before p ++ after p := by simp [toList_plug]
      have hlen := length_add_height_le p (nil : ColorTree Addr)
      have hpath : p.length < fuel := by omega
      have hnew := insert_spec h hrb hk (by rwa [hlist] at hn) hpath
      have hnone : lookup (keyOf items) d.key (plug p nil).toList = none := by
        rw [← hkey, lookup_eq_none, hlist]
        intro b hb
        rcases List.mem_append.mp hb with hb | hb
        exacts [(hbefore b hb).ne, (hafter b hb).ne']
      simp only [hnone, Option.isSome_none, Bool.false_eq_true, if_false, ← bind_assoc]
      refine hnew.bind ?_
      rintro m' ⟨T, hm, hT, hTrb, hfix⟩
      exact Returns.some_iff.mpr ⟨rfl, p, T, rfl, hm, hTrb, by
        rw [hT, hlist, put_eq hbefore hafter], hfix⟩

/-- A new item keeps the order. -/
theorem Sorted.put {items : Items} {xs : List Addr} {n : Addr} {d : MyRBDemo}
    (h : Sorted items xs) (hd : items n = some d)
    (hnew : ¬ (lookup (keyOf items) d.key xs).isSome) :
    Sorted items (put (keyOf items) n xs) := by
  have hkey : keyOf items n = d.key := by simp [keyOf, hd]
  rw [Option.not_isSome_iff_eq_none, ← hkey] at hnew
  refine ⟨fun a ha => ?_, h.ascending.put⟩
  rcases (mem_put hnew).mp ha with rfl | ha
  · simp [hd]
  · exact h.live a ha

/-- The memory holds a red-black tree of the items of the list, in the order of their keys. -/
structure Holds (items : Items) (m : Store) (xs : List Addr) : Prop where
  tree : ∃ t, Lays m t ∧ IsRedBlack t ∧ t.toList = xs
  sorted : Sorted items xs

/-- The rounds that are enough for a tree of `n` items. -/
def rounds (n : ℕ) : ℕ := 2 * Nat.log 2 (n + 1)

theorem rounds_mono {i j : ℕ} (h : i ≤ j) : rounds i ≤ rounds j :=
  Nat.mul_le_mul_left 2 (Nat.log_mono_right (by omega))

namespace Holds

variable {items : Items} {m : Store} {xs : List Addr} {fuel : ℕ}

/-- The tree of the items, with a bound for the rounds. -/
theorem exists_tree (h : Holds items m xs) : ∃ t, Lays m t ∧ IsRedBlack t ∧ t.toList = xs ∧
    t.height ≤ rounds xs.length := by
  obtain ⟨t, hlays, hrb, rfl⟩ := h.tree
  exact ⟨t, hlays, hrb, rfl, hrb.height_le⟩

/-- The empty tree. -/
theorem start (items : Items) (nodes : Addr → Option RbNode) : Holds items ⟨nodes, none⟩ [] :=
  ⟨⟨nil, ⟨rfl, List.nodup_nil, trivial⟩, ⟨rfl, 0, rfl⟩, rfl⟩, ⟨by simp, ascending_nil⟩⟩

/-- The nodes of the tree are in memory. -/
theorem live (h : Holds items m xs) {a : Addr} (ha : a ∈ xs) : ∃ k, m.cells a = some k := by
  obtain ⟨t, hlays, -, rfl⟩ := h.tree
  exact hlays.live ha

/-- The tree does not depend on the memory outside it. -/
theorem congr (h : Holds items m xs) {m' : Store} {items' : Items}
    (hcells : ∀ a ∈ xs, m'.cells a = m.cells a) (hroot : m'.rbNode = m.rbNode)
    (hitems : ∀ a ∈ xs, items' a = items a) : Holds items' m' xs := by
  obtain ⟨t, hlays, hrb, rfl⟩ := h.tree
  refine ⟨⟨t, ⟨hroot.trans hlays.rbNode, hlays.nodup, hlays.laid.congr hcells⟩, hrb, rfl⟩,
    fun a ha => ?_, h.sorted.ascending.congr fun a ha => ?_⟩
  · rw [hitems a ha]
    exact h.sorted.live a ha
  · rw [keyOf, keyOf, hitems a ha]

theorem search_spec (h : Holds items m xs) {key : ℤ} (hfuel : rounds xs.length < fuel) :
    myrbdemoSearch items m fuel key = some (lookup (keyOf items) key xs) := by
  obtain ⟨t, hlays, -, rfl, hheight⟩ := h.exists_tree
  exact myrbdemoSearch_spec hlays h.sorted (by omega)

/-- What `myrbdemo_insert` does to the list: an item whose key is there already stays out. -/
theorem insert_spec (h : Holds items m xs) {n : Addr} {k : Cell Addr} {d : MyRBDemo}
    (hn : n ∉ xs) (hk : m.cells n = some k) (hd : items n = some d)
    (hfuel : rounds xs.length < fuel) :
    Returns (myrbdemoInsert items m fuel n) fun r =>
      if (lookup (keyOf items) d.key xs).isSome then r = (m, -1)
      else r.2 = 0 ∧ Holds items r.1 (put (keyOf items) n xs) ∧
        ∀ b, b ∉ put (keyOf items) n xs → r.1.cells b = m.cells b := by
  obtain ⟨t, hlays, hrb, rfl, hheight⟩ := h.exists_tree
  refine (myrbdemoInsert_spec hlays hrb h.sorted hn hk hd (by omega)).mono fun r hr => ?_
  split at hr
  · next hin => rwa [if_pos hin]
  · next hin =>
      obtain ⟨hret, p, T, -, hm, hTrb, hput, -⟩ := hr
      rw [if_neg hin]
      exact ⟨hret, ⟨⟨T, hm.lays, hTrb, hput⟩, h.sorted.put hd hin⟩, hput ▸ hm.outside⟩

/-- `myrbdemo_delete` takes its item out of the list. -/
theorem delete_spec (h : Holds items m xs) {a : Addr} (ha : a ∈ xs)
    (hfuel : rounds xs.length < fuel) :
    Returns (myrbdemoDelete m fuel a) fun m' =>
      Holds items m' (xs.erase a) ∧ ∀ b, b ∉ xs.erase a → m'.cells b = m.cells b := by
  obtain ⟨t, hlays, hrb, rfl, hheight⟩ := h.exists_tree
  obtain ⟨p, c, l, r, rfl⟩ := exists_plug_of_mem ha
  refine (erase_spec hlays hrb (by omega)).mono ?_
  rintro m' ⟨T, hm, hT, hTrb, -⟩
  rw [← hlays.erase_eq] at hT
  exact ⟨⟨⟨T, hm.lays, hTrb, hT⟩, h.sorted.sublist List.erase_sublist⟩, hT ▸ hm.outside⟩

/-- `rb_replace_node` puts an item at the place of one that has the same key. -/
theorem replace_spec (h : Holds items m xs) {a y : Addr} {k : Cell Addr} (ha : a ∈ xs)
    (hy : y ∉ xs) (hk : m.cells y = some k) (hlive : (items y).isSome)
    (hkey : keyOf items y = keyOf items a) :
    Returns (rbReplaceNode m (some a) (some y)) fun m' =>
      Holds items m' (xs.map (Function.update id a y)) ∧
        ∀ b, b ∉ xs.map (Function.update id a y) → m'.cells b = m.cells b := by
  obtain ⟨t, hlays, hrb, rfl⟩ := h.tree
  obtain ⟨p, c, l, r, rfl⟩ := exists_plug_of_mem ha
  have hmap : ∀ zs : List Addr, a ∉ zs → zs.map (Function.update id a y) = zs := by
    intro zs hzs
    refine (List.map_congr_left fun b hb => ?_).trans (List.map_id zs)
    exact Function.update_of_ne (ne_of_mem_of_not_mem hb hzs) y id
  have hlist : (plug p (node c l y r)).toList =
      (plug p (node c l a r)).toList.map (Function.update id a y) := by
    have hnd := hlays.nodup
    rw [toList_plug_node, List.nodup_append, List.nodup_cons] at hnd
    rw [toList_plug_node, toList_plug_node, List.map_append, List.map_cons,
      hmap _ fun hmem => hnd.2.2 a hmem a (by simp) rfl, hmap _ hnd.2.1.1, Function.update_self]
  refine (rbReplaceNode_spec hlays hy hk).mono fun m' hm =>
    ⟨⟨⟨_, hm.lays, ?_, hlist⟩, ?_, ?_⟩, hlist ▸ hm.outside⟩
  · obtain ⟨n, hn, hfits⟩ := balanced_plug.mp hrb
    exact balanced_plug.mpr ⟨n, by cases c <;> exact hn, hfits⟩
  · intro b hb
    obtain ⟨b, hmem, rfl⟩ := List.mem_map.mp hb
    by_cases hba : b = a
    · simpa [hba] using hlive
    · simpa [hba] using h.sorted.live b hmem
  · refine List.pairwise_map.mpr (h.sorted.ascending.congr fun b _ => ?_)
    by_cases hba : b = a
    · simp [hba, hkey]
    · simp [hba]

/-- From an item, `rb_next` and `rb_prev` return the ones beside it in the list. -/
theorem neighbour_spec (h : Holds items m xs) {a : Addr} (ha : a ∈ xs)
    (hfuel : rounds xs.length ≤ fuel) :
    rbNext fuel m (some a) = some xs[xs.idxOf a + 1]? ∧
      rbPrev fuel m (some a) = some (xs.take (xs.idxOf a)).getLast? := by
  obtain ⟨t, hlays, -, rfl, hheight⟩ := h.exists_tree
  obtain ⟨ys, zs, hsplit⟩ := List.append_of_mem ha
  have hnd := hlays.nodup
  rw [hsplit, List.nodup_append] at hnd
  have hidx : t.toList.idxOf a = ys.length := by
    rw [hsplit, List.idxOf_append_of_notMem fun hmem => hnd.2.2 a hmem a (by simp) rfl]
    simp
  obtain ⟨hnext, hprev⟩ := rbNext_rbPrev_spec hlays hsplit (hheight.trans hfuel)
  rw [hnext, hprev, hidx, hsplit]
  refine ⟨?_, by simp⟩
  rw [List.getElem?_append_right (Nat.le_succ _), List.head?_eq_getElem?]
  simp

end Holds

end RbTree

end Infra
