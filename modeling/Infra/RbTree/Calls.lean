import Infra.RbTree.Remove
import Infra.RbTree.Walk

/-!
# The calls of the library on any tree

What a client of `rbtree.c` may rely on, whatever its nodes are part of and however
it finds the place of a new one. The rounds of each loop are logarithmic in the
number of nodes, and a call writes to no node that is not in the tree afterwards.
-/

namespace Infra

namespace RbTree

open Infra.RedBlack

open Infra.RedBlack.ColorTree

variable {m : Store} {t : ColorTree Addr} {fuel : ℕ}

section Memory

/-- The nodes of a tree below the node `par`. -/
def nodesOf : Ptr → ColorTree Addr → Addr → Option RbNode
  | _, nil, _ => none
  | par, node c l a r, x =>
      if x = a then some (rbSetColor (colorWord c) ⟨par.toWord, r.root, l.root⟩)
      else (nodesOf (some a) l x).or (nodesOf (some a) r x)

/-- A memory with a tree, and another node beside it with any content. -/
def Store.ofTree (t : ColorTree Addr) (b : Addr) (garbage : RbNode) : Store :=
  ⟨fun x => if x = b then some garbage else nodesOf none t x, t.root⟩

theorem nodesOf_eq_none {par : Ptr} {x : Addr} (h : x ∉ t.toList) : nodesOf par t x = none := by
  induction t generalizing par with
  | nil => rfl
  | node c l a r ihl ihr =>
      simp only [toList_node, List.mem_append, List.mem_cons, not_or] at h
      rw [nodesOf, if_neg h.2.1, ihl h.1, ihr h.2.2, Option.or_none]

theorem nodesOf_laid {par : Ptr} (h : t.toList.Nodup) :
    Laid (fun x => (nodesOf par t x).map RbNode.cell) par t := by
  induction t generalizing par with
  | nil => trivial
  | node c l a r ihl ihr =>
      rw [toList_node, List.nodup_middle, List.nodup_cons, List.mem_append, not_or] at h
      obtain ⟨⟨hal, har⟩, hlr⟩ := h
      obtain ⟨hl, hr, hdisj⟩ := List.nodup_append'.mp hlr
      refine ⟨?_, (ihl hl).congr fun x hx => ?_, (ihr hr).congr fun x hx => ?_⟩
      · have hword := cell_of_toWord (r := ⟨0#64, r.root, l.root⟩) par
        simp only [nodesOf, if_true, Option.map_some, cell_rbSetColor, hword]
        rfl
      · have hxa : x ≠ a := fun e => hal (e ▸ hx)
        rw [nodesOf, if_neg hxa, nodesOf_eq_none (hdisj hx), Option.or_none]
      · have hxa : x ≠ a := fun e => har (e ▸ hx)
        rw [nodesOf, if_neg hxa, nodesOf_eq_none fun hl => hdisj hl hx, Option.none_or]

/-- Any tree can be in memory. -/
theorem Store.ofTree_lays (h : t.toList.Nodup) {b : Addr} (hb : b ∉ t.toList)
    (garbage : RbNode) : Lays (Store.ofTree t b garbage) t := by
  refine ⟨rfl, h, (nodesOf_laid h).congr fun x hx => ?_⟩
  have hxb : x ≠ b := fun e => hb (e ▸ hx)
  simp only [Store.cells, Store.ofTree, if_neg hxb]

/-- The address `8 * i + 8`. -/
def addrOf (i : Fin 16) : Addr :=
  ⟨BitVec.ofNat 64 (8 * i + 8), by revert i; decide, by revert i; decide⟩

/-- A node without children. -/
def leaf (c : Color) (i : Fin 16) : ColorTree Addr := node c nil (addrOf i) nil

/-- Seven nodes of two black levels, and a node with the address of `3`. -/
def sevenNodes : Store :=
  .ofTree
    (node .black
      (node .red (leaf .black 1) (addrOf 2) (node .black (leaf .red 4) (addrOf 5) (leaf .red 6)))
      (addrOf 7) (leaf .black 8))
    (addrOf 3) ⟨3#64, none, none⟩

/-- Eleven nodes of three black levels, with a red one to the right of the root. -/
def elevenNodes : Store :=
  .ofTree
    (node .black (node .black (leaf .black 1) (addrOf 2) (leaf .black 3)) (addrOf 4)
      (node .red (node .black (leaf .black 5) (addrOf 6) (leaf .black 7)) (addrOf 8)
        (node .black (leaf .black 9) (addrOf 10) (leaf .black 11))))
    (addrOf 12) ⟨3#64, none, none⟩

end Memory

/-- A new node at any free place of a red-black tree: after `rb_link_node` and
`rb_insert_color` the tree is red-black again, and the node stands where it was put. -/
theorem rbInsertColor_redBlack {p : Path Addr} {n : Addr} (h : Lays m (plug p nil))
    (hrb : IsRedBlack (plug p (nil : ColorTree Addr))) (hn : (m.nodes n).isSome)
    (hnew : n ∉ (plug p (nil : ColorTree Addr)).toList)
    (hfuel : 2 * Nat.log 2 ((plug p (nil : ColorTree Addr)).toList.length + 1) < fuel) :
    Returns (do
        let m ← rbLinkNode m (some n) (above p) (holeLink p)
        rbInsertColor fuel m (some n)) fun m' =>
      ∃ T, Lays m' T ∧ IsRedBlack T ∧ T.toList = before p ++ n :: after p ∧
        ∀ b, b ∉ T.toList → m'.cells b = m.cells b := by
  obtain ⟨r, hr⟩ := Option.isSome_iff_exists.mp hn
  have hlist : (plug p nil).toList = before p ++ after p := by simp [toList_plug]
  have hpath := length_add_height_le p (nil : ColorTree Addr)
  have hheight := hrb.height_le
  refine (insert_spec h hrb (k := r.cell) (by simp [Store.cells, hr]) (by rwa [hlist] at hnew)
    (by omega)).mono ?_
  rintro m' ⟨T, hm, hT, hTrb, -⟩
  exact ⟨T, hm.lays, hTrb, hT, hm.outside⟩

/-- Under `4`, whose parent is red as well as its uncle `6`, the new node `3` makes a round
that paints these two black and their parent `5` red, and then two rotations with `2` and `7`. -/
theorem rbInsertColor_redBlack_rotates :
    Returns (do
        let m ← rbLinkNode sevenNodes (some (addrOf 3)) (some (addrOf 4))
          (.child .left (some (addrOf 4)))
        rbInsertColor 7 m (some (addrOf 3))) fun m' =>
      ∃ T, Lays m' T ∧ IsRedBlack T ∧ T.toList = [1, 2, 3, 4, 5, 6, 7, 8].map addrOf ∧
        ∀ b, b ∉ T.toList → m'.cells b = sevenNodes.cells b :=
  rbInsertColor_redBlack
    (p := [⟨.left, .red, addrOf 4, nil⟩, ⟨.left, .black, addrOf 5, leaf .red 6⟩,
      ⟨.right, .red, addrOf 2, leaf .black 1⟩, ⟨.left, .black, addrOf 7, leaf .black 8⟩])
    (Store.ofTree_lays (by decide) (by decide) _) ⟨rfl, 2, by decide⟩ (by decide) (by decide)
    (by decide)

/-- The rotations bring `5` to the root. -/
example :
    (do
        let m ← rbLinkNode sevenNodes (some (addrOf 3)) (some (addrOf 4))
          (.child .left (some (addrOf 4)))
        rbInsertColor 7 m (some (addrOf 3))).map Store.rbNode = some (some (addrOf 5)) := by
  decide

/-- The removal of any node: the tree is red-black again, and its other nodes are in the same
order. -/
theorem rbErase_redBlack {a : Addr} (h : Lays m t) (hrb : IsRedBlack t) (ha : a ∈ t.toList)
    (hfuel : 2 * Nat.log 2 (t.toList.length + 1) < fuel) :
    Returns (rbErase fuel m (some a)) fun m' =>
      ∃ T, Lays m' T ∧ IsRedBlack T ∧ T.toList = t.toList.erase a ∧
        ∀ b, b ∉ T.toList → m'.cells b = m.cells b := by
  have hheight := hrb.height_le
  obtain ⟨p, c, l, r, rfl⟩ := exists_plug_of_mem ha
  refine (erase_spec h hrb (by omega)).mono ?_
  rintro m' ⟨T, hm, hT, hTrb, -⟩
  exact ⟨T, hm.lays, hTrb, by rw [hT, h.erase_eq], hm.outside⟩

/-- The node `2` has two children, and `3` takes its place. Where `3` was, a black node is
missing: a round paints its sibling `1` red, and the next one rotates with the red `8`. -/
theorem rbErase_redBlack_rotates :
    Returns (rbErase 8 elevenNodes (some (addrOf 2))) fun m' =>
      ∃ T, Lays m' T ∧ IsRedBlack T ∧
        T.toList = [1, 3, 4, 5, 6, 7, 8, 9, 10, 11].map addrOf ∧
        ∀ b, b ∉ T.toList → m'.cells b = elevenNodes.cells b :=
  rbErase_redBlack (Store.ofTree_lays (by decide) (by decide) _) ⟨rfl, 3, by decide⟩ (by decide)
    (by decide)

/-- The rotation brings `8` to the root. -/
example : (rbErase 8 elevenNodes (some (addrOf 2))).map Store.rbNode = some (some (addrOf 8)) := by
  decide

/-- A walk forwards visits every node of the tree once, in the order of the tree, and one
backwards visits them in the opposite order; then they get NULL. -/
theorem visit_spec (h : Lays m t) {fuel : ℕ} (hfuel : t.height ≤ fuel) (i : ℕ) :
    visit (rbFirst fuel) (rbNext fuel) m i = some t.toList[i]? ∧
      visit (rbLast fuel) (rbPrev fuel) m i = some t.toList.reverse[i]? := by
  constructor
  · exact visit_eq (rbFirst_spec h hfuel) (fun _ _ _ e => (rbNext_rbPrev_spec h e hfuel).1) i
  · refine visit_eq (by rw [rbLast_spec h hfuel, List.head?_reverse]) (fun ys a zs e => ?_) i
    have hsplit : t.toList = zs.reverse ++ a :: ys.reverse := by
      rw [← List.reverse_reverse t.toList, e]
      simp
    rw [(rbNext_rbPrev_spec h hsplit hfuel).2, List.getLast?_reverse]

/-- The fifth node of eleven from the left, and from the right. -/
theorem visit_spec_fifth :
    visit (rbFirst 5) (rbNext 5) elevenNodes 4 = some (some (addrOf 5)) ∧
      visit (rbLast 5) (rbPrev 5) elevenNodes 4 = some (some (addrOf 7)) :=
  visit_spec (Store.ofTree_lays (by decide) (by decide) _) (by decide) 4

end RbTree

end Infra
