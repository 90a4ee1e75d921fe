import Infra.Foundation.RedBlack.Layout
import Infra.Foundation.Returns
import Infra.RbTree.Basic

/-!
# What the macros of `rbtree.h` read and write

The word that packs a parent and a colour is only ever changed through the macros,
and each of them changes one of the two and keeps the other. So a node is seen as a
cell, and the memory as a map from addresses to cells; the equations of this file
say what each load finds in it and what each store leaves in it, and later proofs
do not look at the words any more.
-/

namespace Infra

namespace RbTree

open Infra.RedBlack

/-! ## The packed word -/

section Words

theorem Ptr.toWord_aligned (p : Ptr) : p.toWord &&& 3#64 = 0#64 := by
  cases p with
  | none => rfl
  | some a => exact a.aligned

@[simp] theorem Ptr.ofWord_toWord (p : Ptr) : Ptr.ofWord p.toWord = p := by
  cases p with
  | none => rfl
  | some a => rw [Ptr.ofWord, Ptr.toWord, dif_pos ⟨a.ne_null, a.aligned⟩]

variable {w : BitVec 64}

/-- A word whose two last bits are clear is kept by the mask of `rb_parent`. -/
theorem and_mask (h : w &&& 3#64 = 0#64) : w &&& ~~~3#64 = w := by
  have hsplit : w &&& (3#64 ||| ~~~3#64) = (w &&& 3#64) ||| (w &&& ~~~3#64) :=
    BitVec.and_or_distrib_left
  have hall : 3#64 ||| ~~~3#64 = BitVec.allOnes 64 := by decide
  rw [hall, BitVec.and_allOnes, h, BitVec.zero_or] at hsplit
  exact hsplit.symm

/-- The last bit of such a word is clear. -/
theorem and_one (h : w &&& 3#64 = 0#64) : w &&& 1#64 = 0#64 := by
  have hassoc : w &&& 3#64 &&& 1#64 = w &&& 1#64 := by
    rw [BitVec.and_assoc]
    rfl
  rw [← hassoc, h]
  rfl

/-- The mask of a parent does not see the colour. -/
theorem mask_parent : w &&& ~~~1#64 &&& ~~~3#64 = w &&& ~~~3#64 := by
  rw [BitVec.and_assoc]
  rfl

theorem mask_color : w &&& ~~~1#64 &&& 1#64 = 0#64 := by
  rw [BitVec.and_assoc]
  exact BitVec.and_zero

theorem or_one_parent : (w ||| 1#64) &&& ~~~3#64 = w &&& ~~~3#64 := by
  rw [BitVec.and_or_distrib_right]
  exact BitVec.or_zero

theorem or_one_color : (w ||| 1#64) &&& 1#64 = 1#64 := by
  rw [BitVec.and_or_distrib_right, BitVec.and_self]
  ext i hi
  cases h : (1#64)[i] <;> simp [h]

end Words

/-! ## Nodes as cells -/

/-- The word of a colour. -/
def colorWord : Color → BitVec 64
  | .red => rbRed
  | .black => rbBlack

/-- A node, with its parent and its colour taken apart. -/
def RbNode.cell (r : RbNode) : Cell Addr :=
  ⟨rbParent r, if rbIsRed r then .red else .black, r.rbLeft, r.rbRight⟩

section Nodes

variable {w : BitVec 64} {r : RbNode}

theorem rbColor_cases (r : RbNode) : rbColor r = rbRed ∨ rbColor r = rbBlack := by
  have hle : (rbColor r).toNat ≤ 1 := by
    rw [rbColor, BitVec.toNat_and]
    exact Nat.and_le_right
  rcases Nat.le_one_iff_eq_zero_or_eq_one.mp hle with h | h
  · exact Or.inl (BitVec.eq_of_toNat_eq h)
  · exact Or.inr (BitVec.eq_of_toNat_eq h)

theorem rbColor_eq (r : RbNode) : rbColor r = colorWord r.cell.color := by
  rcases rbColor_cases r with h | h <;> simp [RbNode.cell, rbIsRed, h, colorWord, rbRed, rbBlack]

theorem rbIsRed_eq (r : RbNode) : rbIsRed r = decide (r.cell.color = .red) := by
  cases h : rbIsRed r <;> simp [RbNode.cell, h]

theorem child_eq (r : RbNode) (s : Side) : r.child s = r.cell.child s := by cases s <;> rfl

theorem cell_setChild (s : Side) (v : Ptr) : (r.setChild s v).cell = r.cell.setChild s v := by
  cases s <;> rfl

/-- A node with another word, whose parent is as before, has the colour of the new last bit. -/
theorem cell_of_word {d : Color} (hp : w &&& ~~~3#64 = r.rbParentColor &&& ~~~3#64)
    (hc : w &&& 1#64 = colorWord d) :
    RbNode.cell { r with rbParentColor := w } = r.cell.setColor d := by
  simp only [RbNode.cell, Cell.setColor, rbParent, rbIsRed, rbColor, hp, hc, Cell.mk.injEq,
    true_and, and_true]
  cases d <;> rfl

theorem cell_rbSetRed : (rbSetRed r).cell = r.cell.setColor .red :=
  cell_of_word mask_parent mask_color

theorem cell_rbSetBlack : (rbSetBlack r).cell = r.cell.setColor .black :=
  cell_of_word or_one_parent or_one_color

theorem cell_rbSetColor (d : Color) :
    (rbSetColor (colorWord d) r).cell = r.cell.setColor d := by
  cases d with
  | red =>
      refine cell_of_word ?_ ?_
      · rw [colorWord, rbRed, BitVec.or_zero]
        exact mask_parent
      · rw [colorWord, rbRed, BitVec.or_zero]
        exact mask_color
  | black => exact cell_of_word (or_one_parent.trans mask_parent) or_one_color

theorem cell_rbSetParent (p : Ptr) : (rbSetParent p r).cell = r.cell.setParent p := by
  have hp : (r.rbParentColor &&& 3#64 ||| p.toWord) &&& ~~~3#64 = p.toWord := by
    rw [BitVec.and_or_distrib_right, and_mask p.toWord_aligned, BitVec.and_assoc]
    change r.rbParentColor &&& 0#64 ||| _ = _
    rw [BitVec.and_zero, BitVec.zero_or]
  have hc : (r.rbParentColor &&& 3#64 ||| p.toWord) &&& 1#64 = r.rbParentColor &&& 1#64 := by
    rw [BitVec.and_or_distrib_right, and_one p.toWord_aligned, BitVec.or_zero, BitVec.and_assoc]
    rfl
  simp only [RbNode.cell, rbSetParent, rbParent, rbIsRed, rbColor, hp, hc, Ptr.ofWord_toWord,
    Cell.setParent]
  rfl

/-- A word that is a pointer is that pointer with the colour red. -/
theorem cell_of_toWord (p : Ptr) :
    RbNode.cell { r with rbParentColor := p.toWord } = ⟨p, .red, r.rbLeft, r.rbRight⟩ := by
  simp only [RbNode.cell, rbParent, rbIsRed, rbColor, and_mask p.toWord_aligned,
    and_one p.toWord_aligned, Ptr.ofWord_toWord, decide_true, if_true]

end Nodes

/-! ## Loads and stores -/

namespace Store

/-- The memory as cells. -/
def cells (m : Store) : Cells Addr := fun a => (m.nodes a).map RbNode.cell

variable {m : Store} {a : Addr} {c : Cell Addr}

theorem load_eq (h : m.cells a = some c) : ∃ r, m.load (some a) = some r ∧ r.cell = c := by
  simpa [cells, load] using h

theorem child_eq (h : m.cells a = some c) (s : Side) : m.child s (some a) = some (c.child s) := by
  obtain ⟨r, hr, rfl⟩ := load_eq h
  simp [child, hr, RbTree.child_eq]

theorem parent_eq (h : m.cells a = some c) : m.parent (some a) = some c.parent := by
  obtain ⟨r, hr, rfl⟩ := load_eq h
  simp [parent, hr, RbNode.cell]

theorem color_eq (h : m.cells a = some c) : m.color (some a) = some (colorWord c.color) := by
  obtain ⟨r, hr, rfl⟩ := load_eq h
  simp [color, hr, rbColor_eq]

theorem hasRed_eq (h : m.cells a = some c) :
    m.hasRed (some a) = some (decide (c.color = .red)) := by
  obtain ⟨r, hr, rfl⟩ := load_eq h
  simp [hasRed, hr, rbIsRed_eq]

@[simp] theorem hasRed_none : m.hasRed none = some false := rfl

/-- The cell at `q` changes by `f`, and nothing else. -/
structure Changes (m : Store) (q : Ptr) (f : Cell Addr → Cell Addr) (m' : Store) : Prop
    extends Edits m.cells q f m'.cells where
  rbNode : m'.rbNode = m.rbNode

theorem modify_spec (h : m.cells a = some c) {f : RbNode → RbNode} {g : Cell Addr → Cell Addr}
    (hf : ∀ r, (f r).cell = g r.cell) : Returns (m.modify (some a) f) (m.Changes (some a) g) := by
  obtain ⟨r, hr, rfl⟩ := load_eq h
  have hn : m.nodes a = some r := hr
  refine ⟨{ m with nodes := Function.update m.nodes a (some (f r)) }, by simp [modify, hn],
    ⟨?_, ?_⟩, rfl⟩
  · rintro b ⟨⟩
    simp [Store.cells, hf, hn]
  · intro b hb
    simp [Store.cells, Function.update_of_ne (fun e => hb (congrArg some e.symm))]

theorem setChild_spec (h : m.cells a = some c) (s : Side) (v : Ptr) :
    Returns (m.setChild s (some a) v) (m.Changes (some a) (.setChild s v)) :=
  modify_spec h fun _ => cell_setChild s v

theorem setParent_spec (h : m.cells a = some c) (v : Ptr) :
    Returns (m.setParent (some a) v) (m.Changes (some a) (.setParent v)) :=
  modify_spec h fun _ => cell_rbSetParent v

theorem setRed_spec (h : m.cells a = some c) :
    Returns (m.setRed (some a)) (m.Changes (some a) (.setColor .red)) :=
  modify_spec h fun _ => cell_rbSetRed

theorem setBlack_spec (h : m.cells a = some c) :
    Returns (m.setBlack (some a)) (m.Changes (some a) (.setColor .black)) :=
  modify_spec h fun _ => cell_rbSetBlack

theorem setColor_spec (h : m.cells a = some c) (d : Color) :
    Returns (m.setColor (some a) (colorWord d)) (m.Changes (some a) (.setColor d)) :=
  modify_spec h fun _ => cell_rbSetColor d

@[simp] theorem cells_setRoot (v : Ptr) : (m.setRoot v).cells = m.cells := rfl

@[simp] theorem rbNode_setRoot (v : Ptr) : (m.setRoot v).rbNode = v := rfl

end Store

/-- `rb_init_node` makes a node that is in no tree: a red node that is its own parent. -/
theorem rbInitNode_spec {m : Store} {a : Addr} {c : Cell Addr} (h : m.cells a = some c) :
    Returns (rbInitNode m (some a))
      (m.Changes (some a) fun _ => ⟨some a, .red, none, none⟩) := by
  have hword : Returns (m.modify (some a) fun r => { r with rbParentColor := 0#64 })
      (m.Changes (some a) fun k => ⟨none, .red, k.left, k.right⟩) :=
    Store.modify_spec h fun r => cell_of_toWord (r := r) none
  rw [rbInitNode]
  refine hword.bind fun m₁ e₁ => ?_
  have h₁ := (e₁.at_eq a rfl).trans (congrArg _ h)
  refine (Store.setChild_spec h₁ .right none).bind fun m₂ e₂ => ?_
  have h₂ := (e₂.at_eq a rfl).trans (congrArg _ h₁)
  refine (Store.setChild_spec h₂ .left none).bind fun m₃ e₃ => ?_
  have h₃ := (e₃.at_eq a rfl).trans (congrArg _ h₂)
  refine (Store.setParent_spec h₃ (some a)).mono fun m₄ e₄ => ⟨⟨?_, fun b hb => ?_⟩, ?_⟩
  · rintro b ⟨⟩
    rw [e₄.at_eq a rfl, h₃, h]
    rfl
  · rw [e₄.off b hb, e₃.off b hb, e₂.off b hb, e₁.off b hb]
  · rw [e₄.rbNode, e₃.rbNode, e₂.rbNode, e₁.rbNode]

end RbTree

end Infra
