import Infra.Foundation.RedBlack.Tree
import Mathlib.Logic.Function.Basic

/-!
# Trees linked by pointers

In memory a node of a tree is a cell with a pointer to its parent, a colour and a
pointer to each child. `Laid cells par t` says that the cells hold the tree `t`
under the parent `par`, and `PathLaid cells p x` that they hold the nodes of the
path `p`, with the pointer `x` in its hole. A tree with a hole is laid out when its
path is and the subtree is, so a change at a hole is a change of few cells.
-/

namespace Infra

namespace RedBlack

/-- A node in memory. -/
@[ext]
structure Cell (α : Type*) where
  parent : Option α
  color : Color
  left : Option α
  right : Option α

namespace Cell

variable {α : Type*}

/-- The pointer to the child on a side. -/
def child (c : Cell α) : Side → Option α
  | .left => c.left
  | .right => c.right

/-- Another pointer to the child on a side. -/
def setChild (s : Side) (v : Option α) (c : Cell α) : Cell α :=
  match s with
  | .left => { c with left := v }
  | .right => { c with right := v }

/-- Another pointer to the parent. -/
def setParent (v : Option α) (c : Cell α) : Cell α := { c with parent := v }

/-- Another colour. -/
def setColor (d : Color) (c : Cell α) : Cell α := { c with color := d }

/-- The cell with the pointer `near` on the side `s` and `far` on the other side. -/
def sided (s : Side) (par : Option α) (c : Color) (near far : Option α) : Cell α :=
  match s with
  | .left => ⟨par, c, near, far⟩
  | .right => ⟨par, c, far, near⟩

variable {s : Side} {par near far v : Option α} {c d : Color}

@[simp] theorem parent_sided : (sided s par c near far).parent = par := by cases s <;> rfl

@[simp] theorem color_sided : (sided s par c near far).color = c := by cases s <;> rfl

@[simp] theorem child_sided : (sided s par c near far).child s = near := by cases s <;> rfl

@[simp] theorem child_flip_sided : (sided s par c near far).child s.flip = far := by
  cases s <;> rfl

@[simp] theorem setChild_sided :
    (sided s par c near far).setChild s v = sided s par c v far := by
  cases s <;> rfl

@[simp] theorem setChild_flip_sided :
    (sided s par c near far).setChild s.flip v = sided s par c near v := by
  cases s <;> rfl

@[simp] theorem setParent_sided :
    (sided s par c near far).setParent v = sided s v c near far := by
  cases s <;> rfl

@[simp] theorem setColor_sided :
    (sided s par c near far).setColor d = sided s par d near far := by
  cases s <;> rfl

/-- The side of a pointer can be told when the other side has another pointer. -/
theorem left_sided_eq_iff (h : far ≠ near) :
    (sided s par c near far).child .left = near ↔ s = .left := by
  cases s
  · exact iff_of_true rfl rfl
  · exact iff_of_false h (by simp)

end Cell

/-- The nodes of a memory. -/
abbrev Cells (α : Type*) := α → Option (Cell α)

/-- Only the cell at `q` changes, by `f`; nothing changes when `q` is NULL. -/
structure Edits {α : Type*} (cells : Cells α) (q : Option α) (f : Cell α → Cell α)
    (cells' : Cells α) : Prop where
  at_eq : ∀ a, q = some a → cells' a = (cells a).map f
  off : ∀ a, q ≠ some a → cells' a = cells a

/-- What a new pointer in the hole of a path does to the cell above it. -/
def Cell.repoint {α : Type*} (p : Path α) (v : Option α) (c : Cell α) : Cell α :=
  (p.head?.map fun f => c.setChild f.side v).getD c

section Layout

variable {α : Type*} {cells cells' : Cells α}

open ColorTree

/-- The cells hold the tree, under the parent `par`. -/
def Laid (cells : Cells α) : Option α → ColorTree α → Prop
  | _, .nil => True
  | par, .node c l a r =>
      cells a = some ⟨par, c, l.root, r.root⟩ ∧ Laid cells (some a) l ∧ Laid cells (some a) r

/-- The cells hold the nodes of the path, with the pointer `x` in its hole. -/
def PathLaid (cells : Cells α) : Path α → Option α → Prop
  | [], _ => True
  | f :: p, x =>
      cells f.val = some (.sided f.side (above p) f.color x f.sibling.root) ∧
        Laid cells (some f.val) f.sibling ∧ PathLaid cells p (some f.val)

@[simp] theorem laid_nil {par : Option α} : Laid cells par (nil : ColorTree α) := trivial

theorem laid_join {par : Option α} {s : Side} {c : Color} {t u : ColorTree α} {a : α} :
    Laid cells par (join s c t a u) ↔
      cells a = some (.sided s par c t.root u.root) ∧
        Laid cells (some a) t ∧ Laid cells (some a) u := by
  cases s
  · exact Iff.rfl
  · simp only [join, Laid, Cell.sided]
    tauto

@[simp] theorem pathLaid_nil {x : Option α} : PathLaid cells ([] : Path α) x := trivial

theorem pathLaid_cons {f : Frame α} {p : Path α} {x : Option α} :
    PathLaid cells (f :: p) x ↔
      cells f.val = some (.sided f.side (above p) f.color x f.sibling.root) ∧
        Laid cells (some f.val) f.sibling ∧ PathLaid cells p (some f.val) :=
  Iff.rfl

/-- A tree only depends on the cells of its nodes. -/
theorem Laid.congr {par : Option α} {t : ColorTree α} (h : Laid cells par t)
    (e : ∀ a ∈ t.toList, cells' a = cells a) : Laid cells' par t := by
  induction t generalizing par with
  | nil => trivial
  | node c l a r ihl ihr =>
      exact ⟨(e a (by simp)).trans h.1, ihl h.2.1 fun b hb => e b (by simp [hb]),
        ihr h.2.2 fun b hb => e b (by simp [hb])⟩

/-- A path only depends on the cells of its nodes. -/
theorem PathLaid.congr {p : Path α} {x : Option α} (h : PathLaid cells p x)
    (e : ∀ a ∈ around p, cells' a = cells a) : PathLaid cells' p x := by
  induction p generalizing x with
  | nil => trivial
  | cons f p ih =>
      refine ⟨(e f.val ?_).trans h.1, h.2.1.congr fun a ha => e a ?_,
        ih h.2.2 fun a ha => e a ?_⟩
      · rw [mem_around_cons]
        exact Or.inl rfl
      · rw [mem_around_cons]
        exact Or.inr (Or.inl ha)
      · rw [mem_around_cons]
        exact Or.inr (Or.inr ha)

/-- A tree is laid out when the path to a subtree is, and the subtree. -/
theorem laid_plug {p : Path α} {t : ColorTree α} :
    Laid cells none (plug p t) ↔ PathLaid cells p t.root ∧ Laid cells (above p) t := by
  induction p generalizing t with
  | nil => simp
  | cons f p ih =>
      rw [plug_cons, ih, pathLaid_cons, Frame.fill, laid_join, root_join, above_cons]
      tauto

/-- A tree whose root has another parent. -/
theorem Laid.reparent {par par' : Option α} {t : ColorTree α} (h : Laid cells par t)
    (hd : t.toList.Nodup)
    (e : ∀ a, t.root = some a → cells' a = (cells a).map (.setParent par'))
    (e' : ∀ a ∈ t.toList, t.root ≠ some a → cells' a = cells a) : Laid cells' par' t := by
  cases t with
  | nil => trivial
  | node c l a r =>
      obtain ⟨ha, hl, hr⟩ := h
      obtain ⟨-, -, hal, har, -⟩ := (nodup_join (s := .left)).mp hd
      refine ⟨by rw [e a rfl, ha]; rfl, hl.congr fun b hb => e' b (by simp [hb]) ?_,
        hr.congr fun b hb => e' b (by simp [hb]) ?_⟩
      · rintro ⟨⟩
        exact hal hb
      · rintro ⟨⟩
        exact har hb

/-- A path whose hole has another pointer. -/
theorem PathLaid.repoint {p : Path α} {x y : Option α} (h : PathLaid cells p x)
    (hd : (around p).Nodup)
    (e : ∀ a, above p = some a → cells' a = (cells a).map (.repoint p y))
    (e' : ∀ a ∈ around p, above p ≠ some a → cells' a = cells a) : PathLaid cells' p y := by
  cases p with
  | nil => trivial
  | cons f p =>
      obtain ⟨hf, hu, hp⟩ := h
      obtain ⟨-, -, hfu, hfp, -⟩ := nodup_around_cons.mp hd
      refine ⟨by rw [e f.val rfl, hf]; simp [Cell.repoint],
        hu.congr fun b hb => e' b (mem_around_cons.mpr (Or.inr (Or.inl hb))) ?_,
        hp.congr fun b hb => e' b (mem_around_cons.mpr (Or.inr (Or.inr hb))) ?_⟩
      · rintro ⟨⟩
        exact hfu hb
      · rintro ⟨⟩
        exact hfp hb

/-- What the rotation of the node `x` under a path leaves in the cells: `y` comes up, and
the subtree `u` between the two goes over to `x`. -/
structure Rotates (cells cells' : Cells α) (s : Side) (p : Path α) (t : ColorTree α) (c₁ : Color)
    (x : α) (u : ColorTree α) (c₂ : Color) (y : α) (v : ColorTree α) : Prop where
  low : cells' x = some (.sided s (some y) c₁ t.root u.root)
  up : cells' y = some (.sided s (above p) c₂ (some x) v.root)
  inner : ∀ b, u.root = some b → cells' b = (cells b).map (.setParent (some x))
  link : ∀ b, above p = some b → cells' b = (cells b).map (.repoint p (some y))
  off : ∀ b, b ≠ x → b ≠ y → u.root ≠ some b → above p ≠ some b → cells' b = cells b

/-- A rotation of the cells is a rotation of the tree. -/
theorem Rotates.laid {s : Side} {p : Path α} {c₁ c₂ : Color} {t u v : ColorTree α} {x y : α}
    (r : Rotates cells cells' s p t c₁ x u c₂ y v)
    (h : Laid cells none (plug p (join s c₁ t x (join s c₂ u y v))))
    (hd : (plug p (join s c₁ t x (join s c₂ u y v))).toList.Nodup) :
    Laid cells' none (plug p (join s c₂ (join s c₁ t x u) y v)) := by
  obtain ⟨hpath, hlaid⟩ := laid_plug.mp h
  obtain ⟨-, ht, hlaid⟩ := laid_join.mp hlaid
  obtain ⟨-, hu, hv⟩ := laid_join.mp hlaid
  obtain ⟨hnd, haround, hdisj⟩ := nodup_plug.mp hd
  obtain ⟨-, hnd', hxt, hxr, hdt⟩ := nodup_join.mp hnd
  obtain ⟨hndu, -, hyu, hyv, hduv⟩ := nodup_join.mp hnd'
  simp only [mem_toList_join, not_or] at hxr hdt
  have hoff : ∀ b, b = x ∨ b ∈ t.toList ∨ b = y ∨ b ∈ u.toList ∨ b ∈ v.toList →
      above p ≠ some b := fun b hb e => hdisj b (by simpa using hb) (above_mem e)
  refine laid_plug.mpr ⟨?_, laid_join.mpr ⟨by simpa using r.up, laid_join.mpr
    ⟨r.low, ht.congr ?_, hu.reparent hndu r.inner ?_⟩, hv.congr ?_⟩⟩
  · rw [root_join]
    refine hpath.repoint haround r.link fun b hb hbp => r.off b ?_ ?_ ?_ hbp
    · exact fun e => hdisj x (by simp) (e ▸ hb)
    · exact fun e => hdisj y (by simp) (e ▸ hb)
    · exact fun e => hdisj b (by simp [root_mem e]) hb
  · refine fun b hb => r.off b ?_ ?_ ?_ (hoff b (by tauto))
    · exact fun e => hxt (e ▸ hb)
    · exact fun e => (hdt b hb).1 e
    · exact fun e => (hdt b hb).2.1 (root_mem e)
  · refine fun b hb hbu => r.off b ?_ ?_ hbu (hoff b (by tauto))
    · exact fun e => hxr.2.1 (e ▸ hb)
    · exact fun e => hyu (e ▸ hb)
  · refine fun b hb => r.off b ?_ ?_ ?_ (hoff b (by tauto))
    · exact fun e => hxr.2.2 (e ▸ hb)
    · exact fun e => hyv (e ▸ hb)
    · exact fun e => hduv b (root_mem e) hb

/-- What it leaves in the cells when the subtree `u` comes to the place of its parent under a
path. -/
structure Unlinks (cells cells' : Cells α) (p : Path α) (u : ColorTree α) : Prop where
  inner : ∀ b, u.root = some b → cells' b = (cells b).map (.setParent (above p))
  link : ∀ b, above p = some b → cells' b = (cells b).map (.repoint p u.root)
  off : ∀ b, u.root ≠ some b → above p ≠ some b → cells' b = cells b

/-- The only subtree of a node may take its place. -/
theorem Unlinks.laid {s : Side} {p : Path α} {c : Color} {u : ColorTree α} {a : α}
    (r : Unlinks cells cells' p u) (h : Laid cells none (plug p (join s c nil a u)))
    (hd : (plug p (join s c nil a u)).toList.Nodup) : Laid cells' none (plug p u) := by
  obtain ⟨hpath, hlaid⟩ := laid_plug.mp h
  obtain ⟨-, -, hu⟩ := laid_join.mp hlaid
  obtain ⟨hnd, haround, hdisj⟩ := nodup_plug.mp hd
  obtain ⟨-, hndu, -, -, -⟩ := nodup_join.mp hnd
  refine laid_plug.mpr ⟨hpath.repoint haround r.link fun b hb hbp => r.off b ?_ hbp,
    hu.reparent hndu r.inner fun b hb hbu => r.off b hbu ?_⟩
  · exact fun e => hdisj b (by simp [root_mem e]) hb
  · exact fun e => hdisj b (by simp [hb]) (above_mem e)

/-- The memory in which a subtree has come to the place of its parent. -/
theorem exists_unlinks (cells : Cells α) {p : Path α} {u : ColorTree α}
    (h : ∀ b, u.root = some b → above p ≠ some b) : ∃ cells', Unlinks cells cells' p u := by
  classical
  refine ⟨fun b => if u.root = some b then (cells b).map (.setParent (above p))
    else if above p = some b then (cells b).map (.repoint p u.root) else cells b,
    fun b hb => if_pos hb, fun b hb => ?_, fun b hbu hbp => ?_⟩
  · rw [if_neg fun e => h b e hb, if_pos hb]
  · rw [if_neg hbu, if_neg hbp]

/-- What it leaves in the cells when the node `y` takes the place of the node `a`. -/
structure Replaces (cells cells' : Cells α) (p : Path α) (c : Color) (l : ColorTree α) (a : α)
    (r : ColorTree α) (y : α) : Prop where
  new : cells' y = some ⟨above p, c, l.root, r.root⟩
  left : ∀ b, l.root = some b → cells' b = (cells b).map (.setParent (some y))
  right : ∀ b, r.root = some b → cells' b = (cells b).map (.setParent (some y))
  link : ∀ b, above p = some b → cells' b = (cells b).map (.repoint p (some y))
  off : ∀ b, b ≠ a → b ≠ y → l.root ≠ some b → r.root ≠ some b → above p ≠ some b →
    cells' b = cells b

/-- A node that is not in the tree may take the place of one that is. -/
theorem Replaces.laid {p : Path α} {c : Color} {l r : ColorTree α} {a y : α}
    (w : Replaces cells cells' p c l a r y) (h : Laid cells none (plug p (node c l a r)))
    (hd : (plug p (node c l a r)).toList.Nodup) (hy : y ∉ (plug p (node c l a r)).toList) :
    Laid cells' none (plug p (node c l y r)) := by
  obtain ⟨hpath, -, hl, hr⟩ := laid_plug.mp h
  obtain ⟨hnd, haround, hdisj⟩ := nodup_plug.mp hd
  obtain ⟨hndl, hndr, hal, har, hlr⟩ := (nodup_join (s := .left)).mp hnd
  simp only [mem_toList_plug, toList_node, List.mem_append, List.mem_cons, not_or] at hy hdisj
  have hoff : ∀ b, b = a ∨ b ∈ l.toList ∨ b ∈ r.toList → above p ≠ some b :=
    fun b hb e => hdisj b (by tauto) (above_mem e)
  refine laid_plug.mpr ⟨?_, w.new, ?_, ?_⟩
  · refine hpath.repoint haround w.link fun b hb hbp => w.off b ?_ ?_ ?_ ?_ hbp
    · exact fun e => hdisj a (by simp) (e ▸ hb)
    · exact fun e => hy.2 (e ▸ hb)
    · exact fun e => hdisj b (by simp [root_mem e]) hb
    · exact fun e => hdisj b (by simp [root_mem e]) hb
  · refine hl.reparent hndl w.left fun b hb hbl => w.off b ?_ ?_ hbl ?_ (hoff b (by tauto))
    · exact fun e => hal (e ▸ hb)
    · exact fun e => hy.1.1 (e ▸ hb)
    · exact fun e => hlr b hb (root_mem e)
  · refine hr.reparent hndr w.right fun b hb hbr => w.off b ?_ ?_ ?_ hbr (hoff b (by tauto))
    · exact fun e => har (e ▸ hb)
    · exact fun e => hy.1.2.2 (e ▸ hb)
    · exact fun e => hlr b (root_mem e) hb

end Layout

end RedBlack

end Infra
