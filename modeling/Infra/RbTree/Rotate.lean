import Infra.RbTree.Cells

/-!
# Reading, painting and rotating a tree in memory

`Lays m t` says that the memory holds the tree `t`, from the root pointer on. What
a function does is said about this tree, with the place where it works as the hole
of a path: the loads read it off, a change of colour paints one node, and a rotation
is the rotation of the tree. Each of them leaves all other memory alone.
-/

namespace Infra

namespace RbTree

open Infra.RedBlack

open Infra.RedBlack.ColorTree

/-- The memory holds the tree, and no node stands in it twice. -/
structure Lays (m : Store) (t : ColorTree Addr) : Prop where
  rbNode : m.rbNode = t.root
  nodup : t.toList.Nodup
  laid : Laid m.cells none t

/-- The memory `m'` holds the tree `t'` instead of `t`: the nodes are the same, in the same
order, and all other memory is as in `m`. -/
structure Reshapes (m : Store) (t t' : ColorTree Addr) (m' : Store) : Prop where
  lays : Lays m' t'
  toList : t'.toList = t.toList
  outside : ∀ a, a ∉ t.toList → m'.cells a = m.cells a

/-- The memory `m'` holds the tree `t`, and all other memory is as in `m`. So a node that has
left the tree was not written to. -/
structure Leaves (m : Store) (t : ColorTree Addr) (m' : Store) : Prop where
  lays : Lays m' t
  outside : ∀ a, a ∉ t.toList → m'.cells a = m.cells a

variable {m m' : Store} {p : Path Addr} {t : ColorTree Addr} {s : Side} {c : Color}

theorem Reshapes.refl (h : Lays m t) : Reshapes m t t m := ⟨h, rfl, fun _ _ => rfl⟩

theorem Reshapes.trans {m₁ m₂ m₃ : Store} {t₁ t₂ t₃ : ColorTree Addr} (h₁ : Reshapes m₁ t₁ t₂ m₂)
    (h₂ : Reshapes m₂ t₂ t₃ m₃) : Reshapes m₁ t₁ t₃ m₃ :=
  ⟨h₂.lays, h₂.toList.trans h₁.toList, fun a ha =>
    (h₂.outside a (h₁.toList ▸ ha)).trans (h₁.outside a ha)⟩

/-- A node of the tree is in memory. -/
theorem Lays.live (h : Lays m t) {a : Addr} (ha : a ∈ t.toList) : ∃ k, m.cells a = some k := by
  obtain ⟨p, c, l, r, rfl⟩ := exists_plug_of_mem ha
  exact ⟨_, (laid_plug.mp h.laid).2.1⟩

/-- No node of the memory is lost. -/
theorem Leaves.live (h : Leaves m t m') {a : Addr} (ha : ∃ k, m.cells a = some k) :
    ∃ k, m'.cells a = some k := by
  by_cases hmem : a ∈ t.toList
  · exact h.lays.live hmem
  · rwa [h.outside a hmem]

namespace Lays

/-! ## Reading -/

/-- The cell of a node of the tree. -/
theorem cell {u v : ColorTree Addr} {a : Addr} (h : Lays m (plug p (join s c u a v))) :
    m.cells a = some (.sided s (above p) c u.root v.root) :=
  (laid_join.mp (laid_plug.mp h.laid).2).1

/-- The cell of the node above a hole. -/
theorem cell_above {f : Frame Addr} (h : Lays m (plug (f :: p) t)) :
    m.cells f.val = some (.sided f.side (above p) f.color t.root f.sibling.root) :=
  (laid_plug.mp h.laid).1.1

/-- A cell with what its parent and its colour are, whatever its children. -/
theorem exists_cell (h : Lays m (plug p t)) {a : Addr} (ha : t.root = some a) :
    ∃ k, m.cells a = some k ∧ k.parent = above p ∧ k.color = t.color := by
  obtain ⟨u, v, e⟩ := exists_join_of_root ha .left
  rw [e] at h
  exact ⟨_, h.cell, Cell.parent_sided, Cell.color_sided⟩

theorem parent_eq (h : Lays m (plug p t)) {a : Addr} (ha : t.root = some a) :
    m.parent (some a) = some (above p) := by
  obtain ⟨k, hk, hp, -⟩ := h.exists_cell ha
  rw [Store.parent_eq hk, hp]

theorem color_eq (h : Lays m (plug p t)) {a : Addr} (ha : t.root = some a) :
    m.color (some a) = some (colorWord t.color) := by
  obtain ⟨k, hk, -, hc⟩ := h.exists_cell ha
  rw [Store.color_eq hk, hc]

/-- The test whether a subtree has a red root. -/
theorem hasRed_eq (h : Lays m (plug p t)) : m.hasRed t.root = some (decide (t.color = .red)) := by
  cases hr : t.root with
  | none =>
      rw [root_eq_none.mp hr]
      rfl
  | some a =>
      obtain ⟨k, hk, -, hc⟩ := h.exists_cell hr
      rw [Store.hasRed_eq hk, hc]

theorem child_eq {u v : ColorTree Addr} {a : Addr} (h : Lays m (plug p (join s c u a v))) :
    m.child s (some a) = some u.root := by
  rw [Store.child_eq h.cell, Cell.child_sided]

theorem child_flip_eq {u v : ColorTree Addr} {a : Addr} (h : Lays m (plug p (join s c u a v))) :
    m.child s.flip (some a) = some v.root := by
  rw [Store.child_eq h.cell, Cell.child_flip_sided]

/-- The root of a subtree does not stand around it. -/
theorem notMem_around (h : Lays m (plug p t)) {a : Addr} (ha : a ∈ t.toList) :
    a ∉ around p := (nodup_plug.mp h.nodup).2.2 a ha

theorem above_ne (h : Lays m (plug p t)) {a : Addr} (ha : a ∈ t.toList) : above p ≠ some a :=
  fun e => h.notMem_around ha (above_mem e)

/-! ## Painting -/

/-- A new colour of a node. -/
theorem paint (h : Lays m (plug p t)) {a : Addr} (ha : t.root = some a) {d : Color}
    (hm : m.Changes (some a) (.setColor d) m') :
    Reshapes m (plug p t) (plug p (t.paint d)) m' := by
  obtain ⟨u, v, e⟩ := exists_join_of_root ha .left
  have hpath := (laid_plug.mp h.laid).1
  obtain ⟨ht, haround, hdisj⟩ := nodup_plug.mp h.nodup
  have hoff : ∀ b, b ≠ a → m'.cells b = m.cells b := fun b hb =>
    hm.off b fun e => hb (Option.some.inj e.symm)
  have hlist := toList_plug_congr p (toList_paint d t)
  refine ⟨⟨?_, hlist ▸ h.nodup, laid_plug.mpr ⟨?_, ?_⟩⟩, hlist, fun b hb => hoff b ?_⟩
  · rw [hm.rbNode, h.rbNode, root_plug, root_plug, root_paint]
  · rw [root_paint]
    exact hpath.congr fun b hb => hoff b fun e => hdisj a (root_mem ha) (e ▸ hb)
  · rw [e] at h ht ⊢
    obtain ⟨-, -, hau, hav, -⟩ := nodup_join.mp ht
    obtain ⟨hcell, hu, hv⟩ := laid_join.mp (laid_plug.mp h.laid).2
    rw [paint_join]
    refine laid_join.mpr ⟨?_, hu.congr fun b hb => hoff b ?_, hv.congr fun b hb => hoff b ?_⟩
    · rw [hm.at_eq a rfl, hcell, Option.map_some, Cell.setColor_sided]
    · exact fun e => hau (e ▸ hb)
    · exact fun e => hav (e ▸ hb)
  · rintro rfl
    exact hb (mem_toList_plug.mpr (Or.inl (root_mem ha)))

theorem setBlack_spec (h : Lays m (plug p t)) {a : Addr} (ha : t.root = some a) :
    Returns (m.setBlack (some a)) (Reshapes m (plug p t) (plug p (t.paint .black))) := by
  obtain ⟨k, hk, -⟩ := h.exists_cell ha
  exact (Store.setBlack_spec hk).mono fun _ hm => h.paint ha hm

theorem setRed_spec (h : Lays m (plug p t)) {a : Addr} (ha : t.root = some a) :
    Returns (m.setRed (some a)) (Reshapes m (plug p t) (plug p (t.paint .red))) := by
  obtain ⟨k, hk, -⟩ := h.exists_cell ha
  exact (Store.setRed_spec hk).mono fun _ hm => h.paint ha hm

theorem setColor_spec (h : Lays m (plug p t)) {a : Addr} (ha : t.root = some a) (d : Color) :
    Returns (m.setColor (some a) (colorWord d))
      (Reshapes m (plug p t) (plug p (t.paint d))) := by
  obtain ⟨k, hk, -⟩ := h.exists_cell ha
  exact (Store.setColor_spec hk d).mono fun _ hm => h.paint ha hm

end Lays

/-! ## Rotating -/

/-- The root of a subtree gets another parent. -/
theorem adopt_spec {par : Ptr} (h : Laid m.cells par t) (v : Ptr) :
    Returns (adopt m t.root v) (m.Changes t.root (.setParent v)) := by
  cases t with
  | nil => exact ⟨m, rfl, ⟨by simp, fun _ _ => rfl⟩, rfl⟩
  | node c l a r => exact Store.setParent_spec h.1 v

/-- The pointer in the hole of a path becomes `new`. -/
structure Repoints (m : Store) (p : Path Addr) (new : Ptr) (m' : Store) : Prop
    extends Edits m.cells (above p) (.repoint p new) m'.cells where
  rbNode : m'.rbNode = top p new

/-- `relink` finds the hole whose pointer is `old`. -/
theorem relink_spec {old : Addr} {new : Ptr} (s : Side) (h : PathLaid m.cells p (some old))
    (hroot : m.rbNode = top p (some old)) (hold : old ∉ around p) :
    Returns (relink s m (above p) (some old) new) (Repoints m p new) := by
  cases p with
  | nil => exact ⟨_, rfl, ⟨by simp, fun _ _ => rfl⟩, rfl⟩
  | cons f p =>
      have hsib : f.sibling.root ≠ some old := fun e =>
        hold (mem_around_cons.mpr (Or.inr (Or.inl (root_mem e))))
      have hset : Returns (m.setChild f.side (some f.val) new) (Repoints m (f :: p) new) :=
        (Store.setChild_spec h.1 f.side new).mono fun m' hm =>
          ⟨hm.toEdits, by rw [hm.rbNode, hroot]; rfl⟩
      rw [above_cons, relink, Option.isSome_some, if_pos rfl]
      by_cases hs : f.side = s
      · subst hs
        refine Returns.bind_eq (Store.child_eq h.1 f.side) ?_
        rw [Cell.child_sided, if_pos rfl]
        exact hset
      · obtain rfl : s = f.side.flip := Side.eq_flip (Ne.symm hs)
        refine Returns.bind_eq (Store.child_eq h.1 f.side.flip) ?_
        rw [Cell.child_flip_sided, if_neg hsib, Side.flip_flip]
        exact hset

/-- What `rotate` leaves in the cells. -/
theorem rotate_cells {c₁ c₂ : Color} {u v : ColorTree Addr} {x y : Addr}
    (h : Lays m (plug p (join s c₁ t x (join s c₂ u y v)))) :
    Returns (rotate s m (some x)) fun m' =>
      Rotates m.cells m'.cells s p t c₁ x u c₂ y v ∧ m'.rbNode = top p (some y) := by
  obtain ⟨hpath, hlaid⟩ := laid_plug.mp h.laid
  obtain ⟨hx, -, hlaid⟩ := laid_join.mp hlaid
  obtain ⟨hy, hu, -⟩ := laid_join.mp hlaid
  obtain ⟨hnd, -, hdisj⟩ := nodup_plug.mp h.nodup
  obtain ⟨-, hnd', -, hxr, -⟩ := nodup_join.mp hnd
  obtain ⟨-, -, hyu, -, -⟩ := nodup_join.mp hnd'
  rw [root_join] at hx hpath
  simp only [mem_toList_join, not_or] at hxr hdisj
  -- the cells that change are different ones
  have hxy : some y ≠ some x := fun e => hxr.1 (Option.some.inj e.symm)
  have hux : u.root ≠ some x := fun e => hxr.2.1 (root_mem e)
  have huy : u.root ≠ some y := fun e => hyu (root_mem e)
  have hp : ∀ b, b = x ∨ b ∈ t.toList ∨ b = y ∨ b ∈ u.toList ∨ b ∈ v.toList →
      above p ≠ some b := fun b hb e => hdisj b hb (above_mem e)
  rw [rotate]
  refine Returns.bind_eq (Store.child_eq hx s.flip) ?_
  refine Returns.bind_eq (Store.parent_eq hx) ?_
  rw [Cell.child_flip_sided, Cell.parent_sided]
  refine Returns.bind_eq (Store.child_eq hy s) ?_
  rw [Cell.child_sided]
  refine (Store.setChild_spec hx s.flip u.root).bind fun m₁ e₁ => ?_
  have hy₁ := (e₁.off y hxy.symm).trans hy
  have hu₁ : Laid m₁.cells (some y) u := hu.congr fun b hb => e₁.off b fun e => hxr.2.1 (by
    rwa [Option.some.inj e])
  refine (adopt_spec hu₁ (some x)).bind fun m₂ e₂ => ?_
  have hy₂ := (e₂.off y huy).trans hy₁
  refine (Store.setChild_spec hy₂ s (some x)).bind fun m₃ e₃ => ?_
  have hy₃ := (e₃.at_eq y rfl).trans (congrArg _ hy₂)
  refine (Store.setParent_spec hy₃ (above p)).bind fun m₄ e₄ => ?_
  have hne : ∀ b, b ≠ x → b ≠ y → u.root ≠ some b → m₄.cells b = m.cells b := by
    intro b hbx hby hbu
    have hby' : some y ≠ some b := fun e => hby (Option.some.inj e.symm)
    rw [e₄.off b hby', e₃.off b hby', e₂.off b hbu,
      e₁.off b fun e => hbx (Option.some.inj e.symm)]
  have hpath₄ : PathLaid m₄.cells p (some x) := hpath.congr fun b hb =>
    hne b (fun e => hdisj b (by tauto) hb) (fun e => hdisj b (by tauto) hb)
      fun e => hdisj b (by simp [root_mem e]) hb
  have hroot₄ : m₄.rbNode = top p (some x) := by
    rw [e₄.rbNode, e₃.rbNode, e₂.rbNode, e₁.rbNode, h.rbNode, root_plug, root_join]
  refine (relink_spec s hpath₄ hroot₄ (hdisj x (by simp))).bind fun m₅ e₅ => ?_
  have hx₅ : m₅.cells x = some (.sided s (above p) c₁ t.root u.root) := by
    rw [e₅.off x (hp x (by simp)), e₄.off x hxy, e₃.off x hxy, e₂.off x hux, e₁.at_eq x rfl, hx,
      Option.map_some, Cell.setChild_flip_sided]
  refine (Store.setParent_spec hx₅ (some y)).mono fun m₆ e₆ => ⟨⟨?_, ?_, ?_, ?_, ?_⟩, ?_⟩
  · rw [e₆.at_eq x rfl, hx₅, Option.map_some, Cell.setParent_sided]
  · rw [e₆.off y hxy.symm, e₅.off y (hp y (by simp)), e₄.at_eq y rfl, hy₃]
    simp
  · intro b hb
    have hbx : some x ≠ some b := fun e => hux (hb.trans e.symm)
    have hby : some y ≠ some b := fun e => huy (hb.trans e.symm)
    rw [e₆.off b hbx, e₅.off b (hp b (by simp [root_mem hb])), e₄.off b hby, e₃.off b hby,
      e₂.at_eq b hb, e₁.off b hbx]
  · intro b hb
    have hbx : x ≠ b := fun e => hp b (by simp [e]) hb
    have hby : y ≠ b := fun e => hp b (by simp [e]) hb
    rw [e₆.off b (by simpa using hbx), e₅.at_eq b hb, hne b hbx.symm hby.symm]
    exact fun e => hp b (by simp [root_mem e]) hb
  · intro b hbx hby hbu hbp
    rw [e₆.off b (fun e => hbx (Option.some.inj e.symm)), e₅.off b hbp, hne b hbx hby hbu]
  · rw [e₆.rbNode, e₅.rbNode]

/-- A rotation in memory is the rotation of the tree. -/
theorem rotate_spec {c₁ c₂ : Color} {u v : ColorTree Addr} {x y : Addr}
    (h : Lays m (plug p (join s c₁ t x (join s c₂ u y v)))) :
    Returns (rotate s m (some x))
      (Reshapes m (plug p (join s c₁ t x (join s c₂ u y v)))
        (plug p (join s c₂ (join s c₁ t x u) y v))) := by
  have hlist := (toList_plug_congr p (toList_rotate s c₁ c₂ c₁ c₂ t u v x y)).symm
  refine (rotate_cells h).mono fun m' hm =>
    ⟨⟨?_, hlist ▸ h.nodup, hm.1.laid h.laid h.nodup⟩, hlist, fun b hb => ?_⟩
  · rw [hm.2, root_plug, root_join]
  · simp only [mem_toList_plug, mem_toList_join, not_or] at hb
    exact hm.1.off b hb.1.1 hb.1.2.2.1 (fun e => hb.1.2.2.2.1 (root_mem e))
      fun e => hb.2 (above_mem e)

end RbTree

end Infra
