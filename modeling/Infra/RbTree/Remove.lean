import Infra.RbTree.Erase

/-!
# Removing a node

`rb_erase` takes a node with at most one child out by putting the child in its
place. A node with two children is replaced by the next node of the tree, which is
taken out of its own place first. Where the node that has left its place was black,
the climb of `__rb_erase_color` follows.
-/

namespace Infra

namespace RbTree

open Infra.RedBlack

open Infra.RedBlack.ColorTree

variable {m : Store} {p : Path Addr} {t : ColorTree Addr}

/-- The walk down to the outermost node. -/
theorem descend_spec {s : Side} {q : Path Addr} {c : Color} {y : Addr} {w : ColorTree Addr}
    (h : Lays m (plug (q ++ p) (join s c nil y w))) (hq : ∀ f ∈ q, f.side = s) {fuel : ℕ}
    (hfuel : q.length < fuel) : descend s fuel m (top q (some y)) = some (some y) := by
  induction q using List.reverseRecOn generalizing p fuel with
  | nil =>
      obtain ⟨fuel, rfl⟩ : ∃ i, fuel = i + 1 := ⟨fuel - 1, by omega⟩
      rw [List.nil_append] at h
      simp [descend, top, h.child_eq]
  | append_singleton q f ih =>
      obtain ⟨fuel, rfl⟩ : ∃ i, fuel = i + 1 := ⟨fuel - 1, by omega⟩
      rw [List.append_assoc, List.singleton_append] at h
      have hf : f.side = s := hq f (by simp)
      have hchild : m.child s (some f.val) = some (top q (some y)) := by
        have habove := h
        rw [plug_append] at habove
        rw [← hf, Store.child_eq habove.cell_above, Cell.child_sided, root_plug, root_join]
      have hlen : q.length < fuel := by simpa using hfuel
      have hdown := ih h (fun g hg => hq g (by simp [hg])) hlen
      obtain ⟨b, hb⟩ : ∃ b, top q (some y) = some b := by
        cases q with
        | nil => exact ⟨y, rfl⟩
        | cons g q => exact (exists_top (f := g) (p := q) (x := some y)).imp fun _ h => h.1
      rw [top_append]
      simp only [top, descend, hchild, Option.bind_eq_bind, Option.bind_some]
      rw [if_pos (by rw [hb]; rfl), hdown]

/-- The end of `rb_erase`. -/
theorem eraseColored_spec {k : ℕ} {c : Color} {T : ColorTree Addr} (hT : Removes k p t c T)
    (h : Lays m (plug p t)) {fuel : ℕ} (hfuel : k < fuel) :
    Returns (eraseColored fuel m (colorWord c) t.root (above p)) (Reshapes m (plug p t) T) := by
  cases hT with
  | red =>
      rw [eraseColored, if_neg (by decide)]
      exact Returns.some_iff.mpr (.refl h)
  | black hfix =>
      rw [eraseColored, if_pos (by decide)]
      exact rbEraseColor_spec hfix h hfuel

/-- The child of a node without another child takes its place. -/
theorem eraseSingle_spec {s : Side} {k : ℕ} {c : Color} {a : Addr} {u T : ColorTree Addr}
    (h : Lays m (plug p (join s c nil a u))) (hT : Removes k p u c T) {fuel : ℕ}
    (hfuel : k < fuel) :
    Returns (eraseSingle fuel m (some a) u.root) (Leaves m T) := by
  obtain ⟨hpath, hlaid⟩ := laid_plug.mp h.laid
  obtain ⟨-, -, hu⟩ := laid_join.mp hlaid
  obtain ⟨hnd, haround, hdisj⟩ := nodup_plug.mp h.nodup
  rw [root_join] at hpath
  have hpu : ∀ b, u.root = some b → above p ≠ some b := fun b hb =>
    h.above_ne (by simp [root_mem hb])
  rw [eraseSingle]
  refine Returns.bind_eq (h.parent_eq (root_join ..)) ?_
  refine Returns.bind_eq (h.color_eq (root_join ..)) ?_
  refine (adopt_spec hu (above p)).bind fun m₁ e₁ => ?_
  have hpath₁ : PathLaid m₁.cells p (some a) := hpath.congr fun b hb => e₁.off b fun e =>
    hdisj b (by simp [root_mem e]) hb
  have hroot₁ : m₁.rbNode = top p (some a) := by rw [e₁.rbNode, h.rbNode, root_plug, root_join]
  refine (relink_spec .left hpath₁ hroot₁ (h.notMem_around (by simp))).bind fun m₂ e₂ => ?_
  have hunlinks : Unlinks m.cells m₂.cells p u := by
    refine ⟨fun b hb => ?_, fun b hb => ?_, fun b hbu hbp => ?_⟩
    · rw [e₂.off b (hpu b hb), e₁.at_eq b hb]
    · rw [e₂.at_eq b hb, e₁.off b fun e => hpu b e hb]
    · rw [e₂.off b hbp, e₁.off b hbu]
  have h₂ : Lays m₂ (plug p u) := by
    refine ⟨?_, ?_, hunlinks.laid h.laid h.nodup⟩
    · rw [e₂.rbNode, root_plug]
    · obtain ⟨-, hndu, -, -, -⟩ := nodup_join.mp hnd
      exact nodup_plug.mpr ⟨hndu, haround, fun b hb => hdisj b (by simp [hb])⟩
  rw [color_join]
  refine (eraseColored_spec hT h₂ hfuel).mono fun m₃ h₃ => ⟨h₃.lays, fun b hb => ?_⟩
  rw [hT.toList] at hb
  rw [h₃.outside b hb, hunlinks.off b]
  · exact fun e => hb (mem_toList_plug.mpr (Or.inl (root_mem e)))
  · exact fun e => hb (mem_toList_plug.mpr (Or.inr (above_mem e)))

/-! ## A node with two children -/

/-- The node `y` has left its place, to which its subtree has come in `cells`; the pointer to
`a` and the right subtree `u` of `a` have gone over to it. -/
structure Steps (cells : Cells Addr) (p : Path Addr) (a : Addr) (u : ColorTree Addr) (y : Addr)
    (k : Cell Addr) (m' : Store) : Prop where
  new : ∃ k', m'.cells y = some k' ∧ k'.right = u.root
  old : m'.cells a = some k
  right : ∀ b, u.root = some b → m'.cells b = (cells b).map (.setParent (some y))
  link : ∀ b, above p = some b → m'.cells b = (cells b).map (.repoint p (some y))
  off : ∀ b, b ≠ a → b ≠ y → u.root ≠ some b → above p ≠ some b → m'.cells b = cells b
  rbNode : m'.rbNode = top p (some y)

section Double

variable {q : Path Addr} {c d : Color} {l w : ColorTree Addr} {a y : Addr} {cells : Cells Addr}
  {m₁ : Store}

/-- The next node stands right under the node to erase. -/
theorem eraseUnlink_nil (h : Lays m (plug p (node c l a (join .left d nil y w))))
    (hcells : Unlinks m.cells cells (⟨.right, c, a, l⟩ :: p) w)
    (e₁ : Repoints m p (some y) m₁) :
    Returns (eraseUnlink m₁ (some a) (some y) w.root (some a)) fun x =>
      Steps cells p a w y ⟨above p, c, l.root, some y⟩ x.1 ∧ x.2 = some y := by
  have hup : Lays m (plug (⟨.right, c, a, l⟩ :: p) (join .left d nil y w)) := h
  have hsub : Lays m (plug (⟨.right, d, y, nil⟩ :: ⟨.right, c, a, l⟩ :: p) w) := h
  obtain ⟨hnd, -, hdisj⟩ := nodup_plug.mp h.nodup
  have hp : ∀ b, b ∈ (node c l a (join .left d nil y w)).toList → above p ≠ some b :=
    fun b hb e => hdisj b hb (above_mem e)
  simp only [toList_node, List.mem_append, List.mem_cons, mem_toList_join] at hp
  have hlink : ∀ b, w.root ≠ some b → b ≠ a → cells b = m.cells b := fun b hbw hba =>
    hcells.off b hbw fun e => hba (Option.some.inj e.symm)
  rw [eraseUnlink, if_pos rfl, Returns.some_iff]
  refine ⟨⟨⟨_, (e₁.off y (hp y (by simp))).trans hup.cell, rfl⟩, ?_, ?_, ?_, ?_, e₁.rbNode⟩, rfl⟩
  · rw [e₁.off a (hp a (by simp)), hup.cell_above, root_join]
    rfl
  · -- the parent of the subtree was `y` before
    intro b hb
    obtain ⟨k, hk, hpar, -⟩ := hsub.exists_cell hb
    rw [e₁.off b (hp b (by simp [root_mem hb])), hcells.inner b hb, hk]
    exact congrArg some (Cell.ext hpar rfl rfl rfl)
  · intro b hb
    rw [e₁.at_eq b hb, hlink b (fun e => hp b (by simp [root_mem e]) hb)]
    rintro rfl
    exact hp b (by simp) hb
  · intro b hba _ hbw hbp
    rw [e₁.off b hbp, hlink b hbw hba]

/-- The next node stands further down, at the end of a way to the left. -/
theorem eraseUnlink_cons {f : Frame Addr}
    (h : Lays m (plug p (node c l a (plug (f :: q) (join .left d nil y w)))))
    (hf : f.side = .left)
    (hcells : Unlinks m.cells cells (f :: q ++ ⟨.right, c, a, l⟩ :: p) w)
    (e₁ : Repoints m p (some y) m₁) :
    Returns (eraseUnlink m₁ (some a) (some y) w.root (some f.val)) fun x =>
      Steps cells p a (plug (f :: q) w) y ⟨above p, c, l.root, top (f :: q) (some y)⟩ x.1 ∧
        x.2 = some f.val := by
  have hdown : Lays m (plug (f :: q ++ ⟨.right, c, a, l⟩ :: p) (join .left d nil y w)) := by
    rw [plug_append]
    exact h
  have hright : Lays m (plug (⟨.right, c, a, l⟩ :: p) (plug (f :: q) (join .left d nil y w))) := h
  obtain ⟨hpath, hlaid⟩ := laid_plug.mp hdown.laid
  obtain ⟨hy, -, hw⟩ := laid_join.mp hlaid
  obtain ⟨hnd, -, hdisj⟩ := nodup_plug.mp h.nodup
  obtain ⟨-, hndr, hal, har, hlr⟩ := (nodup_join (s := .left)).mp hnd
  obtain ⟨hndy, -, hdisjr⟩ := nodup_plug.mp hndr
  obtain ⟨-, -, -, hyw, -⟩ := nodup_join.mp hndy
  simp only [mem_toList_plug, mem_toList_join, not_or] at har hdisjr
  have hp : ∀ b, b ∈ (node c l a (plug (f :: q) (join .left d nil y w))).toList →
      above p ≠ some b := fun b hb e => hdisj b hb (above_mem e)
  simp only [toList_node, List.mem_append, List.mem_cons, mem_toList_plug, mem_toList_join] at hp
  have hfmem : f.val ∈ around (f :: q) := mem_around_cons.mpr (Or.inl rfl)
  obtain ⟨g, hg, hgmem⟩ := exists_top (f := f) (p := q) (x := some y)
  have hrepoint : ∀ v, Cell.repoint (f :: q ++ ⟨.right, c, a, l⟩ :: p) v = .setChild .left v :=
    fun v => by rw [← hf]; rfl
  have hfa : some f.val ≠ some a := fun e => har.2 (Option.some.inj e ▸ hfmem)
  have hwf : w.root ≠ some f.val := fun e => hdisjr f.val (by simp [root_mem e]) hfmem
  have hfy : some f.val ≠ some y := fun e => hdisjr y (by simp) (Option.some.inj e ▸ hfmem)
  have hgy : some g ≠ some y := fun e => hdisjr y (by simp) (Option.some.inj e ▸ hgmem)
  have hga : some g ≠ some a := fun e => har.2 (Option.some.inj e ▸ hgmem)
  have hwy : w.root ≠ some y := fun e => hyw (root_mem e)
  have hwa : w.root ≠ some a := fun e => har.1.2.2 (root_mem e)
  have hya : some y ≠ some a := fun e => har.1.1 (Option.some.inj e).symm
  rw [eraseUnlink, if_neg hfa]
  have hw₁ : Laid m₁.cells (some y) w := hw.congr fun b hb => e₁.off b (hp b (by simp [hb]))
  refine (adopt_spec hw₁ (some f.val)).bind fun m₂ e₂ => ?_
  have hf₂ : m₂.cells f.val = m.cells f.val := by
    rw [e₂.off f.val hwf, e₁.off f.val (hp f.val (by simp))]
  refine (Store.setChild_spec (hf₂.trans hpath.1) .left w.root).bind fun m₃ e₃ => ?_
  -- the next node has left its place
  have h₃ : ∀ b, above p ≠ some b → m₃.cells b = cells b := by
    intro b hb
    by_cases hbf : some f.val = some b
    · obtain rfl := Option.some.inj hbf
      rw [e₃.at_eq _ rfl, hf₂, hcells.link _ rfl, hrepoint]
    · rw [e₃.off b hbf]
      by_cases hbw : w.root = some b
      · rw [e₂.at_eq b hbw, e₁.off b hb, hcells.inner b hbw]
        rfl
      · rw [e₂.off b hbw, e₁.off b hb, hcells.off b hbw hbf]
  have hold : ∀ b, some f.val ≠ some b → w.root ≠ some b → cells b = m.cells b :=
    fun b hbf hbw => hcells.off b hbw hbf
  have ha₃ : m₃.cells a = some ⟨above p, c, l.root, some g⟩ := by
    rw [h₃ a (hp a (by simp)), hold a hfa hwa, hright.cell_above, root_plug, root_join, hg]
    rfl
  refine Returns.bind_eq (Store.child_eq ha₃ .right) ?_
  have hy₃ := (h₃ y (hp y (by simp))).trans ((hold y hfy hwy).trans hy)
  refine (Store.setChild_spec hy₃ .right (some g)).bind fun m₄ e₄ => ?_
  have ha₄ := (e₄.off a hya).trans ha₃
  refine Returns.bind_eq (Store.child_eq ha₄ .right) ?_
  obtain ⟨k, hk⟩ : ∃ k, cells g = some k := by
    obtain ⟨k, hk, -⟩ := hright.exists_cell ((root_plug _ _).trans hg)
    by_cases hgf : some f.val = some g
    · exact ⟨_, (hcells.link g hgf).trans (congrArg _ hk)⟩
    · exact ⟨k, (hold g hgf fun e => hdisjr g (by simp [root_mem e]) hgmem).trans hk⟩
  have hg₃ := (h₃ g (hp g (by simp [hgmem]))).trans hk
  have hg₄ := (e₄.off g hgy.symm).trans hg₃
  refine (Store.setParent_spec hg₄ (some y)).bind fun m₅ e₅ => Returns.some_iff.mpr
    ⟨⟨⟨_, (e₅.off y hgy).trans ((e₄.at_eq y rfl).trans (congrArg _ hy₃)), ?_⟩, ?_, ?_, ?_, ?_, ?_⟩,
      rfl⟩
  · rw [root_plug]
    exact hg.symm
  · rw [e₅.off a hga, ha₄, hg]
  · intro b hb
    obtain rfl : g = b := Option.some.inj (hg.symm.trans ((root_plug _ _).symm.trans hb))
    rw [e₅.at_eq g rfl, e₄.off g hgy.symm, h₃ g (hp g (by simp [hgmem]))]
  · intro b hb
    have hbf : some f.val ≠ some b := fun e => hp f.val (by simp) (hb.trans e.symm)
    have hbw : w.root ≠ some b := fun e => hp b (by simp [root_mem e]) hb
    rw [e₅.off b fun e => hp g (by simp [hgmem]) (hb.trans e.symm),
      e₄.off b fun e => hp y (by simp) (hb.trans e.symm), e₃.off b hbf, e₂.off b hbw,
      e₁.at_eq b hb, hold b hbf hbw]
  · intro b hba hby hbr hbp
    rw [e₅.off b fun e => hbr ((root_plug _ _).trans (hg.trans e)),
      e₄.off b fun e => hby (Option.some.inj e.symm), h₃ b hbp]
  · rw [e₅.rbNode, e₄.rbNode, e₃.rbNode, e₂.rbNode, e₁.rbNode]

/-- The last stores to the next node, which takes over the place of the node to erase. -/
theorem Steps.replaces {u : ColorTree Addr} {v : Ptr} {x : Addr}
    (e : Steps cells p a u y ⟨above p, c, l.root, v⟩ m)
    (h : Laid cells none (plug p (node c l a u))) (hd : (plug p (node c l a u)).toList.Nodup)
    (hy : y ∉ (plug p (node c l a u)).toList) (hx : l.root = some x) {F : Store → Option Store}
    {R : Store → Prop} (hF : ∀ m', Replaces cells m'.cells p c l a u y →
      m'.cells a = m.cells a → m'.rbNode = top p (some y) → Returns (F m') R) :
    Returns (do
      let word ← (m.load (some a)).map RbNode.rbParentColor
      let m ← m.modify (some y) fun r => { r with rbParentColor := word }
      let m ← m.setChild .left (some y) (← m.child .left (some a))
      let m ← m.setParent (← m.child .left (some a)) (some y)
      F m) R := by
  obtain ⟨-, -, hlaid, -⟩ := laid_plug.mp h
  obtain ⟨hnd, -, hdisj⟩ := nodup_plug.mp hd
  obtain ⟨-, -, hal, -, hlu⟩ := (nodup_join (s := .left)).mp hnd
  have hxl : x ∈ l.toList := root_mem hx
  have hxp : x ∉ around p := hdisj x (by simp [hxl])
  have hxu : u.root ≠ some x := fun e => hlu x hxl (root_mem e)
  have hxa : x ≠ a := fun e => hal (e ▸ hxl)
  simp only [mem_toList_plug, toList_node, List.mem_append, List.mem_cons, not_or] at hy
  have hxy : x ≠ y := fun e => hy.1.1 (e ▸ hxl)
  have hya : some y ≠ some a := fun e => hy.1.2.1 (Option.some.inj e)
  obtain ⟨k', hy₂, hk'⟩ := e.new
  obtain ⟨r, hr, hcell⟩ := Store.load_eq e.old
  have hword : Returns (m.modify (some y) fun r' => { r' with rbParentColor := r.rbParentColor })
      (m.Changes (some y) fun k => ⟨above p, c, k.left, k.right⟩) :=
    Store.modify_spec hy₂ fun r' => Cell.ext
      (show r.cell.parent = above p from congrArg Cell.parent hcell)
      (show r.cell.color = c from congrArg Cell.color hcell) rfl rfl
  refine Returns.bind_eq (congrArg (Option.map RbNode.rbParentColor) hr) ?_
  refine hword.bind fun m₃ e₃ => ?_
  have ha₃ := (e₃.off a hya).trans e.old
  refine Returns.bind_eq (Store.child_eq ha₃ .left) ?_
  have hy₃ := (e₃.at_eq y rfl).trans (congrArg _ hy₂)
  refine (Store.setChild_spec hy₃ .left l.root).bind fun m₄ e₄ => ?_
  have ha₄ := (e₄.off a hya).trans ha₃
  refine Returns.bind_eq (Store.child_eq ha₄ .left) ?_
  have hoff₄ : ∀ b, b ≠ y → m₄.cells b = m.cells b := by
    intro b hb
    have hyb : some y ≠ some b := fun e => hb (Option.some.inj e.symm)
    rw [e₄.off b hyb, e₃.off b hyb]
  obtain ⟨kx, hkx⟩ : ∃ k, cells x = some k := by
    obtain ⟨l', r', e⟩ := exists_join_of_root hx .left
    exact ⟨_, (laid_join.mp (e ▸ hlaid)).1⟩
  have hx₄ : m₄.cells x = some kx := by
    rw [hoff₄ x hxy, e.off x hxa hxy hxu fun e => hxp (above_mem e), hkx]
  rw [show Cell.child ⟨above p, c, l.root, v⟩ .left = l.root from rfl, hx]
  refine (Store.setParent_spec hx₄ (some y)).bind fun m₅ e₅ => hF m₅ ⟨?_, ?_, ?_, ?_, ?_⟩ ?_ ?_
  · rw [e₅.off y fun e => hxy (Option.some.inj e), e₄.at_eq y rfl, hy₃, ← hk']
    rfl
  · intro b hb
    obtain rfl : x = b := Option.some.inj (hx.symm.trans hb)
    rw [e₅.at_eq x rfl, hx₄, hkx]
  · intro b hb
    have hby : b ≠ y := fun e => hy.1.2.2 (e ▸ root_mem hb)
    rw [e₅.off b fun e => hxu (hb.trans e.symm), hoff₄ b hby, e.right b hb]
  · intro b hb
    have hby : b ≠ y := fun e => hy.2 (e ▸ above_mem hb)
    rw [e₅.off b fun e => hxp (above_mem (hb.trans e.symm)), hoff₄ b hby, e.link b hb]
  · intro b hba hby hbl hbr hbp
    rw [e₅.off b fun e => hbl (hx.trans e), hoff₄ b hby, e.off b hba hby hbr hbp]
  · rw [e₅.off a fun e => hxa (Option.some.inj e), hoff₄ a fun e => hya (congrArg some e.symm)]
  · rw [e₅.rbNode, e₄.rbNode, e₃.rbNode, e.rbNode]

/-- `rb_erase` of a node with two children puts the next node in its place. -/
theorem eraseDouble_spec {k : ℕ} {T : ColorTree Addr}
    (h : Lays m (plug p (node c l a (plug q (join .left d nil y w)))))
    (hq : ∀ f ∈ q, f.side = .left) (hl : l ≠ nil)
    (hT : Removes k (q ++ ⟨.right, c, y, l⟩ :: p) w d T) {fuel : ℕ} (hlen : q.length < fuel)
    (hfuel : k < fuel) :
    Returns (eraseDouble fuel m (some a)) (Leaves m T) := by
  have hdown : Lays m (plug (q ++ ⟨.right, c, a, l⟩ :: p) (join .left d nil y w)) := by
    rw [plug_append]
    exact h
  obtain ⟨hpath, ha, -⟩ := laid_plug.mp h.laid
  obtain ⟨-, -, hdisj⟩ := nodup_plug.mp h.nodup
  have hp : ∀ b, b ∈ (node c l a (plug q (join .left d nil y w))).toList →
      above p ≠ some b := fun b hb e => hdisj b hb (above_mem e)
  simp only [toList_node, List.mem_append, List.mem_cons, mem_toList_plug, mem_toList_join] at hp
  obtain ⟨x, hx⟩ : ∃ x, l.root = some x := Option.ne_none_iff_exists'.mp (root_eq_none.not.mpr hl)
  -- the elements with the next node written out
  have hd := h.nodup
  simp only [toList_plug p, toList_node, toList_plug_left hq] at hd
  have hdnew : (plug p (node c l y (plug q w))).toList.Nodup := by
    refine hd.sublist ?_
    simp only [toList_plug p, toList_node]
    exact (((List.sublist_cons_self a _).append_left _).append_left _).append_right _
  have hdold : (plug p (node c l a (plug q w))).toList.Nodup := by
    refine hd.sublist ?_
    simp only [toList_plug p, toList_node]
    exact ((((List.sublist_cons_self y _).cons_cons a).append_left _).append_left _).append_right _
  have hy : y ∉ (plug p (node c l a (plug q w))).toList := by
    refine (List.nodup_cons.mp ((List.Perm.nodup_iff ?_).mp hd)).1
    simp only [toList_plug p, toList_node]
    grind
  rw [eraseDouble]
  refine Returns.bind_eq (Store.child_eq ha .right) ?_
  rw [Cell.child, root_plug, root_join]
  refine Returns.bind_eq (descend_spec hdown hq hlen) ?_
  refine Returns.bind_eq (Store.parent_eq ha) ?_
  refine (relink_spec .left hpath (h.rbNode.trans (root_plug _ _)) (hdisj a (by simp))).bind
    fun m₁ e₁ => ?_
  have hy₁ := (e₁.off y (hp y (by simp))).trans hdown.cell
  refine Returns.bind_eq (Store.child_eq hy₁ .right) ?_
  refine Returns.bind_eq (Store.parent_eq hy₁) ?_
  refine Returns.bind_eq (Store.color_eq hy₁) ?_
  obtain ⟨cells, hcells⟩ := exists_unlinks m.cells (p := q ++ ⟨.right, c, a, l⟩ :: p) (u := w)
    fun b hb => hdown.above_ne (by simp [root_mem hb])
  have hunlink : Returns (eraseUnlink m₁ (some a) (some y) w.root
      (above (q ++ ⟨.right, c, a, l⟩ :: p))) fun x =>
      Steps cells p a (plug q w) y ⟨above p, c, l.root, top q (some y)⟩ x.1 ∧
        x.2 = above (q ++ ⟨.right, c, y, l⟩ :: p) := by
    cases q with
    | nil => exact eraseUnlink_nil h hcells e₁
    | cons f q => exact eraseUnlink_cons h (hq f (by simp)) hcells e₁
  refine hunlink.bind ?_
  rintro ⟨m₂, par⟩ ⟨e₂, hpar⟩
  have hlaid : Laid cells none (plug p (node c l a (plug q w))) := by
    have := hcells.laid hdown.laid hdown.nodup
    rwa [plug_append] at this
  refine e₂.replaces hlaid hdold hy hx fun m₃ hr hold hroot => ?_
  have h₃ : Lays m₃ (plug (q ++ ⟨.right, c, y, l⟩ :: p) w) := by
    rw [plug_append]
    exact ⟨hroot.trans (root_plug p (node c l y (plug q w))).symm, hdnew, hr.laid hlaid hdold hy⟩
  obtain rfl : par = above (q ++ ⟨.right, c, y, l⟩ :: p) := hpar
  refine (eraseColored_spec hT h₃ hfuel).mono fun m₄ h₄ => ⟨h₄.lays, fun b hb => ?_⟩
  rw [hT.toList] at hb
  rw [h₄.outside b hb]
  by_cases hba : b = a
  · subst hba
    rw [hold, e₂.old, ha, root_plug, root_join]
  rw [plug_append] at hb
  simp only [mem_toList_plug, mem_toList_join, plug_cons, Frame.fill, not_or] at hb
  obtain ⟨⟨hby, ⟨hbw, hbq⟩, hbl⟩, hbp⟩ := hb
  rw [hr.off b hba hby (fun e => hbl (root_mem e)) ?_ fun e => hbp (above_mem e),
    hcells.off b (fun e => hbw (root_mem e)) ?_]
  · intro e
    rcases mem_around_append.mp (above_mem e) with h | h
    · exact hbq h
    · rcases mem_around_cons.mp h with h | h | h
      exacts [hba h, hbl h, hbp h]
  · intro e
    rcases mem_toList_plug.mp (root_mem e) with h | h
    exacts [hbw h, hbq h]

end Double

/-- `rb_erase` runs through a removal of the library. -/
theorem rbErase_spec {k : ℕ} {T : ColorTree Addr} {a : Addr} (hT : Erases k p t T)
    (h : Lays m (plug p t)) (ha : t.root = some a) {fuel : ℕ}
    (hheight : (plug p t).height < fuel) (hfuel : k < fuel) :
    Returns (rbErase fuel m (some a)) (Leaves m T) := by
  cases hT with
  | @single s c b u T hT =>
      obtain rfl : b = a := by simpa using ha
      rw [rbErase]
      refine Returns.bind_eq (Store.child_eq h.cell .left) ?_
      refine Returns.bind_eq (Store.child_eq h.cell .right) ?_
      cases s with
      | left => exact eraseSingle_spec h hT hfuel
      | right =>
          by_cases hu : u = nil
          · subst hu
            exact eraseSingle_spec (s := .left) h hT hfuel
          · have hsome := root_eq_none.not.mpr hu
            rw [if_neg (by simpa [Cell.child, Cell.sided] using hsome)]
            exact eraseSingle_spec h hT hfuel
  | @double q c d b y l w T hl hq hT =>
      obtain rfl : b = a := by simpa using ha
      obtain ⟨-, hcell, -⟩ := laid_plug.mp h.laid
      have hr : plug q (join .left d nil y w) ≠ nil := fun e => by
        simpa [toList_plug_left hq] using congrArg toList e
      rw [rbErase]
      refine Returns.bind_eq (Store.child_eq hcell .left) ?_
      refine Returns.bind_eq (Store.child_eq hcell .right) ?_
      rw [if_neg (by simpa [Cell.child] using root_eq_none.not.mpr hl),
        if_neg (by simpa [Cell.child] using root_eq_none.not.mpr hr)]
      refine eraseDouble_spec h hq hl hT ?_ hfuel
      have := length_add_height_le p (node c l b (plug q (join .left d nil y w)))
      have := length_add_height_le q (join .left d nil y w)
      simp only [height_node] at *
      omega

/-- `rb_erase` of a node of a red-black tree: the tree is red-black again, without the node
and with the others in the same order. -/
theorem erase_spec {c : Color} {l r : ColorTree Addr} {a : Addr}
    (h : Lays m (plug p (node c l a r))) (hrb : IsRedBlack (plug p (node c l a r))) {fuel : ℕ}
    (hfuel : (plug p (node c l a r)).height < fuel) :
    Returns (rbErase fuel m (some a)) fun m' =>
      ∃ T, Leaves m T m' ∧
        T.toList = before p ++ (l.toList ++ r.toList) ++ after p ∧ IsRedBlack T ∧
        ∃ k, Erases k p (node c l a r) T := by
  obtain ⟨k, T, hT, hk, hTrb⟩ := exists_erases hrb
  exact (rbErase_spec hT h rfl hfuel (by omega)).mono fun m' hm =>
    ⟨T, hm, hT.toList, hTrb, k, hT⟩

/-- The list without one of its nodes. -/
theorem Lays.erase_eq {p : Path Addr} {c : Color} {l r : ColorTree Addr} {a : Addr}
    (h : Lays m (plug p (node c l a r))) :
    (plug p (node c l a r)).toList.erase a = before p ++ (l.toList ++ r.toList) ++ after p := by
  have hnd := h.nodup
  rw [toList_plug_node, List.nodup_append] at hnd
  have hnot : a ∉ before p ++ l.toList := fun hmem => hnd.2.2 a hmem a (by simp) rfl
  rw [toList_plug_node, List.erase_append_right _ hnot, List.erase_cons_head]
  simp

end RbTree

end Infra
