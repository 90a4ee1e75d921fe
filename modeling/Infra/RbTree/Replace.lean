import Infra.RbTree.Rotate

/-!
# Replacing a node

`rb_replace_node` puts a node that is not in the tree at the place of one that is,
without any search and without rebalancing: the shape and the colours stay.
-/

namespace Infra

namespace RbTree

open Infra.RedBlack

open Infra.RedBlack.ColorTree

variable {m : Store} {p : Path Addr} {c : Color} {l r : ColorTree Addr} {a y : Addr}

/-- What `rb_replace_node` leaves in the cells. -/
theorem rbReplaceNode_cells {k : Cell Addr} (h : Lays m (plug p (node c l a r)))
    (hy : y ∉ (plug p (node c l a r)).toList) (hk : m.cells y = some k) :
    Returns (rbReplaceNode m (some a) (some y)) fun m' =>
      Replaces m.cells m'.cells p c l a r y ∧ m'.cells a = m.cells a ∧
        m'.rbNode = top p (some y) := by
  obtain ⟨hpath, ha, hl, hr⟩ := laid_plug.mp h.laid
  obtain ⟨hnd, -, hdisj⟩ := nodup_plug.mp h.nodup
  obtain ⟨-, -, hal, har, hlr⟩ := (nodup_join (s := .left)).mp hnd
  have hp : ∀ b, b ∈ (node c l a r).toList → above p ≠ some b :=
    fun b hb e => hdisj b hb (above_mem e)
  simp only [toList_node, List.mem_append, List.mem_cons] at hp
  simp only [mem_toList_plug, toList_node, List.mem_append, List.mem_cons, not_or] at hy
  have hla : l.root ≠ some a := fun e => hal (root_mem e)
  have hra : r.root ≠ some a := fun e => har (root_mem e)
  have hly : l.root ≠ some y := fun e => hy.1.1 (root_mem e)
  have hry : r.root ≠ some y := fun e => hy.1.2.2 (root_mem e)
  have hpy : above p ≠ some y := fun e => hy.2 (above_mem e)
  rw [rbReplaceNode]
  refine Returns.bind_eq (Store.parent_eq ha) ?_
  refine (relink_spec .left hpath (h.rbNode.trans (root_plug _ _)) (hdisj a (by simp))).bind
    fun m₁ e₁ => ?_
  have ha₁ := (e₁.off a (hp a (by simp))).trans ha
  refine Returns.bind_eq (Store.child_eq ha₁ .left) ?_
  have hl₁ : Laid m₁.cells (some a) l := hl.congr fun b hb => e₁.off b (hp b (by simp [hb]))
  refine (adopt_spec hl₁ (some y)).bind fun m₂ e₂ => ?_
  have ha₂ := (e₂.off a hla).trans ha₁
  refine Returns.bind_eq (Store.child_eq ha₂ .right) ?_
  have hr₂ : Laid m₂.cells (some a) r := hr.congr fun b hb => by
    rw [e₂.off b fun e => hlr b (root_mem e) hb, e₁.off b (hp b (by simp [hb]))]
  refine (adopt_spec hr₂ (some y)).bind fun m₃ e₃ => ?_
  obtain ⟨n, hn, hcell⟩ := Store.load_eq ((e₃.off a hra).trans ha₂)
  refine Returns.bind_eq hn ?_
  have hy₃ : m₃.cells y = some k := by
    rw [e₃.off y hry, e₂.off y hly, e₁.off y hpy, hk]
  refine (Store.modify_spec (g := fun _ => ⟨above p, c, l.root, r.root⟩) hy₃
    fun _ => hcell).mono fun m₄ e₄ => ⟨⟨?_, ?_, ?_, ?_, ?_⟩, ?_, ?_⟩
  · rw [e₄.at_eq y rfl, hy₃, Option.map_some]
  · intro b hb
    have hbr : r.root ≠ some b := fun e => hlr b (root_mem hb) (root_mem e)
    rw [e₄.off b fun e => hly (hb.trans e.symm), e₃.off b hbr, e₂.at_eq b hb,
      e₁.off b (hp b (by simp [root_mem hb]))]
  · intro b hb
    have hbl : l.root ≠ some b := fun e => hlr b (root_mem e) (root_mem hb)
    rw [e₄.off b fun e => hry (hb.trans e.symm), e₃.at_eq b hb, e₂.off b hbl,
      e₁.off b (hp b (by simp [root_mem hb]))]
  · intro b hb
    rw [e₄.off b fun e => hpy (hb.trans e.symm), e₃.off b fun e => hp b (by simp [root_mem e]) hb,
      e₂.off b fun e => hp b (by simp [root_mem e]) hb, e₁.at_eq b hb]
  · intro b _ hby hbl hbr hbp
    rw [e₄.off b fun e => hby (Option.some.inj e).symm, e₃.off b hbr, e₂.off b hbl,
      e₁.off b hbp]
  · rw [e₄.off a fun e => hy.1.2.1 (Option.some.inj e), e₃.off a hra, e₂.off a hla,
      e₁.off a (hp a (by simp))]
  · rw [e₄.rbNode, e₃.rbNode, e₂.rbNode, e₁.rbNode]

/-- `rb_replace_node` puts the new node at the place of the old one. -/
theorem rbReplaceNode_spec {k : Cell Addr} (h : Lays m (plug p (node c l a r)))
    (hy : y ∉ (plug p (node c l a r)).toList) (hk : m.cells y = some k) :
    Returns (rbReplaceNode m (some a) (some y)) (Leaves m (plug p (node c l y r))) := by
  refine (rbReplaceNode_cells h hy hk).mono fun m' hm =>
    ⟨⟨?_, ?_, hm.1.laid h.laid h.nodup hy⟩, fun b hb => ?_⟩
  · rw [hm.2.2, root_plug, root_node]
  · obtain ⟨hnd, haround, hdisj⟩ := nodup_plug.mp h.nodup
    rw [mem_toList_plug, not_or] at hy
    have := (nodup_join (s := .left)).mp hnd
    simp only [toList_node, List.mem_append, List.mem_cons, not_or] at hy
    refine nodup_plug.mpr ⟨(nodup_join (s := .left)).mpr ⟨this.1, this.2.1, hy.1.1, hy.1.2.2,
      this.2.2.2.2⟩, haround, ?_⟩
    simp only [toList_node, List.mem_append, List.mem_cons] at hdisj ⊢
    rintro b (hb | rfl | hb)
    exacts [hdisj b (Or.inl hb), hy.2, hdisj b (Or.inr (Or.inr hb))]
  · simp only [mem_toList_plug, toList_node, List.mem_append, List.mem_cons, not_or] at hb
    by_cases hba : b = a
    · rw [hba, hm.2.1]
    · exact hm.1.off b hba hb.1.2.1 (fun e => hb.1.1 (root_mem e))
        (fun e => hb.1.2.2 (root_mem e)) fun e => hb.2 (above_mem e)

end RbTree

end Infra
