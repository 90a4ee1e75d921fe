import Infra.Foundation.RedBlack.Rebalance
import Infra.RbTree.Rotate

/-!
# Inserting a node

`rb_link_node` puts a red leaf into the hole at the end of a path, and
`rb_insert_color` climbs from there: its rounds are those of the climb of the
library, one after the other. So on a red-black tree it returns, after at most as
many rounds as there are nodes above the new one, and it leaves a red-black tree
with the same elements in the same order.
-/

namespace Infra

namespace RbTree

open Infra.RedBlack

open Infra.RedBlack.ColorTree

variable {m : Store} {p : Path Addr} {t : ColorTree Addr}

/-! ## Linking -/

/-- The link in the hole at the end of a path. -/
def holeLink : Path Addr → Link
  | [] => .root
  | f :: _ => .child f.side (some f.val)

/-- `rb_link_node` at a hole makes the new node a red leaf there. -/
theorem rbLinkNode_spec {n : Addr} {k : Cell Addr} (h : Lays m (plug p nil))
    (hn : m.cells n = some k) (hnew : n ∉ around p) :
    Returns (rbLinkNode m (some n) (above p) (holeLink p))
      (Leaves m (plug p (node .red nil n nil))) := by
  obtain ⟨hpath, -⟩ := laid_plug.mp h.laid
  obtain ⟨-, haround, -⟩ := nodup_plug.mp h.nodup
  have hword : Returns (m.modify (some n) fun r => { r with rbParentColor := Ptr.toWord (above p) })
      (m.Changes (some n) fun k => ⟨above p, .red, k.left, k.right⟩) :=
    Store.modify_spec hn fun r => cell_of_toWord (above p)
  rw [rbLinkNode]
  refine hword.bind fun m₁ e₁ => ?_
  have hn₁ := (e₁.at_eq n rfl).trans (congrArg _ hn)
  refine (Store.setChild_spec hn₁ .right none).bind fun m₂ e₂ => ?_
  have hn₂ := (e₂.at_eq n rfl).trans (congrArg _ hn₁)
  refine (Store.setChild_spec hn₂ .left none).bind fun m₃ e₃ => ?_
  have hn₃ : m₃.cells n = some ⟨above p, .red, none, none⟩ :=
    (e₃.at_eq n rfl).trans (congrArg _ hn₂)
  have hoff₃ : ∀ b, b ≠ n → m₃.cells b = m.cells b := by
    intro b hb
    have hb' : some n ≠ some b := fun e => hb (Option.some.inj e.symm)
    rw [e₃.off b hb', e₂.off b hb', e₁.off b hb']
  have hpath₃ : PathLaid m₃.cells p none :=
    hpath.congr fun b hb => hoff₃ b fun e => hnew (e ▸ hb)
  have hlink : Returns (m₃.writeLink (some n) (holeLink p)) fun m' =>
      Edits m₃.cells (above p) (.repoint p (some n)) m'.cells ∧ m'.rbNode = top p (some n) := by
    cases p with
    | nil => exact ⟨_, rfl, ⟨by simp, fun _ _ => rfl⟩, rfl⟩
    | cons f p =>
        refine (Store.setChild_spec hpath₃.1 f.side (some n)).mono fun m' hm => ⟨hm.toEdits, ?_⟩
        rw [hm.rbNode, e₃.rbNode, e₂.rbNode, e₁.rbNode, h.rbNode, root_plug]
        rfl
  refine hlink.mono fun m' hm => ⟨⟨?_, ?_, laid_plug.mpr ⟨?_, ?_, trivial, trivial⟩⟩, ?_⟩
  · rw [hm.2, root_plug, root_node]
  · exact nodup_plug.mpr ⟨by simp, haround, by simpa using hnew⟩
  · exact hpath₃.repoint haround hm.1.at_eq fun b _ hb => hm.1.off b hb
  · rw [hm.1.off n fun e => hnew (above_mem e), hn₃]
    rfl
  · intro b hb
    simp only [mem_toList_plug, toList_node, toList_nil, List.nil_append, List.mem_singleton,
      not_or] at hb
    rw [hm.1.off b fun e => hb.2 (above_mem e), hoff₃ b hb.1]

/-! ## Climbing -/

/-- Where the hole is under the node `g`, as the loops test it. -/
theorem Lays.side_eq {s : Side} {c : Color} {g : Addr} {u : ColorTree Addr}
    (h : Lays m (plug (⟨s, c, g, u⟩ :: p) t)) (hne : u.root ≠ t.root) :
    ∃ q, m.child .left (some g) = some q ∧ (q = t.root ↔ s = .left) :=
  ⟨_, Store.child_eq h.cell_above .left, Cell.left_sided_eq_iff hne⟩

/-- The subtree beside a node has another root. -/
theorem Lays.sibling_ne {s : Side} {c : Color} {g a : Addr} {u : ColorTree Addr}
    (h : Lays m (plug (⟨s, c, g, u⟩ :: p) t)) (ha : t.root = some a) : u.root ≠ t.root := by
  rw [ha]
  intro e
  exact h.notMem_around (root_mem ha) (mem_around_cons.mpr (Or.inr (Or.inl (root_mem e))))

/-- The start of a round of `rb_insert_color`: where the grandparent is, and the uncle. -/
theorem insertRound_eq {s s' : Side} {c : Color} {n a g : Addr} {u v : ColorTree Addr}
    (h : Lays m (plug (⟨s', .red, a, v⟩ :: ⟨s, c, g, u⟩ :: p) t)) :
    insertRound m (some n) (some a) =
      if u.color = .red then do
        let m ← m.setBlack u.root
        let m ← m.setBlack (some a)
        let m ← m.setRed (some g)
        some (m, some g)
      else insertRotate s m (some n) (some a) (some g) := by
  rw [plug_cons] at h
  have hne := h.sibling_ne (root_join ..)
  obtain ⟨q, hq, hside⟩ := h.side_eq hne
  have hs : (if some a = q then Side.left else .right) = s := by
    rw [Frame.fill, root_join] at hside
    exact Side.ite_eq (eq_comm.trans hside)
  have huncle : m.child s.flip (some g) = some u.root := by
    rw [Store.child_eq h.cell_above, Cell.child_flip_sided]
  have hred : m.hasRed u.root = some (decide (u.color = .red)) := by
    rw [plug_flip] at h
    exact h.hasRed_eq
  rw [insertRound, h.parent_eq (root_join ..)]
  simp only [above_cons, Option.bind_eq_bind, Option.bind_some, hq, hs, huncle, hred,
    decide_eq_true_eq]

/-- A round with a red uncle paints three nodes and goes on from the grandparent. -/
theorem insertRound_recolor {s s' : Side} {c : Color} {n a g : Addr} {u v : ColorTree Addr}
    (h : Lays m (plug (⟨s', .red, a, v⟩ :: ⟨s, c, g, u⟩ :: p) t)) (hu : u.color = .red) :
    Returns (insertRound m (some n) (some a)) fun r =>
      Reshapes m (plug (⟨s', .red, a, v⟩ :: ⟨s, c, g, u⟩ :: p) t)
        (plug p (join s .red (join s' .black t a v) g (u.paint .black))) r.1 ∧ r.2 = some g := by
  rw [insertRound_eq h, if_pos hu]
  obtain ⟨l, b, r, hb⟩ := exists_join_of_red hu .left
  have hroot : u.root = some b := by rw [hb, root_join]
  rw [plug_cons] at h ⊢
  have hflip := h
  rw [plug_flip] at hflip
  rw [hroot]
  refine (hflip.setBlack_spec hroot).bind fun m₁ h₁ => ?_
  rw [← plug_flip, ← plug_flip] at h₁
  refine (h₁.lays.setBlack_spec (root_join ..)).bind fun m₂ h₂ => ?_
  rw [Frame.fill, paint_join] at h₂
  have hg := h₂.lays
  rw [plug_cons] at hg
  refine (hg.setRed_spec (root_join ..)).bind fun m₃ h₃ => ?_
  rw [Frame.fill, paint_join] at h₃
  exact Returns.some_iff.mpr ⟨(h₁.trans h₂).trans h₃, rfl⟩

/-- The paint and the rotation that end a climb. -/
theorem insertLift_spec {s : Side} {c : Color} {a g : Addr} {u v : ColorTree Addr}
    (h : Lays m (plug (⟨s, .red, a, v⟩ :: ⟨s, c, g, u⟩ :: p) t)) :
    Returns (insertLift s m (some a) (some g))
      (Reshapes m (plug (⟨s, .red, a, v⟩ :: ⟨s, c, g, u⟩ :: p) t)
        (plug p (join s .black t a (join s .red v g u)))) := by
  rw [plug_cons] at h ⊢
  rw [insertLift]
  refine (h.setBlack_spec (root_join ..)).bind fun m₁ h₁ => ?_
  rw [Frame.fill, paint_join] at h₁
  have hg := h₁.lays
  rw [plug_cons] at hg
  refine (hg.setRed_spec (root_join ..)).bind fun m₂ h₂ => ?_
  rw [Frame.fill, paint_join] at h₂
  have hrot := h₂.lays
  rw [← join_flip s .red u, ← join_flip s .black v] at hrot
  refine (rotate_spec hrot).mono fun m₃ h₃ => ?_
  rw [join_flip, join_flip, join_flip, join_flip] at h₃
  exact (h₁.trans h₂).trans h₃

/-- The new node is an outer grandchild. -/
theorem insertRotate_outer {s : Side} {c : Color} {n a g : Addr} {u v : ColorTree Addr}
    (h : Lays m (plug (⟨s, .red, a, v⟩ :: ⟨s, c, g, u⟩ :: p) t)) (hn : t.root = some n) :
    Returns (insertRotate s m (some n) (some a) (some g)) fun r =>
      Reshapes m (plug (⟨s, .red, a, v⟩ :: ⟨s, c, g, u⟩ :: p) t)
        (plug p (join s .black t a (join s .red v g u))) r.1 ∧ r.2 = some n := by
  have hturn : insertTurn s m (some n) (some a) = some (m, some n, some a) := by
    have hne : v.root ≠ some n := hn ▸ h.sibling_ne hn
    rw [insertTurn, Store.child_eq h.cell_above, Cell.child_flip_sided]
    simp only [Option.bind_eq_bind, Option.bind_some, if_neg hne]
  rw [insertRotate]
  refine Returns.bind_eq hturn ?_
  exact (insertLift_spec h).bind fun m₁ h₁ => Returns.some_iff.mpr ⟨h₁, rfl⟩

/-- The new node is an inner grandchild: it is turned out first. -/
theorem insertRotate_inner {s : Side} {c : Color} {n a g : Addr} {u v l r : ColorTree Addr}
    (h : Lays m (plug (⟨s.flip, .red, a, v⟩ :: ⟨s, c, g, u⟩ :: p) (join s .red l n r))) :
    Returns (insertRotate s m (some n) (some a) (some g)) fun r' =>
      Reshapes m (plug (⟨s.flip, .red, a, v⟩ :: ⟨s, c, g, u⟩ :: p) (join s .red l n r))
        (plug p (join s .black (join s .red v a l) n (join s .red r g u))) r'.1 ∧
      r'.2 = some a := by
  have htest : m.child s.flip (some a) = some (some n) := by
    rw [Store.child_eq h.cell_above, Cell.child_sided, root_join]
  have hfill : plug (⟨s.flip, .red, a, v⟩ :: ⟨s, c, g, u⟩ :: p) (join s .red l n r) =
      plug (⟨s, c, g, u⟩ :: p) (join s .red v a (join s .red l n r)) := by
    rw [plug_cons, Frame.fill, join_flip]
  rw [hfill] at h ⊢
  rw [insertRotate, insertTurn, htest]
  simp only [Option.bind_eq_bind, Option.bind_some, if_true]
  rw [Option.bind_assoc]
  refine (rotate_spec h).bind fun m₁ h₁ => ?_
  refine (insertLift_spec (t := join s .red v a l) h₁.lays).bind fun m₂ h₂ => ?_
  exact Returns.some_iff.mpr ⟨h₁.trans h₂, rfl⟩

/-- The loop ends below a node that is not red. -/
theorem insertLoop_stop {n : Addr} (h : Lays m (plug p t)) (hn : t.root = some n)
    (hp : ∀ f ∈ p.head?, f.color = .black) (fuel : ℕ) :
    insertLoop (fuel + 1) m (some n) = some m := by
  have hred : m.hasRed (above p) = some false := by
    cases p with
    | nil => rfl
    | cons f p =>
        rw [plug_cons] at h
        have hf := h.hasRed_eq
        rw [Frame.fill, root_join, color_join, hp f rfl] at hf
        exact hf
  simp [insertLoop, h.parent_eq hn, hred]

/-- Below a red node the loop makes a round. -/
theorem insertLoop_round {s : Side} {n a : Addr} {v : ColorTree Addr}
    (h : Lays m (plug (⟨s, .red, a, v⟩ :: p) t)) (hn : t.root = some n) (fuel : ℕ) :
    insertLoop (fuel + 1) m (some n) =
      (insertRound m (some n) (some a)).bind fun r => insertLoop fuel r.1 r.2 := by
  have hred : m.hasRed (some a) = some true := by
    rw [plug_cons] at h
    have hf := h.hasRed_eq
    rwa [Frame.fill, root_join, color_join] at hf
  simp [insertLoop, h.parent_eq hn, hred]

/-- The loop runs through a climb of the library. -/
theorem insertLoop_spec {k : ℕ} {T : ColorTree Addr} (hfix : InsertFix k p t T)
    (h : Lays m (plug p t)) {n : Addr} (hn : t.root = some n) {fuel : ℕ} (hfuel : k < fuel) :
    Returns (insertLoop fuel m (some n)) fun m' =>
      ∃ T', T'.paint .black = T ∧ Reshapes m (plug p t) T' m' := by
  obtain ⟨fuel, rfl⟩ : ∃ i, fuel = i + 1 := ⟨fuel - 1, by omega⟩
  induction hfix generalizing m n fuel with
  | root =>
      rw [insertLoop_stop h hn (by simp)]
      exact Returns.some_iff.mpr ⟨_, rfl, .refl h⟩
  | done =>
      rw [insertLoop_stop h hn (by simp)]
      exact Returns.some_iff.mpr ⟨_, rfl, .refl h⟩
  | recolor hu hfix ih =>
      obtain ⟨fuel, rfl⟩ : ∃ i, fuel = i + 1 := ⟨fuel - 1, by omega⟩
      rw [insertLoop_round h hn]
      refine (insertRound_recolor h hu).bind ?_
      rintro ⟨m₁, node⟩ ⟨h₁, rfl⟩
      refine (ih h₁.lays (root_join ..) fuel (by omega)).mono ?_
      rintro m₂ ⟨T', hT, h₂⟩
      exact ⟨T', hT, h₁.trans h₂⟩
  | @outer s c a g u v p t hu =>
      obtain ⟨fuel, rfl⟩ : ∃ i, fuel = i + 1 := ⟨fuel - 1, by omega⟩
      rw [insertLoop_round h hn, insertRound_eq h, if_neg (by simp [hu])]
      refine (insertRotate_outer h hn).bind ?_
      rintro ⟨m₁, node⟩ ⟨h₁, rfl⟩
      have hstop : Lays m₁ (plug (⟨s, .black, a, join s .red v g u⟩ :: p) t) := h₁.lays
      rw [insertLoop_stop hstop hn (by simp)]
      exact Returns.some_iff.mpr ⟨_, rfl, h₁⟩
  | @inner s c a g n' u v l r p hu =>
      obtain ⟨fuel, rfl⟩ : ∃ i, fuel = i + 1 := ⟨fuel - 1, by omega⟩
      obtain rfl : n' = n := by simpa using hn
      rw [insertLoop_round h hn, insertRound_eq h, if_neg (by simp [hu])]
      refine (insertRotate_inner h).bind ?_
      rintro ⟨m₁, node⟩ ⟨h₁, rfl⟩
      have hstop : Lays m₁ (plug (⟨s, .black, n', join s .red r g u⟩ :: p) (join s .red v a l)) :=
        h₁.lays
      rw [insertLoop_stop hstop (root_join ..) (by simp)]
      exact Returns.some_iff.mpr ⟨_, rfl, h₁⟩

/-- `rb_insert_color` runs through a climb of the library. -/
theorem rbInsertColor_spec {k : ℕ} {T : ColorTree Addr} (hfix : InsertFix k p t T)
    (h : Lays m (plug p t)) {n : Addr} (hn : t.root = some n) {fuel : ℕ} (hfuel : k < fuel) :
    Returns (rbInsertColor fuel m (some n)) (Reshapes m (plug p t) T) := by
  rw [rbInsertColor]
  refine (insertLoop_spec hfix h hn hfuel).bind ?_
  rintro m₁ ⟨T', rfl, h₁⟩
  cases hroot : T'.root with
  | none =>
      have hmem : n ∈ T'.toList := by
        rw [h₁.toList, mem_toList_plug]
        exact Or.inl (root_mem hn)
      simp [root_eq_none.mp hroot] at hmem
  | some a =>
      rw [h₁.lays.rbNode, hroot]
      exact (Lays.setBlack_spec (p := []) h₁.lays hroot).mono fun m₂ h₂ => h₁.trans h₂

/-- A new node at a hole of a red-black tree: the tree is red-black again, with the node at
the place of the hole, and the loop of `rb_insert_color` has made at most one round for each
node above it. -/
theorem insert_spec {n : Addr} {k : Cell Addr} (h : Lays m (plug p nil))
    (hrb : IsRedBlack (plug p (nil : ColorTree Addr))) (hn : m.cells n = some k)
    (hnew : n ∉ around p) {fuel : ℕ} (hfuel : p.length < fuel) :
    Returns (do
        let m ← rbLinkNode m (some n) (above p) (holeLink p)
        rbInsertColor fuel m (some n)) fun m' =>
      ∃ T, Leaves m T m' ∧ T.toList = before p ++ n :: after p ∧ IsRedBlack T ∧
        ∃ j, InsertFix j p (node .red nil n nil) T := by
  obtain ⟨i, hi, hfits⟩ := balanced_plug.mp hrb
  obtain rfl : i = 0 := hi
  obtain ⟨j, T, hfix, hj, hT⟩ := exists_insertFix p (node .red nil n nil) 0 rfl (by simp) hfits
  refine (rbLinkNode_spec h hn hnew).bind fun m₁ h₁ => ?_
  refine (rbInsertColor_spec hfix h₁.lays rfl (by omega)).mono fun m₂ h₂ => ?_
  refine ⟨T, ⟨h₂.lays, fun b hb => ?_⟩, ?_, hT, j, hfix⟩
  · rw [h₂.toList] at hb
    rw [h₂.outside b hb, h₁.outside b hb]
  · rw [h₂.toList, toList_plug]
    simp

end RbTree

end Infra
