import Infra.RbTree.Insert

/-!
# Climbing after a removal

The loop of `__rb_erase_color` starts at a subtree that is one black node short. Its
rounds are those of the climb of the library: a red sibling is turned up and the
round goes on beside the black one, two black children move the gap up to the
parent, and a red child of the sibling ends the climb.
-/

namespace Infra

namespace RbTree

open Infra.RedBlack

open Infra.RedBlack.ColorTree

variable {m : Store} {p : Path Addr} {t : ColorTree Addr}

/-! ## Beside a black sibling -/

section Sibling

variable {s : Side} {c d : Color} {a b : Addr} {l r : ColorTree Addr}

/-- A tree with a hole, looked at from the sibling of the hole. -/
theorem plug_sibling :
    plug (⟨s, c, a, join s d l b r⟩ :: p) t = plug (⟨s.flip, c, a, t⟩ :: p) (join s d l b r) :=
  plug_flip ..

/-- The same tree, looked at from the children of the sibling. -/
theorem plug_near :
    plug (⟨s, c, a, join s d l b r⟩ :: p) t =
      plug (⟨s, d, b, r⟩ :: ⟨s.flip, c, a, t⟩ :: p) l :=
  plug_flip ..

theorem plug_far :
    plug (⟨s, c, a, join s d l b r⟩ :: p) t =
      plug (⟨s.flip, d, b, l⟩ :: ⟨s.flip, c, a, t⟩ :: p) r :=
  plug_near.trans (plug_flip ..)

/-- The test for a red child of the sibling. -/
theorem eraseChildRed_eq (h : Lays m (plug (⟨s, c, a, join s d l b r⟩ :: p) t)) :
    eraseChildRed m (some b) = some (decide (l.color = .red ∨ r.color = .red)) := by
  have hcell := (plug_sibling ▸ h).cell
  have hl : m.hasRed l.root = some (decide (l.color = .red)) := (plug_near ▸ h).hasRed_eq
  have hr : m.hasRed r.root = some (decide (r.color = .red)) := (plug_far ▸ h).hasRed_eq
  have hkids : ∀ x, m.child x (some b) =
      some ((Cell.sided s (some a) d l.root r.root).child x) := Store.child_eq hcell
  rw [eraseChildRed, hkids, hkids]
  cases s <;> cases hcl : l.color <;> cases hcr : r.color <;>
    simp [Cell.sided, Cell.child, hl, hr, hcl, hcr]

/-- Two black children: the sibling becomes red, and the gap goes up. -/
theorem eraseSettle_lift (h : Lays m (plug (⟨s, c, a, join s .black l b r⟩ :: p) t))
    (hl : l.color = .black) (hr : r.color = .black) :
    Returns (eraseSettle s m (some a) (some b)) fun q =>
      Reshapes m (plug (⟨s, c, a, join s .black l b r⟩ :: p) t)
        (plug p (join s c t a (join s .red l b r))) q.1 ∧ q.2 = some (some a, above p) := by
  have hred : eraseChildRed m (some b) = some false := by
    rw [eraseChildRed_eq h]
    simp [hl, hr]
  rw [eraseSettle]
  refine Returns.bind_eq hred ?_
  rw [if_neg (by simp)]
  rw [plug_sibling] at h ⊢
  refine (h.setRed_spec (root_join ..)).bind fun m₁ h₁ => ?_
  rw [paint_join, ← plug_sibling, ← plug_sibling] at h₁
  have hparent := h₁.lays
  rw [plug_cons] at hparent
  refine Returns.bind_eq (hparent.parent_eq (root_join ..)) ?_
  rw [plug_sibling] at h₁
  exact Returns.some_iff.mpr ⟨h₁, rfl⟩

/-- A red outer child ends the climb. -/
theorem eraseLift_spec (h : Lays m (plug (⟨s, c, a, join s d l b r⟩ :: p) t))
    (hr : r.color = .red) :
    Returns (eraseLift s m (some a) (some b))
      (Reshapes m (plug (⟨s, c, a, join s d l b r⟩ :: p) t)
        (plug p (join s c (join s .black t a l) b (r.paint .black)))) := by
  obtain ⟨r₁, y, r₂, hy⟩ := exists_join_of_red hr s
  have hroot : r.root = some y := by rw [hy, root_join]
  have hcolor : m.color (some a) = some (colorWord c) := by
    have hp := h
    rw [plug_cons] at hp
    rw [hp.color_eq (root_join ..), Frame.fill, color_join]
  rw [eraseLift]
  refine Returns.bind_eq hcolor ?_
  have hs := h
  rw [plug_sibling] at hs
  refine (hs.setColor_spec (root_join ..) c).bind fun m₁ h₁ => ?_
  rw [paint_join, ← plug_sibling, ← plug_sibling] at h₁
  have hp := h₁.lays
  rw [plug_cons] at hp
  refine (hp.setBlack_spec (root_join ..)).bind fun m₂ h₂ => ?_
  have h₂ : Reshapes m₁ (plug (⟨s, c, a, join s c l b r⟩ :: p) t)
      (plug (⟨s, .black, a, join s c l b r⟩ :: p) t) m₂ := by
    rwa [Frame.fill, paint_join] at h₂
  have hb := h₂.lays
  rw [plug_sibling] at hb
  refine Returns.bind_eq hb.child_flip_eq ?_
  have hf := h₂.lays
  rw [plug_far] at hf
  rw [hroot]
  refine (hf.setBlack_spec hroot).bind fun m₃ h₃ => ?_
  rw [← plug_far, ← plug_far] at h₃
  exact (rotate_spec h₃.lays).mono fun m₄ h₄ => ((h₁.trans h₂).trans h₃).trans h₄

/-- A red inner child, beside a black outer one, is turned up first. -/
theorem eraseInner_near {x : Addr} {w : ColorTree Addr}
    (h : Lays m (plug (⟨s, c, a, join s .black (join s .red l x w) b r⟩ :: p) t))
    (hr : r.color = .black) :
    Returns (eraseInner s m (some a) (some b)) fun q =>
      Reshapes m (plug (⟨s, c, a, join s .black (join s .red l x w) b r⟩ :: p) t)
        (plug (⟨s, c, a, join s .black l x (join s .red w b r)⟩ :: p) t) q.1 ∧
      q.2 = some x := by
  have hs := h
  rw [plug_sibling] at hs
  have hred : m.hasRed r.root = some false := by
    have hf := h
    rw [plug_far] at hf
    rw [hf.hasRed_eq, hr]
    rfl
  rw [eraseInner]
  refine Returns.bind_eq hs.child_flip_eq ?_
  refine Returns.bind_eq hred ?_
  rw [if_neg (by simp)]
  refine Returns.bind_eq hs.child_eq ?_
  have hn := h
  rw [plug_near] at hn
  rw [root_join]
  refine (hn.setBlack_spec (root_join ..)).bind fun m₁ h₁ => ?_
  rw [paint_join, ← plug_near, ← plug_near] at h₁
  have hs₁ := h₁.lays
  rw [plug_sibling] at hs₁
  refine (hs₁.setRed_spec (root_join ..)).bind fun m₂ h₂ => ?_
  rw [paint_join, ← plug_sibling, ← plug_sibling] at h₂
  have hrot := h₂.lays
  rw [plug_sibling, ← join_flip s .red r, ← join_flip s .black w] at hrot
  refine (rotate_spec hrot).bind fun m₃ h₃ => ?_
  rw [join_flip, join_flip, join_flip, join_flip, ← plug_sibling, ← plug_sibling] at h₃
  have hchild : m₃.child s.flip (some a) = some (some x) := by
    rw [Store.child_eq h₃.lays.cell_above, Cell.child_flip_sided, root_join]
  refine Returns.bind_eq hchild ?_
  exact Returns.some_iff.mpr ⟨(h₁.trans h₂).trans h₃, rfl⟩

/-- An outer child that is red is left where it is. -/
theorem eraseInner_far (h : Lays m (plug (⟨s, c, a, join s .black l b r⟩ :: p) t))
    (hr : r.color = .red) : eraseInner s m (some a) (some b) = some (m, some b) := by
  have hs := h
  rw [plug_sibling] at hs
  have hred : m.hasRed r.root = some true := by
    have hf := h
    rw [plug_far] at hf
    rw [hf.hasRed_eq, hr]
    rfl
  simp [eraseInner, hs.child_flip_eq, hred]

theorem eraseSettle_far (h : Lays m (plug (⟨s, c, a, join s .black l b r⟩ :: p) t))
    (hr : r.color = .red) :
    Returns (eraseSettle s m (some a) (some b)) fun q =>
      Reshapes m (plug (⟨s, c, a, join s .black l b r⟩ :: p) t)
        (plug p (join s c (join s .black t a l) b (r.paint .black))) q.1 ∧ q.2 = none := by
  have hred : eraseChildRed m (some b) = some true := by
    rw [eraseChildRed_eq h]
    simp [hr]
  rw [eraseSettle]
  refine Returns.bind_eq hred ?_
  rw [if_pos rfl, eraseRotate, eraseInner_far h hr]
  refine (eraseLift_spec h hr).bind fun m₁ h₁ => ?_
  exact Returns.some_iff.mpr ⟨h₁, rfl⟩

theorem eraseSettle_near {x : Addr} {w : ColorTree Addr}
    (h : Lays m (plug (⟨s, c, a, join s .black (join s .red l x w) b r⟩ :: p) t))
    (hr : r.color = .black) :
    Returns (eraseSettle s m (some a) (some b)) fun q =>
      Reshapes m (plug (⟨s, c, a, join s .black (join s .red l x w) b r⟩ :: p) t)
        (plug p (join s c (join s .black t a l) x (join s .black w b r))) q.1 ∧
      q.2 = none := by
  have hred : eraseChildRed m (some b) = some true := by
    rw [eraseChildRed_eq h]
    simp
  rw [eraseSettle]
  refine Returns.bind_eq hred ?_
  rw [if_pos rfl, eraseRotate]
  refine Returns.bind (P := fun m' => Reshapes m _ _ m') ?_ fun m₂ h₂ =>
    Returns.some_iff.mpr ⟨h₂, rfl⟩
  refine (eraseInner_near h hr).bind ?_
  rintro ⟨m₁, other⟩ ⟨h₁, rfl⟩
  refine (eraseLift_spec h₁.lays (color_join ..)).mono fun m₂ h₂ => ?_
  rw [paint_join] at h₂
  exact h₁.trans h₂

/-- A red sibling is turned up, and its inner child is the sibling then. -/
theorem eraseTurn_red (h : Lays m (plug (⟨s, c, a, join s .red l b r⟩ :: p) t)) :
    Returns (eraseTurn s m (some a) (some b)) fun q =>
      Reshapes m (plug (⟨s, c, a, join s .red l b r⟩ :: p) t)
        (plug (⟨s, .red, a, l⟩ :: ⟨s, .black, b, r⟩ :: p) t) q.1 ∧ q.2 = l.root := by
  have hs := h
  rw [plug_sibling] at hs
  obtain ⟨k, hload, hk⟩ := Store.load_eq hs.cell
  have hred : rbIsRed k = true := by
    rw [rbIsRed_eq, hk, Cell.color_sided]
    rfl
  rw [eraseTurn]
  refine Returns.bind_eq hload ?_
  rw [if_pos hred]
  refine (hs.setBlack_spec (root_join ..)).bind fun m₁ h₁ => ?_
  rw [paint_join, ← plug_sibling, ← plug_sibling] at h₁
  have hp := h₁.lays
  rw [plug_cons] at hp
  refine (hp.setRed_spec (root_join ..)).bind fun m₂ h₂ => ?_
  have h₂ : Reshapes m₁ (plug (⟨s, c, a, join s .black l b r⟩ :: p) t)
      (plug (⟨s, .red, a, join s .black l b r⟩ :: p) t) m₂ := by
    rwa [Frame.fill, paint_join] at h₂
  refine (rotate_spec h₂.lays).bind fun m₃ h₃ => ?_
  have h₃ : Reshapes m₂ (plug (⟨s, .red, a, join s .black l b r⟩ :: p) t)
      (plug (⟨s, .red, a, l⟩ :: ⟨s, .black, b, r⟩ :: p) t) m₃ := h₃
  have hchild : m₃.child s.flip (some a) = some l.root := by
    rw [Store.child_eq h₃.lays.cell_above]
    exact congrArg some Cell.child_flip_sided
  refine Returns.bind_eq hchild ?_
  exact Returns.some_iff.mpr ⟨(h₁.trans h₂).trans h₃, rfl⟩

/-- A black sibling stays where it is. -/
theorem eraseTurn_black (h : Lays m (plug (⟨s, c, a, join s .black l b r⟩ :: p) t)) :
    eraseTurn s m (some a) (some b) = some (m, some b) := by
  have hs := h
  rw [plug_sibling] at hs
  obtain ⟨k, hload, hk⟩ := Store.load_eq hs.cell
  have hred : rbIsRed k = false := by
    rw [rbIsRed_eq, hk, Cell.color_sided]
    rfl
  simp [eraseTurn, hload, hred]

/-- A round finds the side of the gap, and the sibling. -/
theorem eraseRound_eq (h : Lays m (plug (⟨s, c, a, join s d l b r⟩ :: p) t)) :
    eraseRound m t.root (some a) =
      (eraseTurn s m (some a) (some b)).bind fun q => eraseSettle s q.1 (some a) q.2 := by
  have hne : (join s d l b r).root ≠ t.root := by
    cases hr : t.root with
    | none => simp
    | some n => exact hr ▸ h.sibling_ne hr
  obtain ⟨q, hq, hside⟩ := h.side_eq hne
  have hs : (if q = t.root then Side.left else .right) = s := Side.ite_eq hside
  have hother : m.child s.flip (some a) = some (some b) := by
    rw [Store.child_eq h.cell_above]
    simp only [Cell.child_flip_sided, root_join]
  simp only [eraseRound, hq, Option.bind_eq_bind, Option.bind_some, hs, hother]

/-- A round beside a black sibling. -/
theorem eraseRound_black (h : Lays m (plug (⟨s, c, a, join s .black l b r⟩ :: p) t)) :
    eraseRound m t.root (some a) = eraseSettle s m (some a) (some b) := by
  rw [eraseRound_eq h, eraseTurn_black h]
  rfl

end Sibling

/-! ## The loop -/

/-- The root pointer does not point to a subtree. -/
theorem Lays.root_ne {f : Frame Addr} (h : Lays m (plug (f :: p) t)) : t.root ≠ m.rbNode := by
  obtain ⟨b, hb, hmem⟩ := exists_top (f := f) (p := p) (x := t.root)
  rw [h.rbNode, root_plug, hb]
  exact fun e => h.notMem_around (root_mem e) hmem

/-- What the loop does with the outcome of a round. -/
def eraseNext (fuel : ℕ) (q : Store × Option (Ptr × Ptr)) : Option (Store × Ptr) :=
  match q.2 with
  | some (n, parent) => eraseLoop fuel q.1 n parent
  | none => some (q.1, q.1.rbNode)

/-- Below another node, with a black subtree, the loop makes a round. -/
theorem eraseLoop_round {f : Frame Addr} (h : Lays m (plug (f :: p) t)) (ht : t.color = .black)
    (fuel : ℕ) :
    eraseLoop (fuel + 1) m t.root (some f.val) =
      (eraseRound m t.root (some f.val)).bind (eraseNext fuel) := by
  have hred : m.hasRed t.root = some false := by
    rw [h.hasRed_eq, ht]
    rfl
  rw [eraseLoop, hred]
  simp only [Option.bind_eq_bind, Option.bind_some, Bool.not_false, bne_iff_ne, ne_eq, h.root_ne,
    not_false_eq_true, Bool.true_and, if_true]
  rfl

/-- At a red subtree, or at the root, the loop ends. -/
theorem eraseLoop_stop (h : Lays m (plug p t)) (hend : t.color = .red ∨ p = []) (fuel : ℕ)
    (parent : Ptr) : eraseLoop (fuel + 1) m t.root parent = some (m, t.root) := by
  rw [eraseLoop, h.hasRed_eq]
  rcases hend with ht | rfl
  · simp [ht]
  · have hroot : m.rbNode = t.root := h.rbNode
    simp [hroot]

/-- The loop runs through a climb of the library, but for the paint of its last line. -/
theorem eraseLoop_spec {k : ℕ} {T : ColorTree Addr} (hfix : EraseFix k p t T)
    (h : Lays m (plug p t)) {fuel : ℕ} (hfuel : k < fuel) :
    Returns (eraseLoop fuel m t.root (above p)) fun q =>
      ∃ p' t', q.2 = t'.root ∧ T = plug p' (t'.paint .black) ∧
        Reshapes m (plug p t) (plug p' t') q.1 := by
  obtain ⟨fuel, rfl⟩ : ∃ i, fuel = i + 1 := ⟨fuel - 1, by omega⟩
  induction hfix generalizing m fuel with
  | @red p t ht =>
      rw [eraseLoop_stop h (Or.inl ht)]
      exact Returns.some_iff.mpr ⟨p, t, rfl, rfl, .refl h⟩
  | @root t ht =>
      rw [eraseLoop_stop h (Or.inr rfl)]
      exact Returns.some_iff.mpr ⟨[], t, rfl, (paint_color ht).symm, .refl h⟩
  | turn ht hfix ih =>
      rw [above_cons, eraseLoop_round h ht, eraseRound_eq h, Option.bind_assoc]
      refine (eraseTurn_red h).bind ?_
      rintro ⟨m₁, other⟩ ⟨h₁, rfl⟩
      have hround := ih h₁.lays fuel hfuel
      rw [above_cons, eraseLoop_round h₁.lays ht, eraseRound_black h₁.lays] at hround
      rw [root_join]
      refine hround.mono ?_
      rintro q ⟨p', t', hq, hT, h₂⟩
      exact ⟨p', t', hq, hT, h₁.trans h₂⟩
  | lift ht hl hr hfix ih =>
      obtain ⟨fuel, rfl⟩ : ∃ i, fuel = i + 1 := ⟨fuel - 1, by omega⟩
      rw [above_cons, eraseLoop_round h ht, eraseRound_black h]
      refine (eraseSettle_lift h hl hr).bind ?_
      rintro ⟨m₁, next⟩ ⟨h₁, rfl⟩
      have hloop := ih h₁.lays fuel (by omega)
      rw [root_join] at hloop
      refine hloop.mono ?_
      rintro q ⟨p', t', hq, hT, h₂⟩
      exact ⟨p', t', hq, hT, h₁.trans h₂⟩
  | far ht hr =>
      rw [above_cons, eraseLoop_round h ht, eraseRound_black h]
      refine (eraseSettle_far h hr).bind ?_
      rintro ⟨m₁, next⟩ ⟨h₁, rfl⟩
      exact Returns.some_iff.mpr ⟨[], _, h₁.lays.rbNode, rfl, h₁⟩
  | near ht hr =>
      rw [above_cons, eraseLoop_round h ht, eraseRound_black h]
      refine (eraseSettle_near h hr).bind ?_
      rintro ⟨m₁, next⟩ ⟨h₁, rfl⟩
      exact Returns.some_iff.mpr ⟨[], _, h₁.lays.rbNode, rfl, h₁⟩

/-- `__rb_erase_color` runs through a climb of the library. -/
theorem rbEraseColor_spec {k : ℕ} {T : ColorTree Addr} (hfix : EraseFix k p t T)
    (h : Lays m (plug p t)) {fuel : ℕ} (hfuel : k < fuel) :
    Returns (rbEraseColor fuel m t.root (above p)) (Reshapes m (plug p t) T) := by
  rw [rbEraseColor]
  refine (eraseLoop_spec hfix h hfuel).bind ?_
  rintro ⟨m₁, node⟩ ⟨p', t', hnode, rfl, h₁⟩
  obtain rfl : node = t'.root := hnode
  cases hroot : t'.root with
  | none =>
      rw [root_eq_none.mp hroot] at h₁ ⊢
      exact Returns.some_iff.mpr h₁
  | some a => exact (h₁.lays.setBlack_spec hroot).mono fun m₂ h₂ => h₁.trans h₂

end RbTree

end Infra
