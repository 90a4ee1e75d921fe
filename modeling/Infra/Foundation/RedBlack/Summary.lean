import Infra.Foundation.RedBlack.Rebalance
import Mathlib.Data.List.Induction

/-!
# Summaries of subtrees

Each element of a tree may carry a value that sums up its subtree, computed from the
values of its children. A climb rotates nodes, and the values on the way up from
some node, and right beside this way, are then out of date. `Fixable x T` says that
there are no others: all values of `T` are right again when they are computed anew
on the way from the node `x` up to the root, with the node beside each step.
-/

namespace Infra

namespace RedBlack

open ColorTree

section Summaries

variable {α V : Type*} (g : α → Option V → Option V → V) (val : α → V)

/-- Every element has the value that `g` computes from its children. -/
def Summed : ColorTree α → Prop
  | nil => True
  | node _ l a r => val a = g a (l.root.map val) (r.root.map val) ∧ Summed l ∧ Summed r

/-- Every element below the root has its value. -/
def SummedBelow : ColorTree α → Prop
  | nil => True
  | node _ l _ r => Summed g val l ∧ Summed g val r

/-- The values are right except on the way from the node `x` to the root and right beside it. -/
def Fixable (x : Option α) (T : ColorTree α) : Prop :=
  ∃ q u, T = plug q u ∧ u.root = x ∧ SummedBelow g val u ∧ ∀ f ∈ q, SummedBelow g val f.sibling

/-- The values of `T` can be fixed from the first child of the node `n`, or from `n` itself when
it has no child. -/
def FixableAt (n : α) (T : ColorTree α) : Prop :=
  ∃ q c l r, T = plug q (node c l n r) ∧ Fixable g val (l.root.or (r.root.or (some n))) T

variable {g val} {val' : α → V} {s : Side} {c : Color} {t u : ColorTree α} {p : Path α} {a : α}

@[simp] theorem summed_nil : Summed g val (nil : ColorTree α) := trivial

@[simp] theorem summedBelow_nil : SummedBelow g val (nil : ColorTree α) := trivial

@[simp] theorem summedBelow_join :
    SummedBelow g val (join s c t a u) ↔ Summed g val t ∧ Summed g val u := by
  cases s <;> simp only [join, SummedBelow, and_comm]

theorem Summed.below (h : Summed g val t) : SummedBelow g val t := by
  cases t with
  | nil => trivial
  | node c l a r => exact h.2

@[simp] theorem summed_paint : Summed g val (t.paint c) ↔ Summed g val t := by
  cases t <;> rfl

@[simp] theorem summedBelow_paint : SummedBelow g val (t.paint c) ↔ SummedBelow g val t := by
  cases t <;> rfl

theorem Summed.of_join (h : Summed g val (join s c t a u)) : Summed g val t ∧ Summed g val u :=
  summedBelow_join.mp h.below

theorem map_root_congr (e : ∀ a ∈ t.toList, val' a = val a) :
    t.root.map val' = t.root.map val := by
  cases t with
  | nil => rfl
  | node c l a r => simp [e a (by simp)]

/-- The values of a tree only matter at its elements. -/
theorem Summed.congr (h : Summed g val t) (e : ∀ a ∈ t.toList, val' a = val a) :
    Summed g val' t := by
  induction t with
  | nil => trivial
  | node c l a r ihl ihr =>
      have hl : ∀ b ∈ l.toList, val' b = val b := fun b hb => e b (by simp [hb])
      have hr : ∀ b ∈ r.toList, val' b = val b := fun b hb => e b (by simp [hb])
      refine ⟨?_, ihl h.2.1 hl, ihr h.2.2 hr⟩
      rw [e a (by simp), h.1, map_root_congr hl, map_root_congr hr]

theorem SummedBelow.congr (h : SummedBelow g val t) (e : ∀ a ∈ t.toList, val' a = val a) :
    SummedBelow g val' t := by
  cases t with
  | nil => trivial
  | node c l a r =>
      exact ⟨h.1.congr fun b hb => e b (by simp [hb]), h.2.congr fun b hb => e b (by simp [hb])⟩

/-- The subtrees beside a way down have their values when the tree has. -/
theorem summed_plug (h : Summed g val (plug p t)) :
    Summed g val t ∧ ∀ f ∈ p, Summed g val f.sibling := by
  induction p generalizing t with
  | nil => exact ⟨h, by simp⟩
  | cons f p ih =>
      obtain ⟨hfill, hp⟩ := ih h
      obtain ⟨ht, hf⟩ := Summed.of_join hfill
      exact ⟨ht, List.forall_mem_cons.mpr ⟨hf, hp⟩⟩

/-! ## After a climb -/

theorem Fixable.paint {x : Option α} {T : ColorTree α} (h : Fixable g val x T) :
    Fixable g val x (T.paint c) := by
  obtain ⟨q, u, rfl, hx, hu, hq⟩ := h
  induction q using List.reverseRecOn with
  | nil => exact ⟨[], u.paint c, rfl, by simpa using hx, by simpa using hu, by simp⟩
  | append_singleton q f _ =>
      refine ⟨q ++ [{ f with color := c }], u, ?_, hx, hu, ?_⟩
      · simp [plug_append, plug_cons, Frame.fill]
      · simpa [or_imp, forall_and] using hq

/-- A node whose subtrees are right. -/
theorem fixable_join (ht : Summed g val t) (hu : Summed g val u) :
    Fixable g val (some a) (ColorTree.join s c t a u) :=
  ⟨[], ColorTree.join s c t a u, rfl, root_join .., summedBelow_join.mpr ⟨ht, hu⟩, by simp⟩

/-- A subtree that can be fixed, below a way with right values. -/
theorem Fixable.plug {x : Option α} (h : Fixable g val x t)
    (hp : ∀ f ∈ p, SummedBelow g val f.sibling) : Fixable g val x (plug p t) := by
  obtain ⟨q, u, rfl, hx, hu, hq⟩ := h
  exact ⟨q ++ p, u, (plug_append q p u).symm, hx, hu, by
    simpa [or_imp, forall_and] using ⟨hq, hp⟩⟩

/-- A root whose subtrees can be fixed from one of them. -/
theorem Fixable.join {x : Option α} (h : Fixable g val x t) (hu : SummedBelow g val u) :
    Fixable g val x (join s c t a u) :=
  h.plug (p := [⟨s, c, a, u⟩]) (by simpa using hu)

theorem FixableAt.paint {n : α} {T : ColorTree α} (h : FixableAt g val n T) :
    FixableAt g val n (T.paint c) := by
  obtain ⟨q, d, l, r, rfl, hfix⟩ := h
  induction q using List.reverseRecOn with
  | nil => exact ⟨[], c, l, r, rfl, hfix.paint⟩
  | append_singleton q f _ =>
      refine ⟨q ++ [{ f with color := c }], d, l, r, ?_, hfix.paint⟩
      simp [plug_append, plug_cons, Frame.fill]

theorem FixableAt.plug {n : α} (h : FixableAt g val n t)
    (hp : ∀ f ∈ p, SummedBelow g val f.sibling) : FixableAt g val n (plug p t) := by
  obtain ⟨q, d, l, r, rfl, hfix⟩ := h
  exact ⟨q ++ p, d, l, r, (plug_append q p _).symm, hfix.plug hp⟩

theorem FixableAt.join {n : α} (h : FixableAt g val n t) (hu : SummedBelow g val u) :
    FixableAt g val n (join s c t a u) :=
  h.plug (p := [⟨s, c, a, u⟩]) (by simpa using hu)

theorem FixableAt.leaf (c : Color) (n : α) : FixableAt g val n (node c nil n nil) :=
  ⟨[], c, nil, nil, rfl, [], _, rfl, rfl, ⟨trivial, trivial⟩, by simp⟩

/-- A node with two children, whose own values may be out of date. -/
theorem FixableAt.of_children {l r : ColorTree α} {n x : α} (hx : l.root = some x)
    (hl : SummedBelow g val l) (hr : SummedBelow g val r) :
    FixableAt g val n (node c l n r) :=
  ⟨[], c, l, r, rfl, [⟨.left, c, n, r⟩], l, rfl, by simp [hx], hl, by simpa using hr⟩

/-- After the climb of an insertion, the values are out of date on the way up from the new
node, or from its first child. -/
theorem InsertFix.fixableAt {k : ℕ} {T : ColorTree α} {n : α} (h : InsertFix k p t T)
    (ht : ∃ q, t = RedBlack.plug q (node .red nil n nil) ∧ ∀ f ∈ q, Summed g val f.sibling)
    (hp : ∀ f ∈ p, Summed g val f.sibling) : FixableAt g val n T := by
  have hgrown : ∀ q : Path α, (∀ f ∈ q, Summed g val f.sibling) →
      FixableAt g val n (RedBlack.plug q (node .red nil n nil)) := fun q hq =>
    (FixableAt.leaf .red n).plug fun f hf => (hq f hf).below
  induction h with
  | root =>
      obtain ⟨q, rfl, hq⟩ := ht
      exact (hgrown q hq).paint
  | done =>
      obtain ⟨q, rfl, hq⟩ := ht
      exact ((hgrown q hq).plug fun f hf => (hp f hf).below).paint
  | @recolor k s s' c a g' u v p t T hu _ ih =>
      obtain ⟨q, rfl, hq⟩ := ht
      simp only [List.forall_mem_cons] at hp
      obtain ⟨hv, hsu, hp⟩ := hp
      refine ih ⟨q ++ [⟨s', .black, a, v⟩, ⟨s, .red, g', u.paint .black⟩], ?_, ?_⟩ hp
      · rw [plug_append]
        rfl
      · simpa [or_imp, forall_and] using ⟨hq, hv, hsu⟩
  | @outer s c a g' u v p t hu =>
      obtain ⟨q, rfl, hq⟩ := ht
      simp only [List.forall_mem_cons] at hp
      obtain ⟨hv, hsu, hp⟩ := hp
      exact (((hgrown q hq).join (by simpa using ⟨hv, hsu⟩)).plug fun f hf => (hp f hf).below).paint
  | @inner s c a g' n' u v l r p hu =>
      obtain ⟨q, e, hq⟩ := ht
      simp only [List.forall_mem_cons] at hp
      obtain ⟨hv, hsu, hp⟩ := hp
      refine FixableAt.paint (FixableAt.plug ?_ fun f hf => (hp f hf).below)
      induction q using List.reverseRecOn with
      | nil =>
          -- the new node itself has come up, between its parent and its grandparent
          obtain ⟨rfl, rfl, rfl⟩ : l = nil ∧ n' = n ∧ r = nil := by
            cases s <;> cases e <;> exact ⟨rfl, rfl, rfl⟩
          cases s with
          | left => exact .of_children (x := a) rfl ⟨hv, trivial⟩ ⟨trivial, hsu⟩
          | right => exact .of_children (x := g') rfl ⟨hsu, trivial⟩ ⟨trivial, hv⟩
      | append_singleton q f _ =>
          simp only [List.forall_mem_append, List.forall_mem_cons] at hq
          obtain ⟨hq, hf, -⟩ := hq
          obtain ⟨s₁, d, b, w⟩ := f
          rw [plug_append, plug_cons, plug_nil, Frame.fill] at e
          by_cases hs : s₁ = s
          · obtain ⟨rfl, rfl, rfl⟩ :
                l = RedBlack.plug q (node .red nil n nil) ∧ n' = b ∧ r = w := by
              subst hs
              cases s₁ <;> cases e <;> exact ⟨rfl, rfl, rfl⟩
            have := (hgrown q hq).join (s := s.flip) (c := .red) (a := a) (u := v) hv.below
            rw [join_flip] at this
            exact this.join (by simpa using ⟨hf, hsu⟩)
          · obtain ⟨rfl, rfl, rfl⟩ :
                r = RedBlack.plug q (node .red nil n nil) ∧ n' = b ∧ l = w := by
              obtain rfl : s₁ = s.flip := Side.eq_flip hs
              cases s <;> cases e <;> exact ⟨rfl, rfl, rfl⟩
            have := ((hgrown q hq).join (s := s) (c := .red) (a := g') (u := u) hsu.below).join
              (s := s.flip) (c := .black) (a := n') (u := join s .red v a l)
              (by simpa using ⟨hv, hf⟩)
            rwa [join_flip] at this

/-- After the climb of a removal, the values are out of date on the way up from the subtree. -/
theorem EraseFix.fixable {k : ℕ} {T : ColorTree α} {x : Option α} (h : EraseFix k p t T)
    (ht : Fixable g val x t) (hp : ∀ f ∈ p, Summed g val f.sibling) : Fixable g val x T := by
  induction h with
  | red => exact ht.paint.plug fun f hf => (hp f hf).below
  | root => exact ht
  | turn _ _ ih =>
      simp only [List.forall_mem_cons] at hp
      obtain ⟨hlm, hr⟩ := hp.1.of_join
      exact ih ht (by simpa using ⟨hlm, hr, hp.2⟩)
  | lift _ _ _ _ ih =>
      simp only [List.forall_mem_cons] at hp
      exact ih (ht.join (by simpa using hp.1.of_join)) hp.2
  | far =>
      simp only [List.forall_mem_cons] at hp
      obtain ⟨hl, hr⟩ := hp.1.of_join
      exact (((ht.join hl.below).join (by simpa using hr.below)).plug
        fun f hf => (hp.2 f hf).below).paint
  | near =>
      simp only [List.forall_mem_cons] at hp
      obtain ⟨hlm, hr⟩ := hp.1.of_join
      obtain ⟨hl, hm⟩ := hlm.of_join
      exact (((ht.join hl.below).join (by simpa using ⟨hm, hr⟩)).plug
        fun f hf => (hp.2 f hf).below).paint

/-- Where nothing came to the place of the removed node, the way starts above it. -/
theorem EraseFix.fixable_nil {k : ℕ} {T : ColorTree α} {f : Frame α} (h : EraseFix k (f :: p) nil T)
    (hp : ∀ f' ∈ f :: p, Summed g val f'.sibling) : Fixable g val (some f.val) T := by
  generalize hq : f :: p = q at h
  generalize ht : nil = t at h
  induction h generalizing f p with
  | red hc => subst ht; simp at hc
  | root => simp at hq
  | @turn k s c a b x l m r p t T _ _ ih =>
      obtain ⟨rfl, rfl⟩ := List.cons.inj hq
      simp only [List.forall_mem_cons] at hp
      obtain ⟨hlm, hr⟩ := hp.1.of_join
      exact ih (f := ⟨s, .red, a, join s .black l x m⟩) (by simpa using ⟨hlm, hr, hp.2⟩) rfl ht
  | lift _ _ _ h _ =>
      obtain ⟨rfl, rfl⟩ := List.cons.inj hq
      subst ht
      simp only [List.forall_mem_cons] at hp
      have hpaint := (summed_paint (c := .red)).mpr hp.1
      rw [paint_join] at hpaint
      exact h.fixable (fixable_join trivial hpaint) hp.2
  | @far s c a b l r p t _ _ =>
      obtain ⟨rfl, rfl⟩ := List.cons.inj hq
      subst ht
      simp only [List.forall_mem_cons] at hp
      obtain ⟨hl, hr⟩ := hp.1.of_join
      have hstart : Fixable g val (some a) (join s .black nil a l) := fixable_join trivial hl
      exact ((hstart.join (by simpa using hr.below)).plug fun f hf => (hp.2 f hf).below).paint
  | @near s c a b x l m r p t _ _ =>
      obtain ⟨rfl, rfl⟩ := List.cons.inj hq
      subst ht
      simp only [List.forall_mem_cons] at hp
      obtain ⟨hlm, hr⟩ := hp.1.of_join
      obtain ⟨hl, hm⟩ := hlm.of_join
      have hstart : Fixable g val (some a) (join s .black nil a l) := fixable_join trivial hl
      exact ((hstart.join (by simpa using ⟨hm, hr⟩)).plug fun f hf => (hp.2 f hf).below).paint

/-! ## After a removal -/

/-- The deepest node above or at the place that becomes empty when the root of a subtree is
removed. -/
inductive Deepest (p : Path α) : ColorTree α → Option α → Prop where
  | single {s : Side} {c : Color} {a : α} {u : ColorTree α} :
      Deepest p (ColorTree.join s c nil a u) (u.root.or (above p))
  | double {q : Path α} {c d : Color} {a y : α} {l w : ColorTree α} (hl : l ≠ nil)
      (hq : ∀ f ∈ q, f.side = .left) :
      Deepest p (node c l a (RedBlack.plug q (ColorTree.join .left d nil y w)))
        (w.root.or (above (q ++ ⟨.right, c, y, l⟩ :: p)))

/-- The tree `T` is empty, or its values can be fixed from the node `x`. -/
def FixableFrom (g : α → Option V → Option V → V) (val : α → V) (T : ColorTree α) : Option α → Prop
  | none => T = nil
  | some x => Fixable g val (some x) T

theorem Removes.fixableFrom {k : ℕ} {T : ColorTree α} (h : Removes k p u c T) (hu : Summed g val u)
    (hp : ∀ f ∈ p, Summed g val f.sibling) : FixableFrom g val T (u.root.or (above p)) := by
  cases hr : u.root with
  | none =>
      obtain rfl := root_eq_none.mp hr
      cases p with
      | nil =>
          cases h with
          | red => rfl
          | black h =>
              cases h with
              | red hc => simp at hc
              | root => rfl
      | cons f p =>
          cases h with
          | red =>
              simp only [List.forall_mem_cons] at hp
              have hf : Fixable g val (some f.val) (f.fill nil) := fixable_join trivial hp.1
              exact hf.plug fun f hf => (hp.2 f hf).below
          | black h => exact h.fixable_nil hp
  | some x =>
      have hx : Fixable g val (some x) u := ⟨[], u, rfl, hr, hu.below, by simp⟩
      cases h with
      | red => exact hx.plug fun f hf => (hp f hf).below
      | black h => exact h.fixable hx hp

/-- After a removal from a tree with right values, they are out of date on the way up from the
deepest node. -/
theorem Erases.fixableFrom {k : ℕ} {T : ColorTree α} (h : Erases k p t T)
    (ht : Summed g val (RedBlack.plug p t)) : ∃ x, Deepest p t x ∧ FixableFrom g val T x := by
  obtain ⟨ht, hp⟩ := summed_plug ht
  cases h with
  | single h => exact ⟨_, .single, h.fixableFrom ht.of_join.2 hp⟩
  | double hl hq h =>
      obtain ⟨hsl, hr⟩ := Summed.of_join (s := .left) ht
      obtain ⟨hy, hsq⟩ := summed_plug hr
      refine ⟨_, .double hl hq, h.fixableFrom hy.of_join.2 ?_⟩
      simpa [or_imp, forall_and] using ⟨hsq, hsl, hp⟩

end Summaries

end RedBlack

end Infra
