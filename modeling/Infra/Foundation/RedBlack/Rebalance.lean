import Infra.Foundation.RedBlack.Balance

/-!
# Rebalancing from the bottom up

A tree that was red-black before one node came or went is made red-black again by
climbing from the place of the change. `InsertFix k p t T` says that the climb from
the red node `t` at the end of the path `p` takes `k` rounds and leaves the tree
`T`; `EraseFix k p t T` says it of a subtree `t` that has one black node too few.
The rules are the cases of a climb, each with the tree it leaves. A climb keeps the
order of the elements, and from a balanced tree it exists and makes the whole tree
red-black.
-/

namespace Infra

namespace RedBlack

variable {α : Type*}

open ColorTree

/-- The climb from a red node `t` at the end of a path, whose parent may be red. -/
inductive InsertFix : ℕ → Path α → ColorTree α → ColorTree α → Prop where
  | root {t : ColorTree α} : InsertFix 0 [] t (t.paint .black)
  | done {s : Side} {a : α} {u : ColorTree α} {p : Path α} {t : ColorTree α} :
      InsertFix 0 (⟨s, .black, a, u⟩ :: p) t ((plug (⟨s, .black, a, u⟩ :: p) t).paint .black)
  | recolor {k : ℕ} {s s' : Side} {c : Color} {a g : α} {u v : ColorTree α} {p : Path α}
      {t T : ColorTree α} (hu : u.color = .red)
      (h : InsertFix k p (join s .red (join s' .black t a v) g (u.paint .black)) T) :
      InsertFix (k + 1) (⟨s', .red, a, v⟩ :: ⟨s, c, g, u⟩ :: p) t T
  | outer {s : Side} {c : Color} {a g : α} {u v : ColorTree α} {p : Path α} {t : ColorTree α}
      (hu : u.color = .black) :
      InsertFix 1 (⟨s, .red, a, v⟩ :: ⟨s, c, g, u⟩ :: p) t
        ((plug p (join s .black t a (join s .red v g u))).paint .black)
  | inner {s : Side} {c : Color} {a g n : α} {u v l r : ColorTree α} {p : Path α}
      (hu : u.color = .black) :
      InsertFix 1 (⟨s.flip, .red, a, v⟩ :: ⟨s, c, g, u⟩ :: p) (join s .red l n r)
        ((plug p (join s .black (join s .red v a l) n (join s .red r g u))).paint .black)

/-- The climb from a subtree `t` that is one black node short. -/
inductive EraseFix : ℕ → Path α → ColorTree α → ColorTree α → Prop where
  | red {p : Path α} {t : ColorTree α} (ht : t.color = .red) :
      EraseFix 0 p t (plug p (t.paint .black))
  | root {t : ColorTree α} (ht : t.color = .black) : EraseFix 0 [] t t
  | turn {k : ℕ} {s : Side} {c : Color} {a b x : α} {l m r : ColorTree α} {p : Path α}
      {t T : ColorTree α}
      (ht : t.color = .black)
      (h : EraseFix k (⟨s, .red, a, join s .black l x m⟩ :: ⟨s, .black, b, r⟩ :: p) t T) :
      EraseFix k (⟨s, c, a, join s .red (join s .black l x m) b r⟩ :: p) t T
  | lift {k : ℕ} {s : Side} {c : Color} {a b : α} {l r : ColorTree α} {p : Path α}
      {t T : ColorTree α}
      (ht : t.color = .black) (hl : l.color = .black) (hr : r.color = .black)
      (h : EraseFix k p (join s c t a (join s .red l b r)) T) :
      EraseFix (k + 1) (⟨s, c, a, join s .black l b r⟩ :: p) t T
  | far {s : Side} {c : Color} {a b : α} {l r : ColorTree α} {p : Path α} {t : ColorTree α}
      (ht : t.color = .black) (hr : r.color = .red) :
      EraseFix 1 (⟨s, c, a, join s .black l b r⟩ :: p) t
        ((plug p (join s c (join s .black t a l) b (r.paint .black))).paint .black)
  | near {s : Side} {c : Color} {a b x : α} {l m r : ColorTree α} {p : Path α} {t : ColorTree α}
      (ht : t.color = .black) (hr : r.color = .black) :
      EraseFix 1 (⟨s, c, a, join s .black (join s .red l x m) b r⟩ :: p) t
        ((plug p (join s c (join s .black t a l) x (join s .black m b r))).paint .black)

/-! ## The order of the elements -/

/-- A climb after an insertion keeps the elements in their order. -/
theorem InsertFix.toList {k : ℕ} {p : Path α} {t T : ColorTree α} (h : InsertFix k p t T) :
    T.toList = (plug p t).toList := by
  induction h with
  | root => exact toList_paint _ _
  | done => exact toList_paint _ _
  | recolor _ _ ih =>
      rw [ih, plug_cons, plug_cons]
      exact toList_plug_congr _ (toList_join_congr _ _ _ _ (toList_join_congr _ _ _ _ rfl rfl)
        (toList_paint _ _))
  | @outer s _ a g u v _ t _ =>
      rw [toList_paint, plug_cons, plug_cons]
      refine toList_plug_congr _ ?_
      cases s <;> simp [Frame.fill, join]
  | @inner s _ a g n u v l r _ _ =>
      rw [toList_paint, plug_cons, plug_cons]
      refine toList_plug_congr _ ?_
      cases s <;> simp [Frame.fill, join, Side.flip]

/-- A climb after a removal keeps the elements in their order. -/
theorem EraseFix.toList {k : ℕ} {p : Path α} {t T : ColorTree α} (h : EraseFix k p t T) :
    T.toList = (plug p t).toList := by
  induction h with
  | red => exact toList_plug_congr _ (toList_paint _ _)
  | root => rfl
  | @turn _ s c a b x l m r p t _ _ _ ih =>
      rw [ih, plug_cons, plug_cons, plug_cons]
      refine toList_plug_congr _ ?_
      cases s <;> simp [Frame.fill, join]
  | @lift _ s c a b l r p t _ _ _ _ _ ih =>
      rw [ih, plug_cons]
      refine toList_plug_congr _ ?_
      cases s <;> simp [Frame.fill, join]
  | @far s c a b l r p t _ _ =>
      rw [toList_paint, plug_cons]
      refine toList_plug_congr _ ?_
      cases s <;> simp [Frame.fill, join]
  | @near s c a b x l m r p t _ _ =>
      rw [toList_paint, plug_cons]
      refine toList_plug_congr _ ?_
      cases s <;> simp [Frame.fill, join]

/-! ## The balance -/

/-- Another subtree of the same height may stand beside a hole. -/
theorem Fits.replace {s : Side} {c d : Color} {a b : α} {u u' : ColorTree α} {p : Path α} {n : ℕ}
    (h : Fits (⟨s, c, a, u⟩ :: p) d n) (hc : u'.color = .black) (hu : Balanced n u') :
    Fits (⟨s, c, b, u'⟩ :: p) d n := by
  cases c with
  | red => exact ⟨h.1, hc, hu, h.2.2.2⟩
  | black => exact ⟨hu, h.2⟩

/-- The subtree beside a hole has the height of the hole. -/
theorem Fits.sibling {s : Side} {c d : Color} {a : α} {u : ColorTree α} {p : Path α} {n : ℕ}
    (h : Fits (⟨s, c, a, u⟩ :: p) d n) : Balanced n u := by
  cases c with
  | red => exact h.2.2.1
  | black => exact h.1

/-- After an insertion at a place of a red-black tree, the climb exists and leaves a
red-black tree. -/
theorem exists_insertFix : ∀ (p : Path α) (t : ColorTree α) (n : ℕ), t.color = .red →
    Balanced n t → Fits p .black n → ∃ k T, InsertFix k p t T ∧ k ≤ p.length ∧ IsRedBlack T
  | [], t, n, _, ht, _ => ⟨0, _, .root, le_refl 0, ht.short.isRedBlack⟩
  | ⟨s, .black, a, u⟩ :: p, t, n, _, ht, hp => by
      have hrb : IsRedBlack (plug (⟨s, .black, a, u⟩ :: p) t) := Fits.isRedBlack hp ht
      exact ⟨0, _, .done, Nat.zero_le _, by rwa [hrb.paint_eq]⟩
  | [⟨s, .red, a, v⟩], t, n, _, _, hp => by simp at hp
  | ⟨s', .red, a, v⟩ :: ⟨s, .red, g, u⟩ :: p, t, n, _, _, hp => by simp at hp
  | ⟨s', .red, a, v⟩ :: ⟨s, .black, g, u⟩ :: p, t, n, hc, ht, hp => by
      obtain ⟨-, hv, hbv, hu, hp⟩ := hp
      cases hcu : u.color with
      | red =>
          have hpaint : Balanced (n + 1) (u.paint .black) := by
            obtain ⟨l, b, r, rfl⟩ := exists_join_of_red hcu .left
            exact ⟨n, rfl, hu.2.2⟩
          have hblack : (u.paint .black).color = .black := by cases u <;> rfl
          obtain ⟨k, T, hfix, hk, hrb⟩ := exists_insertFix p
            (join s .red (join s' .black t a v) g (u.paint .black)) (n + 1) (by simp)
            (by simpa [hblack, hpaint] using ⟨ht, hbv⟩) hp
          exact ⟨k + 1, T, .recolor hcu hfix, by simp only [List.length_cons]; omega, hrb⟩
      | black =>
          by_cases hs : s' = s
          · subst hs
            have hrb : IsRedBlack (plug p (join s' .black t a (join s' .red v g u))) :=
              Fits.isRedBlack (n := n + 1) (by simpa using hp)
                (by simp [ht, hv, hbv, hcu, hu])
            exact ⟨1, _, .outer hcu, by simp, by rwa [hrb.paint_eq]⟩
          · obtain rfl := Side.eq_flip hs
            obtain ⟨l, b, r, rfl⟩ := exists_join_of_red hc s
            obtain ⟨hl, hr, hbl, hbr⟩ := balanced_join_red.mp ht
            have hrb : IsRedBlack
                (plug p (join s .black (join s .red v a l) b (join s .red r g u))) :=
              Fits.isRedBlack (n := n + 1) (by simpa using hp)
                (by simp [hv, hbv, hl, hr, hbl, hbr, hcu, hu])
            exact ⟨1, _, .inner hcu, by simp, by rwa [hrb.paint_eq]⟩

/-- The climb ends beside a black node that has a red child. -/
theorem exists_eraseFix_of_child_red {s : Side} {c : Color} {a b : α} {l r : ColorTree α}
    {p : Path α} {t : ColorTree α} {n : ℕ} (hc : t.color = .black) (ht : Balanced n t)
    (hp : Fits (⟨s, c, a, join s .black l b r⟩ :: p) .black (n + 1))
    (hred : l.color = .red ∨ r.color = .red) :
    ∃ T, EraseFix 1 (⟨s, c, a, join s .black l b r⟩ :: p) t T ∧ IsRedBlack T := by
  obtain ⟨m, hm, hbl, hbr⟩ := balanced_join_black.mp hp.sibling
  obtain rfl : n = m := by omega
  -- `x` comes to the place of `a`, between two black trees of the height of the hole
  have hplace : ∀ {x : α} {v w : ColorTree α}, v.color = .black → Balanced (n + 1) v →
      w.color = .black → Balanced (n + 1) w → IsRedBlack (plug p (join s c v x w)) := by
    intro x v w hcv hv hcw hw
    exact Fits.isRedBlack (p := ⟨s, c, x, w⟩ :: p) (by rw [hcv]; exact hp.replace hcw hw) hv
  cases hcr : r.color with
  | red =>
      have hpaint : (r.paint .black).color = .black ∧ Balanced (n + 1) (r.paint .black) := by
        obtain ⟨x, y, z, rfl⟩ := exists_join_of_red hcr .left
        exact ⟨rfl, n, rfl, hbr.2.2⟩
      have hrb := hplace (x := b) (v := join s .black t a l) (by simp) (by simp [ht, hbl])
        hpaint.1 hpaint.2
      exact ⟨_, .far hc hcr, by rwa [hrb.paint_eq]⟩
  | black =>
      have hcl : l.color = .red := by simpa [hcr] using hred
      obtain ⟨l₁, x, l₂, rfl⟩ := exists_join_of_red hcl s
      obtain ⟨-, -, h₁, h₂⟩ := balanced_join_red.mp hbl
      have hrb := hplace (x := x) (v := join s .black t a l₁) (w := join s .black l₂ b r)
        (by simp) (by simp [ht, h₁]) (by simp) (by simp [h₂, hbr])
      exact ⟨_, .near hc hcr, by rwa [hrb.paint_eq]⟩

/-- A black tree of a positive height is a node. -/
theorem Balanced.exists_join {n : ℕ} {u : ColorTree α} (h : Balanced (n + 1) u)
    (hc : u.color = .black) (s : Side) : ∃ l b r, u = join s .black l b r := by
  cases u with
  | nil => simp at h
  | node c l b r =>
      obtain rfl : c = .black := hc
      cases s with
      | left => exact ⟨l, b, r, rfl⟩
      | right => exact ⟨r, b, l, rfl⟩

/-- The climb ends at a red parent in one round. -/
theorem exists_eraseFix_of_parent_red {s : Side} {a : α} {u : ColorTree α} {p : Path α}
    {t : ColorTree α}
    {n : ℕ} (hc : t.color = .black) (ht : Balanced n t)
    (hp : Fits (⟨s, .red, a, u⟩ :: p) .black (n + 1)) :
    ∃ T, EraseFix 1 (⟨s, .red, a, u⟩ :: p) t T ∧ IsRedBlack T := by
  obtain ⟨-, hcu, hbu, hp'⟩ := id hp
  obtain ⟨l, b, r, rfl⟩ := hbu.exists_join hcu s
  obtain ⟨m, hm, hbl, hbr⟩ := balanced_join_black.mp hbu
  obtain rfl : n = m := by omega
  by_cases hred : l.color = .red ∨ r.color = .red
  · exact exists_eraseFix_of_child_red hc ht hp hred
  · obtain ⟨hl, hr⟩ : l.color = .black ∧ r.color = .black := by
      cases hl : l.color <;> cases hr : r.color <;> simp_all
    refine ⟨_, .lift hc hl hr (.red (by simp)), ?_⟩
    rw [paint_join]
    exact Fits.isRedBlack (n := n + 1) (by simpa using hp'.black) (by simp [ht, hl, hr, hbl, hbr])

/-- Where a red-black tree has lost one black node, the climb exists and leaves a
red-black tree. -/
theorem exists_eraseFix {p : Path α} {t : ColorTree α} {n : ℕ} (ht : Short n t)
    (hp : Fits p .black (n + 1)) :
    ∃ k T, EraseFix k p t T ∧ k ≤ p.length ∧ IsRedBlack T := by
  induction p generalizing t n with
  | nil =>
      cases hc : t.color with
      | red => exact ⟨0, _, .red hc, le_refl 0, ht.isRedBlack⟩
      | black => exact ⟨0, _, .root hc, le_refl 0, hc, n, (short_of_black hc).mp ht⟩
  | cons f p ih =>
      cases hc : t.color with
      | red =>
          obtain ⟨l, a, r, rfl⟩ := exists_join_of_red hc .left
          exact ⟨0, _, .red hc, Nat.zero_le _,
            Fits.isRedBlack (by simpa [join] using hp) ⟨n, rfl, ht⟩⟩
      | black =>
          have hbt := (short_of_black hc).mp ht
          obtain ⟨s, c, a, u⟩ := f
          cases c with
          | red =>
              obtain ⟨T, hfix, hrb⟩ := exists_eraseFix_of_parent_red hc hbt hp
              exact ⟨1, T, hfix, by simp, hrb⟩
          | black =>
              obtain ⟨hbu, hp'⟩ := id hp
              cases hcu : u.color with
              | red =>
                  -- a red sibling is turned up first, and then the parent is red
                  obtain ⟨l, b, r, rfl⟩ := exists_join_of_red hcu s
                  obtain ⟨hl, hr, hbl, hbr⟩ := balanced_join_red.mp hbu
                  obtain ⟨l', x, m, rfl⟩ := hbl.exists_join hl s
                  obtain ⟨T, hfix, hrb⟩ := exists_eraseFix_of_parent_red
                    (p := ⟨s, .black, b, r⟩ :: p) (s := s) (a := a) hc hbt
                    ⟨rfl, hl, hbl, hbr, hp'⟩
                  exact ⟨1, T, .turn hc hfix, by simp, hrb⟩
              | black =>
                  obtain ⟨l, b, r, rfl⟩ := hbu.exists_join hcu s
                  obtain ⟨m, hm, hbl, hbr⟩ := balanced_join_black.mp hbu
                  obtain rfl : n = m := by omega
                  by_cases hred : l.color = .red ∨ r.color = .red
                  · obtain ⟨T, hfix, hrb⟩ := exists_eraseFix_of_child_red hc hbt hp hred
                    exact ⟨1, T, hfix, by simp, hrb⟩
                  · obtain ⟨hl, hr⟩ : l.color = .black ∧ r.color = .black := by
                      cases hl : l.color <;> cases hr : r.color <;> simp_all
                    have hshort : Short (n + 1) (join s .black t a (join s .red l b r)) :=
                      Balanced.short (by simp [hbt, hl, hr, hbl, hbr])
                    obtain ⟨k, T, hfix, hk, hrb⟩ := ih hshort hp'
                    exact ⟨k + 1, T, .lift hc hl hr hfix, by simpa using hk, hrb⟩

/-- The whole removal of a node of colour `c` whose only subtree `u` has come to its place at
the end of the path: a red node leaves no gap. -/
inductive Removes (k : ℕ) (p : Path α) (u : ColorTree α) : Color → ColorTree α → Prop where
  | red : Removes k p u .red (plug p u)
  | black {T : ColorTree α} (h : EraseFix k p u T) : Removes k p u .black T

theorem Removes.toList {k : ℕ} {p : Path α} {u T : ColorTree α} {c : Color}
    (h : Removes k p u c T) : T.toList = (plug p u).toList := by
  cases h with
  | red => rfl
  | black h => exact h.toList

/-- The removal of a node that has at most one child leaves a red-black tree. -/
theorem exists_removes {s : Side} {p : Path α} {c : Color} {a : α} {u : ColorTree α}
    (h : IsRedBlack (plug p (join s c nil a u))) :
    ∃ k T, Removes k p u c T ∧ k ≤ p.length ∧ IsRedBlack T := by
  obtain ⟨n, hn, hfits⟩ := balanced_plug.mp h
  rw [color_join] at hfits
  cases c with
  | red =>
      obtain ⟨-, hu, -, hbu⟩ := balanced_join_red.mp hn
      exact ⟨0, _, .red, Nat.zero_le _, Fits.isRedBlack (by rw [hu]; exact hfits.black) hbu⟩
  | black =>
      obtain ⟨m, rfl, -, hbu⟩ := balanced_join_black.mp hn
      obtain ⟨k, T, hfix, hk, hT⟩ := exists_eraseFix hbu.short hfits
      exact ⟨k, T, .black hfix, hk, hT⟩

/-- The balance does not depend on the elements. -/
theorem Fits.rename {q p : Path α} {s : Side} {c d : Color} {a b : α} {u : ColorTree α} {n : ℕ}
    (h : Fits (q ++ ⟨s, c, a, u⟩ :: p) d n) : Fits (q ++ ⟨s, c, b, u⟩ :: p) d n := by
  induction q generalizing d n with
  | nil => cases c <;> exact h
  | cons f q ih =>
      obtain ⟨s', e, x, v⟩ := f
      cases e with
      | red => exact ⟨h.1, h.2.1, h.2.2.1, ih h.2.2.2⟩
      | black => exact ⟨h.1, ih h.2⟩

/-- The removal of the root of a subtree `t` at the end of the path. A node with two children
is replaced by the next one. -/
inductive Erases (k : ℕ) (p : Path α) : ColorTree α → ColorTree α → Prop where
  | single {s : Side} {c : Color} {a : α} {u T : ColorTree α} (h : Removes k p u c T) :
      Erases k p (join s c nil a u) T
  | double {q : Path α} {c d : Color} {a y : α} {l w T : ColorTree α} (hl : l ≠ nil)
      (hq : ∀ f ∈ q, f.side = .left) (h : Removes k (q ++ ⟨.right, c, y, l⟩ :: p) w d T) :
      Erases k p (node c l a (plug q (join .left d nil y w))) T

/-- Only the removed element is gone, and the others stand in the same order. -/
theorem Erases.toList {k : ℕ} {p : Path α} {c : Color} {l r T : ColorTree α} {a : α}
    (h : Erases k p (node c l a r) T) :
    T.toList = before p ++ (l.toList ++ r.toList) ++ after p := by
  generalize e : node c l a r = t at h
  cases h with
  | @single s d b u T h =>
      rw [h.toList, toList_plug]
      cases s <;> cases e <;> simp
  | double hl hq h =>
      cases e
      rw [h.toList, plug_append, plug_cons, Frame.fill, toList_plug, toList_plug_left hq]
      simp [join]

/-- The removal of a node of a red-black tree leaves a red-black tree. -/
theorem exists_erases {p : Path α} {c : Color} {l r : ColorTree α} {a : α}
    (h : IsRedBlack (plug p (node c l a r))) :
    ∃ k T, Erases k p (node c l a r) T ∧ k ≤ (plug p (node c l a r)).height ∧ IsRedBlack T := by
  have hlen := length_add_height_le p (node c l a r)
  by_cases hl : l = nil
  · subst hl
    obtain ⟨k, T, hT, hk, hrb⟩ := exists_removes (s := .left) (a := a) (u := r) h
    exact ⟨k, T, .single (s := .left) hT, by omega, hrb⟩
  by_cases hr : r = nil
  · subst hr
    obtain ⟨k, T, hT, hk, hrb⟩ := exists_removes (s := .right) (a := a) (u := l) h
    exact ⟨k, T, .single (s := .right) hT, by omega, hrb⟩
  obtain ⟨q, d, y, w, rfl, hq⟩ := exists_outermost .left hr
  have hdown : plug p (node c l a (plug q (join .left d nil y w))) =
      plug (q ++ ⟨.right, c, a, l⟩ :: p) (join .left d nil y w) := by
    rw [plug_append]
    rfl
  rw [hdown] at h ⊢
  obtain ⟨n, hn, hfits⟩ := balanced_plug.mp h
  have hrb : IsRedBlack (plug (q ++ ⟨.right, c, y, l⟩ :: p) (join .left d nil y w)) :=
    balanced_plug.mpr ⟨n, hn, hfits.rename⟩
  obtain ⟨k, T, hT, hk, hrb⟩ := exists_removes hrb
  refine ⟨k, T, .double hl hq hT, ?_, hrb⟩
  have := length_add_height_le (q ++ ⟨.right, c, a, l⟩ :: p) (join .left d nil y w)
  simp only [List.length_append, List.length_cons] at hk this
  omega

end RedBlack

end Infra
