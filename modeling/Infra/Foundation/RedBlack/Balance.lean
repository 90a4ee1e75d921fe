import Infra.Foundation.RedBlack.Tree
import Mathlib.Algebra.Order.Ring.Nat
import Mathlib.Data.Nat.Log

/-!
# Balance

A tree is balanced at the black height `n` when every way down meets `n` black
nodes and no red node has a red child. A path is balanced around a hole of the
black height `n` when a tree of this height makes the whole tree balanced; a path
also says whether the hole may be filled with a red root. A whole tree is
red-black when it is balanced and its root is black, and then its height is at
most logarithmic in the number of its elements.
-/

namespace Infra

namespace RedBlack

variable {α : Type*}

open ColorTree

/-- Every way down meets `n` black nodes, and no red node has a red child. -/
def Balanced : ℕ → ColorTree α → Prop
  | n, .nil => n = 0
  | n, .node .red l _ r => l.color = .black ∧ r.color = .black ∧ Balanced n l ∧ Balanced n r
  | n, .node .black l _ r => ∃ m, n = m + 1 ∧ Balanced m l ∧ Balanced m r

instance Balanced.decidable : (n : ℕ) → (t : ColorTree α) → Decidable (Balanced n t)
  | n, .nil => inferInstanceAs (Decidable (n = 0))
  | n, .node .red l _ r =>
      letI := Balanced.decidable n l
      letI := Balanced.decidable n r
      inferInstanceAs (Decidable
        (l.color = .black ∧ r.color = .black ∧ Balanced n l ∧ Balanced n r))
  | 0, .node .black _ _ _ => isFalse fun ⟨_, h, _⟩ => absurd h (Nat.succ_ne_zero _).symm
  | n + 1, .node .black l _ r =>
      letI := Balanced.decidable n l
      letI := Balanced.decidable n r
      decidable_of_iff (Balanced n l ∧ Balanced n r)
        ⟨fun h => ⟨n, rfl, h⟩, fun ⟨_, h, hb⟩ => Nat.succ_inj.mp h ▸ hb⟩

/-- A tree is red-black. -/
structure IsRedBlack (t : ColorTree α) : Prop where
  color : t.color = .black
  balanced : ∃ n, Balanced n t

/-- A tree of the black height `n` in the hole makes the whole tree red-black, when
its root is black or the hole has the colour red. -/
def Fits : Path α → Color → ℕ → Prop
  | [], c, _ => c = .black
  | ⟨_, .red, _, u⟩ :: p, c, n =>
      c = .black ∧ u.color = .black ∧ Balanced n u ∧ Fits p .red n
  | ⟨_, .black, _, u⟩ :: p, _, n => Balanced n u ∧ Fits p .black (n + 1)

/-- A tree that is balanced once its root is painted black, at the height `n` with a
black root and at `n + 1` with a red one. -/
def Short (n : ℕ) : ColorTree α → Prop
  | .node .red l _ r => Balanced n l ∧ Balanced n r
  | t => Balanced n t

@[simp] theorem balanced_nil {n : ℕ} : Balanced n (nil : ColorTree α) ↔ n = 0 := Iff.rfl

@[simp] theorem balanced_red {n : ℕ} {l r : ColorTree α} {a : α} :
    Balanced n (node .red l a r) ↔
      l.color = .black ∧ r.color = .black ∧ Balanced n l ∧ Balanced n r := Iff.rfl

@[simp] theorem balanced_black {n : ℕ} {l r : ColorTree α} {a : α} :
    Balanced n (node .black l a r) ↔ ∃ m, n = m + 1 ∧ Balanced m l ∧ Balanced m r := Iff.rfl

@[simp] theorem balanced_join_red {n : ℕ} {s : Side} {t u : ColorTree α} {a : α} :
    Balanced n (join s .red t a u) ↔
      t.color = .black ∧ u.color = .black ∧ Balanced n t ∧ Balanced n u := by
  cases s
  · exact Iff.rfl
  · simp only [join, balanced_red]
    tauto

@[simp] theorem balanced_join_black {n : ℕ} {s : Side} {t u : ColorTree α} {a : α} :
    Balanced n (join s .black t a u) ↔ ∃ m, n = m + 1 ∧ Balanced m t ∧ Balanced m u := by
  cases s
  · exact Iff.rfl
  · simp only [join, balanced_black]
    exact exists_congr fun m => and_congr_right fun _ => and_comm

@[simp] theorem fits_nil {c : Color} {n : ℕ} : Fits ([] : Path α) c n ↔ c = .black := Iff.rfl

@[simp] theorem fits_red {s : Side} {a : α} {u : ColorTree α} {p : Path α} {c : Color} {n : ℕ} :
    Fits (⟨s, .red, a, u⟩ :: p) c n ↔
      c = .black ∧ u.color = .black ∧ Balanced n u ∧ Fits p .red n := Iff.rfl

@[simp] theorem fits_black {s : Side} {a : α} {u : ColorTree α} {p : Path α} {c : Color} {n : ℕ} :
    Fits (⟨s, .black, a, u⟩ :: p) c n ↔ Balanced n u ∧ Fits p .black (n + 1) := Iff.rfl

@[simp] theorem short_nil {n : ℕ} : Short n (nil : ColorTree α) ↔ n = 0 := Iff.rfl

@[simp] theorem short_red {n : ℕ} {l r : ColorTree α} {a : α} :
    Short n (node .red l a r) ↔ Balanced n l ∧ Balanced n r := Iff.rfl

theorem short_of_black {n : ℕ} {t : ColorTree α} (h : t.color = .black) :
    Short n t ↔ Balanced n t := by
  cases t with
  | nil => exact Iff.rfl
  | node c l a r =>
      obtain rfl : c = .black := h
      exact Iff.rfl

theorem Balanced.short {n : ℕ} {t : ColorTree α} (h : Balanced n t) : Short n t := by
  cases t with
  | nil => exact h
  | node c l a r =>
      cases c with
      | red => exact h.2.2
      | black => exact h

/-- A hole that takes a red root takes a black one. -/
theorem Fits.black {p : Path α} {c : Color} {n : ℕ} (h : Fits p c n) : Fits p .black n := by
  cases p with
  | nil => exact rfl
  | cons f p =>
      obtain ⟨s, d, a, u⟩ := f
      cases d with
      | red => exact ⟨rfl, h.2⟩
      | black => exact h

/-- A tree that is balanced around a hole gives the height of the hole. -/
theorem balanced_plug {p : Path α} {t : ColorTree α} :
    IsRedBlack (plug p t) ↔ ∃ n, Balanced n t ∧ Fits p t.color n := by
  induction p generalizing t with
  | nil => exact ⟨fun h => h.balanced.imp fun n hn => ⟨hn, h.color⟩,
      fun ⟨n, hn, hc⟩ => ⟨hc, n, hn⟩⟩
  | cons f p ih =>
      obtain ⟨s, c, a, u⟩ := f
      rw [plug_cons, ih]
      cases c with
      | red =>
          simp only [Frame.fill, balanced_join_red, color_join, fits_red]
          exact exists_congr fun n => by tauto
      | black =>
          simp only [Frame.fill, balanced_join_black, color_join, fits_black]
          constructor
          · rintro ⟨-, ⟨m, rfl, ht, hu⟩, hp⟩
            exact ⟨m, ht, hu, hp⟩
          · rintro ⟨m, ht, hu, hp⟩
            exact ⟨m + 1, ⟨m, rfl, ht, hu⟩, hp⟩

/-- A tree of the height of a hole fills it. -/
theorem Fits.isRedBlack {p : Path α} {t : ColorTree α} {n : ℕ} (hp : Fits p t.color n)
    (ht : Balanced n t) : IsRedBlack (plug p t) :=
  balanced_plug.mpr ⟨n, ht, hp⟩

theorem IsRedBlack.nil : IsRedBlack (nil : ColorTree α) := ⟨rfl, 0, rfl⟩

/-- A balanced tree stays so when its root is painted black. -/
theorem Short.isRedBlack {n : ℕ} {t : ColorTree α} (h : Short n t) :
    IsRedBlack (t.paint .black) := by
  cases t with
  | nil => exact IsRedBlack.nil
  | node c l a r =>
      cases c with
      | red => exact ⟨rfl, n + 1, n, rfl, h⟩
      | black => exact ⟨rfl, n, h⟩

/-- A red-black tree has a black root already. -/
theorem IsRedBlack.paint_eq {t : ColorTree α} (h : IsRedBlack t) : t.paint .black = t :=
  paint_color h.color

/-! ## The height of a red-black tree -/

/-- A balanced tree is large. -/
theorem Balanced.two_pow_le {n : ℕ} {t : ColorTree α} (h : Balanced n t) :
    2 ^ n ≤ t.toList.length + 1 := by
  induction t generalizing n with
  | nil =>
      obtain rfl : n = 0 := h
      simp
  | node c l a r ihl ihr =>
      simp only [toList_node, List.length_append, List.length_cons]
      cases c with
      | red =>
          have hl := ihl h.2.2.1
          omega
      | black =>
          obtain ⟨m, rfl, hl, hr⟩ := h
          have hl := ihl hl
          have hr := ihr hr
          rw [Nat.pow_succ]
          omega

/-- A balanced tree is low: at most every second node on a way down is red. -/
theorem Balanced.height_le {n : ℕ} {t : ColorTree α} (h : Balanced n t) :
    t.height ≤ 2 * n + if t.color = .red then 1 else 0 := by
  induction t generalizing n with
  | nil => simp
  | node c l a r ihl ihr =>
      rw [height_node, color_node]
      cases c with
      | red =>
          obtain ⟨hl, hr, hnl, hnr⟩ := h
          have h₁ := ihl hnl
          have h₂ := ihr hnr
          simp only [hl, hr, reduceCtorEq, if_false] at h₁ h₂
          simp only [if_true]
          omega
      | black =>
          obtain ⟨m, rfl, hml, hmr⟩ := h
          have h₁ := ihl hml
          have h₂ := ihr hmr
          have hl : (if l.color = .red then 1 else 0) ≤ 1 := by split <;> omega
          have hr : (if r.color = .red then 1 else 0) ≤ 1 := by split <;> omega
          simp only [reduceCtorEq, if_false]
          omega

/-- The height of a red-black tree is logarithmic in the number of its elements. -/
theorem IsRedBlack.height_le {t : ColorTree α} (h : IsRedBlack t) :
    t.height ≤ 2 * Nat.log 2 (t.toList.length + 1) := by
  obtain ⟨n, hn⟩ := h.balanced
  have h₁ := hn.height_le
  have h₂ := Nat.le_log_of_pow_le (by omega) hn.two_pow_le
  simp only [h.color, reduceCtorEq, if_false] at h₁
  omega

end RedBlack

end Infra
