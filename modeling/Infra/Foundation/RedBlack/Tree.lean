import Mathlib.Data.List.Basic
import Mathlib.Data.Nat.Notation

/-!
# Coloured binary trees and the paths into them

A path is what is left of a tree when one of its subtrees is taken out: the
frames from the hole up to the root, each with the side on which the hole is and
with the subtree on the other side. `plug p t` puts `t` back. So an algorithm
that climbs from a node to the root is a recursion on the path, and the subtree
at the hole is the only thing it has to look at.

The two sides of a node are treated alike: `join s c t a u` is the node with `t`
on the side `s` and `u` on the other one.
-/

namespace Infra

namespace RedBlack

/-- The colour of a node. -/
inductive Color where
  | red
  | black
  deriving DecidableEq

/-- The side of a child. -/
inductive Side where
  | left
  | right
  deriving DecidableEq

/-- The other side. -/
def Side.flip : Side → Side
  | .left => .right
  | .right => .left

@[simp] theorem Side.flip_flip (s : Side) : s.flip.flip = s := by cases s <;> rfl

@[simp] theorem Side.flip_ne (s : Side) : s.flip ≠ s := by cases s <;> simp [Side.flip]

/-- Two sides that differ are each other's flip. -/
theorem Side.eq_flip {s t : Side} (h : s ≠ t) : s = t.flip := by
  cases s <;> cases t <;> simp_all [Side.flip]

/-- A test that succeeds on the left side finds the side. -/
theorem Side.ite_eq {s : Side} {P : Prop} [Decidable P] (h : P ↔ s = .left) :
    (if P then Side.left else .right) = s := by
  cases s with
  | left => exact if_pos (h.mpr rfl)
  | right => exact if_neg fun hp => by simpa using h.mp hp

/-- A binary tree whose nodes carry a colour and an element. -/
inductive ColorTree (α : Type*) where
  | nil
  | node (c : Color) (l : ColorTree α) (a : α) (r : ColorTree α)
  deriving DecidableEq

namespace ColorTree

variable {α : Type*}

/-- The elements from left to right. -/
def toList : ColorTree α → List α
  | nil => []
  | node _ l a r => l.toList ++ a :: r.toList

/-- The element at the root. -/
def root : ColorTree α → Option α
  | nil => none
  | node _ _ a _ => some a

/-- The colour of the root; the empty tree counts as black. -/
def color : ColorTree α → Color
  | nil => .black
  | node c _ _ _ => c

/-- The number of nodes on the longest way down. -/
def height : ColorTree α → ℕ
  | nil => 0
  | node _ l _ r => max l.height r.height + 1

/-- The tree with a root of the colour `c`. -/
def paint (c : Color) : ColorTree α → ColorTree α
  | nil => nil
  | node _ l a r => node c l a r

/-- The node with `t` on the side `s` and `u` on the other side. -/
def join (s : Side) (c : Color) (t : ColorTree α) (a : α) (u : ColorTree α) : ColorTree α :=
  match s with
  | .left => node c t a u
  | .right => node c u a t

@[simp] theorem toList_nil : (nil : ColorTree α).toList = [] := rfl

@[simp] theorem toList_node (c : Color) (l : ColorTree α) (a : α) (r : ColorTree α) :
    (node c l a r).toList = l.toList ++ a :: r.toList := rfl

@[simp] theorem root_nil : (nil : ColorTree α).root = none := rfl

@[simp] theorem root_node (c : Color) (l : ColorTree α) (a : α) (r : ColorTree α) :
    (node c l a r).root = some a := rfl

@[simp] theorem color_nil : (nil : ColorTree α).color = .black := rfl

@[simp] theorem color_node (c : Color) (l : ColorTree α) (a : α) (r : ColorTree α) :
    (node c l a r).color = c := rfl

@[simp] theorem height_nil : (nil : ColorTree α).height = 0 := rfl

@[simp] theorem height_node (c : Color) (l : ColorTree α) (a : α) (r : ColorTree α) :
    (node c l a r).height = max l.height r.height + 1 := rfl

@[simp] theorem paint_nil (c : Color) : (nil : ColorTree α).paint c = nil := rfl

@[simp] theorem paint_node (c d : Color) (l : ColorTree α) (a : α) (r : ColorTree α) :
    (node d l a r).paint c = node c l a r := rfl

@[simp] theorem toList_paint (c : Color) (t : ColorTree α) : (t.paint c).toList = t.toList := by
  cases t <;> rfl

@[simp] theorem root_paint (c : Color) (t : ColorTree α) : (t.paint c).root = t.root := by
  cases t <;> rfl

@[simp] theorem root_join (s : Side) (c : Color) (t u : ColorTree α) (a : α) :
    (join s c t a u).root = some a := by
  cases s <;> rfl

@[simp] theorem color_join (s : Side) (c : Color) (t u : ColorTree α) (a : α) :
    (join s c t a u).color = c := by
  cases s <;> rfl

@[simp] theorem paint_join (s : Side) (c d : Color) (t u : ColorTree α) (a : α) :
    (join s d t a u).paint c = join s c t a u := by
  cases s <;> rfl

@[simp] theorem height_join (s : Side) (c : Color) (t u : ColorTree α) (a : α) :
    (join s c t a u).height = max t.height u.height + 1 := by
  cases s <;> simp [join, Nat.max_comm]

@[simp] theorem mem_toList_join {s : Side} {c : Color} {t u : ColorTree α} {a b : α} :
    b ∈ (join s c t a u).toList ↔ b = a ∨ b ∈ t.toList ∨ b ∈ u.toList := by
  cases s <;> simp only [join, toList_node, List.mem_append, List.mem_cons] <;> tauto

/-- A node on one side is the same node on the other side, with its subtrees exchanged. -/
theorem join_flip (s : Side) (c : Color) (t u : ColorTree α) (a : α) :
    join s.flip c t a u = join s c u a t := by
  cases s <;> rfl

/-- Painting a root in the colour it has changes nothing. -/
theorem paint_color {c : Color} {t : ColorTree α} (h : t.color = c) : t.paint c = t := by
  cases t with
  | nil => rfl
  | node d l a r =>
      obtain rfl : d = c := h
      rfl

/-- A red tree is a node, seen from either side. -/
theorem exists_join_of_red {t : ColorTree α} (h : t.color = .red) (s : Side) :
    ∃ l a r, t = join s .red l a r := by
  cases t with
  | nil => simp at h
  | node c l a r =>
      obtain rfl : c = .red := h
      cases s with
      | left => exact ⟨l, a, r, rfl⟩
      | right => exact ⟨r, a, l, rfl⟩

/-- A tree with a root is a node, seen from either side. -/
theorem exists_join_of_root {t : ColorTree α} {a : α} (h : t.root = some a) (s : Side) :
    ∃ l r, t = join s t.color l a r := by
  cases t with
  | nil => simp at h
  | node c l b r =>
      obtain rfl : b = a := by simpa using h
      cases s with
      | left => exact ⟨l, r, rfl⟩
      | right => exact ⟨r, l, rfl⟩

theorem root_eq_none {t : ColorTree α} : t.root = none ↔ t = nil := by
  cases t <;> simp

theorem toList_eq_nil {t : ColorTree α} : t.toList = [] ↔ t = nil := by
  cases t <;> simp

theorem root_mem {t : ColorTree α} {a : α} (h : t.root = some a) : a ∈ t.toList := by
  obtain ⟨l, r, e⟩ := exists_join_of_root h .left
  rw [e]
  simp

/-- A rotation of two nodes keeps the elements in their order. -/
theorem toList_rotate (s : Side) (c₁ c₂ d₁ d₂ : Color) (t u v : ColorTree α) (a b : α) :
    (join s c₁ t a (join s c₂ u b v)).toList = (join s d₂ (join s d₁ t a u) b v).toList := by
  cases s <;> simp [join]

/-- The order of the elements does not depend on the colours. -/
theorem toList_join_congr (s : Side) (c d : Color) {t t' u u' : ColorTree α} (a : α)
    (ht : t.toList = t'.toList) (hu : u.toList = u'.toList) :
    (join s c t a u).toList = (join s d t' a u').toList := by
  cases s <;> simp [join, ht, hu]

end ColorTree

/-- A node on the way from a hole to the root: the side of the hole, the node's
colour and element, and the subtree on its other side. -/
structure Frame (α : Type*) where
  side : Side
  color : Color
  val : α
  sibling : ColorTree α

/-- The way from a hole up to the root. -/
abbrev Path (α : Type*) := List (Frame α)

section Paths

variable {α : Type*}

/-- The node of a frame, with `t` in the hole. -/
def Frame.fill (f : Frame α) (t : ColorTree α) : ColorTree α :=
  .join f.side f.color t f.val f.sibling

/-- The whole tree, with `t` in the hole. -/
def plug : Path α → ColorTree α → ColorTree α
  | [], t => t
  | f :: p, t => plug p (f.fill t)

/-- The node above the hole. -/
def above (p : Path α) : Option α := p.head?.map Frame.val

/-- The root of the whole tree, when the subtree in the hole has the root `x`. -/
def top : Path α → Option α → Option α
  | [], x => x
  | f :: p, _ => top p (some f.val)

/-- The elements to the left of the hole. -/
def before : Path α → List α
  | [] => []
  | f :: p => match f.side with
      | .left => before p
      | .right => before p ++ f.sibling.toList ++ [f.val]

/-- The elements to the right of the hole. -/
def after : Path α → List α
  | [] => []
  | f :: p => match f.side with
      | .left => f.val :: f.sibling.toList ++ after p
      | .right => after p

@[simp] theorem plug_nil (t : ColorTree α) : plug [] t = t := rfl

theorem plug_cons (f : Frame α) (p : Path α) (t : ColorTree α) :
    plug (f :: p) t = plug p (f.fill t) :=
  rfl

theorem plug_append (p q : Path α) (t : ColorTree α) : plug (p ++ q) t = plug q (plug p t) := by
  induction p generalizing t with
  | nil => rfl
  | cons f p ih => exact ih (f.fill t)

@[simp] theorem above_nil : above ([] : Path α) = none := rfl

@[simp] theorem above_cons (f : Frame α) (p : Path α) : above (f :: p) = some f.val := rfl

theorem root_plug (p : Path α) (t : ColorTree α) : (plug p t).root = top p t.root := by
  induction p generalizing t with
  | nil => rfl
  | cons f p ih =>
      rw [plug_cons, ih, Frame.fill, ColorTree.root_join]
      rfl

/-- A subtree may be looked at from the node above it, or from the subtree beside it. -/
theorem plug_flip (s : Side) (c : Color) (a : α) (t u : ColorTree α) (p : Path α) :
    plug (⟨s, c, a, u⟩ :: p) t = plug (⟨s.flip, c, a, t⟩ :: p) u := by
  cases s <;> rfl

theorem toList_plug (p : Path α) (t : ColorTree α) :
    (plug p t).toList = before p ++ t.toList ++ after p := by
  induction p generalizing t with
  | nil => simp [before, after]
  | cons f p ih =>
      obtain ⟨s, c, a, u⟩ := f
      rw [plug_cons, ih]
      cases s <;> simp [Frame.fill, ColorTree.join, before, after]

/-- The elements on both sides of a node. -/
theorem toList_plug_node (p : Path α) (c : Color) (l : ColorTree α) (a : α) (r : ColorTree α) :
    (plug p (.node c l a r)).toList = (before p ++ l.toList) ++ a :: (r.toList ++ after p) := by
  simp [toList_plug]

/-- The order of the whole tree only depends on the order in the hole. -/
theorem toList_plug_congr (p : Path α) {t t' : ColorTree α} (h : t.toList = t'.toList) :
    (plug p t).toList = (plug p t').toList := by
  rw [toList_plug, toList_plug, h]

/-- The elements outside the hole. -/
def around (p : Path α) : List α := before p ++ after p

@[simp] theorem around_nil : around ([] : Path α) = [] := rfl

@[simp] theorem mem_around_cons {f : Frame α} {p : Path α} {b : α} :
    b ∈ around (f :: p) ↔ b = f.val ∨ b ∈ f.sibling.toList ∨ b ∈ around p := by
  obtain ⟨s, c, a, u⟩ := f
  cases s <;> simp only [around, before, after, List.mem_append, List.mem_cons,
    List.cons_append, List.not_mem_nil, or_false] <;> tauto

theorem mem_toList_plug {p : Path α} {t : ColorTree α} {a : α} :
    a ∈ (plug p t).toList ↔ a ∈ t.toList ∨ a ∈ around p := by
  simp only [toList_plug, around, List.mem_append]
  tauto

/-- The node above a hole stands around it. -/
theorem above_mem {p : Path α} {a : α} (h : above p = some a) : a ∈ around p := by
  cases p with
  | nil => simp at h
  | cons f p => exact mem_around_cons.mpr (Or.inl (Option.some.inj h).symm)

theorem sibling_mem_around {p : Path α} {f : Frame α} {a : α} (hf : f ∈ p)
    (ha : a ∈ f.sibling.toList) : a ∈ around p := by
  induction p with
  | nil => simp at hf
  | cons f' p ih =>
      rcases List.mem_cons.mp hf with rfl | hf
      · exact mem_around_cons.mpr (Or.inr (Or.inl ha))
      · exact mem_around_cons.mpr (Or.inr (Or.inr (ih hf)))

/-- The root of a tree with a hole below it stands around the hole. -/
theorem exists_top {f : Frame α} {p : Path α} {x : Option α} :
    ∃ b, top (f :: p) x = some b ∧ b ∈ around (f :: p) := by
  induction p generalizing f x with
  | nil => exact ⟨f.val, rfl, mem_around_cons.mpr (Or.inl rfl)⟩
  | cons g p ih =>
      obtain ⟨b, hb, hmem⟩ := ih (f := g) (x := some f.val)
      exact ⟨b, hb, mem_around_cons.mpr (Or.inr (Or.inr hmem))⟩

theorem nodup_join {s : Side} {c : Color} {t u : ColorTree α} {a : α} :
    (ColorTree.join s c t a u).toList.Nodup ↔ t.toList.Nodup ∧ u.toList.Nodup ∧ a ∉ t.toList ∧
      a ∉ u.toList ∧ ∀ b ∈ t.toList, b ∉ u.toList := by
  cases s <;>
  · simp only [ColorTree.join, ColorTree.toList_node, List.nodup_append, List.nodup_cons,
      List.mem_cons]
    constructor
    · rintro ⟨h₁, ⟨h₂, h₃⟩, h₄⟩
      refine ⟨by assumption, by assumption, ?_, ?_, ?_⟩ <;> grind
    · grind

/-- The elements of a tree are distinct when those of the hole are, those around it are, and
no element is on both sides. -/
theorem nodup_plug {p : Path α} {t : ColorTree α} :
    (plug p t).toList.Nodup ↔
      t.toList.Nodup ∧ (around p).Nodup ∧ ∀ a ∈ t.toList, a ∉ around p := by
  have hperm : (plug p t).toList.Perm (t.toList ++ around p) := by
    rw [toList_plug, around, ← List.append_assoc]
    exact List.perm_append_comm.append_right _
  rw [hperm.nodup_iff, List.nodup_append]
  grind

theorem nodup_around_cons {f : Frame α} {p : Path α} :
    (around (f :: p)).Nodup ↔ f.sibling.toList.Nodup ∧ (around p).Nodup ∧
      f.val ∉ f.sibling.toList ∧ f.val ∉ around p ∧ ∀ b ∈ f.sibling.toList, b ∉ around p := by
  have h := nodup_plug (p := f :: p) (t := ColorTree.nil)
  rw [plug_cons, nodup_plug, Frame.fill, nodup_join] at h
  simp only [ColorTree.toList_nil, List.nodup_nil, List.not_mem_nil, ColorTree.mem_toList_join] at h
  grind

theorem mem_around_append {p q : Path α} {b : α} :
    b ∈ around (q ++ p) ↔ b ∈ around q ∨ b ∈ around p := by
  induction q with
  | nil => simp
  | cons f q ih =>
      rw [List.cons_append, mem_around_cons, mem_around_cons, ih]
      tauto

theorem top_append (p q : Path α) (x : Option α) : top (q ++ p) x = top p (top q x) := by
  induction q generalizing x with
  | nil => rfl
  | cons f q ih => exact ih (some f.val)

/-- The way to a subtree is no longer than the longest way down. -/
theorem length_add_height_le (p : Path α) (t : ColorTree α) :
    p.length + t.height ≤ (plug p t).height := by
  induction p generalizing t with
  | nil => simp
  | cons f p ih =>
      have := ih (f.fill t)
      rw [Frame.fill, ColorTree.height_join] at this
      rw [plug_cons, List.length_cons, Frame.fill]
      omega

/-- The outermost node on a side has no child on this side. -/
theorem exists_outermost (s : Side) {t : ColorTree α} (h : t ≠ .nil) :
    ∃ q c a u, t = plug q (.join s c .nil a u) ∧ ∀ f ∈ q, f.side = s := by
  induction t with
  | nil => exact absurd rfl h
  | node c l a r ihl ihr =>
      have hstep : ∀ {v w : ColorTree α}, ColorTree.node c l a r = .join s c v a w →
          (v ≠ .nil → ∃ q d b u, v = plug q (.join s d .nil b u) ∧ ∀ f ∈ q, f.side = s) →
          ∃ q d b u, ColorTree.node c l a r = plug q (.join s d .nil b u) ∧
            ∀ f ∈ q, f.side = s := by
        intro v w e ih
        by_cases hv : v = .nil
        · exact ⟨[], c, a, w, by rw [e, hv]; rfl, by simp⟩
        · obtain ⟨q, d, b, u, rfl, hq⟩ := ih hv
          refine ⟨q ++ [⟨s, c, a, w⟩], d, b, u, by rw [plug_append, e]; rfl, fun f hf => ?_⟩
          rcases List.mem_append.mp hf with hf | hf
          · exact hq f hf
          · rw [List.mem_singleton.mp hf]
      cases s with
      | left => exact hstep rfl ihl
      | right => exact hstep rfl ihr

/-- Nothing stands to the left of a way that always goes to the left. -/
theorem before_eq_nil {q : Path α} (h : ∀ f ∈ q, f.side = .left) : before q = [] := by
  induction q with
  | nil => rfl
  | cons f q ih =>
      rw [before, h f (by simp)]
      exact ih fun g hg => h g (by simp [hg])

/-- The outermost node on the left comes first. -/
theorem toList_plug_left {q : Path α} (h : ∀ f ∈ q, f.side = .left) (c : Color) (a : α)
    (u : ColorTree α) : (plug q (.join .left c .nil a u)).toList = a :: (plug q u).toList := by
  simp [toList_plug, before_eq_nil h, ColorTree.join]

/-- Nothing stands to the right of a way that always goes to the right. -/
theorem after_eq_nil {q : Path α} (h : ∀ f ∈ q, f.side = .right) : after q = [] := by
  induction q with
  | nil => rfl
  | cons f q ih =>
      rw [after, h f (by simp)]
      exact ih fun g hg => h g (by simp [hg])

/-- The outermost node on the right comes last. -/
theorem toList_plug_right {q : Path α} (h : ∀ f ∈ q, f.side = .right) (c : Color) (a : α)
    (u : ColorTree α) : (plug q (.join .right c .nil a u)).toList = (plug q u).toList ++ [a] := by
  simp [toList_plug, after_eq_nil h, ColorTree.join]

/-- Every element of a tree is the root of a subtree. -/
theorem exists_plug_of_mem {t : ColorTree α} {a : α} (h : a ∈ t.toList) :
    ∃ p c l r, t = plug p (.node c l a r) := by
  induction t with
  | nil => simp at h
  | node c l b r ihl ihr =>
      simp only [ColorTree.toList_node, List.mem_append, List.mem_cons] at h
      rcases h with h | rfl | h
      · obtain ⟨p, d, l', r', e⟩ := ihl h
        exact ⟨p ++ [⟨.left, c, b, r⟩], d, l', r', by rw [plug_append, ← e]; rfl⟩
      · exact ⟨[], c, l, r, rfl⟩
      · obtain ⟨p, d, l', r', e⟩ := ihr h
        exact ⟨p ++ [⟨.right, c, b, l⟩], d, l', r', by rw [plug_append, ← e]; rfl⟩

/-- The elements of a tree, in the order in which a walk towards the side `s` meets them. -/
def listing (s : Side) (t : ColorTree α) : List α :=
  match s with
  | .left => t.toList.reverse
  | .right => t.toList

/-- The elements that a walk from the hole towards the side `s` still meets. -/
def beyond (s : Side) (p : Path α) : List α :=
  match s with
  | .left => (before p).reverse
  | .right => after p

@[simp] theorem listing_nil (s : Side) : listing s (.nil : ColorTree α) = [] := by cases s <;> rfl

@[simp] theorem beyond_nil (s : Side) : beyond s ([] : Path α) = [] := by cases s <;> rfl

/-- A walk towards the side of the hole does not meet the node above it. -/
theorem beyond_cons_side (f : Frame α) (p : Path α) :
    beyond f.side (f :: p) = beyond f.side p := by
  obtain ⟨s, c, a, u⟩ := f
  cases s <;> simp [beyond, before, after]

theorem beyond_cons_flip (f : Frame α) (p : Path α) : beyond f.side.flip (f :: p) =
    f.val :: listing f.side.flip f.sibling ++ beyond f.side.flip p := by
  obtain ⟨s, c, a, u⟩ := f
  cases s <;> simp [beyond, listing, before, after, Side.flip]

/-- A walk meets the outermost node on the side from which it comes first. -/
theorem listing_outermost {s : Side} {q : Path α} (h : ∀ f ∈ q, f.side = s) (c : Color) (a : α)
    (u : ColorTree α) :
    listing s.flip (plug q (.join s c .nil a u)) = a :: listing s.flip (plug q u) := by
  cases s with
  | left => exact toList_plug_left h c a u
  | right => simp [listing, Side.flip, toList_plug_right h c a u]

end Paths

end RedBlack

end Infra
