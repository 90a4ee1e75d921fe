import Mathlib.Algebra.Order.Ring.Nat
import Mathlib.Data.List.AList

/-!
# Blocks of a heap

What `malloc` and `free` do to the blocks that are in use, and structures that own the
blocks they are made of. An allocator may give out any block that is not in use, one that
was freed before too, and it may refuse; both may depend on the calls that were made so far.
-/

namespace Infra

/-- An allocator: the calls that it refuses, and the block that it gives out at a call when
the blocks of a list are in use. -/
structure Allocator (ε : Type) where
  refuses : ℕ → Bool
  block : ℕ → List ε → ε
  fresh : ∀ n used, block n used ∉ used

/-- The blocks in use with what is in them, and how often `malloc` was called. -/
structure BlockStore (ε β : Type) where
  blocks : AList fun _ : ε => β
  calls : ℕ

namespace BlockStore

variable {ε β : Type}

/-- The blocks in use. -/
def used (s : BlockStore ε β) : List ε := s.blocks.keys

theorem nodup_used (s : BlockStore ε β) : s.used.Nodup := s.blocks.keys_nodup

section Operations

variable [DecidableEq ε]

/-- What is in a block. -/
def load (s : BlockStore ε β) (a : ε) : Option β := s.blocks.lookup a

/-- A store to a block that is in use. -/
def store (s : BlockStore ε β) (a : ε) (v : β) : Option (BlockStore ε β) :=
  if a ∈ s.blocks then some { s with blocks := s.blocks.insert a v } else none

/-- `malloc`, with what is in the block then; `none` is NULL. -/
def malloc (A : Allocator ε) (s : BlockStore ε β) (v : β) : Option ε × BlockStore ε β :=
  if A.refuses s.calls then (none, { s with calls := s.calls + 1 })
  else
    let a := A.block s.calls s.used
    (some a, { blocks := s.blocks.insert a v, calls := s.calls + 1 })

/-- `free` of a block that is in use. -/
def free (s : BlockStore ε β) (a : ε) : Option (BlockStore ε β) :=
  if a ∈ s.blocks then some { s with blocks := s.blocks.erase a } else none

end Operations

variable [DecidableEq ε] {A : Allocator ε} {s : BlockStore ε β} {a b : ε} {v : β}

theorem load_isSome : (s.load a).isSome ↔ a ∈ s.used := AList.lookup_isSome

theorem mem_used (h : s.load a = some v) : a ∈ s.used := by
  rw [← load_isSome, h, Option.isSome_some]

theorem malloc_refused (h : A.refuses s.calls = true) :
    s.malloc A v = (none, { s with calls := s.calls + 1 }) := if_pos h

/-- The block that `malloc` gives out was not in use. -/
theorem malloc_granted (h : A.refuses s.calls = false) :
    ∃ a s', s.malloc A v = (some a, s') ∧ a ∉ s.used ∧ s'.used = a :: s.used ∧
      s'.calls = s.calls + 1 ∧ s'.load = Function.update s.load a (some v) := by
  have hfresh := A.fresh s.calls s.used
  refine ⟨_, _, if_neg (by simp [h]), hfresh, ?_, rfl, ?_⟩
  · rw [used, AList.keys_insert]
    exact congrArg _ (List.erase_of_not_mem hfresh)
  · funext b
    by_cases hb : b = A.block s.calls s.used
    · subst hb
      rw [Function.update_self]
      exact AList.lookup_insert _
    · rw [Function.update_of_ne hb]
      exact AList.lookup_insert_ne hb

theorem store_spec (h : a ∈ s.used) (v : β) :
    ∃ s', s.store a v = some s' ∧ s'.used.Perm s.used ∧ s'.calls = s.calls ∧
      s'.load = Function.update s.load a (some v) := by
  refine ⟨_, if_pos h, ?_, rfl, ?_⟩
  · rw [used, AList.keys_insert]
    exact (List.perm_cons_erase h).symm
  · funext b
    by_cases hb : b = a
    · subst hb
      rw [Function.update_self]
      exact AList.lookup_insert _
    · rw [Function.update_of_ne hb]
      exact AList.lookup_insert_ne hb

/-- A block that is freed leaves the other ones as they are. -/
theorem free_spec (h : a ∈ s.used) :
    ∃ s', s.free a = some s' ∧ s.used.Perm (a :: s'.used) ∧ s'.calls = s.calls ∧
      ∀ b, b ≠ a → s'.load b = s.load b := by
  refine ⟨_, if_pos h, ?_, rfl, fun b hb => AList.lookup_erase_ne hb⟩
  rw [used, used, AList.keys_erase]
  exact List.perm_cons_erase h

end BlockStore

/-! ## Rows of structures -/

section Each

variable {ε α : Type}

/-- At the addresses of the first list are the values of the second one, each made of
blocks of its own, which follow each other in the third list. -/
inductive Each (R : ε → α → List ε → Prop) : List ε → List α → List ε → Prop
  | nil : Each R [] [] []
  | cons {a : ε} {x : α} {bs bs' as : List ε} {xs : List α} (h : R a x bs)
      (hrest : Each R as xs bs') : Each R (a :: as) (x :: xs) (bs ++ bs')

namespace Each

variable {R S : ε → α → List ε → Prop} {a : ε} {x : α} {as as' bs bs' : List ε} {xs ys : List α}

theorem single (h : R a x bs) : Each R [a] [x] bs := by
  have h' := Each.cons h .nil
  rwa [List.append_nil] at h'

theorem length_eq (h : Each R as xs bs) : as.length = xs.length := by
  induction h with
  | nil => rfl
  | cons _ _ ih => rw [List.length_cons, List.length_cons, ih]

/-- The number of the blocks, when it is known for each value. -/
theorem length_blocks {size : α → ℕ} (hsize : ∀ a x bs, R a x bs → bs.length = size x)
    (h : Each R as xs bs) : bs.length = (xs.map size).sum := by
  induction h with
  | nil => rfl
  | cons h _ ih => rw [List.length_append, hsize _ _ _ h, ih, List.map_cons, List.sum_cons]

theorem imp (h : Each R as xs bs) (hR : ∀ a x cs, R a x cs → cs ⊆ bs → S a x cs) :
    Each S as xs bs := by
  induction h with
  | nil => exact .nil
  | cons h _ ih =>
      refine .cons (hR _ _ _ h (List.subset_append_left _ _)) (ih fun a x cs hcs hsub => ?_)
      exact hR a x cs hcs fun b hb => List.mem_append_right _ (hsub hb)

theorem append (h : Each R as xs bs) (h' : Each R as' ys bs') :
    Each R (as ++ as') (xs ++ ys) (bs ++ bs') := by
  induction h with
  | nil => exact h'
  | cons h _ ih =>
      rw [List.append_assoc]
      exact .cons h ih

theorem subset (hR : ∀ a x bs, R a x bs → a ∈ bs) (h : Each R as xs bs) : as ⊆ bs := by
  induction h with
  | nil => exact fun _ hb => hb
  | cons h _ ih =>
      intro b hb
      rcases List.mem_cons.mp hb with rfl | hb
      · exact List.mem_append_left _ (hR _ _ _ h)
      · exact List.mem_append_right _ (ih hb)

/-- The part of a row that makes up one of its values, with the parts around it. -/
theorem split (h : Each R as (xs ++ x :: ys) bs) :
    ∃ as₁ a as₂ bs₁ cs bs₂, as = as₁ ++ a :: as₂ ∧ bs = bs₁ ++ (cs ++ bs₂) ∧
      Each R as₁ xs bs₁ ∧ R a x cs ∧ Each R as₂ ys bs₂ := by
  induction xs generalizing as bs with
  | nil =>
      cases h with
      | cons h hrest => exact ⟨[], _, _, [], _, _, rfl, rfl, .nil, h, hrest⟩
  | cons y xs ih =>
      cases h with
      | cons h hrest =>
          obtain ⟨as₁, a, as₂, bs₁, cs, bs₂, rfl, rfl, h₁, hx, h₂⟩ := ih hrest
          exact ⟨_ :: as₁, a, as₂, _ ++ bs₁, cs, bs₂, rfl, by rw [List.append_assoc],
            .cons h h₁, hx, h₂⟩

end Each

end Each

end Infra
