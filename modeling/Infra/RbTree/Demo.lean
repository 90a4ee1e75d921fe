import Infra.Foundation.CInt
import Infra.RbTree.Basic
import Mathlib.Order.Lattice

/-!
# The client of `rbtree_demo.c`

A `MyRBDemo` has its `struct rb_node` as the first member, so an item and its node
have one address, and `rb_entry` does nothing. The client searches and inserts by
key, deletes items and visits all of them. Keys are only compared and are integers
here. The counters of the traversal and the key that should come next are `int`s,
which go over from the largest one to the smallest and back.
-/

namespace Infra

namespace RbTree

open Infra.RedBlack

/-- `MyRBDemo`, without its node. -/
structure MyRBDemo where
  key : ℤ
  data : ℤ
  deriving DecidableEq

/-- The items in memory. -/
abbrev Items := Addr → Option MyRBDemo

section Functions

variable (items : Items) (m : Store)

/-- The loop of `myrbdemo_search`. -/
def searchLoop (key : ℤ) : ℕ → Ptr → Option Ptr
  | 0, _ => none
  | _ + 1, none => some none
  | fuel + 1, some n => do
      let demoNode ← items n
      if key < demoNode.key then searchLoop key fuel (← m.child .left (some n))
      else if key > demoNode.key then searchLoop key fuel (← m.child .right (some n))
      else some (some n)

/-- `myrbdemo_search`. -/
def myrbdemoSearch (fuel : ℕ) (key : ℤ) : Option Ptr := searchLoop items m key fuel m.rbNode

/-- The loop of `myrbdemo_insert`, with the link and the parent for the new node, or with
`none` where the key is found. -/
def insertPlace (key : ℤ) : ℕ → Link → Ptr → Option (Option (Link × Ptr))
  | 0, _, _ => none
  | fuel + 1, p, parent => do
      match ← m.readLink p with
      | none => some (some (p, parent))
      | some n => do
          let page ← items n
          if key < page.key then insertPlace key fuel (.child .left (some n)) (some n)
          else if key > page.key then insertPlace key fuel (.child .right (some n)) (some n)
          else some none

/-- `myrbdemo_insert`, with its return value. -/
def myrbdemoInsert (fuel : ℕ) (n : Addr) : Option (Store × ℤ) := do
  let item ← items n
  match ← insertPlace items m item.key fuel .root none with
  | none => some (m, -1)
  | some (p, parent) => do
      let m ← rbLinkNode m (some n) parent p
      let m ← rbInsertColor fuel m (some n)
      some (m, 0)

/-- `myrbdemo_delete`. -/
def myrbdemoDelete (fuel : ℕ) (n : Addr) : Option Store := rbErase fuel m (some n)

/-- The variables `call_depth` and `max_call_depth`, and those of the callback. -/
structure Visiting (σ : Type) where
  callDepth : ℤ
  maxCallDepth : ℤ
  client : σ

/-- `__myrbdemo_do_preoder_traversal`. The callback may end the program; the result is then
an `error`, with the state at the end. -/
def preoderTraversal {σ : Type} (cb : MyRBDemo → σ → Except σ σ) :
    ℕ → Ptr → Visiting σ → Option (Except (Visiting σ) (Visiting σ))
  | 0, _, _ => none
  | _ + 1, none, v => some (.ok { v with callDepth := CInt.wrap (v.callDepth - 1) })
  | fuel + 1, some node, v => do
      let v := { v with callDepth := CInt.wrap (v.callDepth + 1) }
      let v := if v.callDepth > v.maxCallDepth then { v with maxCallDepth := v.callDepth } else v
      match ← preoderTraversal cb fuel (← m.child .left (some node)) v with
      | .error v => some (.error v)
      | .ok v =>
          match cb (← items node) v.client with
          | .error c => some (.error { v with client := c })
          | .ok c => preoderTraversal cb fuel (← m.child .right (some node)) { v with client := c }

/-- `myrbdemo_do_preorder_traversal`. -/
def myrbdemoDoPreorderTraversal {σ : Type} (cb : MyRBDemo → σ → Except σ σ) (fuel : ℕ)
    (v : Visiting σ) : Option (Except (Visiting σ) (Visiting σ)) :=
  preoderTraversal items m cb fuel m.rbNode v

/-- The variables `item_count` and `prev_key`. -/
structure Sequence where
  itemCount : ℤ
  prevKey : ℤ
  deriving DecidableEq

/-- `myrbdemo_preorder_callback`, which ends the program where the keys have a gap. -/
def myrbdemoPreorderCallback (d : MyRBDemo) (c : Sequence) : Except Sequence Sequence :=
  let c := { c with itemCount := CInt.wrap (c.itemCount + 1) }
  if c.prevKey ≠ -1 ∧ CInt.wrap (c.prevKey + 1) ≠ d.key then .error c
  else .ok { c with prevKey := d.key }

end Functions

end RbTree

end Infra
