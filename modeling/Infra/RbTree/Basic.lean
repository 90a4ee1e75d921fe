import Infra.Foundation.RedBlack.Tree
import Mathlib.Data.BitVec
import Mathlib.Logic.Function.Basic

/-!
# The red-black tree of `rbtree.c`

A `struct rb_node` is embedded in a structure of the client, and its address ends
in two zero bits. So one word holds the address of the parent and, in its lowest
bit, the colour; the macros of `rbtree.h` take the two apart. The memory is a
partial map from addresses to nodes, together with the root pointer of the tree.
Each function is the sequence of its loads and stores, in the source's order, and
it has no result when one of them goes through NULL or through memory that is not
allocated. The rounds of a loop are counted by a `fuel`.

Where the source writes a function or a branch twice, with left and right
exchanged, it is written once here, for a side `s`.
-/

namespace Infra

namespace RbTree

open Infra.RedBlack

/-- The address of a node: not NULL, and with two free bits at its end. -/
structure Addr where
  word : BitVec 64
  ne_null : word ≠ 0#64
  aligned : word &&& 3#64 = 0#64
  deriving DecidableEq

/-- `struct rb_node*`; NULL is `none`. -/
abbrev Ptr := Option Addr

/-- `(unsigned long)p`. -/
def Ptr.toWord : Ptr → BitVec 64
  | none => 0#64
  | some a => a.word

/-- `(struct rb_node*)w`, for a word whose two last bits are clear. -/
def Ptr.ofWord (w : BitVec 64) : Ptr :=
  if h : w ≠ 0#64 ∧ w &&& 3#64 = 0#64 then some ⟨w, h.1, h.2⟩ else none

/-- `struct rb_node`. -/
structure RbNode where
  rbParentColor : BitVec 64
  rbRight : Ptr
  rbLeft : Ptr

section Macros

/-- `RB_RED`. -/
def rbRed : BitVec 64 := 0#64

/-- `RB_BLACK`. -/
def rbBlack : BitVec 64 := 1#64

/-- `rb_parent`. -/
def rbParent (r : RbNode) : Ptr := Ptr.ofWord (r.rbParentColor &&& ~~~3#64)

/-- `rb_color`. -/
def rbColor (r : RbNode) : BitVec 64 := r.rbParentColor &&& 1#64

/-- `rb_is_red`. -/
def rbIsRed (r : RbNode) : Bool := rbColor r = 0#64

/-- `rb_set_red`. -/
def rbSetRed (r : RbNode) : RbNode := { r with rbParentColor := r.rbParentColor &&& ~~~1#64 }

/-- `rb_set_black`. -/
def rbSetBlack (r : RbNode) : RbNode := { r with rbParentColor := r.rbParentColor ||| 1#64 }

/-- `rb_set_parent`. -/
def rbSetParent (p : Ptr) (rb : RbNode) : RbNode :=
  { rb with rbParentColor := (rb.rbParentColor &&& 3#64) ||| p.toWord }

/-- `rb_set_color`. -/
def rbSetColor (color : BitVec 64) (rb : RbNode) : RbNode :=
  { rb with rbParentColor := (rb.rbParentColor &&& ~~~1#64) ||| color }

/-- `rb_left` or `rb_right`. -/
def RbNode.child (r : RbNode) : Side → Ptr
  | .left => r.rbLeft
  | .right => r.rbRight

/-- A store to `rb_left` or to `rb_right`. -/
def RbNode.setChild (s : Side) (v : Ptr) (r : RbNode) : RbNode :=
  match s with
  | .left => { r with rbLeft := v }
  | .right => { r with rbRight := v }

end Macros

/-- The memory of the nodes, and the field `rb_node` of the `struct rb_root`. -/
structure Store where
  nodes : Addr → Option RbNode
  rbNode : Ptr

namespace Store

/-- The node at `p`. -/
def load (m : Store) (p : Ptr) : Option RbNode := p.bind m.nodes

/-- A change of the node at `p`. -/
def modify (m : Store) (p : Ptr) (f : RbNode → RbNode) : Option Store :=
  p.bind fun a => (m.nodes a).map fun n =>
    { m with nodes := Function.update m.nodes a (some (f n)) }

/-- `p->rb_left` or `p->rb_right`. -/
def child (m : Store) (s : Side) (p : Ptr) : Option Ptr := (m.load p).map fun r => r.child s

/-- `rb_parent(p)`. -/
def parent (m : Store) (p : Ptr) : Option Ptr := (m.load p).map rbParent

/-- `rb_color(p)`. -/
def color (m : Store) (p : Ptr) : Option (BitVec 64) := (m.load p).map rbColor

/-- `p && rb_is_red(p)`, the negation of `!p || rb_is_black(p)`. -/
def hasRed (m : Store) : Ptr → Option Bool
  | none => some false
  | some a => (m.load a).map rbIsRed

/-- `p->rb_left = v` or `p->rb_right = v`. -/
def setChild (m : Store) (s : Side) (p v : Ptr) : Option Store := m.modify p (.setChild s v)

/-- `rb_set_parent(p, v)`. -/
def setParent (m : Store) (p v : Ptr) : Option Store := m.modify p (rbSetParent v)

/-- `rb_set_red(p)`. -/
def setRed (m : Store) (p : Ptr) : Option Store := m.modify p rbSetRed

/-- `rb_set_black(p)`. -/
def setBlack (m : Store) (p : Ptr) : Option Store := m.modify p rbSetBlack

/-- `rb_set_color(p, color)`. -/
def setColor (m : Store) (p : Ptr) (color : BitVec 64) : Option Store :=
  m.modify p (rbSetColor color)

/-- `root->rb_node = v`. -/
def setRoot (m : Store) (v : Ptr) : Store := { m with rbNode := v }

end Store

/-- `struct rb_node**`: the root pointer, or the child pointer of a node. -/
inductive Link where
  | root
  | child (s : Side) (p : Ptr)

/-- `*link`. -/
def Store.readLink (m : Store) : Link → Option Ptr
  | .root => some m.rbNode
  | .child s p => m.child s p

/-- `*link = v`. -/
def Store.writeLink (m : Store) (v : Ptr) : Link → Option Store
  | .root => some (m.setRoot v)
  | .child s p => m.setChild s p v

section Functions

/-- `rb_init_node`: the node becomes its own parent. -/
def rbInitNode (m : Store) (rb : Ptr) : Option Store := do
  let m ← m.modify rb fun r => { r with rbParentColor := 0#64 }
  let m ← m.setChild .right rb none
  let m ← m.setChild .left rb none
  m.setParent rb rb

/-- `rb_link_node`. -/
def rbLinkNode (m : Store) (node parent : Ptr) (link : Link) : Option Store := do
  let m ← m.modify node fun r => { r with rbParentColor := parent.toWord }
  let m ← m.setChild .right node none
  let m ← m.setChild .left node none
  m.writeLink node link

/-- `if(p) rb_set_parent(p, v)`. -/
def adopt (m : Store) (p v : Ptr) : Option Store :=
  if p.isSome then m.setParent p v else some m

/-- The pointer to `old` in the node above it, or in the root, becomes `new`. The side
`s` is tested first. -/
def relink (s : Side) (m : Store) (parent old new : Ptr) : Option Store := do
  if parent.isSome then
    if (← m.child s parent) = old then m.setChild s parent new
    else m.setChild s.flip parent new
  else some (m.setRoot new)

/-- `__rb_rotate_left` for the side `left`, `__rb_rotate_right` for the side `right`: the
child on the other side comes up. -/
def rotate (s : Side) (m : Store) (node : Ptr) : Option Store := do
  let up ← m.child s.flip node
  let parent ← m.parent node
  let inner ← m.child s up
  let m ← m.setChild s.flip node inner
  let m ← adopt m inner node
  let m ← m.setChild s up node
  let m ← m.setParent up parent
  let m ← relink s m parent node up
  m.setParent node up

/-- `__rb_rotate_left`. -/
def rbRotateLeft : Store → Ptr → Option Store := rotate .left

/-- `__rb_rotate_right`. -/
def rbRotateRight : Store → Ptr → Option Store := rotate .right

/-- The first rotation in a round of `rb_insert_color`, where `node` is an inner
grandchild; `node` and `parent` then change their names. -/
def insertTurn (s : Side) (m : Store) (node parent : Ptr) : Option (Store × Ptr × Ptr) := do
  if (← m.child s.flip parent) = node then
    let m ← rotate s m parent
    some (m, parent, node)
  else some (m, node, parent)

/-- The last lines of a round of `rb_insert_color`. -/
def insertLift (s : Side) (m : Store) (parent gparent : Ptr) : Option Store := do
  let m ← m.setBlack parent
  let m ← m.setRed gparent
  rotate s.flip m gparent

/-- The rotations at the end of a round of `rb_insert_color`; `s` is the side of `parent`
under `gparent`. The result has the node the loop goes on with. -/
def insertRotate (s : Side) (m : Store) (node parent gparent : Ptr) :
    Option (Store × Ptr) := do
  let (m, node, parent) ← insertTurn s m node parent
  let m ← insertLift s m parent gparent
  some (m, node)

/-- One round of the loop of `rb_insert_color`, with the node the next round starts from. -/
def insertRound (m : Store) (node parent : Ptr) : Option (Store × Ptr) := do
  let gparent ← m.parent parent
  let s := if parent = (← m.child .left gparent) then Side.left else .right
  let uncle ← m.child s.flip gparent
  if ← m.hasRed uncle then do
    let m ← m.setBlack uncle
    let m ← m.setBlack parent
    let m ← m.setRed gparent
    some (m, gparent)
  else insertRotate s m node parent gparent

/-- The loop of `rb_insert_color`. -/
def insertLoop : ℕ → Store → Ptr → Option Store
  | 0, _, _ => none
  | fuel + 1, m, node => do
      let parent ← m.parent node
      if ← m.hasRed parent then do
        let (m, node) ← insertRound m node parent
        insertLoop fuel m node
      else some m

/-- `rb_insert_color`. -/
def rbInsertColor (fuel : ℕ) (m : Store) (node : Ptr) : Option Store := do
  let m ← insertLoop fuel m node
  m.setBlack m.rbNode

/-- The first part of a round of `__rb_erase_color`: a red sibling is turned up, and
`other` is the sibling after that. -/
def eraseTurn (s : Side) (m : Store) (parent other : Ptr) : Option (Store × Ptr) := do
  if rbIsRed (← m.load other) then
    let m ← m.setBlack other
    let m ← m.setRed parent
    let m ← rotate s m parent
    some (m, ← m.child s.flip parent)
  else some (m, other)

/-- The rotation of `other`, unless its outer child is red. -/
def eraseInner (s : Side) (m : Store) (parent other : Ptr) : Option (Store × Ptr) := do
  if ← m.hasRed (← m.child s.flip other) then some (m, other)
  else
    let m ← m.setBlack (← m.child s other)
    let m ← m.setRed other
    let m ← rotate s.flip m other
    some (m, ← m.child s.flip parent)

/-- The last lines of a round of `__rb_erase_color`. -/
def eraseLift (s : Side) (m : Store) (parent other : Ptr) : Option Store := do
  let m ← m.setColor other (← m.color parent)
  let m ← m.setBlack parent
  let m ← m.setBlack (← m.child s.flip other)
  rotate s m parent

/-- The rotations at the end of a round of `__rb_erase_color`, where `other` has a red
child. -/
def eraseRotate (s : Side) (m : Store) (parent other : Ptr) : Option Store := do
  let (m, other) ← eraseInner s m parent other
  eraseLift s m parent other

/-- The test whether `other` has a red child. -/
def eraseChildRed (m : Store) (other : Ptr) : Option Bool := do
  if ← m.hasRed (← m.child .left other) then some true
  else m.hasRed (← m.child .right other)

/-- The rest of a round of `__rb_erase_color`, with the node and the parent the next round
starts from, or with `none` where the round ends the loop. -/
def eraseSettle (s : Side) (m : Store) (parent other : Ptr) :
    Option (Store × Option (Ptr × Ptr)) := do
  if ← eraseChildRed m other then
    let m ← eraseRotate s m parent other
    some (m, none)
  else
    let m ← m.setRed other
    some (m, some (parent, ← m.parent parent))

/-- One round of the loop of `__rb_erase_color`. -/
def eraseRound (m : Store) (node parent : Ptr) : Option (Store × Option (Ptr × Ptr)) := do
  let s := if (← m.child .left parent) = node then Side.left else .right
  let (m, other) ← eraseTurn s m parent (← m.child s.flip parent)
  eraseSettle s m parent other

/-- The loop of `__rb_erase_color`, with the node it leaves for the last line. -/
def eraseLoop : ℕ → Store → Ptr → Ptr → Option (Store × Ptr)
  | 0, _, _, _ => none
  | fuel + 1, m, node, parent => do
      if !(← m.hasRed node) && node != m.rbNode then do
        let (m, next) ← eraseRound m node parent
        match next with
        | some (node, parent) => eraseLoop fuel m node parent
        | none => some (m, m.rbNode)
      else some (m, node)

/-- `__rb_erase_color`. -/
def rbEraseColor (fuel : ℕ) (m : Store) (node parent : Ptr) : Option Store := do
  let (m, node) ← eraseLoop fuel m node parent
  if node.isSome then m.setBlack node else some m

/-- `while (n->rb_left) n = n->rb_left`, or with `rb_right`. -/
def descend (s : Side) : ℕ → Store → Ptr → Option Ptr
  | 0, _, _ => none
  | fuel + 1, m, n => do
      let next ← m.child s n
      if next.isSome then descend s fuel m next else some n

/-- The end of `rb_erase`, from the label `color` on. -/
def eraseColored (fuel : ℕ) (m : Store) (color : BitVec 64) (child parent : Ptr) :
    Option Store :=
  if color = rbBlack then rbEraseColor fuel m child parent else some m

/-- `rb_erase` of a node that has at most the child `child`. -/
def eraseSingle (fuel : ℕ) (m : Store) (node child : Ptr) : Option Store := do
  let parent ← m.parent node
  let color ← m.color node
  let m ← adopt m child parent
  let m ← relink .left m parent node child
  eraseColored fuel m color child parent

/-- The next node `node` leaves its place, unless it stands right under `old`. The result
has the node where a black one is missing then. -/
def eraseUnlink (m : Store) (old node child parent : Ptr) : Option (Store × Ptr) := do
  if parent = old then some (m, node)
  else
    let m ← adopt m child parent
    let m ← m.setChild .left parent child
    let m ← m.setChild .right node (← m.child .right old)
    let m ← m.setParent (← m.child .right old) node
    some (m, parent)

/-- `rb_erase` of a node `old` that has two children: the next node takes its place. -/
def eraseDouble (fuel : ℕ) (m : Store) (old : Ptr) : Option Store := do
  let node ← descend .left fuel m (← m.child .right old)
  let m ← relink .left m (← m.parent old) old node
  let child ← m.child .right node
  let parent ← m.parent node
  let color ← m.color node
  let (m, parent) ← eraseUnlink m old node child parent
  let word ← (m.load old).map RbNode.rbParentColor
  let m ← m.modify node fun r => { r with rbParentColor := word }
  let m ← m.setChild .left node (← m.child .left old)
  let m ← m.setParent (← m.child .left old) node
  eraseColored fuel m color child parent

/-- `rb_erase`. -/
def rbErase (fuel : ℕ) (m : Store) (node : Ptr) : Option Store := do
  let left ← m.child .left node
  let right ← m.child .right node
  if left.isNone then eraseSingle fuel m node right
  else if right.isNone then eraseSingle fuel m node left
  else eraseDouble fuel m node

/-- `rb_first` for the side `left`, `rb_last` for the side `right`. -/
def outermost (s : Side) (fuel : ℕ) (m : Store) : Option Ptr :=
  if m.rbNode.isSome then descend s fuel m m.rbNode else some none

/-- `rb_first`. -/
def rbFirst : ℕ → Store → Option Ptr := outermost .left

/-- `rb_last`. -/
def rbLast : ℕ → Store → Option Ptr := outermost .right

/-- `while ((parent = rb_parent(node)) && node == parent->rb_right) node = parent`, or with
`rb_left`; the result is `parent`. -/
def climb (s : Side) : ℕ → Store → Ptr → Option Ptr
  | 0, _, _ => none
  | fuel + 1, m, node => do
      let parent ← m.parent node
      if parent.isSome then
        if node = (← m.child s parent) then climb s fuel m parent else some parent
      else some parent

/-- `rb_next` for the side `right`, `rb_prev` for the side `left`. -/
def neighbour (s : Side) (fuel : ℕ) (m : Store) (node : Ptr) : Option Ptr := do
  if (← m.parent node) = node then some none
  else do
    let child ← m.child s node
    if child.isSome then descend s.flip fuel m child else climb s fuel m node

/-- `rb_next`. -/
def rbNext : ℕ → Store → Ptr → Option Ptr := neighbour .right

/-- `rb_prev`. -/
def rbPrev : ℕ → Store → Ptr → Option Ptr := neighbour .left

/-- `rb_replace_node`. -/
def rbReplaceNode (m : Store) (victim new : Ptr) : Option Store := do
  let parent ← m.parent victim
  let m ← relink .left m parent victim new
  let m ← adopt m (← m.child .left victim) new
  let m ← adopt m (← m.child .right victim) new
  let r ← m.load victim
  m.modify new fun _ => r

/-- `rb_augment_f`. The function may read the nodes, and it changes the memory of the client,
`data` included. -/
abbrev RbAugmentF (σ : Type) := Store → Ptr → σ → Option σ

/-- The call in `rb_augment_path` for the node beside `node`. Where there is none on the right,
it is made for `node` a second time. -/
def augmentBeside {σ : Type} (func : RbAugmentF σ) (m : Store) (node parent : Ptr) (data : σ) :
    Option σ := do
  let left ← m.child .left parent
  let right ← m.child .right parent
  if node = left ∧ right.isSome then func m right data
  else if left.isSome then func m left data
  else some data

/-- `rb_augment_path`. -/
def rbAugmentPath {σ : Type} (func : RbAugmentF σ) (m : Store) : ℕ → Ptr → σ → Option σ
  | 0, _, _ => none
  | fuel + 1, node, data => do
      let data ← func m node data
      let parent ← m.parent node
      if parent.isNone then some data
      else do
        let data ← augmentBeside func m node parent data
        rbAugmentPath func m fuel parent data

/-- `rb_augment_insert`. -/
def rbAugmentInsert {σ : Type} (func : RbAugmentF σ) (fuel : ℕ) (m : Store) (node : Ptr)
    (data : σ) : Option σ := do
  let left ← m.child .left node
  let right ← m.child .right node
  let node := if left.isSome then left else if right.isSome then right else node
  rbAugmentPath func m fuel node data

/-- `rb_augment_erase_begin` of a node that has two children. -/
def augmentDeepest (fuel : ℕ) (m : Store) (node : Ptr) : Option Ptr := do
  let deepest ← rbNext fuel m node
  let right ← m.child .right deepest
  let parent ← m.parent deepest
  some (if right.isSome then right else if parent ≠ node then parent else deepest)

/-- `rb_augment_erase_begin`. -/
def rbAugmentEraseBegin (fuel : ℕ) (m : Store) (node : Ptr) : Option Ptr := do
  let left ← m.child .left node
  let right ← m.child .right node
  if right.isNone ∧ left.isNone then m.parent node
  else if right.isNone then some left
  else if left.isNone then some right
  else augmentDeepest fuel m node

/-- `rb_augment_erase_end`. -/
def rbAugmentEraseEnd {σ : Type} (func : RbAugmentF σ) (fuel : ℕ) (m : Store) (node : Ptr)
    (data : σ) : Option σ :=
  if node.isSome then rbAugmentPath func m fuel node data else some data

end Functions

end RbTree

end Infra
