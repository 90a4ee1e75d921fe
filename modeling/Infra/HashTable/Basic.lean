import Infra.LinkedList.Family
import Mathlib.Data.BitVec

/-!
# The bucket hash of `hash.c`

The elements are structures of the client. A hash context knows where the key
stands in such a structure and how long it is, and it links the elements of a
bucket through the list head each of them contains. So the bytes of the
structures are the client's, and the functions of this file read them when they
compare keys: the same context stores elements of any type, and what it finds
depends on what the client wrote.

The hash function is any function of the key bytes.
-/

namespace Infra

namespace HashTable

open Infra.LinkedList

/-- `hash_func`, as a function of the key bytes. -/
abbrev HashFunc := List UInt8 → BitVec 32

/-- `djb_hash`. -/
def djbHash (key : List UInt8) : BitVec 32 :=
  key.foldl (fun h c => (33 * h) ^^^ BitVec.ofNat 32 c.toNat) 0

/-- `HashContext`. The buckets are the nodes `.inl i`, and the position of the
list head in a structure is that of `.inr` in a node. -/
structure HashContext where
  numBuckets : ℕ
  keyOffset : ℕ
  keySize : ℕ
  calcHash : HashFunc

section Keys

/-- `memcmp(key, key2, n) == 0`; both buffers have to be long enough. -/
def memcmpEq (key key2 : List UInt8) (n : ℕ) : Option Bool :=
  if n ≤ key.length ∧ n ≤ key2.length then some (decide (key.take n = key2.take n)) else none

/-- The key in the bytes of an element. -/
def HashContext.keyOf (ctx : HashContext) (bytes : List UInt8) : List UInt8 :=
  (bytes.drop ctx.keyOffset).take ctx.keySize

/-- The bytes of an element reach to the end of its key. -/
def HashContext.Readable (ctx : HashContext) (bytes : List UInt8) : Prop :=
  ctx.keyOffset + ctx.keySize ≤ bytes.length

instance (ctx : HashContext) (bytes : List UInt8) : Decidable (ctx.Readable bytes) :=
  inferInstanceAs (Decidable (_ ≤ _))

/-- The bucket of a key. -/
def HashContext.bucketOf (ctx : HashContext) (key : List UInt8) : ℕ :=
  (ctx.calcHash (key.take ctx.keySize)).toNat % ctx.numBuckets

end Keys

section Functions

variable {ε : Type} [DecidableEq ε]

/-- `initHash`; `malloc` is whether the bucket array can be allocated. -/
def initHash (mem : Heap (ℕ ⊕ ε)) (malloc : Bool) (numBuckets keyOffset keySize : ℕ)
    (func : Option HashFunc) : Option (HashContext × Heap (ℕ ⊕ ε)) := do
  let mem := if malloc then mallocHeads mem .inl numBuckets else mem
  let mem ← initHeads mem .inl numBuckets
  some ({ numBuckets := numBuckets
          keyOffset := keyOffset
          keySize := keySize
          calcHash := func.getD djbHash }, mem)

/-- The comparison in the loops of `lookupHash` and `delHash`. -/
def hasKey (ctx : HashContext) (bytes : ε → List UInt8) (key : List UInt8) :
    ℕ ⊕ ε → Option Bool
  | .inl _ => none
  | .inr elem => memcmpEq key ((bytes elem).drop ctx.keyOffset) ctx.keySize

/-- `lookupHash`: the remainder is taken twice. -/
def lookupHash (ctx : HashContext) (bytes : ε → List UInt8) (fuel : ℕ) (mem : Heap (ℕ ⊕ ε))
    (key : List UInt8) : Option (Option ε) := do
  let ndx := ctx.bucketOf key % ctx.numBuckets
  let pos ← listFind mem (hasKey ctx bytes key) (.inl ndx) fuel
  some (pos.bind Sum.getRight?)

/-- `addHash`. -/
def addHash (ctx : HashContext) (bytes : ε → List UInt8) (fuel : ℕ) (mem : Heap (ℕ ⊕ ε))
    (element : ε) : Option (Heap (ℕ ⊕ ε) × ℤ) := do
  let key := (bytes element).drop ctx.keyOffset
  let found ← lookupHash ctx bytes fuel mem key
  if found.isSome then some (mem, 0)
  else do
    let ndx := ctx.bucketOf key
    let mem ← listAddTail mem (.inr element) (.inl ndx)
    some (mem, 1)

/-- `delHash`. -/
def delHash (ctx : HashContext) (bytes : ε → List UInt8) (fuel : ℕ) (mem : Heap (ℕ ⊕ ε))
    (key : List UInt8) : Option (Heap (ℕ ⊕ ε) × ℤ) := do
  let found ← lookupHash ctx bytes fuel mem key
  if found.isNone then some (mem, 0)
  else do
    let ndx := ctx.bucketOf key
    let pos ← listFind mem (hasKey ctx bytes key) (.inl ndx) fuel
    match pos with
    | none => some (mem, 0)
    | some pos => do
        let mem ← listDel mem pos
        some (mem, 1)

end Functions

end HashTable

end Infra
