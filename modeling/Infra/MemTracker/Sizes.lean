import Infra.MemTracker.Failure

/-!
# The sizes that are asked for and recorded

The wrappers ask the underlying allocator for `sizeof(MemDebugTag) + size` bytes, a sum that
is taken modulo `2 ^ 64`, and record `size` in an `int` of the tag. `mem_tracker.h` declares
`debug_calloc` with a `size_t` number of elements, of which its body sees an `int`. All this
is harmless for as long as the size that the caller means fits in an `int`.
-/

namespace Infra

namespace MemTracker

open Infra.LinkedList Infra.HashTable

/-- A call of a wrapper, as `mem_tracker.h` declares it. -/
inductive Request (β : Type) where
  | malloc (size : BitVec 64)
  | calloc (n size : BitVec 64)
  | realloc (ptr : Option β) (size : BitVec 64)

namespace Request

variable {β ε : Type}

/-- The number of bytes that the caller means. -/
def value : Request β → ℕ
  | malloc size | realloc _ size => size.toNat
  | calloc n size => n.toNat * size.toNat

/-- The number of bytes that the wrapper computes. -/
def size : Request β → BitVec 64
  | malloc size | realloc _ size => size
  | calloc n size => (n.setWidth 32).signExtend 64 * size

variable [DecidableEq β] [DecidableEq ε]

/-- The call. `debug_calloc` reads an `int` where it is passed a `size_t`. -/
def call (fuel : ℕ) (s : Tracker β ε) (site : Site) (grant : Grant β ε) :
    Request β → Option (Tracker β ε × Option β)
  | malloc size => debugMalloc fuel s size site grant
  | calloc n size => debugCalloc fuel s (n.setWidth 32) size site grant
  | realloc ptr size => debugRealloc fuel s ptr size site grant

/-- The tracker that the new block is entered into: `debug_realloc` has taken the old one
off the books. -/
def opened (fuel : ℕ) (s : Tracker β ε) : Request β → Option (Tracker β ε)
  | realloc (some ptr) _ => do
      let block ← s.blocks.lookup ptr
      checkFree fuel s block.tag
  | _ => some s

end Request

section Account

variable {β ε : Type} [DecidableEq ε] {s s' : Tracker β ε} {fuel : ℕ} {tag : MemDebugTag}
  {info : Option ε}

/-- The `AllocInfo` that `checkMalloc` counts a block in, with its total before. The total of
a new one starts at zero. -/
def account (fuel : ℕ) (s : Tracker β ε) (tag : MemDebugTag) (info : Option ε) :
    Option (ε × BitVec 32) :=
  match lookupHash s.memHash s.bytes fuel s.mem (tagBytes tag) with
  | some (some e) => some (e, (s.infos e).totalSize)
  | some none => info.map fun e => (e, 0)
  | none => none

end Account

section Calls

variable {β ε : Type} [DecidableEq β] [DecidableEq ε] {s s' : Tracker β ε} {fuel : ℕ}
  {req : Request β} {site : Site} {grant : Grant β ε} {ptr : β}

/-- The underlying allocator was asked for no less than the tag and the bytes that the caller
means, and their number is recorded in the tag and added to the total of the place. -/
structure Delivers (fuel : ℕ) (s : Tracker β ε) (req : Request β) (site : Site)
    (grant : Grant β ε) (s' : Tracker β ε) (ptr : β) : Prop where
  block : ∃ block, s'.blocks.lookup ptr = some block ∧
    sizeofTag + req.value ≤ block.total.toNat ∧ block.tag.size.toInt = req.value
  books : ∃ s₁ e total, req.opened fuel s = some s₁ ∧
    account fuel s₁ (tagOf site req.size) grant.info = some (e, total) ∧
    ((s'.infos e).totalSize - total).toInt = req.value

/-- The place has an `AllocInfo`, or gets one. -/
def Request.Counted (fuel : ℕ) (s : Tracker β ε) (req : Request β) (site : Site)
    (grant : Grant β ε) : Prop :=
  ∃ s₁, req.opened fuel s = some s₁ ∧ counts fuel s₁ (tagOf site req.size) grant.info

/-- `debug_malloc` enters its block. -/
theorem debugMalloc_returns {size : BitVec 64}
    (h : debugMalloc fuel s size site grant = some (s', some ptr)) :
    ∃ blocks, checkMalloc fuel { s with blocks := blocks } (tagOf site size) grant.info = some s' ∧
      blocks.lookup ptr = some (blockOf size site) := by
  cases hptr : grant.ptr with
  | none => simp [debugMalloc, hptr] at h
  | some ptr' =>
      rw [debugMalloc_some hptr] at h
      obtain ⟨s'', hs'', heq⟩ := Option.map_eq_some_iff.mp h
      obtain ⟨rfl, hptr'⟩ := Prod.mk.inj heq
      obtain rfl := Option.some.inj hptr'
      exact ⟨_, hs'', AList.lookup_insert _⟩

/-- A call that returns a block enters it. -/
theorem Request.returns (h : req.call fuel s site grant = some (s', some ptr)) :
    ∃ s₁ blocks, req.opened fuel s = some s₁ ∧
      checkMalloc fuel { s₁ with blocks := blocks } (tagOf site req.size) grant.info = some s' ∧
      blocks.lookup ptr = some (blockOf req.size site) := by
  cases req with
  | malloc size =>
      obtain ⟨blocks, hs', hlookup⟩ := debugMalloc_returns h
      exact ⟨s, blocks, rfl, hs', hlookup⟩
  | calloc n size =>
      obtain ⟨blocks, hs', hlookup⟩ := debugMalloc_returns h
      exact ⟨s, blocks, rfl, hs', hlookup⟩
  | realloc old size =>
      cases hptr : grant.ptr with
      | none => simp [call, debugRealloc_refused old hptr] at h
      | some ptr' =>
          cases old with
          | none =>
              rw [call, debugRealloc_null hptr] at h
              obtain ⟨blocks, hs', hlookup⟩ := debugMalloc_returns h
              exact ⟨s, blocks, rfl, hs', hlookup⟩
          | some old =>
              cases hold : s.blocks.lookup old with
              | none => simp [call, debugRealloc, hold] at h
              | some block =>
                  cases hfree : checkFree fuel s block.tag with
                  | none => simp [call, debugRealloc, hold, hfree] at h
                  | some s₁ =>
                      rw [call, debugRealloc_some hold hfree hptr] at h
                      obtain ⟨s'', hs'', heq⟩ := Option.map_eq_some_iff.mp h
                      obtain ⟨rfl, hptr'⟩ := Prod.mk.inj heq
                      obtain rfl := Option.some.inj hptr'
                      refine ⟨s₁, _, ?_, hs'', AList.lookup_insert _⟩
                      simp only [opened, hold, hfree, Option.bind_eq_bind, Option.bind_some]

end Calls

section Sample

end Sample

end MemTracker

end Infra
