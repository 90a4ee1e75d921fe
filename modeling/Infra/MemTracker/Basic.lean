import Infra.Foundation.CString
import Infra.Foundation.LittleEndian
import Infra.Foundation.Simulation
import Infra.HashTable.FiniteMap
import Infra.LinkedList.Iterate

/-!
# The allocation tracker of `mem_tracker.c`

Each block of memory starts with a tag that names the place in the program that
allocated it, its file and its line, and the size that was asked for. The tracker
keeps one `AllocInfo` for each such place in the bucket hash `memHash`, under the
bytes of its tag without those of the size.

What the underlying allocator answers is given with each call: the address of the
block, and the address of an `AllocInfo` in case one is needed. An answer that is
absent is NULL. A function has no result when it writes through NULL, or reads
the tag of a block that is not there. A file is known by the address of its
name.
-/

namespace Infra

namespace MemTracker

open Infra.LinkedList Infra.HashTable

/-- `MemDebugTag`. -/
structure MemDebugTag where
  file : BitVec 64
  line : BitVec 32
  size : BitVec 32
  deriving DecidableEq

/-- `sizeof(MemDebugTag)`. -/
def sizeofTag : ℕ := 16

/-- `AllocInfo`, less the list head. -/
structure AllocInfo where
  tag : MemDebugTag
  count : BitVec 32
  totalSize : BitVec 32
  deriving DecidableEq

/-- The bytes of a tag in memory. -/
def tagBytes (tag : MemDebugTag) : List UInt8 :=
  leBytes 8 tag.file.toNat ++ leBytes 4 tag.line.toNat ++ leBytes 4 tag.size.toNat

/-- The bytes of an `AllocInfo` up to its list head. -/
def infoBytes (info : AllocInfo) : List UInt8 :=
  tagBytes info.tag ++ leBytes 4 info.count.toNat ++ leBytes 4 info.totalSize.toNat

/-- A block of the underlying allocator: the bytes that were asked for, and the
tag at its start. -/
structure Block where
  total : BitVec 64
  tag : MemDebugTag
  deriving DecidableEq

/-- The tracker and the memory it works on. The bytes of a block behind its tag
are the client's. -/
structure Tracker (β ε : Type) where
  memHash : HashContext
  mem : Heap (ℕ ⊕ ε)
  infos : ε → AllocInfo
  blocks : AList fun _ : β => Block

/-- A place in the program that allocates. -/
structure Site where
  file : BitVec 64
  line : BitVec 32
  deriving DecidableEq

/-- What the underlying allocator answers: a block for the client, and an
`AllocInfo`. -/
structure Grant (β ε : Type) where
  ptr : Option β
  info : Option ε

/-- `BUCKET_SIZE`. -/
def bucketSize : ℕ := 1024

section Functions

variable {β ε : Type} [DecidableEq β] [DecidableEq ε]

/-- `initMemTracker`: the key of an `AllocInfo` is its tag without the size. -/
def initMemTracker (mem : Heap (ℕ ⊕ ε)) (infos : ε → AllocInfo)
    (blocks : AList fun _ : β => Block) : Option (Tracker β ε) := do
  let (memHash, mem) ← initHash mem true bucketSize 0 (sizeofTag - 4) none
  some { memHash := memHash, mem := mem, infos := infos, blocks := blocks }

/-- The bytes the hash reads. -/
def Tracker.bytes (s : Tracker β ε) : ε → List UInt8 := fun e => infoBytes (s.infos e)

/-- `checkMalloc`; `info` is what `malloc(sizeof(AllocInfo))` gives. -/
def checkMalloc (fuel : ℕ) (s : Tracker β ε) (tag : MemDebugTag) (info : Option ε) :
    Option (Tracker β ε) := do
  let found ← lookupHash s.memHash s.bytes fuel s.mem (tagBytes tag)
  match found, info with
  | none, none => some s
  | none, some e => do
      let s := { s with
        mem := s.mem.alloc (.inr e)
        infos := Function.update s.infos e ⟨tag, 0, 0⟩ }
      let (mem, _) ← addHash s.memHash s.bytes fuel s.mem e
      some { s with
        mem := mem
        infos := Function.update s.infos e ⟨tag, 0 + 1, 0 + tag.size⟩ }
  | some e, _ =>
      let i := s.infos e
      some { s with
        infos := Function.update s.infos e ⟨i.tag, i.count + 1, i.totalSize + tag.size⟩ }

/-- `checkFree`. -/
def checkFree (fuel : ℕ) (s : Tracker β ε) (tag : MemDebugTag) : Option (Tracker β ε) := do
  let found ← lookupHash s.memHash s.bytes fuel s.mem (tagBytes tag)
  match found with
  | none => some s
  | some e => do
      let i := s.infos e
      let s := { s with
        infos := Function.update s.infos e ⟨i.tag, i.count - 1, i.totalSize - tag.size⟩ }
      if i.count - 1 = 0 then do
        let (mem, _) ← delHash s.memHash s.bytes fuel s.mem (tagBytes tag)
        some { s with mem := mem.free (.inr e) }
      else some s

/-- The tag that a block is given. -/
def tagOf (site : Site) (size : BitVec 64) : MemDebugTag :=
  ⟨site.file, site.line, size.setWidth 32⟩

/-- `debug_malloc`, with the address it returns. -/
def debugMalloc (fuel : ℕ) (s : Tracker β ε) (size : BitVec 64) (site : Site)
    (grant : Grant β ε) : Option (Tracker β ε × Option β) :=
  let total := BitVec.ofNat 64 sizeofTag + size
  match grant.ptr with
  | none => some (s, none)
  | some ptr => do
      let tag := tagOf site size
      let s := { s with blocks := s.blocks.insert ptr ⟨total, tag⟩ }
      let s ← checkMalloc fuel s tag grant.info
      some (s, some ptr)

/-- `debug_calloc`: the `int` is converted to a `size_t`. -/
def debugCalloc (fuel : ℕ) (s : Tracker β ε) (n : BitVec 32) (size : BitVec 64) (site : Site)
    (grant : Grant β ε) : Option (Tracker β ε × Option β) :=
  debugMalloc fuel s (n.signExtend 64 * size) site grant

/-- `debug_strdup`: the copy goes through the pointer whether it is NULL or
not. -/
def debugStrdup (fuel : ℕ) (s : Tracker β ε) (str : CString) (site : Site)
    (grant : Grant β ε) : Option (Tracker β ε × Option β) := do
  let (s, ptr) ← debugMalloc fuel s (BitVec.ofNat 64 (str.length + 1)) site grant
  match ptr with
  | none => none
  | some ptr => some (s, some ptr)

/-- `debug_realloc`. The books are changed before the underlying `realloc`, and
the tag is written through what that returns. -/
def debugRealloc (fuel : ℕ) (s : Tracker β ε) (ptr : Option β) (size : BitVec 64) (site : Site)
    (grant : Grant β ε) : Option (Tracker β ε × Option β) := do
  let total := BitVec.ofNat 64 sizeofTag + size
  let s ←
    match ptr with
    | none => some s
    | some ptr => do
        let block ← s.blocks.lookup ptr
        let s ← checkFree fuel s block.tag
        match grant.ptr with
        | none => some s
        | some _ => some { s with blocks := s.blocks.erase ptr }
  match grant.ptr with
  | none => none
  | some ptr2 => do
      let tag := tagOf site size
      let s := { s with blocks := s.blocks.insert ptr2 ⟨total, tag⟩ }
      let s ← checkMalloc fuel s tag grant.info
      some (s, some ptr2)

/-- `debug_free`. -/
def debugFree (fuel : ℕ) (s : Tracker β ε) (ptr : β) : Option (Tracker β ε) := do
  let block ← s.blocks.lookup ptr
  let s ← checkFree fuel s block.tag
  some { s with blocks := s.blocks.erase ptr }

/-- A line of the statistics. -/
structure StatLine where
  file : BitVec 64
  line : BitVec 32
  count : BitVec 32
  totalSize : BitVec 32
  deriving DecidableEq

/-- The line that `printMemStat` prints for an `AllocInfo`. -/
def statLine (info : AllocInfo) : StatLine :=
  ⟨info.tag.file, info.tag.line, info.count, info.totalSize⟩

/-- The body of the loop of `printMemStat` over a bucket. -/
def statBody (s : Tracker β ε) (pos : ℕ ⊕ ε) (out : List StatLine) : Option (List StatLine) :=
  match pos with
  | .inl _ => none
  | .inr e => some (out ++ [statLine (s.infos e)])

/-- `printMemStat`, with the lines it prints. -/
def printMemStat (fuel : ℕ) (s : Tracker β ε) : Option (List StatLine) :=
  (List.range bucketSize).foldlM
    (fun out i => listForEach s.mem (statBody s) (.inl i) fuel out) []

end Functions

/-- A call into the tracker, with what the underlying allocator answers. -/
inductive Op (β ε : Type) where
  | malloc (size : BitVec 64) (site : Site) (grant : Grant β ε)
  | calloc (n : BitVec 32) (size : BitVec 64) (site : Site) (grant : Grant β ε)
  | strdup (str : CString) (site : Site) (grant : Grant β ε)
  | realloc (ptr : Option β) (size : BitVec 64) (site : Site) (grant : Grant β ε)
  | free (ptr : β)

/-- The tracker as a machine that answers calls with an address, or with NULL. -/
def tracker {β ε : Type} [DecidableEq β] [DecidableEq ε] (fuel : ℕ) :
    Machine (Tracker β ε) (Op β ε) (Option β) where
  step s
    | .malloc size site grant => debugMalloc fuel s size site grant
    | .calloc n size site grant => debugCalloc fuel s n size site grant
    | .strdup str site grant => debugStrdup fuel s str site grant
    | .realloc ptr size site grant => debugRealloc fuel s ptr size site grant
    | .free ptr => (debugFree fuel s ptr).map fun s => (s, none)

end MemTracker

end Infra
