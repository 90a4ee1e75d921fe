import Infra.Foundation.CInt
import Infra.Foundation.CircularArray
import Infra.Foundation.Simulation

/-!
# The circular buffer of `circ_buffer.c`

A circular buffer is a block of memory with the number of bytes it stores and
two indices into it. Sizes and indices are `int`s, so the guards compare wrapped
sums, and they say nothing about a negative size. `memcpy` takes a `size_t`: a
copy of a negative length, or one that leaves a block, has no result here, and
neither has a remainder by zero. A function that has a result therefore touched
only bytes of the block and of its caller's buffer.
-/

namespace Infra

namespace CircularBuffer

open Infra.CInt Infra.CircularArray

/-- `CircBuffer`. The block is absent when `buffer` is NULL. -/
structure CircBuffer where
  buffer : Option (List UInt8)
  size : ℤ
  dataSize : ℤ
  beginIndex : ℤ
  endIndex : ℤ
  deriving DecidableEq

/-- `memcpy(&dst[d], &src[s], n)`. -/
def memcpy (dst : List UInt8) (d : ℤ) (src : List UInt8) (s n : ℤ) : Option (List UInt8) :=
  if 0 ≤ n ∧ 0 ≤ d ∧ d + n ≤ dst.length ∧ 0 ≤ s ∧ s + n ≤ src.length then
    some (splice dst d.toNat ((src.drop s.toNat).take n.toNat))
  else none

/-- `init_circ_buffer`; `malloc` gives the block for a request, if there is
one. -/
def initCircBuffer (malloc : ℕ → Option (List UInt8)) (size : ℤ) : CircBuffer × ℤ :=
  match malloc (size % 2 ^ 64).toNat with
  | none => (⟨none, 0, 0, 0, 0⟩, -1)
  | some block => (⟨some block, size, 0, 0, 0⟩, 0)

/-- The copy into the block in `put_circ_buffer`. -/
def copyIn (cb : CircBuffer) (buf : List UInt8) (size : ℤ) : Option (List UInt8) := do
  let block ← cb.buffer
  if wrap (cb.endIndex + size) > cb.size then do
    let beginLen := wrap (cb.size - cb.endIndex)
    let block ← memcpy block cb.endIndex buf 0 beginLen
    memcpy block 0 buf beginLen (wrap (size - beginLen))
  else memcpy block cb.endIndex buf 0 size

/-- `put_circ_buffer`. -/
def putCircBuffer (cb : CircBuffer) (buf : List UInt8) (size : ℤ) :
    Option (CircBuffer × ℤ) :=
  if wrap (cb.dataSize + size) > cb.size then some (cb, -1)
  else do
    let block ← copyIn cb buf size
    let endIndex ← rem (wrap (cb.endIndex + size)) cb.size
    some ({ cb with
      buffer := some block
      endIndex := endIndex
      dataSize := wrap (cb.dataSize + size) }, 0)

/-- The copy to the caller's buffer in `get_circ_buffer` and
`peek_circ_buffer`. -/
def copyOut (cb : CircBuffer) (buf : List UInt8) (size : ℤ) : Option (List UInt8) := do
  let block ← cb.buffer
  if wrap (cb.beginIndex + size) ≤ cb.size then memcpy buf 0 block cb.beginIndex size
  else do
    let beginLen := wrap (cb.size - cb.beginIndex)
    let buf ← memcpy buf 0 block cb.beginIndex beginLen
    memcpy buf beginLen block 0 (wrap (size - beginLen))

/-- `get_circ_buffer`, with the caller's buffer after the call. -/
def getCircBuffer (cb : CircBuffer) (buf : List UInt8) (size : ℤ) :
    Option (CircBuffer × ℤ × List UInt8) :=
  if wrap (cb.dataSize - size) < 0 then some (cb, -1, buf)
  else do
    let buf ← copyOut cb buf size
    let beginIndex ← rem (wrap (cb.beginIndex + size)) cb.size
    some ({ cb with
      beginIndex := beginIndex
      dataSize := wrap (cb.dataSize - size) }, 0, buf)

/-- `get_circ_buffer_no_copy`. -/
def getCircBufferNoCopy (cb : CircBuffer) (size : ℤ) : Option (CircBuffer × ℤ) :=
  if wrap (cb.dataSize - size) < 0 then some (cb, -1)
  else do
    let beginIndex ← rem (wrap (cb.beginIndex + size)) cb.size
    some ({ cb with
      beginIndex := beginIndex
      dataSize := wrap (cb.dataSize - size) }, 0)

/-- `peek_circ_buffer`. -/
def peekCircBuffer (cb : CircBuffer) (buf : List UInt8) (size : ℤ) :
    Option (ℤ × List UInt8) :=
  if wrap (cb.dataSize - size) < 0 then some (-1, buf)
  else do
    let buf ← copyOut cb buf size
    some (0, buf)

/-- `reset_circ_buffer`. -/
def resetCircBuffer (cb : CircBuffer) : CircBuffer :=
  { cb with beginIndex := 0, endIndex := 0, dataSize := 0 }

/-- A call, with the buffer the caller passes. -/
inductive Op where
  | put (buf : List UInt8) (size : ℤ)
  | get (buf : List UInt8) (size : ℤ)
  | getNoCopy (size : ℤ)
  | peek (buf : List UInt8) (size : ℤ)
  | reset
  deriving DecidableEq

/-- What the caller has after the call: the value returned and its buffer. -/
structure Answer where
  ret : ℤ
  buf : List UInt8
  deriving DecidableEq

/-- The circular buffer as a machine that answers calls. -/
def circBuffer : Machine CircBuffer Op Answer where
  step cb
    | .put buf size => (putCircBuffer cb buf size).map fun r => (r.1, ⟨r.2, buf⟩)
    | .get buf size => (getCircBuffer cb buf size).map fun r => (r.1, ⟨r.2.1, r.2.2⟩)
    | .getNoCopy size => (getCircBufferNoCopy cb size).map fun r => (r.1, ⟨r.2, []⟩)
    | .peek buf size => (peekCircBuffer cb buf size).map fun r => (cb, ⟨r.1, r.2⟩)
    | .reset => some (resetCircBuffer cb, ⟨0, []⟩)

end CircularBuffer

end Infra
