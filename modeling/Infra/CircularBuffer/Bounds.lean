import Infra.CircularBuffer.Basic
import Infra.Foundation.Trace

/-!
# Sizes that keep the circular buffer in its bounds

The guards compare wrapped sums and let a negative size through, so a call keeps
the bounds just when its size is one that the guards judge right. A buffer of
size zero has no index, and the remainder by its size crashes.
-/

namespace Infra

namespace CircularBuffer

open CInt CircularArray

/-- The index is one of the block, or the start of an empty block. -/
def ValidIndex (size i : ℤ) : Prop := 0 ≤ i ∧ (i < size ∨ i = 0 ∧ size = 0)

/-- The block is there with its size, the stored bytes fit into it and the indices are
valid. -/
structure InBounds (cb : CircBuffer) : Prop where
  block : ∃ block, cb.buffer = some block ∧ (block.length : ℤ) = cb.size
  size_le : cb.size ≤ intMax
  dataSize_nonneg : 0 ≤ cb.dataSize
  dataSize_le : cb.dataSize ≤ cb.size
  beginIndex : ValidIndex cb.size cb.beginIndex
  endIndex : ValidIndex cb.size cb.endIndex

/-- The size is not negative and there is room for it, or there are so many bytes. -/
def Op.Fits (cb : CircBuffer) : Op → Prop
  | .put _ size => 0 ≤ size ∧ size ≤ cb.size - cb.dataSize
  | .get _ size | .peek _ size | .getNoCopy size => 0 ≤ size ∧ size ≤ cb.dataSize
  | .reset => True

/-- The size is an `int`, and the caller's buffer is as long as the bytes that a call
that fits copies. -/
def Op.Backed (cb : CircBuffer) : Op → Prop
  | .put buf size =>
      intMin ≤ size ∧ size ≤ intMax ∧ (size ≤ cb.size - cb.dataSize → size ≤ buf.length)
  | .get buf size | .peek buf size =>
      intMin ≤ size ∧ size ≤ intMax ∧ (size ≤ cb.dataSize → size ≤ buf.length)
  | .getNoCopy size => intMin ≤ size ∧ size ≤ intMax
  | .reset => True

/-- The guard of `put_circ_buffer` judges the size right, and the sum with `end` does
not overflow. -/
def PutSafe (cb : CircBuffer) (size : ℤ) : Prop :=
  0 ≤ size ∧ cb.dataSize + size ≤ intMax ∧
    (cb.dataSize + size ≤ cb.size → cb.size ≠ 0 ∧ cb.endIndex + size ≤ intMax)

/-- The guard of the functions that read judges the size right: it is not negative, or
so small that the difference overflows. -/
def ReadSafe (cb : CircBuffer) (size : ℤ) (accepted : Prop) : Prop :=
  (0 ≤ size ∧ (size ≤ cb.dataSize → accepted)) ∨ intMax < cb.dataSize - size

/-- The size of the call is one that keeps the bounds. A read without a copy survives
an overflow when the remainder happens to be zero. -/
def Op.Safe (cb : CircBuffer) : Op → Prop
  | .put _ size => PutSafe cb size
  | .get _ size => ReadSafe cb size (cb.size ≠ 0 ∧ cb.beginIndex + size ≤ intMax)
  | .peek _ size => ReadSafe cb size (cb.beginIndex + size ≤ intMax)
  | .getNoCopy size => ReadSafe cb size (cb.size ≠ 0 ∧
      (cb.beginIndex + size ≤ intMax ∨ cb.size ∣ cb.beginIndex + size - 2 ^ 32))
  | .reset => True

instance (cb : CircBuffer) (op : Op) : Decidable (op.Backed cb) :=
  match op with
  | .put buf size => inferInstanceAs (Decidable
      (intMin ≤ size ∧ size ≤ intMax ∧ (size ≤ cb.size - cb.dataSize → size ≤ buf.length)))
  | .get buf size | .peek buf size => inferInstanceAs (Decidable
      (intMin ≤ size ∧ size ≤ intMax ∧ (size ≤ cb.dataSize → size ≤ buf.length)))
  | .getNoCopy size => inferInstanceAs (Decidable (intMin ≤ size ∧ size ≤ intMax))
  | .reset => instDecidableTrue

instance (cb : CircBuffer) (size : ℤ) : Decidable (PutSafe cb size) := instDecidableAnd

instance (cb : CircBuffer) (size : ℤ) (accepted : Prop) [Decidable accepted] :
    Decidable (ReadSafe cb size accepted) := instDecidableOr

instance (cb : CircBuffer) (op : Op) : Decidable (op.Safe cb) :=
  match op with
  | .put _ size => inferInstanceAs (Decidable (PutSafe cb size))
  | .get _ size => inferInstanceAs (Decidable
      (ReadSafe cb size (cb.size ≠ 0 ∧ cb.beginIndex + size ≤ intMax)))
  | .peek _ size => inferInstanceAs (Decidable
      (ReadSafe cb size (cb.beginIndex + size ≤ intMax)))
  | .getNoCopy size => inferInstanceAs (Decidable (ReadSafe cb size (cb.size ≠ 0 ∧
      (cb.beginIndex + size ≤ intMax ∨ cb.size ∣ cb.beginIndex + size - 2 ^ 32))))
  | .reset => instDecidableTrue

/-- The call returns, with 0 only when it fits, and leaves a buffer of the same size in
its bounds. -/
def Op.Sound (cb : CircBuffer) (op : Op) : Prop :=
  ∃ cb' answer, circBuffer.step cb op = some (cb', answer) ∧ (answer.ret = 0 → op.Fits cb) ∧
    InBounds cb' ∧ cb'.size = cb.size

section Copies

variable {dst src block buf : List UInt8} {cb : CircBuffer} {d s n size i : ℤ}

theorem memcpy_eq_none (h : n < 0 ∨ dst.length < d + n ∨ src.length < s + n) :
    memcpy dst d src s n = none := by
  rw [memcpy, if_neg (by omega)]

/-- A copy inside the blocks has a result of the same length. -/
theorem memcpy_isSome (dst src : List UInt8) (d s n : ℤ) (hn : 0 ≤ n) (hd : 0 ≤ d)
    (hdst : d + n ≤ dst.length) (hs : 0 ≤ s) (hsrc : s + n ≤ src.length) :
    ∃ r, memcpy dst d src s n = some r ∧ r.length = dst.length := by
  refine ⟨_, if_pos ⟨hn, hd, hdst, hs, hsrc⟩, splice_length ?_⟩
  simp only [List.length_take, List.length_drop]
  omega

theorem ValidIndex.le {size i : ℤ} (h : ValidIndex size i) : i ≤ size := by
  obtain ⟨-, h | h⟩ := h <;> omega

/-- The index sum of a negative size, or one that overflows, stays below the size of
the block. -/
theorem wrap_index_le (hmax : cb.size ≤ intMax) (hi : ValidIndex cb.size i) (hmin : intMin ≤ size)
    (hsize : size ≤ intMax) (hbad : size < 0 ∨ intMax < i + size) :
    wrap (i + size) ≤ cb.size := by
  have hle := hi.le
  obtain ⟨h₀, -⟩ := hi
  rcases hbad with hneg | hover
  · rw [wrap_eq_self (by omega) (by omega)]
    omega
  · rw [wrap_of_intMax_lt hover (by simp only [intMax] at *; omega)]
    simp only [intMax] at *
    omega

/-- The length of the part up to the end of the block. -/
theorem wrap_size_sub (hmax : cb.size ≤ intMax) (hi : ValidIndex cb.size i) :
    wrap (cb.size - i) = cb.size - i := by
  have hle := hi.le
  obtain ⟨h₀, -⟩ := hi
  exact wrap_eq_self (by simp only [intMin]; omega) (by omega)

theorem InBounds.copyIn_isSome (h : InBounds cb) (hsize : 0 ≤ size) (hroom : size ≤ cb.size)
    (hend : cb.endIndex + size ≤ intMax) (hbuf : size ≤ buf.length) :
    ∃ block, copyIn cb buf size = some block ∧ (block.length : ℤ) = cb.size := by
  obtain ⟨block, hblock, hlen⟩ := h.block
  have hmax := h.size_le
  have hle := h.endIndex.le
  obtain ⟨h₀, -⟩ := h.endIndex
  have hsum : wrap (cb.endIndex + size) = cb.endIndex + size :=
    wrap_eq_self (by simp only [intMin]; omega) hend
  simp only [copyIn, hblock, hsum, Option.bind_eq_bind, Option.bind_some,
    wrap_size_sub hmax h.endIndex]
  split
  · next hover =>
    have hrest : wrap (size - (cb.size - cb.endIndex)) = size - (cb.size - cb.endIndex) :=
      wrap_eq_self (by simp only [intMin]; omega) (by omega)
    obtain ⟨block₁, h₁, hlen₁⟩ := memcpy_isSome block buf cb.endIndex 0 (cb.size - cb.endIndex)
      (by omega) h₀ (by omega) le_rfl (by omega)
    obtain ⟨block₂, h₂, hlen₂⟩ := memcpy_isSome block₁ buf 0 (cb.size - cb.endIndex)
      (size - (cb.size - cb.endIndex)) (by omega) le_rfl (by omega) (by omega) (by omega)
    rw [h₁, Option.bind_some, hrest, h₂]
    exact ⟨block₂, rfl, by omega⟩
  · obtain ⟨block₁, h₁, hlen₁⟩ := memcpy_isSome block buf cb.endIndex 0 size hsize h₀ (by omega)
      le_rfl (by omega)
    exact ⟨block₁, h₁, by omega⟩

/-- A copy of a negative size, or one whose index sum overflows, leaves the block. -/
theorem InBounds.copyIn_eq_none (h : InBounds cb) (hmin : intMin ≤ size) (hmax : size ≤ intMax)
    (hbad : size < 0 ∨ intMax < cb.endIndex + size) : copyIn cb buf size = none := by
  obtain ⟨block, hblock, hlen⟩ := h.block
  have hsize := h.size_le
  have hle := h.endIndex.le
  have hwrap := wrap_index_le hsize h.endIndex hmin hmax hbad
  simp only [copyIn, hblock, Option.bind_eq_bind, Option.bind_some]
  rw [if_neg (not_lt.mpr hwrap)]
  exact memcpy_eq_none (by omega)

theorem InBounds.copyOut_isSome (h : InBounds cb) (hsize : 0 ≤ size) (hroom : size ≤ cb.size)
    (hbegin : cb.beginIndex + size ≤ intMax) (hbuf : size ≤ buf.length) :
    ∃ buf', copyOut cb buf size = some buf' := by
  obtain ⟨block, hblock, hlen⟩ := h.block
  have hmax := h.size_le
  have hle := h.beginIndex.le
  obtain ⟨h₀, -⟩ := h.beginIndex
  have hsum : wrap (cb.beginIndex + size) = cb.beginIndex + size :=
    wrap_eq_self (by simp only [intMin]; omega) hbegin
  simp only [copyOut, hblock, hsum, Option.bind_eq_bind, Option.bind_some,
    wrap_size_sub hmax h.beginIndex]
  split
  · next hfits =>
    obtain ⟨buf₁, h₁, -⟩ := memcpy_isSome buf block 0 cb.beginIndex size hsize le_rfl (by omega)
      h₀ (by omega)
    exact ⟨buf₁, h₁⟩
  · next hover =>
    have hrest : wrap (size - (cb.size - cb.beginIndex)) = size - (cb.size - cb.beginIndex) :=
      wrap_eq_self (by simp only [intMin]; omega) (by omega)
    obtain ⟨buf₁, h₁, hlen₁⟩ := memcpy_isSome buf block 0 cb.beginIndex (cb.size - cb.beginIndex)
      (by omega) le_rfl (by omega) h₀ (by omega)
    obtain ⟨buf₂, h₂, -⟩ := memcpy_isSome buf₁ block (cb.size - cb.beginIndex) 0
      (size - (cb.size - cb.beginIndex)) (by omega) (by omega) (by omega) le_rfl (by omega)
    rw [h₁, Option.bind_some, hrest, h₂]
    exact ⟨buf₂, rfl⟩

theorem InBounds.copyOut_eq_none (h : InBounds cb) (hmin : intMin ≤ size) (hmax : size ≤ intMax)
    (hbad : size < 0 ∨ intMax < cb.beginIndex + size) : copyOut cb buf size = none := by
  obtain ⟨block, hblock, hlen⟩ := h.block
  have hsize := h.size_le
  have hle := h.beginIndex.le
  have hwrap := wrap_index_le hsize h.beginIndex hmin hmax hbad
  simp only [copyOut, hblock, Option.bind_eq_bind, Option.bind_some]
  rw [if_pos hwrap]
  exact memcpy_eq_none (by omega)

end Copies

/-! ## One call -/

section Call

variable {cb cb' : CircBuffer} {buf : List UInt8} {size i : ℤ} {answer : Answer} {op : Op}

/-- The calls of `put_circ_buffer` that are not refused. -/
theorem put_step (hguard : ¬ wrap (cb.dataSize + size) > cb.size) :
    circBuffer.step cb (.put buf size) = some (cb', answer) ↔ ∃ block i,
      copyIn cb buf size = some block ∧ rem (wrap (cb.endIndex + size)) cb.size = some i ∧
      cb' = { cb with buffer := some block, endIndex := i, dataSize := wrap (cb.dataSize + size) } ∧
      answer = ⟨0, buf⟩ := by
  simp only [circBuffer, putCircBuffer, if_neg hguard, Option.bind_eq_bind, Option.map_eq_some_iff,
    Option.bind_eq_some_iff, Option.some.injEq]
  grind

theorem get_step (hguard : ¬ wrap (cb.dataSize - size) < 0) :
    circBuffer.step cb (.get buf size) = some (cb', answer) ↔ ∃ buf' i,
      copyOut cb buf size = some buf' ∧ rem (wrap (cb.beginIndex + size)) cb.size = some i ∧
      cb' = { cb with beginIndex := i, dataSize := wrap (cb.dataSize - size) } ∧
      answer = ⟨0, buf'⟩ := by
  simp only [circBuffer, getCircBuffer, if_neg hguard, Option.bind_eq_bind, Option.map_eq_some_iff,
    Option.bind_eq_some_iff, Option.some.injEq]
  grind

theorem getNoCopy_step (hguard : ¬ wrap (cb.dataSize - size) < 0) :
    circBuffer.step cb (.getNoCopy size) = some (cb', answer) ↔ ∃ i,
      rem (wrap (cb.beginIndex + size)) cb.size = some i ∧
      cb' = { cb with beginIndex := i, dataSize := wrap (cb.dataSize - size) } ∧
      answer = ⟨0, []⟩ := by
  simp only [circBuffer, getCircBufferNoCopy, if_neg hguard, Option.bind_eq_bind,
    Option.map_eq_some_iff, Option.bind_eq_some_iff, Option.some.injEq]
  grind

theorem peek_step (hguard : ¬ wrap (cb.dataSize - size) < 0) :
    circBuffer.step cb (.peek buf size) = some (cb', answer) ↔ ∃ buf',
      copyOut cb buf size = some buf' ∧ cb' = cb ∧ answer = ⟨0, buf'⟩ := by
  simp only [circBuffer, peekCircBuffer, if_neg hguard, Option.bind_eq_bind,
    Option.map_eq_some_iff, Option.bind_eq_some_iff, Option.some.injEq]
  grind

/-- A remainder of a sum that is not negative is a valid index. -/
theorem exists_rem (hsize : 0 ≤ cb.size) (hne : cb.size ≠ 0) (hi : 0 ≤ i) :
    ∃ j, rem i cb.size = some j ∧ ValidIndex cb.size j := by
  refine ⟨i.tmod cb.size, if_neg hne, Int.tmod_nonneg _ hi, Or.inl ?_⟩
  exact Int.tmod_lt_of_pos i (by omega)

/-- A call that is refused is sound. -/
theorem sound_of_refused {b : List UInt8} (h : InBounds cb)
    (hstep : circBuffer.step cb op = some (cb, ⟨-1, b⟩)) :
    op.Sound cb :=
  ⟨cb, _, hstep, fun hret => absurd (show (-1 : ℤ) = 0 from hret) (by decide), h, rfl⟩

/-- A call of `put_circ_buffer` is sound just when its size is safe. -/
theorem putSafe_iff (h : InBounds cb) (hbacked : (Op.put buf size).Backed cb) :
    PutSafe cb size ↔ (Op.put buf size).Sound cb := by
  obtain ⟨hmin, hmax, hbuf⟩ := hbacked
  have hsize := h.size_le
  have hnonneg := h.dataSize_nonneg
  have hle := h.dataSize_le
  constructor
  · rintro ⟨h₀, hsum, hsafe⟩
    have hwrap : wrap (cb.dataSize + size) = cb.dataSize + size :=
      wrap_eq_self (by simp only [intMin]; omega) hsum
    by_cases hfits : cb.dataSize + size ≤ cb.size
    · have hguard : ¬ wrap (cb.dataSize + size) > cb.size := by
        rw [hwrap]
        omega
      obtain ⟨hne, hend⟩ := hsafe hfits
      have hend₀ := h.endIndex.1
      obtain ⟨block, hcopy, hlen⟩ := h.copyIn_isSome h₀ (by omega) hend (hbuf (by omega))
      have hindex : wrap (cb.endIndex + size) = cb.endIndex + size :=
        wrap_eq_self (by simp only [intMin]; omega) hend
      obtain ⟨j, hrem, hj⟩ := exists_rem (i := cb.endIndex + size) (hnonneg.trans hle) hne
        (by omega)
      refine ⟨_, _, (put_step hguard).mpr ⟨block, j, hcopy, by rw [hindex, hrem], rfl, rfl⟩,
        fun _ => ⟨h₀, by omega⟩, ?_, rfl⟩
      exact ⟨⟨block, rfl, hlen⟩, hsize, by simp only; omega, by simp only; omega, h.beginIndex, hj⟩
    · have hguard : wrap (cb.dataSize + size) > cb.size := by
        rw [hwrap]
        omega
      exact sound_of_refused (b := buf) h (by simp [circBuffer, putCircBuffer, hguard])
  · rintro ⟨cb', answer, hstep, hret, -, -⟩
    have hwrong : ¬ wrap (cb.dataSize + size) > cb.size →
        (0 ≤ size ∧ cb.endIndex + size ≤ intMax) ∧ cb.size ≠ 0 ∧ size ≤ cb.size - cb.dataSize := by
      intro hguard
      obtain ⟨block, j, hcopy, hrem, -, hanswer⟩ := (put_step hguard).mp hstep
      refine ⟨?_, ?_, (hret (by rw [hanswer])).2⟩
      · by_contra hbad
        rw [h.copyIn_eq_none hmin hmax (by omega)] at hcopy
        cases hcopy
      · intro hzero
        simp [rem, hzero] at hrem
    have hsum : cb.dataSize + size ≤ intMax := by
      by_contra hover
      have hwrap := wrap_of_intMax_lt (x := cb.dataSize + size) (by omega)
        (by simp only [intMax] at *; omega)
      have hguard : ¬ wrap (cb.dataSize + size) > cb.size := by
        rw [hwrap]
        simp only [intMax] at *
        omega
      have := (hwrong hguard).2.2
      omega
    have hwrap : wrap (cb.dataSize + size) = cb.dataSize + size := wrap_eq_self (by omega) hsum
    rw [hwrap] at hwrong
    refine ⟨?_, hsum, fun hfits => ?_⟩
    · by_contra hneg
      exact hneg (hwrong (by omega)).1.1
    · obtain ⟨hgood, hne, -⟩ := hwrong (by omega)
      exact ⟨hne, hgood.2⟩

/-- The guard of the functions that read. -/
theorem InBounds.guard_iff (h : InBounds cb) (hmin : intMin ≤ size) (hmax : size ≤ intMax) :
    wrap (cb.dataSize - size) < 0 ↔ cb.dataSize < size ∨ intMax < cb.dataSize - size := by
  have hsize := h.size_le
  have hnonneg := h.dataSize_nonneg
  have hle := h.dataSize_le
  by_cases hover : intMax < cb.dataSize - size
  · rw [wrap_of_intMax_lt hover (by simp only [intMin, intMax] at *; omega)]
    simp only [intMin, intMax] at *
    omega
  · rw [wrap_eq_self (by simp only [intMin, intMax] at *; omega) (by omega)]
    omega

/-- What the functions that read have in common: a refused call is sound, and an
accepted one returns 0 if it returns. -/
theorem readSafe_iff {accepted : Prop} (h : InBounds cb) (hmin : intMin ≤ size)
    (hmax : size ≤ intMax) (hfits : op.Fits cb → 0 ≤ size)
    (hrefused : wrap (cb.dataSize - size) < 0 → op.Sound cb)
    (hzero : ¬ wrap (cb.dataSize - size) < 0 → ∀ cb' answer,
      circBuffer.step cb op = some (cb', answer) → answer.ret = 0)
    (haccepted : ¬ wrap (cb.dataSize - size) < 0 → 0 ≤ size → size ≤ cb.dataSize →
      (op.Sound cb ↔ accepted)) : ReadSafe cb size accepted ↔ op.Sound cb := by
  have hguard := h.guard_iff hmin hmax
  have hnonneg := h.dataSize_nonneg
  constructor
  · rintro (⟨h₀, hsafe⟩ | hover)
    · by_cases hle : size ≤ cb.dataSize
      · have hmaxData : cb.dataSize ≤ intMax := h.dataSize_le.trans h.size_le
        exact (haccepted (by rw [hguard]; omega) h₀ hle).mpr (hsafe hle)
      · exact hrefused (hguard.mpr (by omega))
    · exact hrefused (hguard.mpr (Or.inr hover))
  · intro hsound
    by_cases hrefuse : wrap (cb.dataSize - size) < 0
    · rcases hguard.mp hrefuse with hlt | hover
      · exact Or.inl ⟨by omega, fun hle => by omega⟩
      · exact Or.inr hover
    · obtain ⟨cb', answer, hstep, hret, -⟩ := id hsound
      have h₀ := hfits (hret (hzero hrefuse cb' answer hstep))
      exact Or.inl ⟨h₀, fun hle => (haccepted hrefuse h₀ hle).mp hsound⟩

/-- What an accepted call that reads leaves behind. -/
theorem InBounds.read {j : ℤ} (h : InBounds cb) (h₀ : 0 ≤ size) (hle : size ≤ cb.dataSize)
    (hj : ValidIndex cb.size j) :
    InBounds { cb with beginIndex := j, dataSize := wrap (cb.dataSize - size) } := by
  have hsize := h.size_le
  have hdata := h.dataSize_le
  have hwrap : wrap (cb.dataSize - size) = cb.dataSize - size :=
    wrap_eq_self (by simp only [intMin]; omega) (by omega)
  rw [hwrap]
  exact ⟨h.block, hsize, by simp only; omega, by simp only; omega, hj, h.endIndex⟩

theorem getSafe_iff (h : InBounds cb) (hbacked : (Op.get buf size).Backed cb) :
    ReadSafe cb size (cb.size ≠ 0 ∧ cb.beginIndex + size ≤ intMax) ↔
      (Op.get buf size).Sound cb := by
  obtain ⟨hmin, hmax, hbuf⟩ := hbacked
  refine readSafe_iff h hmin hmax And.left (fun hguard => ?_) (fun hguard cb' answer hstep => ?_)
    fun hguard h₀ hle => ⟨?_, ?_⟩
  · exact sound_of_refused (b := buf) h (by simp [circBuffer, getCircBuffer, hguard])
  · obtain ⟨buf', i, -, -, -, rfl⟩ := (get_step hguard).mp hstep
    rfl
  · rintro ⟨cb', answer, hstep, -⟩
    obtain ⟨buf', i, hcopy, hrem, -⟩ := (get_step hguard).mp hstep
    constructor
    · intro hzero
      simp [rem, hzero] at hrem
    · by_contra hover
      rw [h.copyOut_eq_none hmin hmax (by omega)] at hcopy
      cases hcopy
  · rintro ⟨hne, hbegin⟩
    have hsize : 0 ≤ cb.size := h.dataSize_nonneg.trans h.dataSize_le
    have hbegin₀ := h.beginIndex.1
    obtain ⟨buf', hcopy⟩ := h.copyOut_isSome h₀ (hle.trans h.dataSize_le) hbegin (hbuf hle)
    have hindex : wrap (cb.beginIndex + size) = cb.beginIndex + size :=
      wrap_eq_self (by simp only [intMin]; omega) hbegin
    obtain ⟨j, hrem, hj⟩ := exists_rem (i := cb.beginIndex + size) hsize hne (by omega)
    exact ⟨_, _, (get_step hguard).mpr ⟨buf', j, hcopy, by rw [hindex, hrem], rfl, rfl⟩,
      fun _ => ⟨h₀, hle⟩, h.read h₀ hle hj, rfl⟩

theorem peekSafe_iff (h : InBounds cb) (hbacked : (Op.peek buf size).Backed cb) :
    ReadSafe cb size (cb.beginIndex + size ≤ intMax) ↔ (Op.peek buf size).Sound cb := by
  obtain ⟨hmin, hmax, hbuf⟩ := hbacked
  refine readSafe_iff h hmin hmax And.left (fun hguard => ?_) (fun hguard cb' answer hstep => ?_)
    fun hguard h₀ hle => ⟨?_, fun hbegin => ?_⟩
  · exact sound_of_refused (b := buf) h (by simp [circBuffer, peekCircBuffer, hguard])
  · obtain ⟨buf', -, -, rfl⟩ := (peek_step hguard).mp hstep
    rfl
  · rintro ⟨cb', answer, hstep, -⟩
    obtain ⟨buf', hcopy, -⟩ := (peek_step hguard).mp hstep
    by_contra hover
    rw [h.copyOut_eq_none hmin hmax (by omega)] at hcopy
    cases hcopy
  · obtain ⟨buf', hcopy⟩ := h.copyOut_isSome h₀ (hle.trans h.dataSize_le) hbegin (hbuf hle)
    exact ⟨cb, _, (peek_step hguard).mpr ⟨buf', hcopy, rfl, rfl⟩, fun _ => ⟨h₀, hle⟩, h, rfl⟩

/-- The remainder after an overflow is negative, unless it is zero. -/
theorem validIndex_tmod_iff {n x : ℤ} (hn : 0 < n) (hx : x < 0) :
    ValidIndex n (x.tmod n) ↔ n ∣ x := by
  have hneg := Int.tmod_nonneg n (Int.neg_nonneg.mpr hx.le)
  rw [Int.neg_tmod] at hneg
  rw [Int.dvd_iff_tmod_eq_zero]
  constructor
  · rintro ⟨h₀, -⟩
    omega
  · intro hzero
    rw [hzero]
    exact ⟨le_rfl, Or.inl hn⟩

theorem getNoCopySafe_iff (h : InBounds cb) (hbacked : (Op.getNoCopy size).Backed cb) :
    ReadSafe cb size (cb.size ≠ 0 ∧
      (cb.beginIndex + size ≤ intMax ∨ cb.size ∣ cb.beginIndex + size - 2 ^ 32)) ↔
      (Op.getNoCopy size).Sound cb := by
  obtain ⟨hmin, hmax⟩ := hbacked
  refine readSafe_iff h hmin hmax And.left (fun hguard => ?_) (fun hguard cb' answer hstep => ?_)
    fun hguard h₀ hle => ?_
  · exact sound_of_refused (b := []) h (by simp [circBuffer, getCircBufferNoCopy, hguard])
  · obtain ⟨i, -, -, rfl⟩ := (getNoCopy_step hguard).mp hstep
    rfl
  · have hsize₀ : 0 ≤ cb.size := h.dataSize_nonneg.trans h.dataSize_le
    have hsize := h.size_le
    have hbegin₀ := h.beginIndex.1
    have hbegin := h.beginIndex.le
    have hdata := h.dataSize_le
    have hsound : (Op.getNoCopy size).Sound cb ↔
        cb.size ≠ 0 ∧ ValidIndex cb.size ((wrap (cb.beginIndex + size)).tmod cb.size) := by
      constructor
      · rintro ⟨cb', answer, hstep, -, hin, -⟩
        obtain ⟨i, hrem, rfl, -⟩ := (getNoCopy_step hguard).mp hstep
        have hne : cb.size ≠ 0 := by
          intro hzero
          simp [rem, hzero] at hrem
        rw [rem, if_neg hne] at hrem
        cases hrem
        exact ⟨hne, hin.beginIndex⟩
      · rintro ⟨hne, hj⟩
        exact ⟨_, _, (getNoCopy_step hguard).mpr ⟨_, if_neg hne, rfl, rfl⟩, fun _ => ⟨h₀, hle⟩,
          h.read h₀ hle hj, rfl⟩
    rw [hsound]
    refine and_congr_right fun hne => ?_
    by_cases hover : cb.beginIndex + size ≤ intMax
    · rw [wrap_eq_self (by omega) hover]
      refine iff_of_true ⟨Int.tmod_nonneg _ (by omega), Or.inl ?_⟩ (Or.inl hover)
      exact Int.tmod_lt_of_pos _ (by omega)
    · rw [wrap_of_intMax_lt (by omega) (by simp only [intMax] at *; omega),
        validIndex_tmod_iff (by omega) (by simp only [intMax] at *; omega)]
      exact (or_iff_right hover).symm

/-- A call is sound just when its size is safe. -/
theorem safe_iff (h : InBounds cb) (hbacked : op.Backed cb) : op.Safe cb ↔ op.Sound cb := by
  cases op with
  | put buf size => exact putSafe_iff h hbacked
  | get buf size => exact getSafe_iff h hbacked
  | getNoCopy size => exact getNoCopySafe_iff h hbacked
  | peek buf size => exact peekSafe_iff h hbacked
  | reset =>
      have hnonneg := h.dataSize_nonneg
      have hle := h.dataSize_le
      have hzero : ValidIndex cb.size 0 := ⟨le_rfl, by omega⟩
      refine iff_of_true trivial ⟨resetCircBuffer cb, _, rfl, fun _ => trivial, ?_, rfl⟩
      exact ⟨h.block, h.size_le, le_rfl, hnonneg.trans hle, hzero, hzero⟩

end Call

/-! ## Runs -/

section Runs

variable {malloc : ℕ → Option (List UInt8)} {capacity : ℤ} {cb cb₀ : CircBuffer} {ops : List Op}

/-- A call that returns. -/
def Calls (cb : CircBuffer) (op : Op) (cb' : CircBuffer) : Prop :=
  op.Backed cb ∧ ∃ answer, circBuffer.step cb op = some (cb', answer)

/-- A call that returns, with a size that is safe. -/
def SafeCalls (cb : CircBuffer) (op : Op) (cb' : CircBuffer) : Prop :=
  op.Safe cb ∧ Calls cb op cb'

/-- `init_circ_buffer` makes a buffer in its bounds; no block is larger than
`PTRDIFF_MAX`. -/
theorem initCircBuffer_inBounds
    (hmalloc : ∀ n block, malloc n = some block → block.length = n ∧ n < 2 ^ 63)
    (hcapacity : intMin ≤ capacity ∧ capacity ≤ intMax)
    (h₀ : initCircBuffer malloc capacity = (cb₀, 0)) : InBounds cb₀ := by
  obtain ⟨hmin, hmax⟩ := hcapacity
  rw [initCircBuffer] at h₀
  cases hb : malloc (capacity % 2 ^ 64).toNat with
  | none =>
      rw [hb] at h₀
      exact absurd (Prod.mk.inj h₀).2 (by decide)
  | some block =>
      rw [hb] at h₀
      obtain ⟨rfl, -⟩ := Prod.mk.inj h₀
      obtain ⟨hlen, hlt⟩ := hmalloc _ _ hb
      have hnonneg : 0 ≤ capacity ∧ (block.length : ℤ) = capacity := by
        simp only [intMin, intMax] at hmin hmax
        omega
      have hzero : ValidIndex capacity 0 := ⟨le_rfl, by omega⟩
      exact ⟨⟨block, rfl, hnonneg.2⟩, hmax, le_rfl, hnonneg.1, hzero, hzero⟩

/-- In every run of safe calls the buffer stays in its bounds, and a call goes on so
just when its size is safe: it returns, with 0 only when it fits, and keeps the
bounds. -/
theorem stays_in_bounds_iff
    (hmalloc : ∀ n block, malloc n = some block → block.length = n ∧ n < 2 ^ 63)
    (hcapacity : intMin ≤ capacity ∧ capacity ≤ intMax)
    (h₀ : initCircBuffer malloc capacity = (cb₀, 0)) (hrun : Trace SafeCalls cb₀ ops cb) :
    InBounds cb ∧ ∀ op : Op, op.Backed cb → (op.Safe cb ↔ op.Sound cb) := by
  have hbounds : InBounds cb := by
    refine hrun.invariant (fun cb op cb' h hstep => ?_)
      (initCircBuffer_inBounds hmalloc hcapacity h₀)
    obtain ⟨hsafe, hbacked, answer, hcall⟩ := hstep
    obtain ⟨cb'', answer', hcall', -, hbounds, -⟩ := (safe_iff h hbacked).mp hsafe
    cases hcall.symm.trans hcall'
    exact hbounds
  exact ⟨hbounds, fun op hbacked => safe_iff hbounds hbacked⟩

/-- A heap that gives blocks of less than a hundred bytes. -/
def smallMalloc (n : ℕ) : Option (List UInt8) :=
  if n < 100 then some (List.replicate n 0) else none

theorem smallMalloc_spec : ∀ n block, smallMalloc n = some block →
    block.length = n ∧ n < 2 ^ 63 := by
  intro n block h
  rw [smallMalloc, Option.ite_none_right_eq_some] at h
  obtain ⟨hlt, h⟩ := h
  cases h
  exact ⟨List.length_replicate, by omega⟩

/-- Sizes that are refused and sizes that fit, with a buffer of four bytes. -/
theorem stays_in_bounds_iff_four : ∃ cb, cb.dataSize = 1 ∧ InBounds cb ∧
    ∀ op : Op, op.Backed cb → (op.Safe cb ↔ op.Sound cb) := by
  have hrun : Trace SafeCalls (initCircBuffer smallMalloc 4).1
      [.put [] intMax, .put [1, 2, 3] 3, .getNoCopy intMin, .getNoCopy 2]
      ⟨some [1, 2, 3, 0], 4, 1, 2, 3⟩ :=
    (((Trace.single ⟨by decide, by decide, _, rfl⟩).concat ⟨by decide, by decide, _, rfl⟩).concat
      ⟨by decide, by decide, _, rfl⟩).concat ⟨by decide, by decide, _, rfl⟩
  have hfour : intMin ≤ 4 ∧ (4 : ℤ) ≤ intMax := by decide
  exact ⟨_, rfl, stays_in_bounds_iff smallMalloc_spec hfour rfl hrun⟩

/-- A read of a negative size without a copy is accepted and leaves a negative
index. -/
theorem negative_size_accepted : ¬ ∀ (ops : List Op) (cb : CircBuffer),
    Trace Calls (initCircBuffer smallMalloc 4).1 ops cb → InBounds cb := by
  intro h
  have hrun : Trace Calls (initCircBuffer smallMalloc 4).1 [.getNoCopy (-1)]
      ⟨some [0, 0, 0, 0], 4, 1, -1, 0⟩ := .single ⟨by decide, _, rfl⟩
  exact absurd (h _ _ hrun).beginIndex.1 (by decide)

end Runs

end CircularBuffer

end Infra
