import Infra.CircularBuffer.Basic
import Infra.Foundation.BoundedQueue

/-!
# The circular buffer is a bounded queue

`byteQueue` answers the same calls from a bounded queue of bytes. It does not
take a call whose size is negative, whose size could overflow the index sums, or
whose buffer is too short, so a run it takes is one of a caller that keeps to
these rules.

`Holds cb q` says that the bytes of `q` are the window of the block that starts
at `begin`, and that `end` is the index behind it. A buffer that is full and one
that is empty have the same indices; the number of bytes tells them apart.
-/

namespace Infra

namespace CircularBuffer

open CInt CircularArray

/-- What a caller has to respect: sizes are not negative and cannot overflow an
`int` together with the capacity, and the buffer passed has the size passed. -/
def Op.Legal (capacity : ℕ) : Op → Prop
  | .put buf size | .get buf size | .peek buf size =>
      0 ≤ size ∧ capacity + size ≤ intMax ∧ size ≤ buf.length
  | .getNoCopy size => 0 ≤ size ∧ capacity + size ≤ intMax
  | .reset => True

instance (capacity : ℕ) (op : Op) : Decidable (op.Legal capacity) := by
  cases op <;> simp only [Op.Legal] <;> infer_instance

/-- What each call does to the queue and answers. -/
def queueStep {capacity : ℕ} (q : BoundedQueue UInt8 capacity) :
    Op → BoundedQueue UInt8 capacity × Answer
  | .put buf size =>
      if h : q.queued.length + (buf.take size.toNat).length ≤ capacity then
        (q.append (buf.take size.toNat) h, ⟨0, buf⟩)
      else (q, ⟨-1, buf⟩)
  | .get buf size =>
      if size.toNat ≤ q.queued.length then
        (q.remove size.toNat, ⟨0, q.queued.take size.toNat ++ buf.drop size.toNat⟩)
      else (q, ⟨-1, buf⟩)
  | .getNoCopy size =>
      if size.toNat ≤ q.queued.length then (q.remove size.toNat, ⟨0, []⟩) else (q, ⟨-1, []⟩)
  | .peek buf size =>
      if size.toNat ≤ q.queued.length then
        (q, ⟨0, q.queued.take size.toNat ++ buf.drop size.toNat⟩)
      else (q, ⟨-1, buf⟩)
  | .reset => (.empty, ⟨0, []⟩)

/-- The queue as a machine that answers legal calls. -/
def byteQueue (capacity : ℕ) : Machine (BoundedQueue UInt8 capacity) Op Answer where
  step q op := if op.Legal capacity then some (queueStep q op) else none

theorem byteQueue_isSome {capacity : ℕ} (q : BoundedQueue UInt8 capacity) {ops : List Op}
    (h : ∀ op ∈ ops, op.Legal capacity) : ((byteQueue capacity).run q ops).isSome :=
  Machine.run_isSome (fun q op hop => by simp [byteQueue, hop]) h

/-- The block `block` of `cb` holds the bytes of `q` from index `b` on. -/
structure Layout {capacity : ℕ} (cb : CircBuffer) (q : BoundedQueue UInt8 capacity)
    (block : List UInt8) (b : ℕ) : Prop where
  buffer : cb.buffer = some block
  length : block.length = capacity
  size : cb.size = capacity
  begin_eq : cb.beginIndex = b
  begin_lt : b < capacity
  end_eq : cb.endIndex = ((b + q.queued.length) % capacity : ℕ)
  dataSize : cb.dataSize = q.queued.length
  window : window block b q.queued.length = q.queued

/-- The circular buffer `cb` holds the bytes of `q`. -/
def Holds {capacity : ℕ} (cb : CircBuffer) (q : BoundedQueue UInt8 capacity) : Prop :=
  ∃ block b, Layout cb q block b

section Copies

variable {capacity : ℕ} {cb : CircBuffer} {q : BoundedQueue UInt8 capacity}
  {block buf : List UInt8} {b n : ℕ}

theorem memcpy_natCast {dst src : List UInt8} {d s : ℕ} (hd : d + n ≤ dst.length)
    (hs : s + n ≤ src.length) :
    memcpy dst d src s n = some (splice dst d ((src.drop s).take n)) := by
  rw [memcpy, if_pos (by omega)]
  simp only [Int.toNat_natCast]

/-- The indices and sizes of a call stay in range. -/
theorem wrap_sum {i j : ℕ} (hn : (capacity : ℤ) + n ≤ intMax) (hi : i ≤ capacity) (hj : j ≤ n) :
    wrap ((i : ℤ) + j) = ((i + j : ℕ) : ℤ) := by
  rw [← Nat.cast_add, wrap_natCast (by omega)]

theorem wrap_diff {i j : ℕ} (hij : j ≤ i) (hi : (i : ℤ) ≤ intMax) :
    wrap ((i : ℤ) - j) = ((i - j : ℕ) : ℤ) := by
  rw [← Nat.cast_sub hij, wrap_natCast (by omega)]

namespace Layout

theorem queued_le (l : Layout cb q block b) : q.queued.length ≤ block.length := by
  rw [l.length]
  exact q.bounded

/-- The copy of `put_circ_buffer` goes around the end of the block. -/
theorem copyIn_eq (l : Layout cb q block b) (hn : (capacity : ℤ) + n ≤ intMax)
    (hcap : n ≤ capacity) (hbuf : n ≤ buf.length) :
    copyIn cb buf n =
      some (overwrite block ((b + q.queued.length) % capacity) (buf.take n)) := by
  have hlen : (buf.take n).length = n := by simpa using hbuf
  have hlt : (b + q.queued.length) % capacity < capacity :=
    Nat.mod_lt _ (Nat.zero_lt_of_lt l.begin_lt)
  generalize he : (b + q.queued.length) % capacity = e at hlt
  simp only [copyIn, l.buffer, l.size, l.end_eq, he, Option.bind_eq_bind, Option.bind_some,
    wrap_sum hn hlt.le le_rfl, gt_iff_lt, Nat.cast_lt]
  by_cases h : capacity < e + n
  · have hdiff : wrap ((n : ℤ) - ((capacity - e : ℕ) : ℤ)) = ((n - (capacity - e) : ℕ) : ℤ) :=
      wrap_diff (by omega) (by omega)
    have hfirst : (buf.take (capacity - e)).length = capacity - e := by
      simp only [List.length_take]
      omega
    rw [if_pos h, wrap_diff hlt.le (by omega), hdiff]
    rw [show (0 : ℤ) = ((0 : ℕ) : ℤ) from rfl, memcpy_natCast (by rw [l.length]; omega) (by omega),
      Option.bind_some, List.drop_zero]
    rw [memcpy_natCast (by rw [splice_length (by rw [l.length]; omega), l.length]; omega)
      (by omega), overwrite, if_neg (by rw [hlen, l.length]; omega), l.length,
      List.take_take, Nat.min_eq_left (by omega), List.drop_take]
  · rw [if_neg h, show (0 : ℤ) = ((0 : ℕ) : ℤ) from rfl,
      memcpy_natCast (by rw [l.length]; omega) (by omega), List.drop_zero, overwrite,
      if_pos (by rw [hlen, l.length]; omega)]

/-- The copies of `get_circ_buffer` and `peek_circ_buffer` deliver the first
bytes. -/
theorem copyOut_eq (l : Layout cb q block b) (hn : (capacity : ℤ) + n ≤ intMax)
    (hq : n ≤ q.queued.length) (hbuf : n ≤ buf.length) :
    copyOut cb buf n = some (q.queued.take n ++ buf.drop n) := by
  have hcap : n ≤ capacity := hq.trans q.bounded
  have hb := l.begin_lt
  have hlen := l.length
  rw [← l.window, window_take hq]
  simp only [copyOut, l.buffer, l.size, l.begin_eq, Option.bind_eq_bind, Option.bind_some,
    wrap_sum hn hb.le le_rfl, Nat.cast_le]
  by_cases h : b + n ≤ capacity
  · have hdata : ((block.drop b).take n).length = n := by
      simp only [List.length_take, List.length_drop]
      omega
    rw [if_pos h, show (0 : ℤ) = ((0 : ℕ) : ℤ) from rfl, memcpy_natCast (by omega) (by omega),
      splice_zero, window_eq_of_le (by omega), hdata]
  · have hdiff : wrap ((n : ℤ) - ((capacity - b : ℕ) : ℤ)) = ((n - (capacity - b) : ℕ) : ℤ) :=
      wrap_diff (by omega) (by omega)
    have hfirst : (block.drop b).take (capacity - b) = block.drop b :=
      List.take_of_length_le (by simp only [List.length_drop]; omega)
    have hlb : (block.drop b).length = capacity - b := by
      simp only [List.length_drop]
      omega
    have hdata : (block.drop b ++ block.take (n - (capacity - b))).length = n := by
      simp only [List.length_append, List.length_drop, List.length_take]
      omega
    rw [if_neg h, wrap_diff hb.le (by omega), hdiff, show (0 : ℤ) = ((0 : ℕ) : ℤ) from rfl,
      memcpy_natCast (by omega) (by omega), Option.bind_some, hfirst,
      memcpy_natCast (by rw [splice_length (by omega)]; omega) (by omega), List.drop_zero,
      ← hlb, splice_splice, splice_zero, hlb, hdata,
      window_eq_of_lt (by omega) (by omega) (by omega), hlen]

end Layout

end Copies

section Steps

variable {capacity : ℕ} {cb : CircBuffer} {q : BoundedQueue UInt8 capacity}
  {block buf : List UInt8} {b n : ℕ}

/-- `put_circ_buffer` of bytes for which there is room. -/
theorem Layout.put (l : Layout cb q block b) (hn : (capacity : ℤ) + n ≤ intMax)
    (hbuf : n ≤ buf.length) (h : q.queued.length + (buf.take n).length ≤ capacity) :
    ∃ cb', putCircBuffer cb buf n = some (cb', 0) ∧ Holds cb' (q.append (buf.take n) h) := by
  have hlen : (buf.take n).length = n := by simpa using hbuf
  have hpos : 0 < capacity := Nat.zero_lt_of_lt l.begin_lt
  have hmod := Nat.mod_lt (b + q.queued.length) hpos
  refine ⟨{ cb with
    buffer := some (overwrite block ((b + q.queued.length) % capacity) (buf.take n))
    endIndex := (((b + q.queued.length) % capacity + n) % capacity : ℕ)
    dataSize := (q.queued.length + n : ℕ) }, ?_,
    overwrite block ((b + q.queued.length) % capacity) (buf.take n), b, ?_⟩
  · simp only [putCircBuffer, l.copyIn_eq hn (by omega) hbuf, l.size, l.end_eq, l.dataSize,
      wrap_sum hn q.bounded le_rfl, wrap_sum hn hmod.le le_rfl, rem_natCast hpos, gt_iff_lt,
      Nat.cast_lt, Option.bind_eq_bind, Option.bind_some]
    rw [if_neg (by omega)]
  · constructor
    · rfl
    · rw [overwrite_length (by rw [l.length]; exact hmod.le) (by rw [l.length]; omega), l.length]
    · exact l.size
    · exact l.begin_eq
    · exact l.begin_lt
    · simp [hlen, Nat.add_assoc]
    · simp [hlen]
    · have hroom : q.queued.length + (buf.take n).length ≤ block.length := by
        rw [l.length]
        exact h
      have := window_overwrite (b := b) hroom (by rw [l.length]; exact hpos)
      rw [l.length, l.window] at this
      simpa [hlen] using this

/-- The indices after a removal of bytes that are there. -/
theorem Layout.remove (l : Layout cb q block b) (hn : (capacity : ℤ) + n ≤ intMax)
    (h : n ≤ q.queued.length) :
    ∃ i, rem (wrap (cb.beginIndex + n)) cb.size = some i ∧
      Layout { cb with beginIndex := i, dataSize := wrap (cb.dataSize - n) } (q.remove n) block
        ((b + n) % capacity) := by
  have hpos : 0 < capacity := Nat.zero_lt_of_lt l.begin_lt
  have hq := q.bounded
  refine ⟨((b + n) % capacity : ℕ), ?_, ?_⟩
  · rw [l.begin_eq, l.size, wrap_sum hn l.begin_lt.le le_rfl, rem_natCast hpos]
  · constructor
    · exact l.buffer
    · exact l.length
    · exact l.size
    · rfl
    · exact Nat.mod_lt _ hpos
    · simp only [l.end_eq, BoundedQueue.queued_remove, List.length_drop, Nat.mod_add_mod]
      rw [show b + n + (q.queued.length - n) = b + q.queued.length by omega]
    · simp only [l.dataSize, BoundedQueue.queued_remove, List.length_drop]
      exact wrap_diff h (by omega)
    · simp only [BoundedQueue.queued_remove, List.length_drop]
      have := window_drop (b := b) h l.queued_le
      rw [l.length, l.window] at this
      exact this.symm

/-- The guard of the functions that read. -/
theorem Layout.guard (l : Layout cb q block b) (hn : (capacity : ℤ) + n ≤ intMax) :
    wrap (cb.dataSize - n) < 0 ↔ q.queued.length < n := by
  have := q.bounded
  rw [l.dataSize, wrap_eq_self (by simp only [intMin, intMax] at *; omega) (by omega)]
  omega

/-- The circular buffer simulates the bounded queue. -/
theorem circBuffer_simulates (capacity : ℕ) :
    Machine.Simulates circBuffer (byteQueue capacity) fun _ => Holds where
  step := by
    rintro - cb q op q' o ⟨block, b, l⟩ hstep
    simp only [byteQueue, Option.ite_none_right_eq_some, Option.some.injEq] at hstep
    obtain ⟨hlegal, hstep⟩ := hstep
    cases op with
    | put buf size =>
        obtain ⟨hsize, hn, hbuf⟩ := hlegal
        lift size to ℕ using hsize
        have hbuf : size ≤ buf.length := by simpa using hbuf
        have hlen : (buf.take size).length = size := by simpa using hbuf
        simp only [queueStep, Int.toNat_natCast] at hstep
        split at hstep
        · next h =>
          obtain ⟨rfl, rfl⟩ := Prod.mk.inj hstep
          obtain ⟨cb', e, hcb'⟩ := l.put hn hbuf h
          exact ⟨cb', by simp [circBuffer, e], hcb'⟩
        · next h =>
          obtain ⟨rfl, rfl⟩ := Prod.mk.inj hstep
          refine ⟨cb, ?_, block, b, l⟩
          have hfull : wrap (cb.dataSize + size) > cb.size := by
            rw [l.dataSize, l.size, wrap_sum hn q.bounded le_rfl]
            omega
          simp [circBuffer, putCircBuffer, hfull]
    | get buf size =>
        obtain ⟨hsize, hn, hbuf⟩ := hlegal
        lift size to ℕ using hsize
        have hbuf : size ≤ buf.length := by simpa using hbuf
        simp only [queueStep, Int.toNat_natCast] at hstep
        split at hstep
        · next h =>
          obtain ⟨rfl, rfl⟩ := Prod.mk.inj hstep
          obtain ⟨i, hi, l'⟩ := l.remove hn h
          have hguard : ¬ wrap (cb.dataSize - size) < 0 := by
            rw [l.guard hn]
            omega
          exact ⟨_, by simp [circBuffer, getCircBuffer, hguard, l.copyOut_eq hn h hbuf, hi],
            block, _, l'⟩
        · next h =>
          obtain ⟨rfl, rfl⟩ := Prod.mk.inj hstep
          have hguard : wrap (cb.dataSize - size) < 0 := (l.guard hn).mpr (by omega)
          exact ⟨cb, by simp [circBuffer, getCircBuffer, hguard], block, b, l⟩
    | getNoCopy size =>
        obtain ⟨hsize, hn⟩ := hlegal
        lift size to ℕ using hsize
        simp only [queueStep, Int.toNat_natCast] at hstep
        split at hstep
        · next h =>
          obtain ⟨rfl, rfl⟩ := Prod.mk.inj hstep
          obtain ⟨i, hi, l'⟩ := l.remove hn h
          have hguard : ¬ wrap (cb.dataSize - size) < 0 := by
            rw [l.guard hn]
            omega
          exact ⟨_, by simp [circBuffer, getCircBufferNoCopy, hguard, hi], block, _, l'⟩
        · next h =>
          obtain ⟨rfl, rfl⟩ := Prod.mk.inj hstep
          have hguard : wrap (cb.dataSize - size) < 0 := (l.guard hn).mpr (by omega)
          exact ⟨cb, by simp [circBuffer, getCircBufferNoCopy, hguard], block, b, l⟩
    | peek buf size =>
        obtain ⟨hsize, hn, hbuf⟩ := hlegal
        lift size to ℕ using hsize
        have hbuf : size ≤ buf.length := by simpa using hbuf
        simp only [queueStep, Int.toNat_natCast] at hstep
        split at hstep
        · next h =>
          obtain ⟨rfl, rfl⟩ := Prod.mk.inj hstep
          have hguard : ¬ wrap (cb.dataSize - size) < 0 := by
            rw [l.guard hn]
            omega
          exact ⟨cb, by simp [circBuffer, peekCircBuffer, hguard, l.copyOut_eq hn h hbuf],
            block, b, l⟩
        · next h =>
          obtain ⟨rfl, rfl⟩ := Prod.mk.inj hstep
          have hguard : wrap (cb.dataSize - size) < 0 := (l.guard hn).mpr (by omega)
          exact ⟨cb, by simp [circBuffer, peekCircBuffer, hguard], block, b, l⟩
    | reset =>
        obtain ⟨rfl, rfl⟩ := Prod.mk.inj hstep
        exact ⟨resetCircBuffer cb, rfl, block, 0, l.buffer, l.length, l.size, rfl,
          Nat.zero_lt_of_lt l.begin_lt, by simp [resetCircBuffer], rfl, by simp⟩

end Steps

section Runs

variable {capacity : ℕ} {malloc : ℕ → Option (List UInt8)} {cb cb₀ : CircBuffer}

/-- A call that returns `-1` changes nothing in the circular buffer. -/
theorem refused_unchanged {op : Op} {cb' : CircBuffer} {buf : List UInt8}
    (h : circBuffer.step cb op = some (cb', ⟨-1, buf⟩)) : cb' = cb := by
  cases op with
  | put buf size =>
      simp only [circBuffer, putCircBuffer] at h
      split at h <;> simp_all [Option.bind_eq_some_iff]
  | get buf size =>
      simp only [circBuffer, getCircBuffer] at h
      split at h <;> simp_all [Option.bind_eq_some_iff]
  | getNoCopy size =>
      simp only [circBuffer, getCircBufferNoCopy] at h
      split at h <;> simp_all [Option.bind_eq_some_iff]
  | peek buf size =>
      simp only [circBuffer, Option.map_eq_some_iff, Prod.mk.injEq] at h
      obtain ⟨-, -, rfl, -⟩ := h
      rfl
  | reset => simp [circBuffer] at h

/-- `init_circ_buffer` builds an empty queue. -/
theorem initCircBuffer_holds (hpos : 0 < capacity) (hmax : (capacity : ℤ) ≤ intMax)
    (hmalloc : ∀ n block, malloc n = some block → block.length = n)
    (h : initCircBuffer malloc capacity = (cb₀, 0)) :
    Holds cb₀ (.empty : BoundedQueue UInt8 capacity) := by
  have hsize : ((capacity : ℤ) % 2 ^ 64).toNat = capacity := by
    simp only [intMax] at hmax
    omega
  rw [initCircBuffer, hsize] at h
  cases hb : malloc capacity with
  | none => simp [hb] at h
  | some block =>
      rw [hb] at h
      obtain ⟨rfl, -⟩ := Prod.mk.inj h
      exact ⟨block, 0, rfl, hmalloc _ _ hb, rfl, rfl, hpos, by simp, rfl, by simp⟩

/-- The circular buffer refines a bounded queue of bytes over whole runs: every
run of legal calls has a result, its answers are those of the queue, the indices
stay inside the block and the bytes behind each other make up the queue. What was
taken followed by what is queued is what was put, and a call that is refused
changes nothing. -/
theorem circ_buffer_refines_byte_queue (hpos : 0 < capacity) (hmax : (capacity : ℤ) ≤ intMax)
    (hmalloc : ∀ n block, malloc n = some block → block.length = n)
    (h₀ : initCircBuffer malloc capacity = (cb₀, 0)) {ops : List Op}
    (hops : ∀ op ∈ ops, op.Legal capacity) :
    ∃ cb q answers, circBuffer.run cb₀ ops = some (cb, answers) ∧
      (byteQueue capacity).run .empty ops = some (q, answers) ∧ Holds cb q ∧
      q.taken ++ q.queued = q.put ∧
      (0 ≤ cb.beginIndex ∧ cb.beginIndex < capacity) ∧
      (0 ≤ cb.endIndex ∧ cb.endIndex < capacity) ∧
      cb.endIndex = (cb.beginIndex + cb.dataSize) % capacity ∧
      ∀ op cb' buf, circBuffer.step cb op = some (cb', ⟨-1, buf⟩) → cb' = cb := by
  obtain ⟨⟨q, answers⟩, hq⟩ := Option.isSome_iff_exists.mp (byteQueue_isSome .empty hops)
  obtain ⟨cb, hcb, hh⟩ := (circBuffer_simulates capacity).run
    (initCircBuffer_holds hpos hmax hmalloc h₀) hq
  refine ⟨cb, q, answers, hcb, hq, hh, q.split, ?_, ?_, ?_, fun _ _ _ => refused_unchanged⟩
  all_goals obtain ⟨block, b, l⟩ := hh
  · rw [l.begin_eq]
    have := l.begin_lt
    omega
  · rw [l.end_eq]
    have := Nat.mod_lt (b + q.queued.length) hpos
    omega
  · rw [l.end_eq, l.begin_eq, l.dataSize]
    push_cast
    rfl

/-- A run that goes around the end of a buffer of three bytes, with a call that
is refused. -/
def wrappingCalls : List Op :=
  [.put [1, 2, 3] 2, .getNoCopy 1, .put [4, 5] 2, .put [6] 1, .peek [0, 0, 0, 0] 2,
    .get [0, 0, 0, 0] 3]

theorem circ_buffer_refines_byte_queue_three :
    let malloc : ℕ → Option (List UInt8) := fun n => some (List.replicate n 0)
    (circBuffer.run (initCircBuffer malloc 3).1 wrappingCalls).map Prod.snd =
        some [⟨0, [1, 2, 3]⟩, ⟨0, []⟩, ⟨0, [4, 5]⟩, ⟨-1, [6]⟩, ⟨0, [2, 4, 0, 0]⟩,
          ⟨0, [2, 4, 5, 0]⟩] ∧
      ∃ cb q answers,
        circBuffer.run (initCircBuffer malloc 3).1 wrappingCalls = some (cb, answers) ∧
        (byteQueue 3).run .empty wrappingCalls = some (q, answers) ∧ Holds cb q ∧
        q.taken ++ q.queued = q.put ∧
        (0 ≤ cb.beginIndex ∧ cb.beginIndex < (3 : ℕ)) ∧
        (0 ≤ cb.endIndex ∧ cb.endIndex < (3 : ℕ)) ∧
        cb.endIndex = (cb.beginIndex + cb.dataSize) % (3 : ℕ) ∧
        ∀ op cb' buf, circBuffer.step cb op = some (cb', ⟨-1, buf⟩) → cb' = cb :=
  ⟨by decide, circ_buffer_refines_byte_queue (by decide) (by decide)
    (fun _ _ h => Option.some.inj h ▸ List.length_replicate) rfl (by decide)⟩

end Runs

end CircularBuffer

end Infra
