import Mathlib.Data.List.Rotate

/-!
# Arrays read and written in a circle

An array of fixed length is read and written from any position on, going on at
its start when its end is reached. `splice` is a copy into a block of memory that
stays inside the block, and `overwrite` is a copy that may go around. What was
written can be read back, and behind what was already there it is appended to
it.
-/

namespace Infra

namespace CircularArray

variable {α : Type*}

/-- The block `dst` after `data` was copied to the position `d`. -/
def splice (dst : List α) (d : ℕ) (data : List α) : List α :=
  dst.take d ++ data ++ dst.drop (d + data.length)

/-- The `n` entries from position `b` on, around the end of the array. -/
def window (l : List α) (b n : ℕ) : List α := (l.rotate b).take n

/-- The array after `data` was copied to position `e` and the positions after
it, around its end. -/
def overwrite (l : List α) (e : ℕ) (data : List α) : List α :=
  if e + data.length ≤ l.length then splice l e data
  else splice (splice l e (data.take (l.length - e))) 0 (data.drop (l.length - e))

section Splice

variable {dst data : List α} {d : ℕ}

theorem splice_length (h : d + data.length ≤ dst.length) :
    (splice dst d data).length = dst.length := by
  simp only [splice, List.length_append, List.length_take, List.length_drop]
  omega

theorem splice_getElem? (h : d + data.length ≤ dst.length) (j : ℕ) :
    (splice dst d data)[j]? =
      if d ≤ j ∧ j < d + data.length then data[j - d]? else dst[j]? := by
  have hd : (dst.take d).length = d := by simp only [List.length_take]; omega
  rw [splice, List.append_assoc]
  by_cases h₁ : j < d
  · rw [List.getElem?_append_left (by omega), List.getElem?_take_of_lt h₁, if_neg (by omega)]
  · rw [List.getElem?_append_right (by omega), hd]
    by_cases h₂ : j < d + data.length
    · rw [List.getElem?_append_left (by omega), if_pos (by omega)]
    · rw [List.getElem?_append_right (by omega), List.getElem?_drop, if_neg (by omega)]
      exact congrArg _ (by omega)

@[simp] theorem splice_zero : splice dst 0 data = data ++ dst.drop data.length := by
  simp [splice]

/-- Two copies one behind the other are one copy. -/
theorem splice_splice {data' : List α} :
    splice (splice dst 0 data) data.length data' = splice dst 0 (data ++ data') := by
  simp [splice, List.drop_append, List.drop_drop]

end Splice

section Window

variable {l : List α} {b n k : ℕ}

theorem window_length (h : n ≤ l.length) : (window l b n).length = n := by
  simp [window, h]

theorem window_getElem? {i : ℕ} (hi : i < n) (hn : n ≤ l.length) :
    (window l b n)[i]? = l[(i + b) % l.length]? := by
  rw [window, List.getElem?_take_of_lt hi, List.getElem?_rotate (by omega)]

@[simp] theorem window_zero : window l b 0 = [] := by simp [window]

theorem window_take (h : k ≤ n) : (window l b n).take k = window l b k := by
  rw [window, List.take_take, Nat.min_eq_left h, window]

/-- A window that does not reach beyond the end. -/
theorem window_eq_of_le (h : b + n ≤ l.length) : window l b n = (l.drop b).take n := by
  rw [window, List.rotate_eq_drop_append_take (by omega),
    List.take_append_of_le_length (by simp only [List.length_drop]; omega)]

/-- A window that goes around the end once. -/
theorem window_eq_of_lt (hb : b ≤ l.length) (hn : n ≤ l.length) (h : l.length < b + n) :
    window l b n = l.drop b ++ l.take (n - (l.length - b)) := by
  rw [window, List.rotate_eq_drop_append_take hb, List.take_append, List.length_drop,
    List.take_of_length_le (by simp only [List.length_drop]; omega), List.take_take,
    Nat.min_eq_left (by omega)]

/-- Dropping the first entries of a window moves its start. -/
theorem window_drop (hk : k ≤ n) (hn : n ≤ l.length) :
    (window l b n).drop k = window l ((b + k) % l.length) (n - k) := by
  refine List.ext_getElem? fun i => ?_
  rw [List.getElem?_drop]
  by_cases hi : i < n - k
  · rw [window_getElem? (by omega) hn, window_getElem? hi (by omega), Nat.add_mod_mod]
    exact congrArg _ (congrArg (· % _) (by omega))
  · rw [List.getElem?_eq_none, List.getElem?_eq_none]
    · rw [window_length (by omega)]
      omega
    · rw [window_length hn]
      omega

end Window

section Overwrite

variable {l data : List α} {e : ℕ}

theorem overwrite_length (he : e ≤ l.length) (hd : data.length ≤ l.length) :
    (overwrite l e data).length = l.length := by
  rw [overwrite]
  split
  · next h => exact splice_length h
  · next h =>
    have hfirst : (splice l e (data.take (l.length - e))).length = l.length :=
      splice_length (by simp only [List.length_take]; omega)
    rw [splice_length (by simp only [List.length_drop]; omega), hfirst]

/-- What the entries of the array are, counted from the position of the copy
on. -/
theorem overwrite_getElem? {i : ℕ} (he : e < l.length) (hd : data.length ≤ l.length)
    (hi : i < l.length) :
    (overwrite l e data)[(e + i) % l.length]? =
      if i < data.length then data[i]? else l[(e + i) % l.length]? := by
  have hmod : (e + i) % l.length = if e + i < l.length then e + i else e + i - l.length := by
    split
    · next h => exact Nat.mod_eq_of_lt h
    · next h => rw [Nat.mod_eq_sub_mod (by omega), Nat.mod_eq_of_lt (by omega)]
  rw [hmod, overwrite]
  by_cases h : e + data.length ≤ l.length
  · rw [if_pos h, splice_getElem? h]
    by_cases hlt : e + i < l.length
    · simp only [hlt, if_true]
      by_cases hid : i < data.length
      · rw [if_pos (by omega), if_pos hid]
        exact congrArg _ (by omega)
      · rw [if_neg (by omega), if_neg hid]
    · simp only [hlt, if_false]
      rw [if_neg (by omega), if_neg (by omega)]
  · have hfirst : (data.take (l.length - e)).length = l.length - e := by
      simp only [List.length_take]
      omega
    have hsecond : (data.drop (l.length - e)).length = data.length - (l.length - e) := by
      simp only [List.length_drop]
    rw [if_neg h, splice_getElem? (by rw [splice_length (by omega)]; omega),
      splice_getElem? (by omega), hfirst, hsecond]
    by_cases hlt : e + i < l.length
    · simp only [hlt, if_true]
      rw [if_neg (by omega), if_pos (by omega), if_pos (by omega),
        List.getElem?_take_of_lt (by omega)]
      exact congrArg _ (by omega)
    · simp only [hlt, if_false]
      by_cases hid : i < data.length
      · rw [if_pos (by omega), if_pos hid, List.getElem?_drop]
        exact congrArg _ (by omega)
      · rw [if_neg (by omega), if_neg (by omega), if_neg hid]

/-- A copy right behind a window is appended to it, when there is room. -/
theorem window_overwrite {b n : ℕ} (hn : n + data.length ≤ l.length) (hl : 0 < l.length) :
    window (overwrite l ((b + n) % l.length) data) b (n + data.length) =
      window l b n ++ data := by
  have he : (b + n) % l.length < l.length := Nat.mod_lt _ hl
  have hlen : (overwrite l ((b + n) % l.length) data).length = l.length :=
    overwrite_length he.le (by omega)
  refine List.ext_getElem? fun i => ?_
  by_cases hi : i < n
  · -- an old entry: it comes after the copy when counted from there on
    rw [window_getElem? (by omega) (by omega), hlen,
      List.getElem?_append_left (by rw [window_length (by omega)]; exact hi),
      window_getElem? hi (by omega)]
    have hpos : (i + b) % l.length =
        ((b + n) % l.length + (i + l.length - n)) % l.length := by
      rw [Nat.mod_add_mod, show b + n + (i + l.length - n) = i + b + l.length by omega,
        Nat.add_mod_right]
    rw [hpos, overwrite_getElem? he (by omega) (by omega), if_neg (by omega)]
  · rw [List.getElem?_append_right (by rw [window_length (by omega)]; omega),
      window_length (by omega)]
    by_cases hin : i < n + data.length
    · rw [window_getElem? (by omega) (by omega), hlen]
      have hpos : (i + b) % l.length = ((b + n) % l.length + (i - n)) % l.length := by
        rw [Nat.mod_add_mod]
        exact congrArg (· % _) (by omega)
      rw [hpos, overwrite_getElem? he (by omega) (by omega), if_pos (by omega)]
    · rw [List.getElem?_eq_none, List.getElem?_eq_none (by omega)]
      rw [window_length (by omega)]
      omega

end Overwrite

end CircularArray

end Infra
