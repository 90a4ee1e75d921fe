import Mathlib.Data.List.Basic

/-!
# Ordered multimaps

An ordered multimap is the list of its entries, with any number of them for a key.
The first entry of a key is the one that is found and replaced; the others of the
key stand behind it and take its place when it is erased.
-/

namespace Infra

namespace Multimap

variable {κ υ : Type*} [DecidableEq κ] {m : List (κ × υ)} {k : κ} {v : υ} {f : υ → υ}

/-- The value of the first entry of a key. -/
def first (m : List (κ × υ)) (k : κ) : Option υ := (m.find? fun e => e.1 = k).map Prod.snd

/-- A change of the value of the first entry of a key. -/
def modifyFirst (k : κ) (f : υ → υ) : List (κ × υ) → List (κ × υ)
  | [] => []
  | e :: m => if e.1 = k then (e.1, f e.2) :: m else e :: modifyFirst k f m

/-- The first entry of the key gets the value; without one there is a new entry. -/
def put (m : List (κ × υ)) (k : κ) (v : υ) : List (κ × υ) :=
  if (first m k).isSome then modifyFirst k (fun _ => v) m else m ++ [(k, v)]

/-- The positions of the entries of a key when the first entry has the position `i`. -/
def positionsFrom (i : ℕ) (m : List (κ × υ)) (k : κ) : List ℕ :=
  ((m.zipIdx i).filter fun e => e.1.1 = k).map Prod.snd

/-- The positions of the entries of a key. -/
def positions (m : List (κ × υ)) (k : κ) : List ℕ := positionsFrom 0 m k

@[simp] theorem positionsFrom_nil {i : ℕ} : positionsFrom i ([] : List (κ × υ)) k = [] := rfl

theorem positionsFrom_cons_self {i : ℕ} {e : κ × υ} (h : e.1 = k) :
    positionsFrom i (e :: m) k = i :: positionsFrom (i + 1) m k := by
  simp [positionsFrom, List.zipIdx_cons, h]

theorem positionsFrom_cons_of_ne {i : ℕ} {e : κ × υ} (h : e.1 ≠ k) :
    positionsFrom i (e :: m) k = positionsFrom (i + 1) m k := by
  simp [positionsFrom, List.zipIdx_cons, h]

/-- The positions of a key are among all positions, in their order. -/
theorem positions_sublist : (positions m k).Sublist (List.range m.length) := by
  have h : (m.zipIdx.map Prod.snd) = List.range m.length := by
    rw [List.zipIdx_map_snd, List.range_eq_range']
  rw [← h]
  exact List.filter_sublist.map _

theorem mem_positions {i : ℕ} : i ∈ positions m k ↔ ∃ v, m[i]? = some (k, v) := by
  simp only [positions, positionsFrom, List.mem_map, List.mem_filter, Prod.exists,
    decide_eq_true_eq, List.mem_zipIdx_iff_getElem?]
  constructor
  · rintro ⟨k', v, i', ⟨h, rfl⟩, rfl⟩
    exact ⟨v, h⟩
  · rintro ⟨v, h⟩
    exact ⟨k, v, i, ⟨h, rfl⟩, rfl⟩

/-- A change of the first entry of a key, with the entries around it. -/
theorem modifyFirst_append {pre post : List (κ × υ)} (hpre : ∀ e ∈ pre, e.1 ≠ k) :
    modifyFirst k f (pre ++ (k, v) :: post) = pre ++ (k, f v) :: post := by
  induction pre with
  | nil => simp [modifyFirst]
  | cons e pre ih =>
      rw [List.forall_mem_cons] at hpre
      rw [List.cons_append, modifyFirst, if_neg hpre.1, ih hpre.2, List.cons_append]

end Multimap

end Infra
