import Mathlib.Data.List.Basic
import Mathlib.Order.Lattice

/-!
# Lists in the order of their keys

A list whose keys ascend has at most one element of each key, and a new key has one
place in it. A search that compares the key with that of any element only has to go
on to one side of it.
-/

namespace Infra

namespace KeyedList

variable {α κ : Type*} [LinearOrder κ] {key : α → κ} {k : κ} {a b : α} {xs ys : List α}

/-- The keys ascend. -/
def Ascending (key : α → κ) (xs : List α) : Prop := xs.Pairwise fun a b => key a < key b

/-- The element with a key. -/
def lookup (key : α → κ) (k : κ) (xs : List α) : Option α := xs.find? fun a => key a = k

/-- The list with a new element at the place of its key. -/
def put (key : α → κ) (a : α) (xs : List α) : List α :=
  xs.filter (fun b => key b < key a) ++ a :: xs.filter fun b => key a < key b

@[simp] theorem ascending_nil : Ascending key ([] : List α) := List.Pairwise.nil

theorem ascending_append_cons : Ascending key (xs ++ a :: ys) ↔
    Ascending key xs ∧ Ascending key ys ∧ (∀ b ∈ xs, key b < key a) ∧
      (∀ b ∈ ys, key a < key b) ∧ ∀ b ∈ xs, ∀ c ∈ ys, key b < key c := by
  simp only [Ascending, List.pairwise_append, List.pairwise_cons, List.mem_cons]
  grind

theorem Ascending.nodup (h : Ascending key xs) : xs.Nodup := by
  refine List.Pairwise.imp ?_ h
  rintro a b hab rfl
  exact lt_irrefl _ hab

/-- The keys of a sublist ascend. -/
theorem Ascending.sublist (h : Ascending key xs) (hs : ys.Sublist xs) : Ascending key ys :=
  List.Pairwise.sublist hs h

/-- The order only depends on the keys of the elements. -/
theorem Ascending.congr {key' : α → κ} (h : Ascending key xs) (e : ∀ a ∈ xs, key' a = key a) :
    Ascending key' xs :=
  List.Pairwise.imp_of_mem (fun ha hb hab => by rwa [e _ ha, e _ hb]) h

theorem lookup_eq_none : lookup key k xs = none ↔ ∀ a ∈ xs, key a ≠ k := by
  simp [lookup]

theorem lookup_of_forall_lt (h : ∀ b ∈ xs, key b < k) : lookup key k xs = none :=
  lookup_eq_none.mpr fun b hb => (h b hb).ne

theorem lookup_of_forall_gt (h : ∀ b ∈ xs, k < key b) : lookup key k xs = none :=
  lookup_eq_none.mpr fun b hb => (h b hb).ne'

/-- A smaller key stands to the left of an element. -/
theorem Ascending.lookup_of_lt (h : Ascending key (xs ++ a :: ys)) (hk : k < key a) :
    lookup key k (xs ++ a :: ys) = lookup key k xs := by
  obtain ⟨-, -, -, hys, -⟩ := ascending_append_cons.mp h
  have hright : lookup key k (a :: ys) = none := by
    refine lookup_of_forall_gt fun b hb => ?_
    rcases List.mem_cons.mp hb with rfl | hb
    exacts [hk, hk.trans (hys b hb)]
  rw [lookup, List.find?_append, ← lookup, ← lookup, hright, Option.or_none]

/-- A larger key stands to the right of an element. -/
theorem Ascending.lookup_of_gt (h : Ascending key (xs ++ a :: ys)) (hk : key a < k) :
    lookup key k (xs ++ a :: ys) = lookup key k ys := by
  obtain ⟨-, -, hxs, -, -⟩ := ascending_append_cons.mp h
  have hleft : lookup key k xs = none := lookup_of_forall_lt fun b hb => (hxs b hb).trans hk
  rw [lookup, List.find?_append, ← lookup, hleft, Option.none_or, List.find?_cons_of_neg, lookup]
  simpa using hk.ne

theorem Ascending.lookup_eq_some (h : Ascending key xs) :
    lookup key k xs = some a ↔ a ∈ xs ∧ key a = k := by
  constructor
  · intro e
    exact ⟨List.mem_of_find?_eq_some e, by simpa using List.find?_some e⟩
  · rintro ⟨ha, rfl⟩
    obtain ⟨ys, zs, rfl⟩ := List.append_of_mem ha
    obtain ⟨-, -, hys, -, -⟩ := ascending_append_cons.mp h
    rw [lookup, List.find?_append, ← lookup, lookup_of_forall_lt hys]
    simp

/-- The place of a new key. -/
theorem put_eq (hxs : ∀ b ∈ xs, key b < key a) (hys : ∀ b ∈ ys, key a < key b) :
    put key a (xs ++ ys) = xs ++ a :: ys := by
  have hx : xs.filter (fun b => key a < key b) = [] := by
    simpa using fun b hb => (hxs b hb).le
  have hy : ys.filter (fun b => key b < key a) = [] := by
    simpa using fun b hb => (hys b hb).le
  rw [put, List.filter_append, List.filter_append, hx, hy, List.append_nil, List.nil_append,
    List.filter_eq_self.mpr (by simpa using hxs), List.filter_eq_self.mpr (by simpa using hys)]

theorem mem_put (h : lookup key (key a) xs = none) : b ∈ put key a xs ↔ b = a ∨ b ∈ xs := by
  have hne := lookup_eq_none.mp h
  simp only [put, List.mem_append, List.mem_cons, List.mem_filter, decide_eq_true_eq]
  grind [lt_or_gt_of_ne]

theorem length_put_le : (put key a xs).length ≤ xs.length + 1 := by
  have : ∀ zs : List α, (zs.filter fun b => key b < key a).length +
      (zs.filter fun b => key a < key b).length ≤ zs.length := by
    intro zs
    induction zs with
    | nil => simp
    | cons b zs ih =>
        rcases lt_trichotomy (key b) (key a) with hb | hb | hb
        · simp [hb, hb.not_gt]
          omega
        · simp [hb]
          omega
        · simp [hb, hb.not_gt]
          omega
  have := this xs
  simp only [put, List.length_append, List.length_cons]
  omega

/-- The keys still ascend after a new element has come. -/
theorem Ascending.put (h : Ascending key xs) : Ascending key (put key a xs) := by
  refine ascending_append_cons.mpr ⟨h.sublist List.filter_sublist, h.sublist List.filter_sublist,
    fun b hb => ?_, fun b hb => ?_, fun b hb c hc => ?_⟩
  · simpa using (List.mem_filter.mp hb).2
  · simpa using (List.mem_filter.mp hb).2
  · exact lt_trans (by simpa using (List.mem_filter.mp hb).2)
      (by simpa using (List.mem_filter.mp hc).2)

end KeyedList

end Infra
