import Mathlib.Data.List.Basic

/-!
# Families of sequences

A finite family of sequences without common elements, as a list of lists. Each
operation finds the sequence that an element is in, changes it, and keeps the
others. An element at the beginning of a sequence may be its head: the sequence is
then known by this element.
-/

namespace Infra

namespace Sequences

variable {α : Type} [DecidableEq α] {a b p : α} {r xs ys as bs : List α} {R R' : List (List α)}

/-- `ys` behind the element `p`. -/
def insertAfter (p : α) (ys : List α) : List α → List α
  | [] => []
  | x :: xs => if x = p then x :: (ys ++ xs) else x :: insertAfter p ys xs

/-- `ys` in front of the element `p`. -/
def insertFront (p : α) (ys : List α) : List α → List α
  | [] => []
  | x :: xs => if x = p then ys ++ x :: xs else x :: insertFront p ys xs

/-- `ys` before the element `p` of a circle. Before the first element is at the end. -/
def insertBefore (p : α) (ys r : List α) : List α :=
  if r.head? = some p then r ++ ys else insertFront p ys r

/-- The sequence that `a` is in, and the others. -/
def owner (a : α) (R : List (List α)) : Option (List α × List (List α)) :=
  (R.find? fun r => decide (a ∈ r)).map fun r => (r, R.erase r)

/-- What comes after the head `a`, and the other sequences. -/
def headed (a : α) (R : List (List α)) : Option (List α × List (List α)) := do
  let (r, R) ← owner a R
  if r.head? = some a then some (r.tail, R) else none

/-- The family without the sequence of the head `a`, if there is one. -/
def forget (a : α) (R : List (List α)) : Option (List (List α)) :=
  if a ∈ R.flatten then (headed a R).map Prod.snd else some R

/-- The family without a sequence of `a` alone, if there is one. -/
def release (a : α) (R : List (List α)) : Option (List (List α)) :=
  if a ∈ R.flatten then do
    let (xs, R) ← headed a R
    if xs = [] then some R else none
  else some R

/-- The family without the element `a`, which must not be the head of others. -/
def remove (a : α) (R : List (List α)) : Option (List (List α)) := do
  let (r, R) ← owner a R
  if r = [a] then some R
  else if r.head? = some a then none
  else some (r.erase a :: R)

section Sequence

theorem insertAfter_append (hp : p ∉ as) :
    insertAfter p ys (as ++ p :: bs) = as ++ p :: (ys ++ bs) := by
  induction as with
  | nil => simp [insertAfter]
  | cons x as ih =>
      simp only [List.mem_cons, not_or] at hp
      simp [insertAfter, Ne.symm hp.1, ih hp.2]

theorem insertFront_append (hp : p ∉ as) :
    insertFront p ys (as ++ p :: bs) = as ++ (ys ++ p :: bs) := by
  induction as with
  | nil => simp [insertFront]
  | cons x as ih =>
      simp only [List.mem_cons, not_or] at hp
      simp [insertFront, Ne.symm hp.1, ih hp.2]

/-- Before the first element. -/
theorem insertBefore_cons : insertBefore p ys (p :: bs) = p :: bs ++ ys := if_pos rfl

/-- Before another element. -/
theorem insertBefore_append (hp : p ∉ as) (has : as ≠ []) :
    insertBefore p ys (as ++ p :: bs) = as ++ (ys ++ p :: bs) := by
  rw [insertBefore, if_neg, insertFront_append hp]
  cases as with
  | nil => exact absurd rfl has
  | cons x as =>
      rintro e
      simp only [List.cons_append, List.head?_cons, Option.some.injEq] at e
      exact hp (by simp [e])

theorem perm_insertAfter (hp : p ∈ r) : (insertAfter p ys r).Perm (ys ++ r) := by
  obtain ⟨as, bs, rfl, has⟩ := List.eq_append_cons_of_mem hp
  rw [insertAfter_append has]
  grind

theorem perm_insertBefore (hp : p ∈ r) : (insertBefore p ys r).Perm (ys ++ r) := by
  obtain ⟨as, bs, rfl, has⟩ := List.eq_append_cons_of_mem hp
  by_cases hnil : as = []
  · subst hnil
    rw [List.nil_append, insertBefore_cons]
    exact List.perm_append_comm
  · rw [insertBefore_append has hnil]
    grind

end Sequence

section Family

theorem owner_eq_some (h : owner a R = some (r, R')) : R.Perm (r :: R') ∧ a ∈ r := by
  obtain ⟨s, hs, e⟩ := Option.map_eq_some_iff.mp h
  obtain ⟨rfl, rfl⟩ := Prod.mk.inj e
  exact ⟨List.perm_cons_erase (List.mem_of_find?_eq_some hs), by simpa using List.find?_some hs⟩

theorem mem_flatten_owner (h : owner a R = some (r, R')) :
    b ∈ R.flatten ↔ b ∈ r ∨ b ∈ R'.flatten := by
  rw [(owner_eq_some h).1.flatten.mem_iff, List.flatten_cons, List.mem_append]

theorem headed_eq_some (h : headed a R = some (xs, R')) : R.Perm ((a :: xs) :: R') := by
  simp only [headed, Option.bind_eq_bind, Option.bind_eq_some_iff, Prod.exists,
    Option.ite_none_right_eq_some, Option.some.injEq, Prod.mk.injEq] at h
  obtain ⟨r, S, hS, hhead, rfl, rfl⟩ := h
  rw [List.cons_head?_tail hhead]
  exact (owner_eq_some hS).1

/-- A forgotten head is in no sequence, and the others are as before. -/
theorem forget_eq_some (h : forget a R = some R') :
    R' = R ∧ a ∉ R.flatten ∨ ∃ xs, R.Perm ((a :: xs) :: R') := by
  rw [forget] at h
  split at h
  · obtain ⟨⟨xs, S⟩, hS, rfl⟩ := Option.map_eq_some_iff.mp h
    exact Or.inr ⟨xs, headed_eq_some hS⟩
  · next hmem => exact Or.inl ⟨(Option.some.inj h).symm, hmem⟩

theorem mem_flatten_forget (h : forget a R = some R') (hb : b ∈ R'.flatten) : b ∈ R.flatten := by
  rcases forget_eq_some h with ⟨rfl, -⟩ | ⟨xs, hp⟩
  · exact hb
  · rw [hp.flatten.mem_iff, List.flatten_cons]
    exact List.mem_append_right _ hb

theorem release_eq_some (h : release a R = some R') : forget a R = some R' := by
  rw [release] at h
  rw [forget]
  split at h
  · next hmem =>
    simp only [Option.bind_eq_bind, Option.bind_eq_some_iff, Prod.exists,
      Option.ite_none_right_eq_some] at h
    obtain ⟨xs, S, hS, -, hR⟩ := h
    rw [if_pos hmem, hS, Option.map_some, hR]
  · next hmem => rw [if_neg hmem, h]

/-- The two ways to lose an element: with its sequence, or from behind the head. -/
theorem remove_eq_some (h : remove a R = some R') :
    R.Perm ([a] :: R') ∨
      ∃ k as bs S, R.Perm ((k :: (as ++ a :: bs)) :: S) ∧ R' = (k :: (as ++ bs)) :: S := by
  simp only [remove, Option.bind_eq_bind, Option.bind_eq_some_iff, Prod.exists] at h
  obtain ⟨r, S, hS, h⟩ := h
  obtain ⟨hperm, hmem⟩ := owner_eq_some hS
  split at h
  · next hr =>
    obtain rfl := Option.some.inj h
    exact Or.inl (hr ▸ hperm)
  · split at h
    · simp at h
    · next hhead =>
      obtain rfl := Option.some.inj h
      obtain ⟨as, bs, rfl, has⟩ := List.eq_append_cons_of_mem hmem
      cases as with
      | nil => exact absurd rfl hhead
      | cons k as =>
          refine Or.inr ⟨k, as, bs, S, hperm, ?_⟩
          rw [List.erase_append_right _ has, List.erase_cons_head]
          rfl

/-! ## The number of elements -/

theorem length_owner (h : owner a R = some (r, R')) :
    R.flatten.length = r.length + R'.flatten.length := by
  rw [(owner_eq_some h).1.flatten.length_eq, List.flatten_cons, List.length_append]

theorem length_headed (h : headed a R = some (xs, R')) :
    R.flatten.length = xs.length + 1 + R'.flatten.length := by
  rw [(headed_eq_some h).flatten.length_eq, List.flatten_cons, List.length_append,
    List.length_cons]

theorem length_forget_le (h : forget a R = some R') : R'.flatten.length ≤ R.flatten.length := by
  rcases forget_eq_some h with ⟨rfl, -⟩ | ⟨xs, hp⟩
  · exact Nat.le_refl _
  · rw [hp.flatten.length_eq, List.flatten_cons, List.length_append]
    exact Nat.le_add_left ..

theorem length_remove (h : remove a R = some R') :
    R.flatten.length = R'.flatten.length + 1 := by
  rcases remove_eq_some h with hp | ⟨k, as, bs, S, hp, rfl⟩
  · rw [hp.flatten.length_eq]
    simp
  · rw [hp.flatten.length_eq]
    simp only [List.flatten_cons, List.length_append, List.length_cons]
    omega

end Family

end Sequences

end Infra
