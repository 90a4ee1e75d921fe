import Infra.LinkedList.Ring

/-!
# Circles of nodes

A ring has no natural beginning: its head is a node like any other, and `list.h`
also takes an entry where it asks for a head. `Circle h r` forgets which node is the
head. A circle may be turned, and it falls into two parts that are linked within and
to each other. So what an operation does at one node has to be said for a circle
that starts there only.
-/

namespace Infra

namespace LinkedList

/-- The nodes `r` are linked in a circle, in this order. -/
def Circle {ν : Type*} (h : Heap ν) : List ν → Prop
  | [] => False
  | a :: xs => Ring h a xs

/-- The last node of `l₁` is linked to the first one of `l₂`. -/
def Joined {ν : Type*} (h : Heap ν) (l₁ l₂ : List ν) : Prop :=
  ∀ a ∈ l₁.getLast?, ∀ b ∈ l₂.head?, Linked h a b

section Circles

variable {ν : Type*} {h h' : Heap ν} {l l₁ l₂ r : List ν} {a b : ν}

@[simp] theorem circle_cons : Circle h (a :: l) ↔ Ring h a l := Iff.rfl

theorem Circle.nodup (c : Circle h r) : r.Nodup := by
  cases r with
  | nil => exact c.elim
  | cons a xs => exact Ring.nodup c

theorem Circle.live (c : Circle h r) (ha : a ∈ r) : h.Live a := by
  cases r with
  | nil => exact c.elim
  | cons b xs => exact Ring.live c ha

theorem Circle.congr (c : Circle h r) (e : ∀ a ∈ r, h' a = h a) : Circle h' r := by
  cases r with
  | nil => exact c.elim
  | cons b xs => exact Ring.congr c e

theorem exists_head (hl : l ≠ []) : ∃ a, l.head? = some a :=
  ⟨l.head hl, List.head?_eq_some_head hl⟩

theorem exists_ends (hl : l ≠ []) : ∃ a b, l.head? = some a ∧ l.getLast? = some b :=
  ⟨l.head hl, l.getLast hl, List.head?_eq_some_head hl, List.getLast?_eq_some_getLast hl⟩

/-- A circle is one chain of nodes that is linked to itself. -/
theorem circle_iff (hl : l ≠ []) :
    Circle h l ↔ l.Nodup ∧ l.IsChain (Linked h) ∧ Joined h l l := by
  cases l with
  | nil => exact absurd rfl hl
  | cons a xs =>
      have hsplit : (a :: xs ++ [a]).IsChain (Linked h) ↔
          (a :: xs).IsChain (Linked h) ∧ Joined h (a :: xs) (a :: xs) := by
        rw [List.isChain_append]
        simp [Joined]
      constructor
      · exact fun r => ⟨r.nodup, hsplit.mp r.chain⟩
      · exact fun hr => ⟨hr.1, hsplit.mpr hr.2⟩

/-- A circle of two parts. -/
theorem circle_append (h₁ : l₁ ≠ []) (h₂ : l₂ ≠ []) :
    Circle h (l₁ ++ l₂) ↔ (l₁ ++ l₂).Nodup ∧ l₁.IsChain (Linked h) ∧ l₂.IsChain (Linked h) ∧
      Joined h l₁ l₂ ∧ Joined h l₂ l₁ := by
  rw [circle_iff (List.append_ne_nil_of_left_ne_nil h₁ l₂), List.isChain_append]
  have hends : Joined h (l₁ ++ l₂) (l₁ ++ l₂) ↔ Joined h l₂ l₁ := by
    simp only [Joined, List.getLast?_append_of_ne_nil _ h₂, List.head?_append_of_ne_nil _ h₁]
  rw [hends]
  unfold Joined
  tauto

/-- A circle may be turned. -/
theorem Circle.turn (c : Circle h (l₁ ++ l₂)) : Circle h (l₂ ++ l₁) := by
  by_cases h₁ : l₁ = []
  · simpa [h₁] using c
  by_cases h₂ : l₂ = []
  · simpa [h₂] using c
  obtain ⟨hnd, hc₁, hc₂, hj₁, hj₂⟩ := (circle_append h₁ h₂).mp c
  exact (circle_append h₂ h₁).mpr ⟨List.nodup_append_comm.mp hnd, hc₂, hc₁, hj₂, hj₁⟩

/-- A part of a circle stays linked when no link within it is stored to. -/
theorem chain_congr (hc : l.IsChain (Linked h)) (hn : ∀ a ∈ l.dropLast, h'.next a = h.next a)
    (hp : ∀ a ∈ l.tail, h'.prev a = h.prev a) : l.IsChain (Linked h') :=
  isChain_imp_inner hc fun a b ha hb hab => ⟨(hn a ha).trans hab.1, (hp b hb).trans hab.2⟩

theorem ne_of_mem_dropLast (hl : l.Nodup) (hb : l.getLast? = some b) (ha : a ∈ l.dropLast) :
    a ≠ b := by
  rintro rfl
  rw [← List.dropLast_append_getLast? a hb] at hl
  exact (List.nodup_append.mp hl).2.2 a ha a (by simp) rfl

theorem ne_of_mem_tail (hl : l.Nodup) (hb : l.head? = some b) (ha : a ∈ l.tail) : a ≠ b := by
  rintro rfl
  rw [← List.cons_head?_tail hb] at hl
  exact (List.nodup_cons.mp hl).1 ha

/-- A part of a ring: everything from the node after its head round to the head. -/
theorem Ring.part (r : Ring h a l) : (l ++ [a]).Nodup ∧ (l ++ [a]).IsChain (Linked h) :=
  ⟨List.nodup_append_comm.mp r.nodup, (List.cons_append (a := a) ▸ r.chain).tail⟩

theorem mem_part (hb : b ∈ l ++ [a]) : b ∈ a :: l := by
  simpa [or_comm] using hb

/-- The entries of a ring are linked in a chain. -/
theorem Ring.inner (r : Ring h a l) : l.IsChain (Linked h) := r.part.2.left_of_append

/-- The head is linked to the first node of the part behind it. -/
theorem Ring.exists_linked (r : Ring h a l) : ∃ n, (l ++ [a]).head? = some n ∧ Linked h a n := by
  have hc := List.isChain_cons.mp (List.cons_append (a := a) ▸ r.chain)
  obtain ⟨n, hn⟩ := exists_head (l := l ++ [a]) (by simp)
  exact ⟨n, hn, hc.1 n hn⟩

theorem Ring.exists_next (r : Ring h a l) :
    ∃ n, (l ++ [a]).head? = some n ∧ h.next a = some n :=
  r.exists_linked.imp fun _ hn => ⟨hn.1, hn.2.1⟩

theorem Ring.next_eq (r : Ring h a l) (hb : l.head? = some b) : h.next a = some b := by
  cases l with
  | nil => simp at hb
  | cons n l =>
      obtain rfl := Option.some.inj hb
      exact r.next_head_cons

/-- `prev` of the head is the last node of the ring. -/
theorem Ring.prev_getLast (r : Ring h a l) : h.prev a = (a :: l).getLast? := by
  obtain ⟨b, c, -, hc⟩ := exists_ends (List.cons_ne_nil a l)
  rw [hc, r.prev_head (List.dropLast_append_getLast? c hc).symm]

theorem Ring.prev_eq (r : Ring h a l) (hb : l.getLast? = some b) : h.prev a = some b := by
  rw [r.prev_getLast, List.getLast?_cons, hb]
  rfl

/-- A part becomes a circle when its last node is linked to its first one. -/
theorem Circle.close [DecidableEq ν] (hnd : l.Nodup) (hc : l.IsChain (Linked h))
    (ha : l.head? = some a) (hb : l.getLast? = some b)
    (hn : ∀ y ∈ l, h'.next y = if y = b then some a else h.next y)
    (hp : ∀ y ∈ l, h'.prev y = if y = a then some b else h.prev y) : Circle h' l := by
  have hne : l ≠ [] := fun e => by simp [e] at ha
  refine (circle_iff hne).mpr ⟨hnd, chain_congr hc (fun y hy => ?_) fun y hy => ?_, ?_⟩
  · rw [hn y (List.dropLast_subset l hy), if_neg (ne_of_mem_dropLast hnd hb hy)]
  · rw [hp y (List.mem_of_mem_tail hy), if_neg (ne_of_mem_tail hnd ha hy)]
  · intro y hy z hz
    rw [hb, Option.mem_some_iff] at hy
    rw [ha, Option.mem_some_iff] at hz
    subst hy hz
    exact ⟨by simp [hn b (List.mem_of_getLast? hb)], by simp [hp a (List.mem_of_head? ha)]⟩

/-- Two parts become one circle when the last node of each is linked to the first one of the
other. -/
theorem Circle.weld [DecidableEq ν] (a₁ b₁ a₂ b₂ : ν) (hnd : (l₁ ++ l₂).Nodup)
    (h₁ : l₁.IsChain (Linked h)) (h₂ : l₂.IsChain (Linked h))
    (ha₁ : l₁.head? = some a₁) (hb₁ : l₁.getLast? = some b₁)
    (ha₂ : l₂.head? = some a₂) (hb₂ : l₂.getLast? = some b₂)
    (hn : ∀ y ∈ l₁ ++ l₂, h'.next y =
      if y = b₁ then some a₂ else if y = b₂ then some a₁ else h.next y)
    (hp : ∀ y ∈ l₁ ++ l₂, h'.prev y =
      if y = a₂ then some b₁ else if y = a₁ then some b₂ else h.prev y) :
    Circle h' (l₁ ++ l₂) := by
  obtain ⟨hnd₁, hnd₂, hdis⟩ := List.nodup_append.mp hnd
  have hne₁ : l₁ ≠ [] := fun e => by simp [e] at ha₁
  have hne₂ : l₂ ≠ [] := fun e => by simp [e] at ha₂
  have hma₁ := List.mem_of_head? ha₁
  have hma₂ := List.mem_of_head? ha₂
  have hmb₁ := List.mem_of_getLast? hb₁
  have hmb₂ := List.mem_of_getLast? hb₂
  refine (circle_append hne₁ hne₂).mpr ⟨hnd, chain_congr h₁ (fun y hy => ?_) fun y hy => ?_,
    chain_congr h₂ (fun y hy => ?_) fun y hy => ?_, ?_, ?_⟩
  · have hmem := List.dropLast_subset l₁ hy
    rw [hn y (by simp [hmem]), if_neg (ne_of_mem_dropLast hnd₁ hb₁ hy),
      if_neg (hdis y hmem b₂ hmb₂)]
  · have hmem := List.mem_of_mem_tail hy
    rw [hp y (by simp [hmem]), if_neg (hdis y hmem a₂ hma₂),
      if_neg (ne_of_mem_tail hnd₁ ha₁ hy)]
  · have hmem := List.dropLast_subset l₂ hy
    rw [hn y (by simp [hmem]), if_neg (hdis b₁ hmb₁ y hmem).symm,
      if_neg (ne_of_mem_dropLast hnd₂ hb₂ hy)]
  · have hmem := List.mem_of_mem_tail hy
    rw [hp y (by simp [hmem]), if_neg (ne_of_mem_tail hnd₂ ha₂ hy),
      if_neg (hdis a₁ hma₁ y hmem).symm]
  · intro y hy z hz
    rw [hb₁, Option.mem_some_iff] at hy
    rw [ha₂, Option.mem_some_iff] at hz
    subst hy hz
    exact ⟨by simp [hn b₁ (by simp [hmb₁])], by simp [hp a₂ (by simp [hma₂])]⟩
  · intro y hy z hz
    rw [hb₂, Option.mem_some_iff] at hy
    rw [ha₁, Option.mem_some_iff] at hz
    subst hy hz
    refine ⟨?_, ?_⟩
    · rw [hn b₂ (by simp [hmb₂]), if_neg (hdis b₁ hmb₁ b₂ hmb₂).symm, if_pos rfl]
    · rw [hp a₁ (by simp [hma₁]), if_neg (hdis a₁ hma₁ a₂ hma₂), if_pos rfl]

end Circles

end LinkedList

end Infra
