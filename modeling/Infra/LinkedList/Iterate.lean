import Infra.LinkedList.Ring

/-!
# Walking a list

The iteration macros of `list.h` follow `next` pointers until they are back at
the head. Such a loop need not end on an arbitrary memory, so each of them takes
a number of rounds it may use and has no result when they run out.

On a ring the loops do what a recursion over the entries does: a search is
`List.find?`, a walk is a fold, and the walk that is safe against removal keeps
any invariant that its body keeps while the entries that are still to come stay
linked. Rounds for one more than the entries are always enough.
-/

namespace Infra

namespace LinkedList

section Macros

variable {ν σ : Type} [DecidableEq ν]

/-- The search loops written with `list_for_each` and `list_for_each_entry`:
the first position whose `test` holds is returned. -/
def listFindFrom (h : Heap ν) (test : ν → Option Bool) (head : ν) :
    ℕ → ν → Option (Option ν)
  | 0, _ => none
  | fuel + 1, pos =>
      if pos = head then some none
      else do
        let found ← test pos
        if found then some (some pos)
        else do
          let pos ← h.next pos
          listFindFrom h test head fuel pos

/-- A search loop over the list at `head`. -/
def listFind (h : Heap ν) (test : ν → Option Bool) (head : ν) (fuel : ℕ) :
    Option (Option ν) := do
  let pos ← h.next head
  listFindFrom h test head fuel pos

/-- The loops written with `list_for_each` and `list_for_each_entry` whose body
leaves the list alone. -/
def listForEachFrom (h : Heap ν) (body : ν → σ → Option σ) (head : ν) :
    ℕ → ν → σ → Option σ
  | 0, _, _ => none
  | fuel + 1, pos, s =>
      if pos = head then some s
      else do
        let s ← body pos s
        let pos ← h.next pos
        listForEachFrom h body head fuel pos s

/-- A walk over the list at `head`. -/
def listForEach (h : Heap ν) (body : ν → σ → Option σ) (head : ν) (fuel : ℕ) (s : σ) :
    Option σ := do
  let pos ← h.next head
  listForEachFrom h body head fuel pos s

/-- The loops written with `list_for_each_prev` and `list_for_each_entry_reverse` whose body
leaves the list alone. -/
def listForEachPrevFrom (h : Heap ν) (body : ν → σ → Option σ) (head : ν) :
    ℕ → ν → σ → Option σ
  | 0, _, _ => none
  | fuel + 1, pos, s =>
      if pos = head then some s
      else do
        let s ← body pos s
        let pos ← h.prev pos
        listForEachPrevFrom h body head fuel pos s

/-- A walk backwards over the list at `head`. -/
def listForEachPrev (h : Heap ν) (body : ν → σ → Option σ) (head : ν) (fuel : ℕ) (s : σ) :
    Option σ := do
  let pos ← h.prev head
  listForEachPrevFrom h body head fuel pos s

/-- The loop of `list_for_each_entry_safe`: the entry after `p` is read before
the body runs on `p`. -/
def listForEachSafeFrom (mem : σ → Heap ν) (body : ν → σ → Option σ) (head : ν) :
    ℕ → ν → ν → σ → Option σ
  | 0, _, _, _ => none
  | fuel + 1, p, n, s =>
      if p = head then some s
      else do
        let s ← body p s
        let n' ← (mem s).next n
        listForEachSafeFrom mem body head fuel n n' s

/-- `list_for_each_entry_safe`. -/
def listForEachSafe (mem : σ → Heap ν) (body : ν → σ → Option σ) (head : ν)
    (fuel : ℕ) (s : σ) : Option σ := do
  let p ← (mem s).next head
  let n ← (mem s).next p
  listForEachSafeFrom mem body head fuel p n s

end Macros

section Rules

variable {ν σ : Type}

/-- Following `next` from the first of `todo` meets the nodes of `todo` and
then the head. -/
structure Walk (h : Heap ν) (head : ν) (todo : List ν) : Prop where
  notMem : head ∉ todo
  chain : (todo ++ [head]).IsChain fun a b => h.next a = some b
  head : (h.next head).isSome

namespace Walk

variable {h : Heap ν} {head : ν}

theorem tail {x : ν} {todo : List ν} (w : Walk h head (x :: todo)) : Walk h head todo :=
  ⟨fun hm => w.notMem (List.mem_cons_of_mem x hm), w.chain.tail, w.head⟩

/-- The first position of the walk: the head itself when nothing is left. -/
theorem next_cons {x : ν} {todo : List ν} (w : Walk h head (x :: todo)) :
    h.next x = some ((todo ++ [head]).head (by simp)) := by
  have hc := w.chain
  cases todo with
  | nil => simpa using hc
  | cons y todo =>
      simp only [List.cons_append, List.isChain_cons_cons] at hc
      simpa using hc.1

/-- The whole ring is a walk that starts after the head. -/
theorem of_ring {xs : List ν} (r : Ring h head xs) :
    Walk h head xs ∧ h.next head = some ((xs ++ [head]).head (by simp)) := by
  have hc : (head :: (xs ++ [head])).IsChain fun a b => h.next a = some b :=
    r.chain.imp fun a b hl => hl.1
  have hn : h.next head = some ((xs ++ [head]).head (by simp)) := by
    cases xs with
    | nil => simpa using hc
    | cons x xs => simpa using r.next_head_cons
  exact ⟨⟨r.head_notMem, hc.tail, by simp [hn]⟩, hn⟩

/-- A final part of the entries of a ring is a walk. -/
theorem of_suffix {xs ys : List ν} (r : Ring h head (xs ++ ys)) : Walk h head ys := by
  have w := (of_ring r).1
  have hc := w.chain
  rw [List.append_assoc] at hc
  exact ⟨fun hm => w.notMem (by simp [hm]), hc.right_of_append, w.head⟩

end Walk

variable [DecidableEq ν]

/-- More rounds do not change the result of a loop. -/
theorem listForEachSafeFrom_mono {mem : σ → Heap ν} {body : ν → σ → Option σ} {head : ν}
    {fuel fuel' : ℕ} {p n : ν} {s s' : σ} (hle : fuel ≤ fuel')
    (h : listForEachSafeFrom mem body head fuel p n s = some s') :
    listForEachSafeFrom mem body head fuel' p n s = some s' := by
  induction fuel generalizing fuel' p n s with
  | zero => simp [listForEachSafeFrom] at h
  | succ fuel ih =>
      obtain ⟨fuel', rfl⟩ : ∃ m, fuel' = m + 1 := ⟨fuel' - 1, by omega⟩
      simp only [listForEachSafeFrom] at h ⊢
      split at h
      · next hp => simpa [hp] using h
      · next hp =>
        simp only [hp, if_false, Option.bind_eq_bind, Option.bind_eq_some_iff] at h ⊢
        obtain ⟨s₁, hs₁, n', hn', hrest⟩ := h
        exact ⟨s₁, hs₁, n', hn', ih (by omega) hrest⟩

theorem listForEachSafe_mono {mem : σ → Heap ν} {body : ν → σ → Option σ} {head : ν}
    {fuel fuel' : ℕ} {s s' : σ} (hle : fuel ≤ fuel')
    (h : listForEachSafe mem body head fuel s = some s') :
    listForEachSafe mem body head fuel' s = some s' := by
  simp only [listForEachSafe, Option.bind_eq_bind, Option.bind_eq_some_iff] at h ⊢
  obtain ⟨p, hp, n, hn, hrest⟩ := h
  exact ⟨p, hp, n, hn, listForEachSafeFrom_mono hle hrest⟩

/-- A body that does more returns what the loop returned. -/
theorem listForEachSafeFrom_imp {mem : σ → Heap ν} {body body' : ν → σ → Option σ} {head : ν}
    {fuel : ℕ} {p n : ν} {s s' : σ} (hbody : ∀ x s s', body x s = some s' → body' x s = some s')
    (h : listForEachSafeFrom mem body head fuel p n s = some s') :
    listForEachSafeFrom mem body' head fuel p n s = some s' := by
  induction fuel generalizing p n s with
  | zero => cases h
  | succ fuel ih =>
      simp only [listForEachSafeFrom] at h ⊢
      split at h
      · next hp => simpa [hp] using h
      · next hp =>
        simp only [hp, if_false, Option.bind_eq_bind, Option.bind_eq_some_iff] at h ⊢
        obtain ⟨s₁, hs₁, n', hn', hrest⟩ := h
        exact ⟨s₁, hbody _ _ _ hs₁, n', hn', ih hrest⟩

theorem listForEachSafe_imp {mem : σ → Heap ν} {body body' : ν → σ → Option σ} {head : ν}
    {fuel : ℕ} {s s' : σ} (hbody : ∀ x s s', body x s = some s' → body' x s = some s')
    (h : listForEachSafe mem body head fuel s = some s') :
    listForEachSafe mem body' head fuel s = some s' := by
  simp only [listForEachSafe, Option.bind_eq_bind, Option.bind_eq_some_iff] at h ⊢
  obtain ⟨p, hp, n, hn, hrest⟩ := h
  exact ⟨p, hp, n, hn, listForEachSafeFrom_imp hbody hrest⟩

theorem listFindFrom_mono {h : Heap ν} {test : ν → Option Bool} {head : ν} {fuel fuel' : ℕ}
    {pos : ν} {r : Option ν} (hle : fuel ≤ fuel')
    (hr : listFindFrom h test head fuel pos = some r) :
    listFindFrom h test head fuel' pos = some r := by
  induction fuel generalizing fuel' pos with
  | zero => simp [listFindFrom] at hr
  | succ fuel ih =>
      obtain ⟨fuel', rfl⟩ : ∃ m, fuel' = m + 1 := ⟨fuel' - 1, by omega⟩
      simp only [listFindFrom] at hr ⊢
      split at hr
      · next hp => simpa [hp] using hr
      · next hp =>
        simp only [hp, if_false, Option.bind_eq_bind, Option.bind_eq_some_iff] at hr ⊢
        obtain ⟨found, htest, hrest⟩ := hr
        refine ⟨found, htest, ?_⟩
        cases found with
        | true => exact hrest
        | false =>
            obtain ⟨pos', hnext, hrest⟩ := Option.bind_eq_some_iff.mp hrest
            exact Option.bind_eq_some_iff.mpr ⟨pos', hnext, ih (by omega) hrest⟩

theorem listFind_mono {h : Heap ν} {test : ν → Option Bool} {head : ν} {fuel fuel' : ℕ}
    {r : Option ν} (hle : fuel ≤ fuel') (hr : listFind h test head fuel = some r) :
    listFind h test head fuel' = some r := by
  obtain ⟨pos, hnext, hrest⟩ := Option.bind_eq_some_iff.mp hr
  exact Option.bind_eq_some_iff.mpr ⟨pos, hnext, listFindFrom_mono hle hrest⟩

theorem listForEachFrom_mono {h : Heap ν} {body : ν → σ → Option σ} {head : ν}
    {fuel fuel' : ℕ} {pos : ν} {s s' : σ} (hle : fuel ≤ fuel')
    (hr : listForEachFrom h body head fuel pos s = some s') :
    listForEachFrom h body head fuel' pos s = some s' := by
  induction fuel generalizing fuel' pos s with
  | zero => simp [listForEachFrom] at hr
  | succ fuel ih =>
      obtain ⟨fuel', rfl⟩ : ∃ m, fuel' = m + 1 := ⟨fuel' - 1, by omega⟩
      simp only [listForEachFrom] at hr ⊢
      split at hr
      · next hp => simpa [hp] using hr
      · next hp =>
        simp only [hp, if_false, Option.bind_eq_bind, Option.bind_eq_some_iff] at hr ⊢
        obtain ⟨s₁, hs₁, pos', hnext, hrest⟩ := hr
        exact ⟨s₁, hs₁, pos', hnext, ih (by omega) hrest⟩

theorem listForEach_mono {h : Heap ν} {body : ν → σ → Option σ} {head : ν} {fuel fuel' : ℕ}
    {s s' : σ} (hle : fuel ≤ fuel') (hr : listForEach h body head fuel s = some s') :
    listForEach h body head fuel' s = some s' := by
  obtain ⟨pos, hnext, hrest⟩ := Option.bind_eq_some_iff.mp hr
  exact Option.bind_eq_some_iff.mpr ⟨pos, hnext, listForEachFrom_mono hle hrest⟩

/-- A search loop finds the first node of the walk that passes the test. -/
theorem listFindFrom_eq {h : Heap ν} {head : ν} {test : ν → Option Bool} {b : ν → Bool}
    {fuel : ℕ} {todo : List ν} (w : Walk h head todo)
    (ht : ∀ x ∈ todo, test x = some (b x)) (hf : todo.length < fuel) :
    listFindFrom h test head fuel ((todo ++ [head]).head (by simp)) =
      some (todo.find? b) := by
  induction todo generalizing fuel with
  | nil =>
      obtain ⟨fuel, rfl⟩ := Nat.exists_eq_add_of_lt hf
      simp [listFindFrom]
  | cons x todo ih =>
      obtain ⟨fuel, rfl⟩ : ∃ m, fuel = m + 1 := ⟨fuel - 1, by omega⟩
      have hx : x ≠ head := fun e => w.notMem (by simp [e])
      have hfuel : todo.length < fuel := by
        simp only [List.length_cons] at hf
        omega
      have ih' := ih w.tail (fun y hy => ht y (by simp [hy])) hfuel
      simp only [List.cons_append, List.head_cons, listFindFrom, hx, if_false,
        ht x List.mem_cons_self, Option.bind_eq_bind, Option.bind_some]
      cases hb : b x with
      | true => simp [hb]
      | false => simp [hb, w.next_cons, ih']

/-- A search over the list at the head of a ring is a search in its entries. -/
theorem Ring.listFind_eq {h : Heap ν} {head : ν} {xs : List ν} {test : ν → Option Bool}
    {b : ν → Bool} {fuel : ℕ} (r : Ring h head xs) (ht : ∀ x ∈ xs, test x = some (b x))
    (hf : xs.length < fuel) : listFind h test head fuel = some (xs.find? b) := by
  obtain ⟨w, hn⟩ := Walk.of_ring r
  simp [listFind, hn, listFindFrom_eq w ht hf]

theorem listForEachFrom_eq {h : Heap ν} {head : ν} {body : ν → σ → Option σ}
    {fuel : ℕ} {todo : List ν} {s : σ} (w : Walk h head todo) (hf : todo.length < fuel) :
    listForEachFrom h body head fuel ((todo ++ [head]).head (by simp)) s =
      todo.foldlM (fun s x => body x s) s := by
  induction todo generalizing fuel s with
  | nil =>
      obtain ⟨fuel, rfl⟩ := Nat.exists_eq_add_of_lt hf
      simp [listForEachFrom]
  | cons x todo ih =>
      obtain ⟨fuel, rfl⟩ : ∃ m, fuel = m + 1 := ⟨fuel - 1, by omega⟩
      have hx : x ≠ head := fun e => w.notMem (by simp [e])
      have hfuel : todo.length < fuel := by
        simp only [List.length_cons] at hf
        omega
      simp only [List.cons_append, List.head_cons, listForEachFrom, hx, if_false,
        w.next_cons, List.foldlM_cons, Option.bind_eq_bind, Option.bind_some]
      exact congrArg _ (funext fun s' => ih w.tail hfuel)

/-- A walk over the list at the head of a ring is a fold over its entries. -/
theorem Ring.listForEach_eq {h : Heap ν} {head : ν} {xs : List ν} {body : ν → σ → Option σ}
    {fuel : ℕ} {s : σ} (r : Ring h head xs) (hf : xs.length < fuel) :
    listForEach h body head fuel s = xs.foldlM (fun s x => body x s) s := by
  obtain ⟨w, hn⟩ := Walk.of_ring r
  simp [listForEach, hn, listForEachFrom_eq w hf]

/-! ## Walking backwards -/

/-- The memory with the two links of each node exchanged. -/
def Heap.reverse (h : Heap ν) : Heap ν := fun a => (h a).map fun c => ⟨c.prev, c.next⟩

omit [DecidableEq ν] in
theorem next_reverse (h : Heap ν) : h.reverse.next = h.prev := by
  funext a
  cases ha : h a <;> simp [Heap.next, Heap.prev, Heap.reverse, ha]

omit [DecidableEq ν] in
theorem prev_reverse (h : Heap ν) : h.reverse.prev = h.next := by
  funext a
  cases ha : h a <;> simp [Heap.next, Heap.prev, Heap.reverse, ha]

omit [DecidableEq ν] in
/-- Backwards, a ring has its entries in the opposite order. -/
theorem Ring.reverse {h : Heap ν} {head : ν} {xs : List ν} (r : Ring h head xs) :
    Ring h.reverse head xs.reverse := by
  refine ⟨?_, ?_⟩
  · simpa using r.nodup
  · have hc := List.isChain_reverse.mpr r.chain
    have e : (head :: xs ++ [head]).reverse = head :: xs.reverse ++ [head] := by simp
    rw [e] at hc
    refine hc.imp fun a b hab => ⟨?_, ?_⟩
    · rw [next_reverse]
      exact hab.2
    · rw [prev_reverse]
      exact hab.1

theorem listForEachPrevFrom_eq {h : Heap ν} {body : ν → σ → Option σ} {head : ν} {fuel : ℕ}
    {pos : ν} {s : σ} :
    listForEachPrevFrom h body head fuel pos s =
      listForEachFrom h.reverse body head fuel pos s := by
  induction fuel generalizing pos s with
  | zero => rfl
  | succ fuel ih => simp only [listForEachPrevFrom, listForEachFrom, next_reverse, ih]

/-- A walk backwards over the list at the head of a ring is a fold over its entries, the last
one first. -/
theorem Ring.listForEachPrev_eq {h : Heap ν} {head : ν} {xs : List ν}
    {body : ν → σ → Option σ} {fuel : ℕ} {s : σ} (r : Ring h head xs)
    (hf : xs.length < fuel) :
    listForEachPrev h body head fuel s = xs.reverse.foldlM (fun s x => body x s) s := by
  have hrev : listForEachPrev h body head fuel s = listForEach h.reverse body head fuel s := by
    simp only [listForEachPrev, listForEach, next_reverse, listForEachPrevFrom_eq]
  rw [hrev, r.reverse.listForEach_eq (by simpa using hf)]

/-- The rule of `list_for_each_entry_safe`. `I done todo` is the invariant of
the loop; it has to keep the walk over what is still to come, and the body has
to keep it when the entry it runs on moves from `todo` to `done`. -/
theorem listForEachSafeFrom_rule {mem : σ → Heap ν} {body : ν → σ → Option σ} {head : ν}
    {I : List ν → List ν → σ → Prop}
    (hwalk : ∀ done todo s, I done todo s → Walk (mem s) head todo)
    (hbody : ∀ done x todo s, I done (x :: todo) s →
      ∃ s', body x s = some s' ∧ I (done ++ [x]) todo s')
    {fuel : ℕ} {done todo : List ν} {n : ν} {s : σ} (hI : I done todo s)
    (hn : (mem s).next ((todo ++ [head]).head (by simp)) = some n)
    (hf : todo.length < fuel) :
    ∃ s', listForEachSafeFrom mem body head fuel ((todo ++ [head]).head (by simp)) n s =
      some s' ∧ I (done ++ todo) [] s' := by
  induction todo generalizing fuel done n s with
  | nil =>
      obtain ⟨fuel, rfl⟩ := Nat.exists_eq_add_of_lt hf
      exact ⟨s, by simp [listForEachSafeFrom], by simpa using hI⟩
  | cons x todo ih =>
      obtain ⟨fuel, rfl⟩ : ∃ m, fuel = m + 1 := ⟨fuel - 1, by omega⟩
      have w := hwalk _ _ _ hI
      have hx : x ≠ head := fun e => w.notMem (by simp [e])
      obtain ⟨s₁, hs₁, hI₁⟩ := hbody _ _ _ _ hI
      have w₁ := hwalk _ _ _ hI₁
      have hnx : n = (todo ++ [head]).head (by simp) := by
        have := w.next_cons
        simp only [List.cons_append, List.head_cons] at hn
        rw [hn] at this
        exact Option.some.inj this
      obtain ⟨n', hn'⟩ : ∃ n', (mem s₁).next ((todo ++ [head]).head (by simp)) = some n' := by
        cases todo with
        | nil => exact Option.isSome_iff_exists.mp (by simpa using w₁.head)
        | cons y todo => exact ⟨_, by simpa using w₁.next_cons⟩
      have hfuel : todo.length < fuel := by
        simp only [List.length_cons] at hf
        omega
      obtain ⟨s₂, hs₂, hI₂⟩ := ih hI₁ hn' hfuel
      refine ⟨s₂, ?_, by simpa using hI₂⟩
      simp only [List.cons_append, List.head_cons, listForEachSafeFrom, hx, if_false, hs₁,
        Option.bind_eq_bind, Option.bind_some, hnx, hn', hs₂]

/-- The rule of `list_for_each_entry_safe` over the list at the head of a
ring. -/
theorem Ring.listForEachSafe_rule {mem : σ → Heap ν} {body : ν → σ → Option σ} {head : ν}
    {I : List ν → List ν → σ → Prop}
    (hwalk : ∀ done todo s, I done todo s → Walk (mem s) head todo)
    (hbody : ∀ done x todo s, I done (x :: todo) s →
      ∃ s', body x s = some s' ∧ I (done ++ [x]) todo s')
    {fuel : ℕ} {xs : List ν} {s : σ} (r : Ring (mem s) head xs) (hI : I [] xs s)
    (hf : xs.length < fuel) :
    ∃ s', listForEachSafe mem body head fuel s = some s' ∧ I xs [] s' := by
  obtain ⟨w, hn⟩ := Walk.of_ring r
  obtain ⟨n, hn'⟩ : ∃ n, (mem s).next ((xs ++ [head]).head (by simp)) = some n := by
    cases xs with
    | nil => exact ⟨_, by simpa using hn⟩
    | cons x xs => exact ⟨_, by simpa using w.next_cons⟩
  obtain ⟨s', hs', hI'⟩ := listForEachSafeFrom_rule hwalk hbody hI hn' hf
  exact ⟨s', by simp [listForEachSafe, hn, hn', hs'], by simpa using hI'⟩

/-- A loop that returns has run its body on each entry, and the body returned, when it
keeps the invariant whenever it does. -/
theorem listForEachSafeFrom_returns {mem : σ → Heap ν} {body : ν → σ → Option σ} {head : ν}
    {I : List ν → List ν → σ → Prop}
    (hwalk : ∀ done todo s, I done todo s → Walk (mem s) head todo)
    (hbody : ∀ done x todo s s', I done (x :: todo) s → body x s = some s' →
      I (done ++ [x]) todo s')
    {fuel : ℕ} {done todo : List ν} {n : ν} {s s' : σ} (hI : I done todo s)
    (hn : (mem s).next ((todo ++ [head]).head (by simp)) = some n)
    (h : listForEachSafeFrom mem body head fuel ((todo ++ [head]).head (by simp)) n s = some s') :
    ∀ x ∈ todo, ∃ s s', body x s = some s' := by
  induction todo generalizing fuel done n s with
  | nil => simp
  | cons x todo ih =>
      cases fuel with
      | zero => cases h
      | succ fuel =>
          have w := hwalk _ _ _ hI
          have hx : x ≠ head := fun e => w.notMem (by simp [e])
          simp only [List.cons_append, List.head_cons, listForEachSafeFrom, hx, if_false,
            Option.bind_eq_bind, Option.bind_eq_some_iff] at h
          obtain ⟨s₁, hs₁, n', hn', h⟩ := h
          have hnx : n = (todo ++ [head]).head (by simp) := by
            have := w.next_cons
            simp only [List.cons_append, List.head_cons] at hn
            rw [hn] at this
            exact Option.some.inj this
          subst hnx
          have ih' := ih (hbody _ _ _ _ _ hI hs₁) hn' h
          intro y hy
          rcases List.mem_cons.mp hy with rfl | hy
          · exact ⟨s, s₁, hs₁⟩
          · exact ih' y hy

theorem Ring.listForEachSafe_returns {mem : σ → Heap ν} {body : ν → σ → Option σ} {head : ν}
    {I : List ν → List ν → σ → Prop}
    (hwalk : ∀ done todo s, I done todo s → Walk (mem s) head todo)
    (hbody : ∀ done x todo s s', I done (x :: todo) s → body x s = some s' →
      I (done ++ [x]) todo s')
    {fuel : ℕ} {xs : List ν} {s s' : σ} (r : Ring (mem s) head xs) (hI : I [] xs s)
    (h : listForEachSafe mem body head fuel s = some s') :
    ∀ x ∈ xs, ∃ s s', body x s = some s' := by
  obtain ⟨p, hp, h⟩ := Option.bind_eq_some_iff.mp h
  obtain ⟨n, hn, h⟩ := Option.bind_eq_some_iff.mp h
  obtain rfl := Option.some.inj ((Walk.of_ring r).2.symm.trans hp)
  exact listForEachSafeFrom_returns hwalk hbody hI hn h

end Rules

end LinkedList

end Infra
