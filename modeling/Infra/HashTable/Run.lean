import Infra.HashTable.FiniteMap
import Infra.Foundation.Simulation

/-!
# Runs of the bucket hash

A client allocates, writes and frees its structures, and it adds, deletes and
looks up elements. `keyMap` is what it may rely on: it answers from a finite map,
and it does not take what the client must not do, which is to free or to add an
element that is stored, to change the key of one, or to use memory that it has
not allocated. The bucket hash answers every run that `keyMap` takes in the same
way.
-/

namespace Infra

namespace HashTable

open Infra.LinkedList

/-- The memory of the buckets and the elements, and the bytes of the elements. -/
structure Table (ε : Type) where
  mem : Heap (ℕ ⊕ ε)
  bytes : ε → List UInt8

/-- What a client does. -/
inductive Op (ε : Type) where
  | alloc (elem : ε) (content : List UInt8)
  | free (elem : ε)
  | write (elem : ε) (content : List UInt8)
  | add (elem : ε)
  | del (key : List UInt8)
  | lookup (key : List UInt8)

/-- What a client gets. -/
inductive Answer (ε : Type) where
  | done
  | status (ret : ℤ)
  | element (elem : Option ε)
  deriving DecidableEq

/-- A client's memory and the map of what it has stored. -/
structure Client (ε : Type) where
  live : ε → Bool
  bytes : ε → List UInt8
  map : KeyMap ε

section Machines

variable {ε : Type} [DecidableEq ε]

/-- The bucket hash with its client, as a machine. -/
def hashTable (ctx : HashContext) (fuel : ℕ) : Machine (Table ε) (Op ε) (Answer ε) where
  step t
    | .alloc elem content =>
        some ({ mem := t.mem.alloc (.inr elem), bytes := Function.update t.bytes elem content },
          .done)
    | .free elem => some ({ t with mem := t.mem.free (.inr elem) }, .done)
    | .write elem content =>
        some ({ t with bytes := Function.update t.bytes elem content }, .done)
    | .add elem =>
        (addHash ctx t.bytes fuel t.mem elem).map fun r => ({ t with mem := r.1 }, .status r.2)
    | .del key =>
        (delHash ctx t.bytes fuel t.mem key).map fun r => ({ t with mem := r.1 }, .status r.2)
    | .lookup key =>
        (lookupHash ctx t.bytes fuel t.mem key).map fun r => (t, .element r)

/-- What a client has to respect. -/
def Op.Legal (ctx : HashContext) (c : Client ε) : Op ε → Prop
  | .alloc elem content => c.live elem = false ∧ ctx.Readable content
  | .free elem => c.live elem ∧ ¬ Stored c.map elem
  | .write elem content => c.live elem ∧ ctx.Readable content ∧
      (Stored c.map elem → ctx.keyOf content = ctx.keyOf (c.bytes elem))
  | .add elem => c.live elem ∧ ¬ Stored c.map elem
  | .del key | .lookup key => ctx.keySize ≤ key.length

instance (m : KeyMap ε) (e : ε) : Decidable (Stored m e) :=
  decidable_of_iff (e ∈ m.entries.map Sigma.snd) (by simp [Stored])

instance (ctx : HashContext) (c : Client ε) (op : Op ε) : Decidable (op.Legal ctx c) := by
  cases op <;> simp only [Op.Legal] <;> infer_instance

/-- What each action does to the map, and its answer. -/
def mapStep (ctx : HashContext) (c : Client ε) : Op ε → Client ε × Answer ε
  | .alloc elem content =>
      ({ c with live := Function.update c.live elem true
                bytes := Function.update c.bytes elem content }, .done)
  | .free elem => ({ c with live := Function.update c.live elem false }, .done)
  | .write elem content => ({ c with bytes := Function.update c.bytes elem content }, .done)
  | .add elem =>
      if ctx.keyOf (c.bytes elem) ∈ c.map then (c, .status 0)
      else ({ c with map := c.map.insert (ctx.keyOf (c.bytes elem)) elem }, .status 1)
  | .del key =>
      if key.take ctx.keySize ∈ c.map then
        ({ c with map := c.map.erase (key.take ctx.keySize) }, .status 1)
      else (c, .status 0)
  | .lookup key => (c, .element (c.map.lookup (key.take ctx.keySize)))

/-- The finite map as a machine that answers legal actions. -/
def keyMap (ctx : HashContext) : Machine (Client ε) (Op ε) (Answer ε) where
  step c op := if op.Legal ctx c then some (mapStep ctx c op) else none

/-- A client that has allocated nothing. -/
def Client.start (bytes : ε → List UInt8) : Client ε := ⟨fun _ => false, bytes, ∅⟩

/-- The table `t` stores the map of the client `c`, and `fuel` rounds are enough
for its loops while at most `n` actions are still to come. -/
structure Serves (ctx : HashContext) (fuel n : ℕ) (t : Table ε) (c : Client ε) : Prop where
  holds : Holds ctx t.bytes t.mem c.map
  bytes : t.bytes = c.bytes
  live : ∀ e, c.live e → t.mem.Live (.inr e) ∧ ctx.Readable (t.bytes e)
  stored : ∀ e, Stored c.map e → c.live e
  fuel : c.map.entries.length + n < fuel

end Machines

section Runs

variable {ε : Type} [DecidableEq ε] {ctx : HashContext} {fuel n : ℕ} {t : Table ε}
  {c : Client ε}

omit [DecidableEq ε] in
/-- The client may do anything to its memory that keeps the keys of the stored
elements. -/
theorem Serves.of_client (s : Serves ctx fuel (n + 1) t c) {t' : Table ε} {c' : Client ε}
    (hmap : c'.map = c.map) (hbytes : t'.bytes = c'.bytes)
    (hmem : ∀ a, Owns (Buckets ctx) (bucketEntries ctx c.map) a → t'.mem a = t.mem a)
    (hkey : ∀ e, Stored c.map e → ctx.keyOf (t'.bytes e) = ctx.keyOf (t.bytes e))
    (hlive : ∀ e, c'.live e → t'.mem.Live (.inr e) ∧ ctx.Readable (t'.bytes e))
    (hstored : ∀ e, Stored c.map e → c'.live e) : Serves ctx fuel n t' c' := by
  have hfuel := s.fuel
  constructor
  · rw [hmap]
    exact s.holds.congr hmem fun e he => ⟨(hlive e (hstored e he)).2, hkey e he⟩
  · exact hbytes
  · exact hlive
  · rw [hmap]
    exact hstored
  · rw [hmap]
    omega

omit [DecidableEq ε] in
/-- After a change of the map the elements still have their memory. -/
theorem Serves.of_map (s : Serves ctx fuel (n + 1) t c) {mem : Heap (ℕ ⊕ ε)} {m : KeyMap ε}
    (h : Holds ctx t.bytes mem m) (hlive : ∀ a, mem.Live a ↔ t.mem.Live a)
    (hstored : ∀ e, Stored m e → c.live e)
    (hlen : m.entries.length ≤ c.map.entries.length + 1) :
    Serves ctx fuel n { t with mem := mem } { c with map := m } := by
  have hfuel := s.fuel
  exact ⟨h, s.bytes, fun e he => ⟨(hlive _).mpr (s.live e he).1, (s.live e he).2⟩, hstored,
    by simp only; omega⟩

omit [DecidableEq ε] in
/-- One round less is needed when nothing changes. -/
theorem Serves.of_same (s : Serves ctx fuel (n + 1) t c) : Serves ctx fuel n t c :=
  s.of_map s.holds (fun _ => Iff.rfl) s.stored (Nat.le_succ _)

/-- The bucket hash simulates the finite map. -/
theorem hashTable_simulates (ctx : HashContext) (fuel : ℕ) :
    Machine.Simulates (hashTable (ε := ε) ctx fuel) (keyMap ctx) (Serves ctx fuel) where
  step := by
    intro n t c op c' o s hstep
    simp only [keyMap, Option.ite_none_right_eq_some, Option.some.injEq] at hstep
    obtain ⟨hlegal, hstep⟩ := hstep
    have hfuel : c.map.entries.length < fuel := by
      have := s.fuel
      omega
    cases op with
    | alloc elem content =>
        obtain ⟨rfl, rfl⟩ := Prod.mk.inj hstep
        have hnot : ∀ e, Stored c.map e → e ≠ elem := by
          rintro e he rfl
          exact Bool.false_ne_true (hlegal.1.symm.trans (s.stored e he))
        refine ⟨_, rfl, s.of_client rfl (by simp [s.bytes]) ?_ ?_ ?_ ?_⟩
        · intro a ha
          apply Function.update_of_ne
          rintro rfl
          exact hnot elem (s.holds.listed_iff.mp ha) rfl
        · intro e he
          simp only [Function.update_of_ne (hnot e he)]
        · intro e he
          by_cases hee : e = elem
          · subst hee
            exact ⟨by simp [Heap.Live, Heap.alloc], by simpa using hlegal.2⟩
          · simp only [Function.update_of_ne hee] at he ⊢
            have hne : (Sum.inr e : ℕ ⊕ ε) ≠ .inr elem := by simpa using hee
            simpa only [Heap.Live, Heap.alloc, Function.update_of_ne hne] using s.live e he
        · intro e he
          simpa only [Function.update_of_ne (hnot e he)] using s.stored e he
    | free elem =>
        obtain ⟨rfl, rfl⟩ := Prod.mk.inj hstep
        have hnot : ∀ e, Stored c.map e → e ≠ elem := by
          rintro e he rfl
          exact hlegal.2 he
        refine ⟨_, rfl, s.of_client rfl s.bytes ?_ (fun _ _ => rfl) ?_ ?_⟩
        · intro a ha
          apply Function.update_of_ne
          rintro rfl
          exact hnot elem (s.holds.listed_iff.mp ha) rfl
        · intro e he
          by_cases hee : e = elem
          · simp [hee] at he
          · have hne : (Sum.inr e : ℕ ⊕ ε) ≠ .inr elem := by simpa using hee
            simp only [Function.update_of_ne hee] at he
            simpa only [Heap.Live, Heap.free, Function.update_of_ne hne] using s.live e he
        · intro e he
          simpa only [Function.update_of_ne (hnot e he)] using s.stored e he
    | write elem content =>
        obtain ⟨rfl, rfl⟩ := Prod.mk.inj hstep
        obtain ⟨-, hread, hkey⟩ := hlegal
        refine ⟨_, rfl, s.of_client rfl (by simp [s.bytes]) (fun _ _ => rfl) ?_ ?_ s.stored⟩
        · intro e he
          by_cases hee : e = elem
          · subst hee
            simpa [s.bytes] using hkey he
          · simp only [Function.update_of_ne hee]
        · intro e he
          refine ⟨(s.live e he).1, ?_⟩
          by_cases hee : e = elem
          · simpa [hee] using hread
          · simpa only [Function.update_of_ne hee] using (s.live e he).2
    | add elem =>
        obtain ⟨helem, hnot⟩ := hlegal
        have hspec := s.holds.addHash_spec (s.live elem helem).1 hnot (s.live elem helem).2 hfuel
        simp only [mapStep, ← s.bytes] at hstep
        by_cases hin : ctx.keyOf (t.bytes elem) ∈ c.map
        · rw [if_pos hin] at hspec hstep
          obtain ⟨rfl, rfl⟩ := Prod.mk.inj hstep
          exact ⟨t, by simp [hashTable, hspec], s.of_same⟩
        · rw [if_neg hin] at hspec hstep
          obtain ⟨rfl, rfl⟩ := Prod.mk.inj hstep
          obtain ⟨mem', e', h', hlive⟩ := hspec
          refine ⟨{ t with mem := mem' }, by simp [hashTable, e'],
            s.bytes ▸ s.of_map h' hlive ?_ ?_⟩
          · rintro e ⟨k, hk⟩
            rw [AList.entries_insert_of_notMem hin] at hk
            rcases List.mem_cons.mp hk with hk | hk
            · cases hk
              exact helem
            · exact s.stored e ⟨k, hk⟩
          · rw [AList.entries_insert_of_notMem hin, List.length_cons]
    | del key =>
        have hspec := s.holds.delHash_spec hlegal hfuel
        simp only [mapStep] at hstep
        by_cases hin : key.take ctx.keySize ∈ c.map
        · rw [if_pos hin] at hspec hstep
          obtain ⟨rfl, rfl⟩ := Prod.mk.inj hstep
          obtain ⟨mem', e', h', hlive⟩ := hspec
          have hsub := List.kerase_sublist (key.take ctx.keySize) c.map.entries
          refine ⟨{ t with mem := mem' }, by simp [hashTable, e'], s.of_map h' hlive ?_ ?_⟩
          · rintro e ⟨k, hk⟩
            exact s.stored e ⟨k, hsub.subset hk⟩
          · have := hsub.length_le
            change (List.kerase _ _).length ≤ _
            omega
        · rw [if_neg hin] at hspec hstep
          obtain ⟨rfl, rfl⟩ := Prod.mk.inj hstep
          exact ⟨t, by simp [hashTable, hspec], s.of_same⟩
    | lookup key =>
        obtain ⟨rfl, rfl⟩ := Prod.mk.inj hstep
        have hspec := s.holds.lookupHash_eq hlegal hfuel
        exact ⟨t, by simp [hashTable, hspec], s.of_same⟩

theorem addHash_failed {bytes : ε → List UInt8} {mem mem' : Heap (ℕ ⊕ ε)} {e : ε}
    (h : addHash ctx bytes fuel mem e = some (mem', 0)) : mem' = mem := by
  simp only [addHash, Option.bind_eq_bind, Option.bind_eq_some_iff] at h
  obtain ⟨found, -, h⟩ := h
  split at h
  · simp only [Option.some.injEq, Prod.mk.injEq] at h
    exact h.1.symm
  · simp [Option.bind_eq_some_iff] at h

theorem delHash_failed {bytes : ε → List UInt8} {mem mem' : Heap (ℕ ⊕ ε)} {key : List UInt8}
    (h : delHash ctx bytes fuel mem key = some (mem', 0)) : mem' = mem := by
  simp only [delHash, Option.bind_eq_bind, Option.bind_eq_some_iff] at h
  obtain ⟨found, -, h⟩ := h
  split at h
  · simp only [Option.some.injEq, Prod.mk.injEq] at h
    exact h.1.symm
  · obtain ⟨pos, -, h⟩ := Option.bind_eq_some_iff.mp h
    cases pos with
    | none =>
        simp only [Option.some.injEq, Prod.mk.injEq] at h
        exact h.1.symm
    | some pos => simp [Option.bind_eq_some_iff] at h

/-- A call that fails changes nothing, and a search never does. -/
theorem failed_unchanged {op : Op ε} {t' : Table ε} {o : Answer ε}
    (h : (hashTable ctx fuel).step t op = some (t', o))
    (ho : o = .status 0 ∨ ∃ e, o = .element e) : t' = t := by
  cases op with
  | alloc elem content =>
      obtain rfl : Answer.done = o := (Prod.mk.inj (Option.some.inj h)).2
      simp at ho
  | free elem =>
      obtain rfl : Answer.done = o := (Prod.mk.inj (Option.some.inj h)).2
      simp at ho
  | write elem content =>
      obtain rfl : Answer.done = o := (Prod.mk.inj (Option.some.inj h)).2
      simp at ho
  | add elem =>
      simp only [hashTable, Option.map_eq_some_iff, Prod.mk.injEq, Prod.exists] at h
      obtain ⟨mem, ret, h, rfl, rfl⟩ := h
      obtain rfl : ret = 0 := by simpa using ho
      rw [addHash_failed h]
  | del key =>
      simp only [hashTable, Option.map_eq_some_iff, Prod.mk.injEq, Prod.exists] at h
      obtain ⟨mem, ret, h, rfl, rfl⟩ := h
      obtain rfl : ret = 0 := by simpa using ho
      rw [delHash_failed h]
  | lookup key =>
      simp only [hashTable, Option.map_eq_some_iff, Prod.mk.injEq] at h
      obtain ⟨-, -, rfl, -⟩ := h
      rfl

/-- `initHash` builds the empty map. -/
theorem initHash_serves {mem mem₀ : Heap (ℕ ⊕ ε)} {numBuckets keyOffset keySize : ℕ}
    {func : Option HashFunc} (hpos : 0 < numBuckets)
    (h₀ : initHash mem true numBuckets keyOffset keySize func = some (ctx, mem₀))
    (bytes : ε → List UInt8) (hfuel : n < fuel) :
    Serves ctx fuel n ⟨mem₀, bytes⟩ (.start bytes) := by
  obtain ⟨m, hm, -, hr⟩ := Ring.of_initHeads (n := numBuckets) (ν := ℕ ⊕ ε) Sum.inl_injective
    fun i hi => Ring.mallocHeads_live (h := mem) hi
  simp only [initHash, if_true, hm, Option.bind_eq_bind, Option.bind_some, Option.some.injEq,
    Prod.mk.injEq] at h₀
  obtain ⟨rfl, rfl⟩ := h₀
  refine ⟨⟨hpos, ?_, by simp [Client.start]⟩, rfl, by simp [Client.start],
    by simp [Client.start, Stored], by simpa [Client.start] using hfuel⟩
  exact (Rings.of_nil fun i hi => hr i hi).congr_entries fun i _ => by
    simp [bucketEntries, Client.start]

/-- The bucket hash refines a finite map over whole runs. It answers every run
of legal actions as the map does, whatever the hash function; each bucket then
lists the elements stored under the keys that fall into it, in the order in which
they were added, and no two elements stored have the same key. A call that fails
changes nothing. -/
theorem hash_refines_finite_map {mem mem₀ : Heap (ℕ ⊕ ε)} {numBuckets keyOffset keySize : ℕ}
    {func : Option HashFunc} (hpos : 0 < numBuckets)
    (h₀ : initHash mem true numBuckets keyOffset keySize func = some (ctx, mem₀))
    {bytes : ε → List UInt8} {ops : List (Op ε)} {answers : List (Answer ε)}
    (hmap : (keyMap ctx).run (.start bytes) ops = some (c, answers))
    (hfuel : ops.length < fuel) :
    ∃ t, (hashTable ctx fuel).run ⟨mem₀, bytes⟩ ops = some (t, answers) ∧
      t.bytes = c.bytes ∧
      (∀ i, i < numBuckets → Ring t.mem (.inl i) ((bucketEntries ctx c.map i).map .inr)) ∧
      (∀ i, i < numBuckets → ∀ e ∈ bucketEntries ctx c.map i,
        (ctx.calcHash (ctx.keyOf (t.bytes e))).toNat % numBuckets = i) ∧
      (∀ e e', Stored c.map e → Stored c.map e' →
        ctx.keyOf (t.bytes e) = ctx.keyOf (t.bytes e') → e = e') ∧
      ∀ op t' o, (hashTable ctx fuel).step t op = some (t', o) →
        (o = .status 0 ∨ ∃ e, o = .element e) → t' = t := by
  have s₀ := initHash_serves hpos h₀ bytes hfuel
  have hnum : ctx.numBuckets = numBuckets := by
    simp only [initHash, Option.bind_eq_bind, Option.bind_eq_some_iff, Option.some.injEq,
      Prod.mk.injEq] at h₀
    obtain ⟨-, -, rfl, -⟩ := h₀
    rfl
  obtain ⟨t, ht, s⟩ := (hashTable_simulates ctx fuel).run s₀ hmap
  refine ⟨t, ht, s.bytes, ?_, ?_, ?_, fun _ _ _ => failed_unchanged⟩
  · intro i hi
    exact s.holds.rings.ring i (by simpa [hnum] using hi)
  · intro i _ e he
    obtain ⟨k, hk, hb⟩ := Holds.mem_bucketEntries.mp he
    have hkey := (s.holds.key k e hk).2
    have htake : k.take ctx.keySize = k := by
      rw [← hkey, HashContext.keyOf, List.take_take, Nat.min_self]
    rw [hkey, ← hb, HashContext.bucketOf, htake, hnum]
  · rintro e e' ⟨k, hk⟩ ⟨k', hk'⟩ heq
    have hkk : k = k' :=
      ((s.holds.key k e hk).2.symm.trans heq).trans (s.holds.key k' e' hk').2
    subst hkk
    exact List.NodupKeys.eq_of_mk_mem c.map.nodupKeys hk hk'

/-- Two elements of different keys in the one bucket of a hash, a third that has
the key of the first, and a deletion. -/
def collidingActions : List (Op (Fin 3)) :=
  [.alloc 0 [7], .alloc 1 [8], .alloc 2 [7], .add 0, .add 1, .add 2, .lookup [8], .del [7],
    .add 2, .lookup [7], .del [9]]

theorem hash_refines_finite_map_colliding :
    let h := initHash (ε := Fin 3) (fun _ => none) true 1 0 1 none
    ∃ ctx mem₀, h = some (ctx, mem₀) ∧ ∃ c, (keyMap ctx).run (.start fun _ => [])
        collidingActions = some (c, [.done, .done, .done, .status 1, .status 1, .status 0,
          .element (some 1), .status 1, .status 1, .element (some 2), .status 0]) ∧
      ∃ t, (hashTable ctx 12).run ⟨mem₀, fun _ => []⟩ collidingActions =
          some (t, [.done, .done, .done, .status 1, .status 1, .status 0,
            .element (some 1), .status 1, .status 1, .element (some 2), .status 0]) ∧
        t.bytes = c.bytes ∧
        (∀ i, i < 1 → Ring t.mem (.inl i) ((bucketEntries ctx c.map i).map .inr)) ∧
        (∀ i, i < 1 → ∀ e ∈ bucketEntries ctx c.map i,
          (ctx.calcHash (ctx.keyOf (t.bytes e))).toNat % 1 = i) ∧
        (∀ e e', Stored c.map e → Stored c.map e' →
          ctx.keyOf (t.bytes e) = ctx.keyOf (t.bytes e') → e = e') ∧
        ∀ op t' o, (hashTable ctx 12).step t op = some (t', o) →
          (o = .status 0 ∨ ∃ e, o = .element e) → t' = t :=
  ⟨_, _, rfl, _, rfl, hash_refines_finite_map (by decide) rfl rfl (by decide)⟩

end Runs

end HashTable

end Infra
