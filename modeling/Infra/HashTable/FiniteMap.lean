import Infra.HashTable.Basic
import Mathlib.Data.List.AList

/-!
# The bucket hash is a finite map

`Holds ctx bytes mem m` says that the buckets in `mem` store the map `m` from key
bytes to elements. The entries of a map come newest first; a bucket lists those
whose key falls into it, oldest first, and every element stored has the key under
which it is stored. So two elements of one key are never stored, whatever the
hash function does, and each function only has to look into one bucket.
-/

namespace Infra

namespace HashTable

open Infra.LinkedList

/-- A finite map from key bytes to elements. -/
abbrev KeyMap (ε : Type) := AList fun _ : List UInt8 => ε

/-- The elements of the bucket `i`, in the order in which they were added. -/
def bucketEntries {ε : Type} (ctx : HashContext) (m : KeyMap ε) (i : ℕ) : List ε :=
  (m.entries.reverse.filter fun p => ctx.bucketOf p.1 = i).map Sigma.snd

/-- The bucket heads. -/
def Buckets (ctx : HashContext) : Set ℕ := {i | i < ctx.numBuckets}

@[simp] theorem mem_buckets {ctx : HashContext} {i : ℕ} :
    i ∈ Buckets ctx ↔ i < ctx.numBuckets := Iff.rfl

/-- The element is stored in the map. -/
def Stored {ε : Type} (m : KeyMap ε) (e : ε) : Prop := ∃ k, (⟨k, e⟩ : Sigma _) ∈ m.entries

/-- The buckets in `mem` store the map `m`. -/
structure Holds {ε : Type} (ctx : HashContext) (bytes : ε → List UInt8) (mem : Heap (ℕ ⊕ ε))
    (m : KeyMap ε) : Prop where
  numBuckets : 0 < ctx.numBuckets
  rings : Rings mem (Buckets ctx) (bucketEntries ctx m)
  key : ∀ k e, (⟨k, e⟩ : Sigma _) ∈ m.entries → ctx.Readable (bytes e) ∧ ctx.keyOf (bytes e) = k

namespace Holds

variable {ε : Type} {ctx : HashContext} {bytes bytes' : ε → List UInt8}
  {mem mem' : Heap (ℕ ⊕ ε)} {m : KeyMap ε}

theorem bucketOf_mem (h : Holds ctx bytes mem m) (key : List UInt8) :
    ctx.bucketOf key ∈ Buckets ctx := Nat.mod_lt _ h.numBuckets

theorem mem_bucketEntries {i : ℕ} {e : ε} :
    e ∈ bucketEntries ctx m i ↔ ∃ k, (⟨k, e⟩ : Sigma _) ∈ m.entries ∧ ctx.bucketOf k = i := by
  simp only [bucketEntries, List.mem_map, List.mem_filter, List.mem_reverse,
    decide_eq_true_eq]
  constructor
  · rintro ⟨⟨k, x⟩, hk, rfl⟩
    exact ⟨k, hk⟩
  · rintro ⟨k, hk⟩
    exact ⟨⟨k, e⟩, hk, rfl⟩

/-- The listed elements are those that are stored. -/
theorem listed_iff (h : Holds ctx bytes mem m) {e : ε} :
    Listed (Buckets ctx) (bucketEntries ctx m) e ↔ Stored m e := by
  constructor
  · rintro ⟨i, -, he⟩
    obtain ⟨k, hk, -⟩ := mem_bucketEntries.mp he
    exact ⟨k, hk⟩
  · rintro ⟨k, hk⟩
    exact ⟨ctx.bucketOf k, h.bucketOf_mem k, mem_bucketEntries.mpr ⟨k, hk, rfl⟩⟩

/-- The relation survives a change of elements that are not stored. -/
theorem congr (h : Holds ctx bytes mem m)
    (hmem : ∀ a, Owns (Buckets ctx) (bucketEntries ctx m) a → mem' a = mem a)
    (hbytes : ∀ e, Stored m e →
      ctx.Readable (bytes' e) ∧ ctx.keyOf (bytes' e) = ctx.keyOf (bytes e)) :
    Holds ctx bytes' mem' m :=
  ⟨h.numBuckets, h.rings.congr hmem, fun k e hk =>
    ⟨(hbytes e ⟨k, hk⟩).1, (hbytes e ⟨k, hk⟩).2.trans (h.key k e hk).2⟩⟩

theorem bucketOf_take (key : List UInt8) :
    ctx.bucketOf (key.take ctx.keySize) = ctx.bucketOf key := by
  rw [HashContext.bucketOf, HashContext.bucketOf, List.take_take, Nat.min_self]

/-- The comparison of the loops, on an element that is stored. -/
theorem hasKey_eq (h : Holds ctx bytes mem m) {key : List UInt8} (hkey : ctx.keySize ≤ key.length)
    {e : ε} (he : Stored m e) :
    hasKey ctx bytes key (.inr e) =
      some (decide (ctx.keyOf (bytes e) = key.take ctx.keySize)) := by
  obtain ⟨k, hk⟩ := he
  have hread : ctx.keySize ≤ ((bytes e).drop ctx.keyOffset).length := by
    have := (h.key k e hk).1
    rw [HashContext.Readable] at this
    rw [List.length_drop]
    omega
  rw [hasKey, memcmpEq, if_pos ⟨hkey, hread⟩, HashContext.keyOf]
  exact congrArg some (decide_eq_decide.mpr eq_comm)

variable [DecidableEq ε]

/-- The search in the bucket of a key finds what the map holds. -/
theorem find_eq (h : Holds ctx bytes mem m) {key : List UInt8} (hkey : ctx.keySize ≤ key.length)
    {fuel : ℕ} (hfuel : m.entries.length < fuel) :
    listFind mem (hasKey ctx bytes key) (.inl (ctx.bucketOf key)) fuel =
      some ((m.lookup (key.take ctx.keySize)).map .inr) := by
  let k := key.take ctx.keySize
  let b : ℕ ⊕ ε → Bool := Sum.elim (fun _ => false) fun e => decide (ctx.keyOf (bytes e) = k)
  have hring := h.rings.ring _ (h.bucketOf_mem key)
  have htest : ∀ x ∈ (bucketEntries ctx m (ctx.bucketOf key)).map Sum.inr,
      hasKey ctx bytes key x = some (b x) := by
    intro x hx
    obtain ⟨e, he, rfl⟩ := List.mem_map.mp hx
    obtain ⟨j, hj, -⟩ := mem_bucketEntries.mp he
    exact h.hasKey_eq hkey ⟨j, hj⟩
  have hlen : ((bucketEntries ctx m (ctx.bucketOf key)).map
      (Sum.inr : ε → ℕ ⊕ ε)).length < fuel := by
    have := List.length_filter_le (fun p : Sigma fun _ : List UInt8 => ε =>
      decide (ctx.bucketOf p.1 = ctx.bucketOf key)) m.entries.reverse
    simp only [bucketEntries, List.length_map, List.length_reverse] at this ⊢
    omega
  rw [hring.listFind_eq htest hlen, List.find?_map]
  congr 2
  cases hl : m.lookup k with
  | none =>
      rw [List.find?_eq_none]
      intro e he
      obtain ⟨j, hj, -⟩ := mem_bucketEntries.mp he
      have hne : j ≠ k := by
        rintro rfl
        have := AList.mem_lookup_iff.mpr hj
        simp [hl] at this
      simpa [b, (h.key j e hj).2] using hne
  | some e =>
      have hmem : (⟨k, e⟩ : Sigma _) ∈ m.entries := AList.mem_lookup_iff.mp hl
      have hin : e ∈ bucketEntries ctx m (ctx.bucketOf key) :=
        mem_bucketEntries.mpr ⟨k, hmem, bucketOf_take key⟩
      have hsome : ((bucketEntries ctx m (ctx.bucketOf key)).find? (b ∘ Sum.inr)).isSome := by
        rw [List.find?_isSome]
        exact ⟨e, hin, by simp [b, (h.key k e hmem).2]⟩
      obtain ⟨x, hx⟩ := Option.isSome_iff_exists.mp hsome
      obtain ⟨j, hj, -⟩ := mem_bucketEntries.mp (List.mem_of_find?_eq_some hx)
      have hjk : j = k := by
        have := List.find?_some hx
        simpa [b, (h.key j x hj).2] using this
      rw [hx, ← hl, ← hjk]
      exact (AList.mem_lookup_iff.mpr hj).symm

/-- `lookupHash` reads the map. -/
theorem lookupHash_eq (h : Holds ctx bytes mem m) {key : List UInt8}
    (hkey : ctx.keySize ≤ key.length) {fuel : ℕ} (hfuel : m.entries.length < fuel) :
    lookupHash ctx bytes fuel mem key = some (m.lookup (key.take ctx.keySize)) := by
  have hndx : ctx.bucketOf key % ctx.numBuckets = ctx.bucketOf key := Nat.mod_mod _ _
  rw [lookupHash, hndx, h.find_eq hkey hfuel]
  cases m.lookup (key.take ctx.keySize) <;> rfl

omit [DecidableEq ε] in
/-- An element that is added goes to the end of the bucket of its key. -/
theorem bucketEntries_insert {k : List UInt8} (hk : k ∉ m) (e : ε) :
    bucketEntries ctx (m.insert k e) = Function.update (bucketEntries ctx m) (ctx.bucketOf k)
      (bucketEntries ctx m (ctx.bucketOf k) ++ [e]) := by
  funext i
  rw [bucketEntries, AList.entries_insert_of_notMem hk, List.reverse_cons]
  by_cases hi : i = ctx.bucketOf k
  · subst hi
    rw [Function.update_self]
    simp [bucketEntries]
  · rw [Function.update_of_ne hi]
    simp [bucketEntries, Ne.symm hi]

/-- `addHash` of an unlinked element inserts it, unless its key is stored. -/
theorem addHash_spec (h : Holds ctx bytes mem m) {e : ε} (hlive : mem.Live (.inr e))
    (he : ¬ Stored m e) (hread : ctx.Readable (bytes e)) {fuel : ℕ}
    (hfuel : m.entries.length < fuel) :
    if ctx.keyOf (bytes e) ∈ m then addHash ctx bytes fuel mem e = some (mem, 0)
    else ∃ mem', addHash ctx bytes fuel mem e = some (mem', 1) ∧
      Holds ctx bytes mem' (m.insert (ctx.keyOf (bytes e)) e) ∧
      ∀ a, mem'.Live a ↔ mem.Live a := by
  have hkey : ctx.keySize ≤ ((bytes e).drop ctx.keyOffset).length := by
    rw [HashContext.Readable] at hread
    rw [List.length_drop]
    omega
  have hlookup := h.lookupHash_eq hkey hfuel
  change _ = some (m.lookup (ctx.keyOf (bytes e))) at hlookup
  split
  · next hin =>
    have := AList.lookup_isSome.mpr hin
    simp [addHash, hlookup, this]
  · next hin =>
    have hnone := AList.lookup_eq_none.mpr hin
    obtain ⟨mem', e', r', s'⟩ := h.rings.listAddTail_spec
      (h.bucketOf_mem ((bytes e).drop ctx.keyOffset)) hlive (fun hl => he (h.listed_iff.mp hl))
    refine ⟨mem', by simp [addHash, hlookup, hnone, e'], ⟨h.numBuckets, ?_, ?_⟩, s'.live⟩
    · have hb : ctx.bucketOf (ctx.keyOf (bytes e)) =
          ctx.bucketOf ((bytes e).drop ctx.keyOffset) := bucketOf_take _
      rw [bucketEntries_insert hin, hb]
      exact r'
    · intro k x hk
      rw [AList.entries_insert_of_notMem hin] at hk
      rcases List.mem_cons.mp hk with hk | hk
      · cases hk
        exact ⟨hread, rfl⟩
      · exact h.key k x hk

/-- An element that is deleted leaves the bucket of its key. -/
theorem bucketEntries_erase (h : Holds ctx bytes mem m) {k : List UInt8} {e : ε}
    (hk : m.lookup k = some e) (i : ℕ) :
    bucketEntries ctx (m.erase k) i = (bucketEntries ctx m i).erase e := by
  have hin : k ∈ m.entries.keys := AList.lookup_isSome.mp (by simp [hk])
  obtain ⟨x, l₁, l₂, hnot, hsplit, herase⟩ := List.exists_of_kerase hin
  have hx : x = e := by
    have : m.lookup k = some x := AList.mem_lookup_iff.mpr (by simp [hsplit])
    exact Option.some.inj (this.symm.trans hk)
  subst hx
  -- no other entry has the element, since its bytes have one key
  have hother : ∀ p ∈ l₂, p.2 ≠ x := by
    rintro ⟨j, y⟩ hp rfl
    have hj := (h.key j y (by simp [hsplit, hp])).2
    have hk' := (h.key k y (by simp [hsplit])).2
    have hnd := m.nodupKeys
    rw [hsplit, List.nodupKeys_iff_pairwise, List.pairwise_append] at hnd
    exact (List.pairwise_cons.mp hnd.2.1).1 ⟨j, y⟩ hp (hk'.symm.trans hj)
  have hentries : (m.erase k).entries = l₁ ++ l₂ := herase
  rw [bucketEntries, bucketEntries, hentries, hsplit]
  simp only [List.reverse_append, List.reverse_cons, List.filter_append, List.map_append,
    List.append_assoc]
  have hnotin : x ∉ (l₂.reverse.filter fun p => ctx.bucketOf p.1 = i).map Sigma.snd := by
    intro hm
    obtain ⟨p, hp, hpx⟩ := List.mem_map.mp hm
    exact hother p (List.mem_reverse.mp (List.mem_filter.mp hp).1) hpx
  rw [List.erase_append_right _ hnotin]
  by_cases hi : ctx.bucketOf k = i
  · simp [hi]
  · have hnotin₁ : x ∉ (l₁.reverse.filter fun p => ctx.bucketOf p.1 = i).map Sigma.snd := by
      intro hm
      obtain ⟨⟨j, y⟩, hp, hpx⟩ := List.mem_map.mp hm
      obtain rfl : y = x := hpx
      have hjm := List.mem_reverse.mp (List.mem_filter.mp hp).1
      have hj := (h.key j y (by simp [hsplit, hjm])).2
      have hk' := (h.key k y (by simp [hsplit])).2
      exact hnot (hj.symm.trans hk' ▸ List.mem_keys_of_mem hjm)
    rw [List.filter_cons_of_neg (by simpa using hi), List.filter_nil, List.map_nil,
      List.nil_append, List.erase_of_not_mem hnotin₁]

/-- `delHash` takes the element of its key out of the map. -/
theorem delHash_spec (h : Holds ctx bytes mem m) {key : List UInt8}
    (hkey : ctx.keySize ≤ key.length) {fuel : ℕ} (hfuel : m.entries.length < fuel) :
    if key.take ctx.keySize ∈ m then
      ∃ mem', delHash ctx bytes fuel mem key = some (mem', 1) ∧
        Holds ctx bytes mem' (m.erase (key.take ctx.keySize)) ∧ ∀ a, mem'.Live a ↔ mem.Live a
    else delHash ctx bytes fuel mem key = some (mem, 0) := by
  have hlookup := h.lookupHash_eq hkey hfuel
  split
  · next hin =>
    obtain ⟨e, he⟩ := Option.isSome_iff_exists.mp (AList.lookup_isSome.mpr hin)
    have hfind := h.find_eq hkey hfuel
    rw [he, Option.map_some] at hfind
    have hstored : Stored m e := ⟨_, AList.mem_lookup_iff.mp he⟩
    obtain ⟨mem', e', r', s'⟩ := h.rings.listDel_spec (h.listed_iff.mpr hstored)
    refine ⟨mem', by simp [delHash, hlookup, he, hfind, e'], ⟨h.numBuckets, ?_, ?_⟩, s'.live⟩
    · exact r'.congr_entries fun i _ => h.bucketEntries_erase he i
    · intro k x hk
      exact h.key k x ((List.kerase_sublist _ _).subset hk)
  · next hin =>
    have hnone := AList.lookup_eq_none.mpr hin
    simp [delHash, hlookup, hnone]

end Holds

end HashTable

end Infra
