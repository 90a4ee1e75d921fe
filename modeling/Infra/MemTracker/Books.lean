import Infra.MemTracker.Basic

/-!
# The books of the allocation tracker

`Books s m count size` says that the tracker `s` keeps exact books: `memHash`
stores the map `m` from the key bytes of a place to its `AllocInfo`, the places
with a positive `count` are those that have one, and there the counters are
`count` and `size`, modulo `2 ^ 32`. `checkMalloc` enters a block into the books
of its place and `checkFree` takes it out, whichever place that is.
-/

namespace Infra

namespace MemTracker

open Infra.LinkedList Infra.HashTable

/-- The place that a tag names. -/
def MemDebugTag.site (tag : MemDebugTag) : Site := ⟨tag.file, tag.line⟩

/-- The key bytes of a place. -/
def siteKey (site : Site) : List UInt8 := leBytes 8 site.file.toNat ++ leBytes 4 site.line.toNat

/-- The hash context of the tracker. -/
def siteHash : HashContext := ⟨bucketSize, 0, sizeofTag - 4, djbHash⟩

section Keys

@[simp] theorem siteKey_length (site : Site) : (siteKey site).length = 12 := by simp [siteKey]

theorem siteKey_injective : Function.Injective siteKey := by
  intro a b h
  obtain ⟨hfile, hline⟩ := List.append_inj h (by simp)
  have h₁ : a.file = b.file :=
    BitVec.eq_of_toNat_eq (leBytes_injective a.file.isLt b.file.isLt hfile)
  have h₂ : a.line = b.line :=
    BitVec.eq_of_toNat_eq (leBytes_injective a.line.isLt b.line.isLt hline)
  cases a
  cases b
  cases h₁
  cases h₂
  rfl

theorem tagBytes_take (tag : MemDebugTag) :
    (tagBytes tag).take siteHash.keySize = siteKey tag.site :=
  List.take_left' (siteKey_length tag.site)

theorem tagBytes_length (tag : MemDebugTag) : siteHash.keySize ≤ (tagBytes tag).length := by
  simp [tagBytes, siteHash, sizeofTag]

/-- The size field of the tag and the counters are not part of the key. -/
theorem keyOf_infoBytes (info : AllocInfo) :
    siteHash.keyOf (infoBytes info) = siteKey info.tag.site := by
  rw [HashContext.keyOf, infoBytes, List.append_assoc]
  change List.take siteHash.keySize (tagBytes info.tag ++ _) = _
  rw [List.take_append_of_le_length (tagBytes_length info.tag), tagBytes_take]

theorem readable_infoBytes (info : AllocInfo) : siteHash.Readable (infoBytes info) := by
  simp [HashContext.Readable, infoBytes, tagBytes, siteHash, sizeofTag]

end Keys

/-- The books of the tracker are exact. -/
structure Books {β ε : Type} (s : Tracker β ε) (m : KeyMap ε) (count size : Site → ℕ) :
    Prop where
  memHash : s.memHash = siteHash
  holds : Holds siteHash s.bytes s.mem m
  absent : ∀ site, m.lookup (siteKey site) = none → count site = 0
  present : ∀ site e, m.lookup (siteKey site) = some e → 0 < count site ∧
    (s.infos e).count = BitVec.ofNat 32 (count site) ∧
    (s.infos e).totalSize = BitVec.ofNat 32 (size site)
  empty : ∀ site, count site = 0 → size site = 0

namespace Books

variable {β ε : Type} [DecidableEq ε] {s : Tracker β ε} {m : KeyMap ε} {count size : Site → ℕ}

omit [DecidableEq ε] in
/-- The `AllocInfo` of a place names that place. -/
theorem site_eq (b : Books s m count size) {site : Site} {e : ε}
    (h : m.lookup (siteKey site) = some e) : (s.infos e).tag.site = site := by
  have := (b.holds.key _ _ (AList.mem_lookup_iff.mp h)).2
  rw [Tracker.bytes, keyOf_infoBytes] at this
  exact siteKey_injective this

omit [DecidableEq ε] in
theorem eq_of_lookup (b : Books s m count size) {site site' : Site} {e : ε}
    (h : m.lookup (siteKey site) = some e) (h' : m.lookup (siteKey site') = some e) :
    site' = site := (b.site_eq h').symm.trans (b.site_eq h)

omit [DecidableEq ε] in
/-- The books do not depend on the blocks. -/
theorem of_blocks [DecidableEq β] (b : Books s m count size) (blocks : AList fun _ : β => Block) :
    Books { s with blocks := blocks } m count size :=
  ⟨b.memHash, b.holds, b.absent, b.present, b.empty⟩

/-- Changing the counters of an `AllocInfo` keeps the hash. -/
theorem holds_counters {mem : Heap (ℕ ⊕ ε)} {infos : ε → AllocInfo}
    (h : Holds siteHash (fun e => infoBytes (infos e)) mem m) (e : ε) (info : AllocInfo)
    (htag : info.tag.site = (infos e).tag.site) :
    Holds siteHash (fun x => infoBytes (Function.update infos e info x)) mem m := by
  refine h.congr (fun _ _ => rfl) fun x _ => ⟨readable_infoBytes _, ?_⟩
  rw [keyOf_infoBytes, keyOf_infoBytes]
  by_cases hx : x = e
  · subst hx
    rw [Function.update_self, htag]
  · rw [Function.update_of_ne hx]

/-- The books after the `AllocInfo` of one place got new counters. -/
theorem of_counters (b : Books s m count size) {site : Site} {e : ε}
    (hl : m.lookup (siteKey site) = some e) {n k : ℕ} (hn : 0 < n) (info : AllocInfo)
    (htag : info.tag.site = site) (hcount : info.count = BitVec.ofNat 32 n)
    (hsize : info.totalSize = BitVec.ofNat 32 k) :
    Books { s with infos := Function.update s.infos e info } m
      (Function.update count site n) (Function.update size site k) := by
  refine ⟨b.memHash, holds_counters b.holds e info (htag.trans (b.site_eq hl).symm), ?_, ?_, ?_⟩
  · intro site' h
    have hne : site' ≠ site := by
      rintro rfl
      simp [hl] at h
    rw [Function.update_of_ne hne]
    exact b.absent site' h
  · intro site' e' h
    by_cases hs : site' = site
    · subst hs
      obtain rfl : e = e' := Option.some.inj (hl.symm.trans h)
      simpa using ⟨hn, hcount, hsize⟩
    · have hne : e' ≠ e := by
        rintro rfl
        exact hs (b.eq_of_lookup hl h)
      simpa only [Function.update_of_ne hs, Function.update_of_ne hne] using b.present site' e' h
  · intro site' h
    by_cases hs : site' = site
    · subst hs
      rw [Function.update_self] at h
      omega
    · rw [Function.update_of_ne hs] at h ⊢
      exact b.empty site' h

omit [DecidableEq ε] in
theorem not_stored (b : Books s m count size) {e : ε} (he : ¬ s.mem.Live (.inr e)) :
    ¬ Stored m e :=
  fun h => he (b.holds.rings.live (b.holds.listed_iff.mpr h))

/-- A new `AllocInfo` for a place that has none. -/
theorem enter_new (b : Books s m count size) {fuel : ℕ} (hfuel : m.entries.length < fuel)
    (tag : MemDebugTag) {e : ε} (he : ¬ s.mem.Live (.inr e))
    (hl : m.lookup (siteKey tag.site) = none) :
    ∃ mem, addHash siteHash (fun x => infoBytes (Function.update s.infos e ⟨tag, 0, 0⟩ x)) fuel
        (s.mem.alloc (.inr e)) e = some (mem, 1) ∧
      Books { s with mem := mem, infos := Function.update s.infos e ⟨tag, 0 + 1, 0 + tag.size⟩ }
        (m.insert (siteKey tag.site) e) (Function.update count tag.site (count tag.site + 1))
        (Function.update size tag.site (size tag.site + tag.size.toNat)) ∧
      ∀ x, mem.Live (.inr x) → x = e ∨ s.mem.Live (.inr x) := by
  have hold := b.not_stored he
  have hnot : siteKey tag.site ∉ m := AList.lookup_eq_none.mp hl
  have hnew : ∀ x, Stored m x → x ≠ e := by
    rintro x hx rfl
    exact hold hx
  have h₁ : Holds siteHash (fun x => infoBytes (Function.update s.infos e ⟨tag, 0, 0⟩ x))
      (s.mem.alloc (.inr e)) m := by
    refine b.holds.congr (fun a ha => ?_) fun x hx => ⟨readable_infoBytes _, ?_⟩
    · apply Function.update_of_ne
      rintro rfl
      exact hold (b.holds.listed_iff.mp ha)
    · simp only [Tracker.bytes, Function.update_of_ne (hnew x hx)]
  have hkey : siteHash.keyOf (infoBytes (Function.update s.infos e ⟨tag, 0, 0⟩ e)) =
      siteKey tag.site := by
    rw [keyOf_infoBytes, Function.update_self]
  have hadd := h₁.addHash_spec (e := e) (by simp [Heap.Live, Heap.alloc]) hold
    (readable_infoBytes _) hfuel
  rw [hkey, if_neg hnot] at hadd
  obtain ⟨mem, hmem, h₂, hlive⟩ := hadd
  have h₃ := holds_counters h₂ e ⟨tag, 0 + 1, 0 + tag.size⟩ (by simp)
  rw [Function.update_idem] at h₃
  have hzero := b.absent tag.site hl
  refine ⟨mem, hmem, ⟨b.memHash, h₃, ?_, ?_, ?_⟩, ?_⟩
  · intro site h
    have hs : site ≠ tag.site := by
      rintro rfl
      simp at h
    rw [Function.update_of_ne hs]
    rw [AList.lookup_insert_ne fun h => hs (siteKey_injective h)] at h
    exact b.absent site h
  · intro site x h
    by_cases hs : site = tag.site
    · subst hs
      rw [AList.lookup_insert] at h
      obtain rfl := Option.some.inj h
      simp [hzero, b.empty _ hzero]
    · rw [AList.lookup_insert_ne fun h => hs (siteKey_injective h)] at h
      have hx := hnew x ⟨_, AList.mem_lookup_iff.mp h⟩
      simpa only [Function.update_of_ne hs, Function.update_of_ne hx] using b.present site x h
  · intro site h
    by_cases hs : site = tag.site
    · subst hs
      simp at h
    · rw [Function.update_of_ne hs] at h ⊢
      exact b.empty site h
  · intro x hx
    by_cases hxe : x = e
    · exact Or.inl hxe
    · have hne : (Sum.inr x : ℕ ⊕ ε) ≠ .inr e := by simpa using hxe
      have := (hlive _).mp hx
      rw [Heap.Live, Heap.alloc, Function.update_of_ne hne] at this
      exact Or.inr this

/-- What the tracker finds under a tag. -/
theorem lookupHash_eq (b : Books s m count size) {fuel : ℕ} (hfuel : m.entries.length < fuel)
    (tag : MemDebugTag) : lookupHash siteHash s.bytes fuel s.mem (tagBytes tag) =
      some (m.lookup (siteKey tag.site)) := by
  rw [b.holds.lookupHash_eq (tagBytes_length tag) hfuel, tagBytes_take]

/-- `checkMalloc` enters a block into the books of its place, when this has an `AllocInfo`
or gets one. -/
theorem checkMalloc (b : Books s m count size) {fuel : ℕ} (hfuel : m.entries.length < fuel)
    (tag : MemDebugTag) {info : Option ε} (hinfo : ∀ e, info = some e → ¬ s.mem.Live (.inr e))
    (hcounts : (m.lookup (siteKey tag.site)).isSome ∨ info.isSome) :
    ∃ s' m', MemTracker.checkMalloc fuel s tag info = some s' ∧
      Books s' m' (Function.update count tag.site (count tag.site + 1))
        (Function.update size tag.site (size tag.site + tag.size.toNat)) ∧
      s'.blocks = s.blocks ∧ m'.entries.length ≤ m.entries.length + 1 ∧
      ∀ x, s'.mem.Live (.inr x) → info = some x ∨ s.mem.Live (.inr x) := by
  have hlookup := b.lookupHash_eq hfuel tag
  cases hl : m.lookup (siteKey tag.site) with
  | none =>
      obtain ⟨e, rfl⟩ := Option.isSome_iff_exists.mp (hcounts.resolve_left (by simp [hl]))
      obtain ⟨mem, hmem, b', hlive⟩ := b.enter_new hfuel tag (hinfo e rfl) hl
      have hnot : siteKey tag.site ∉ m := AList.lookup_eq_none.mp hl
      refine ⟨_, _, ?_, b', rfl, ?_, fun x hx => (hlive x hx).imp_left (congrArg some ·.symm)⟩
      · simp only [MemTracker.checkMalloc, b.memHash, hlookup, hl, Option.bind_eq_bind,
          Option.bind_some, Function.update_idem]
        exact congrArg (Option.bind · _) hmem
      · rw [AList.entries_insert_of_notMem hnot, List.length_cons]
  | some x =>
      obtain ⟨-, hcount, hsize⟩ := b.present _ _ hl
      refine ⟨_, m, ?_, b.of_counters hl (Nat.succ_pos _)
        ⟨(s.infos x).tag, (s.infos x).count + 1, (s.infos x).totalSize + tag.size⟩
        (b.site_eq hl) ?_ ?_, rfl, Nat.le_succ _, fun _ => Or.inr⟩
      · simp only [MemTracker.checkMalloc, b.memHash, hlookup, hl, Option.bind_eq_bind,
          Option.bind_some]
      · simp [hcount, BitVec.ofNat_add]
      · simp [hsize, BitVec.ofNat_add]

/-- The books after the `AllocInfo` of a place was deleted and freed. -/
theorem leave_last (b : Books s m count size) {fuel : ℕ} (hfuel : m.entries.length < fuel)
    (tag : MemDebugTag) {e : ε} (hl : m.lookup (siteKey tag.site) = some e) (info : AllocInfo)
    (htag : info.tag.site = tag.site) :
    ∃ mem, delHash siteHash (fun x => infoBytes (Function.update s.infos e info x)) fuel s.mem
        (tagBytes tag) = some (mem, 1) ∧
      Books { s with mem := mem.free (.inr e), infos := Function.update s.infos e info }
        (m.erase (siteKey tag.site)) (Function.update count tag.site 0)
        (Function.update size tag.site 0) ∧
      ∀ a, (mem.free (.inr e)).Live a → s.mem.Live a := by
  have h₁ := holds_counters b.holds e info (htag.trans (b.site_eq hl).symm)
  have hdel := h₁.delHash_spec (tagBytes_length tag) hfuel
  rw [tagBytes_take, if_pos (AList.lookup_isSome.mp (by simp [hl]))] at hdel
  obtain ⟨mem, hmem, h₂, hlive⟩ := hdel
  have hgone : ∀ site, (m.erase (siteKey tag.site)).lookup (siteKey site) ≠ some e := by
    intro site h
    by_cases hs : site = tag.site
    · subst hs
      simp at h
    · rw [AList.lookup_erase_ne fun h => hs (siteKey_injective h)] at h
      exact hs (b.eq_of_lookup hl h)
  have hnot : ¬ Stored (m.erase (siteKey tag.site)) e := by
    rintro ⟨k, hk⟩
    obtain rfl : siteKey tag.site = k := by
      rw [← (h₂.key k e hk).2, keyOf_infoBytes, Function.update_self, htag]
    exact hgone tag.site (AList.mem_lookup_iff.mpr hk)
  have hfree : ∀ a,
      Owns (Buckets siteHash) (bucketEntries siteHash (m.erase (siteKey tag.site))) a →
        mem.free (.inr e) a = mem a := by
    intro a ha
    apply Function.update_of_ne
    rintro rfl
    exact hnot (h₂.listed_iff.mp ha)
  have h₃ := h₂.congr hfree fun x _ => ⟨readable_infoBytes _, rfl⟩
  refine ⟨mem, hmem, ⟨b.memHash, h₃, ?_, ?_, ?_⟩, fun a ha => (hlive a).mp ?_⟩
  · intro site h
    by_cases hs : site = tag.site
    · rw [hs, Function.update_self]
    · rw [AList.lookup_erase_ne fun h => hs (siteKey_injective h)] at h
      rw [Function.update_of_ne hs]
      exact b.absent site h
  · intro site x h
    have hx : x ≠ e := by
      rintro rfl
      exact hgone site h
    by_cases hs : site = tag.site
    · subst hs
      simp at h
    · rw [AList.lookup_erase_ne fun h => hs (siteKey_injective h)] at h
      simpa only [Function.update_of_ne hs, Function.update_of_ne hx] using b.present site x h
  · intro site h
    by_cases hs : site = tag.site
    · rw [hs, Function.update_self]
    · rw [Function.update_of_ne hs] at h ⊢
      exact b.empty site h
  · by_cases hae : a = .inr e
    · subst hae
      simp [Heap.Live, Heap.free] at ha
    · rwa [Heap.Live, Heap.free, Function.update_of_ne hae] at ha

/-- `checkFree` takes one off the books of a place, and the last one takes the
`AllocInfo` along. The size in the tag goes off the size of the place, whatever that
leaves. -/
theorem checkFree_of_size (b : Books s m count size) {fuel : ℕ} (hfuel : m.entries.length < fuel)
    (tag : MemDebugTag) (hpos : 0 < count tag.site) (hmax : count tag.site < 2 ^ 32) {k : ℕ}
    (hlast : count tag.site = 1 → k = 0)
    (hk : count tag.site ≠ 1 →
      BitVec.ofNat 32 (size tag.site) - tag.size = BitVec.ofNat 32 k) :
    ∃ s' m', MemTracker.checkFree fuel s tag = some s' ∧
      Books s' m' (Function.update count tag.site (count tag.site - 1))
        (Function.update size tag.site k) ∧
      s'.blocks = s.blocks ∧ m'.entries.length ≤ m.entries.length ∧
      ∀ a, s'.mem.Live a → s.mem.Live a := by
  have hlookup := b.lookupHash_eq hfuel tag
  obtain ⟨x, hl⟩ : ∃ x, m.lookup (siteKey tag.site) = some x := by
    cases hl : m.lookup (siteKey tag.site) with
    | none =>
        have := b.absent _ hl
        omega
    | some x => exact ⟨x, rfl⟩
  obtain ⟨-, hcount, hsize⟩ := b.present _ _ hl
  have hdec : (s.infos x).count - 1 = BitVec.ofNat 32 (count tag.site - 1) := by
    rw [hcount]
    exact BitVec.ofNat_sub_ofNat_of_le _ 1 (by decide) hpos
  by_cases hone : count tag.site = 1
  · obtain ⟨mem, hmem, b', hlive⟩ := b.leave_last hfuel tag hl
      ⟨(s.infos x).tag, (s.infos x).count - 1, (s.infos x).totalSize - tag.size⟩ (b.site_eq hl)
    rw [hone, hlast hone, Nat.sub_self]
    refine ⟨_, _, ?_, b', rfl, (List.kerase_sublist _ _).length_le, hlive⟩
    have hzero : (s.infos x).count - 1 = 0 := by
      rw [hdec, hone]
      rfl
    simp only [MemTracker.checkFree, b.memHash, hlookup, hl, Option.bind_eq_bind,
      Option.bind_some, hzero, if_true] at hmem ⊢
    exact congrArg (Option.bind · _) hmem
  · refine ⟨_, m, ?_, b.of_counters hl (by omega)
      ⟨(s.infos x).tag, (s.infos x).count - 1, (s.infos x).totalSize - tag.size⟩
      (b.site_eq hl) hdec (hsize ▸ hk hone), rfl, le_rfl, fun _ => id⟩
    have hne : ¬ (s.infos x).count - 1 = 0 := by
      rw [hdec]
      intro h
      have := congrArg BitVec.toNat h
      rw [BitVec.toNat_ofNat, Nat.mod_eq_of_lt (by omega)] at this
      simp at this
      omega
    simp only [MemTracker.checkFree, b.memHash, hlookup, hl, Option.bind_eq_bind,
      Option.bind_some, hne, if_false]

/-- `checkFree` takes a block out of the books of its place. -/
theorem checkFree (b : Books s m count size) {fuel : ℕ} (hfuel : m.entries.length < fuel)
    (tag : MemDebugTag) (hpos : 0 < count tag.site) (hmax : count tag.site < 2 ^ 32)
    (hle : tag.size.toNat ≤ size tag.site)
    (hlast : count tag.site = 1 → size tag.site = tag.size.toNat) :
    ∃ s' m', MemTracker.checkFree fuel s tag = some s' ∧
      Books s' m' (Function.update count tag.site (count tag.site - 1))
        (Function.update size tag.site (size tag.site - tag.size.toNat)) ∧
      s'.blocks = s.blocks ∧ m'.entries.length ≤ m.entries.length ∧
      ∀ a, s'.mem.Live a → s.mem.Live a := by
  refine b.checkFree_of_size hfuel tag hpos hmax
    (fun h => Nat.sub_eq_zero_of_le (hlast h).le) fun _ => ?_
  rw [← BitVec.ofNat_sub_ofNat_of_le _ _ tag.size.isLt hle, BitVec.ofNat_toNat,
    BitVec.setWidth_eq]

end Books

end MemTracker

end Infra
