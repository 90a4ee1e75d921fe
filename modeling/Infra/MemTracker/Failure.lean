import Infra.Foundation.Trace
import Infra.MemTracker.Exact

/-!
# Allocation failure

A block whose `AllocInfo` could not be allocated is not counted, and its tag looks like
that of any other block. So the books of the tracker are those of the counted blocks,
for as long as a block that was not counted is given back only when its place has no
counted block: `checkFree` would take one of these off the books. `debug_realloc` and
`debug_strdup` write through the pointer that the underlying allocator returns, and fail
with it.
-/

namespace Infra

namespace MemTracker

open Infra.LinkedList Infra.HashTable

/-- A tracker with the live blocks that were counted when they were allocated. -/
structure Ledger (β ε : Type) where
  tracker : Tracker β ε
  counted : AList fun _ : β => Block

/-- The tracker with the counted blocks alone. -/
def Ledger.ofCounted {β ε : Type} (L : Ledger β ε) : Tracker β ε :=
  { L.tracker with blocks := L.counted }

/-- The number of live blocks of a place that were counted. -/
def Ledger.countedBlocks {β ε : Type} (L : Ledger β ε) : Site → ℕ := liveBlocks L.ofCounted

section Definitions

variable {β ε : Type} [DecidableEq β] [DecidableEq ε]

/-- `checkMalloc` counts the block: it finds an `AllocInfo` or gets one. -/
def counts (fuel : ℕ) (s : Tracker β ε) (tag : MemDebugTag) (info : Option ε) : Bool :=
  match lookupHash s.memHash s.bytes fuel s.mem (tagBytes tag) with
  | some (some _) => true
  | _ => info.isSome

/-- The counted blocks after an allocation. -/
def allocated (fuel : ℕ) (s : Tracker β ε) (counted : AList fun _ : β => Block)
    (size : BitVec 64) (site : Site) (grant : Grant β ε) : AList fun _ : β => Block :=
  match grant.ptr with
  | none => counted
  | some ptr =>
      if counts fuel s (tagOf site size) grant.info then counted.insert ptr (blockOf size site)
      else counted

/-- The counted blocks after a call. -/
def Op.counted (fuel : ℕ) (L : Ledger β ε) : Op β ε → AList fun _ : β => Block
  | .malloc size site grant | .realloc none size site grant =>
      allocated fuel L.tracker L.counted size site grant
  | .calloc n size site grant =>
      allocated fuel L.tracker L.counted (n.signExtend 64 * size) site grant
  | .strdup str site grant =>
      allocated fuel L.tracker L.counted (BitVec.ofNat 64 (str.length + 1)) site grant
  | .realloc (some ptr) size site grant =>
      let freed := (L.tracker.blocks.lookup ptr).bind fun b => checkFree fuel L.tracker b.tag
      match grant.ptr, freed with
      | some _, some s => allocated fuel s (L.counted.erase ptr) size site grant
      | _, _ => L.counted
  | .free ptr => L.counted.erase ptr

/-- The underlying allocator gives nothing that is in use, except that `realloc` may give
the block it was asked to change. -/
def Grant.Fresh (s : Tracker β ε) (old : Option β) (grant : Grant β ε) : Prop :=
  (∀ ptr, grant.ptr = some ptr → ptr ∈ s.blocks → old = some ptr) ∧
    ∀ e, grant.info = some e → ¬ s.mem.Live (.inr e)

/-- What a client and the underlying allocator respect: blocks that are reallocated or
freed are live. Any allocation may fail. -/
def Op.Possible (fuel : ℕ) (s : Tracker β ε) : Op β ε → Prop
  | .malloc _ _ grant | .calloc _ _ _ grant | .strdup _ _ grant | .realloc none _ _ grant =>
      grant.Fresh s none
  | .realloc (some ptr) _ _ grant => ∃ block, s.blocks.lookup ptr = some block ∧
      ∀ s', checkFree fuel s block.tag = some s' → grant.Fresh s' (some ptr)
  | .free ptr => ptr ∈ s.blocks

/-- The counter of the place can count another block. -/
def Ledger.HasRoom (L : Ledger β ε) (site : Site) : Prop := L.countedBlocks site + 1 < 2 ^ 31

/-- The block was counted, or its place has no counted block. -/
def Ledger.Owned (L : Ledger β ε) (ptr : β) : Prop :=
  ptr ∈ L.counted ∨
    ∀ block, L.tracker.blocks.lookup ptr = some block → L.countedBlocks block.tag.site = 0

/-- `debug_realloc` and `debug_strdup` get their block, a block that is given back is
owned, and the counter of a place has room for a block that is given out. -/
def Op.Safe (L : Ledger β ε) : Op β ε → Prop
  | .malloc _ site grant | .calloc _ _ site grant => grant.ptr ≠ none → L.HasRoom site
  | .strdup _ site grant | .realloc none _ site grant => grant.ptr ≠ none ∧ L.HasRoom site
  | .realloc (some ptr) _ site grant => grant.ptr ≠ none ∧ L.Owned ptr ∧
      Ledger.HasRoom { L with counted := L.counted.erase ptr } site
  | .free ptr => L.Owned ptr

/-- The block of the call cannot be allocated. -/
def Op.Refused : Op β ε → Prop
  | .malloc _ _ grant | .calloc _ _ _ grant | .strdup _ _ grant | .realloc _ _ _ grant =>
      grant.ptr = none
  | .free _ => False

/-- `memHash` stores an `AllocInfo` for each place that has a counted block, with the
number of its counted blocks, and none for another place. -/
structure Balanced (L : Ledger β ε) (m : KeyMap ε) : Prop where
  stores : Holds L.tracker.memHash L.tracker.bytes L.tracker.mem m
  live : ∀ ptr block, L.counted.lookup ptr = some block → L.tracker.blocks.lookup ptr = some block
  absent : ∀ site, m.lookup (siteKey site) = none ↔ L.countedBlocks site = 0
  count : ∀ site e, m.lookup (siteKey site) = some e →
    (L.tracker.infos e).count.toInt = L.countedBlocks site

/-- A step of a run, with the counted blocks. -/
def Steps (fuel : ℕ) (L : Ledger β ε) (op : Op β ε) (L' : Ledger β ε) : Prop :=
  op.Possible fuel L.tracker ∧
    (∃ r, (tracker fuel).step L.tracker op = some (L'.tracker, r)) ∧ L'.counted = op.counted fuel L

/-- A step of a run in which every call is safe. -/
def SafeSteps (fuel : ℕ) (L : Ledger β ε) (op : Op β ε) (L' : Ledger β ε) : Prop :=
  op.Safe L ∧ Steps fuel L op L'

/-- The call returns, with NULL and the same tracker when its block cannot be allocated,
and the counters are right after it. -/
def Op.Survives (fuel : ℕ) (L : Ledger β ε) (op : Op β ε) : Prop :=
  ∃ L' r, (tracker fuel).step L.tracker op = some (L'.tracker, r) ∧
    L'.counted = op.counted fuel L ∧ (op.Refused → r = none ∧ L' = L) ∧ ∃ m, Balanced L' m

/-- The books of the tracker are those of the counted blocks, and the counters fit. -/
structure Ledger.Kept (L : Ledger β ε) (fuel n : ℕ) (m : KeyMap ε) : Prop where
  kept : MemTracker.Kept fuel n L.ofCounted m
  live : ∀ ptr block, L.counted.lookup ptr = some block → L.tracker.blocks.lookup ptr = some block
  fits : ∀ site, L.countedBlocks site < 2 ^ 31

end Definitions

section Blocks

variable {β ε : Type} [DecidableEq ε] {s : Tracker β ε} {fuel : ℕ} {tag : MemDebugTag}

/-- `checkMalloc` leaves the blocks alone. -/
theorem checkMalloc_blocks (blocks : AList fun _ : β => Block) (info : Option ε) :
    checkMalloc fuel { s with blocks := blocks } tag info =
      (checkMalloc fuel s tag info).map fun s' => { s' with blocks := blocks } := by
  have hbytes : ({ s with blocks := blocks } : Tracker β ε).bytes = s.bytes := rfl
  simp only [checkMalloc, hbytes]
  rcases lookupHash s.memHash s.bytes fuel s.mem (tagBytes tag) with _ | _ | x
  · rfl
  · cases info with
    | none => rfl
    | some e =>
        simp only [Option.bind_eq_bind, Option.bind_some, Option.map_bind]
        rfl
  · rfl

/-- `checkFree` leaves the blocks alone. -/
theorem checkFree_blocks (blocks : AList fun _ : β => Block) :
    checkFree fuel { s with blocks := blocks } tag =
      (checkFree fuel s tag).map fun s' => { s' with blocks := blocks } := by
  have hbytes : ({ s with blocks := blocks } : Tracker β ε).bytes = s.bytes := rfl
  simp only [checkFree, hbytes]
  rcases lookupHash s.memHash s.bytes fuel s.mem (tagBytes tag) with _ | _ | x
  · rfl
  · rfl
  · simp only [Option.bind_eq_bind, Option.bind_some]
    split
    · simp only [Option.map_bind]
      rfl
    · rfl

theorem blocks_of_checkFree {s' : Tracker β ε} (h : checkFree fuel s tag = some s') :
    s'.blocks = s.blocks := by
  have hsame : checkFree fuel s tag = _ := checkFree_blocks s.blocks
  rw [h, Option.map_some, Option.some.injEq] at hsame
  have hblocks := congrArg Tracker.blocks hsame
  exact hblocks

theorem blocks_of_checkMalloc {s' : Tracker β ε} {info : Option ε}
    (h : checkMalloc fuel s tag info = some s') : s'.blocks = s.blocks := by
  have hsame : checkMalloc fuel s tag info = _ := checkMalloc_blocks s.blocks info
  rw [h, Option.map_some, Option.some.injEq] at hsame
  have hblocks := congrArg Tracker.blocks hsame
  exact hblocks

end Blocks

section Steps

variable {β ε : Type} [DecidableEq β] [DecidableEq ε] {L L' : Ledger β ε} {m m' : KeyMap ε}
  {s s' : Tracker β ε} {fuel n : ℕ} {ptr : β} {block : Block} {size : BitVec 64} {site : Site}
  {grant : Grant β ε} {op : Op β ε} {ops : List (Op β ε)} {count bytes : Site → ℕ}

omit [DecidableEq β] [DecidableEq ε] in
theorem Kept.mono {k : ℕ} (h : MemTracker.Kept fuel n s m) (hk : k ≤ n) :
    MemTracker.Kept fuel k s m :=
  ⟨h.books, by have := h.fuel; omega⟩

/-! ## What the books say -/

omit [DecidableEq β] in
/-- `checkMalloc` finds the `AllocInfo` of the place. -/
theorem counts_eq (b : Books s m count bytes) (hfuel : m.entries.length < fuel)
    (tag : MemDebugTag) (info : Option ε) :
    counts fuel s tag info = ((m.lookup (siteKey tag.site)).isSome || info.isSome) := by
  rw [counts, b.memHash, b.lookupHash_eq hfuel tag]
  cases m.lookup (siteKey tag.site) <;> rfl

omit [DecidableEq β] in
/-- A place that has no `AllocInfo` and gets none is not entered. -/
theorem checkMalloc_of_not_counts (b : Books s m count bytes) (hfuel : m.entries.length < fuel)
    {tag : MemDebugTag} {info : Option ε} (h : counts fuel s tag info = false) :
    checkMalloc fuel s tag info = some s ∧ count tag.site = 0 := by
  rw [counts_eq b hfuel, Bool.or_eq_false_iff, Option.isSome_eq_false_iff,
    Option.isSome_eq_false_iff, Option.isNone_iff_eq_none, Option.isNone_iff_eq_none] at h
  have hlookup := b.lookupHash_eq hfuel tag
  rw [h.1] at hlookup
  refine ⟨?_, b.absent _ h.1⟩
  simp only [checkMalloc, b.memHash, hlookup, h.2, Option.bind_eq_bind, Option.bind_some]

omit [DecidableEq β] in
/-- A block of a place without counted blocks leaves no trace. -/
theorem checkFree_of_absent (b : Books s m count bytes) (hfuel : m.entries.length < fuel)
    {tag : MemDebugTag} (h : count tag.site = 0) : checkFree fuel s tag = some s := by
  have hlookup := b.lookupHash_eq hfuel tag
  cases hl : m.lookup (siteKey tag.site) with
  | none =>
      rw [hl] at hlookup
      simp only [checkFree, b.memHash, hlookup, Option.bind_eq_bind, Option.bind_some]
  | some e =>
      have := (b.present _ e hl).1
      omega

omit [DecidableEq β] in
/-- The tracker stores one map only. -/
theorem lookup_unique {bytes : ε → List UInt8} {mem : Heap (ℕ ⊕ ε)}
    (h : Holds siteHash bytes mem m) (h' : Holds siteHash bytes mem m') (site : Site) :
    m.lookup (siteKey site) = m'.lookup (siteKey site) := by
  let tag : MemDebugTag := ⟨site.file, site.line, 0⟩
  have hle := le_max_left m.entries.length m'.entries.length
  have hle' := le_max_right m.entries.length m'.entries.length
  have hfound := h.lookupHash_eq (tagBytes_length tag) (Nat.lt_succ_of_le hle)
  rw [h'.lookupHash_eq (tagBytes_length tag) (Nat.lt_succ_of_le hle')] at hfound
  rw [tagBytes_take] at hfound
  exact (Option.some.inj hfound).symm

/-- Where the counters are right, the books count the counted blocks. -/
theorem Balanced.count_eq (h : Balanced L m') (b : Books L.tracker m count bytes)
    (hmax : count site < 2 ^ 32) : count site = L.countedBlocks site := by
  have hstores := h.stores
  rw [b.memHash] at hstores
  have hlookup := lookup_unique b.holds hstores site
  cases hl : m.lookup (siteKey site) with
  | none =>
      rw [b.absent site hl, (h.absent site).mp (hlookup ▸ hl)]
  | some e =>
      have hint := h.count site e (hlookup ▸ hl)
      rw [(b.present site e hl).2.1, BitVec.toInt_ofNat', Int.bmod_def] at hint
      split at hint <;> omega

omit [DecidableEq ε] in
/-- The counters are `int`s. -/
theorem Balanced.fits (h : Balanced L m) (site : Site) : L.countedBlocks site < 2 ^ 31 := by
  cases hl : m.lookup (siteKey site) with
  | none =>
      rw [(h.absent site).mp hl]
      decide
  | some e =>
      have hint := h.count site e hl
      have hlt := (L.tracker.infos e).count.toInt_lt
      omega

omit [DecidableEq ε] in
/-- The books do not depend on the blocks that were not counted. -/
theorem Ledger.Kept.books (k : L.Kept fuel n m) :
    Books L.tracker m L.countedBlocks (taggedBytes L.ofCounted) :=
  k.kept.books.of_blocks L.tracker.blocks

omit [DecidableEq ε] in
/-- Books that are kept are right. -/
theorem Ledger.Kept.balanced (k : L.Kept fuel n m) : Balanced L m := by
  have b := k.books
  refine ⟨?_, k.live, fun site => ⟨b.absent site, fun h => ?_⟩, fun site e hl => ?_⟩
  · rw [b.memHash]
    exact b.holds
  · cases hl : m.lookup (siteKey site) with
    | none => rfl
    | some e =>
        have := (b.present site e hl).1
        omega
  · rw [(b.present site e hl).2.1]
    exact toInt_ofNat_of_lt (k.fits site)

/-! ## A block that is given out -/

/-- The counted blocks of the places after an allocation. -/
theorem countedBlocks_allocated (hptr : grant.ptr = some ptr) (hnew : ptr ∉ L.counted) :
    Ledger.countedBlocks ⟨s', allocated fuel s L.counted size site grant⟩ =
      if counts fuel s (tagOf site size) grant.info then
        Function.update L.countedBlocks site (L.countedBlocks site + 1)
      else L.countedBlocks := by
  simp only [allocated, hptr]
  split
  · have hblocks :
        (Ledger.ofCounted ⟨s', L.counted.insert ptr (blockOf size site)⟩).blocks =
          L.ofCounted.blocks.insert ptr (blockOf size site) := rfl
    exact siteTally_insert (g := fun _ => 1) hnew hblocks
  · rfl

omit [DecidableEq ε] in
theorem Ledger.Kept.not_counted (k : L.Kept fuel n m) (h : ptr ∉ L.tracker.blocks) :
    ptr ∉ L.counted := by
  intro hin
  obtain ⟨block, hblock⟩ := Option.isSome_iff_exists.mp (AList.lookup_isSome.mpr hin)
  exact h (AList.lookup_isSome.mp (by simp [k.live ptr block hblock]))

/-- The counters fit after an allocation just when there was room for it. -/
theorem Ledger.Kept.fits_iff (k : L.Kept fuel (n + 1) m) (hptr : grant.ptr = some ptr)
    (hnew : ptr ∉ L.counted) :
    (∀ x, Ledger.countedBlocks
      ⟨s', allocated fuel L.tracker L.counted size site grant⟩ x < 2 ^ 31) ↔ L.HasRoom site := by
  have hfuel : m.entries.length < fuel := by
    have := k.kept.fuel
    omega
  rw [countedBlocks_allocated hptr hnew]
  by_cases hcounts : counts fuel L.tracker (tagOf site size) grant.info
  · rw [if_pos hcounts]
    constructor
    · intro h
      have := h site
      rwa [Function.update_self] at this
    · intro h x
      by_cases hx : x = site
      · rw [hx, Function.update_self]
        exact h
      · rw [Function.update_of_ne hx]
        exact k.fits x
  · rw [if_neg hcounts]
    have hzero : L.countedBlocks site = 0 :=
      (checkMalloc_of_not_counts k.books hfuel (Bool.eq_false_of_not_eq_true hcounts)).2
    refine iff_of_true k.fits ?_
    rw [Ledger.HasRoom, hzero]
    decide

/-- A block that is given out enters the books if it is counted. -/
theorem Ledger.Kept.enter (k : L.Kept fuel (n + 1) m) (size : BitVec 64)
    (hptr : grant.ptr = some ptr) (hnew : ptr ∉ L.tracker.blocks)
    (hinfo : ∀ e, grant.info = some e → ¬ L.tracker.mem.Live (.inr e))
    (hroom : L.HasRoom site) :
    ∃ s' m', checkMalloc fuel
        { L.tracker with blocks := L.tracker.blocks.insert ptr (blockOf size site) }
        (tagOf site size) grant.info = some s' ∧
      Ledger.Kept ⟨s', allocated fuel L.tracker L.counted size site grant⟩ fuel n m' := by
  have hfuel : m.entries.length < fuel := by
    have := k.kept.fuel
    omega
  have hnot := k.not_counted hnew
  have hfits : ∀ s' : Tracker β ε, ∀ x, Ledger.countedBlocks
      ⟨s', allocated fuel L.tracker L.counted size site grant⟩ x < 2 ^ 31 :=
    fun _ => (k.fits_iff hptr hnot).mpr hroom
  rw [checkMalloc_blocks]
  by_cases hcounts : counts fuel L.tracker (tagOf site size) grant.info
  · have hallocated : allocated fuel L.tracker L.counted size site grant =
        L.counted.insert ptr (blockOf size site) := by
      simp only [allocated, hptr, hcounts, if_true]
    have hentry := hcounts
    rw [counts_eq k.books hfuel, Bool.or_eq_true] at hentry
    obtain ⟨s₁, m', hs₁, k₁, -⟩ := k.kept.enter size site grant.info hnot hinfo hentry
    obtain ⟨s₀, hs₀, rfl⟩ := Option.map_eq_some_iff.mp
      ((checkMalloc_blocks (s := L.tracker) _ _).symm.trans hs₁)
    refine ⟨_, m', by rw [hs₀]; rfl, ?_, ?_, hfits _⟩
    · rw [hallocated]
      exact k₁
    · intro p block hp
      rw [hallocated] at hp
      by_cases h : p = ptr
      · subst h
        rw [AList.lookup_insert] at hp ⊢
        exact hp
      · rw [AList.lookup_insert_ne h] at hp ⊢
        exact k.live p block hp
  · have hallocated : allocated fuel L.tracker L.counted size site grant = L.counted := by
      simp only [allocated, hptr, hcounts, if_false, Bool.false_eq_true]
    have hs₀ := (checkMalloc_of_not_counts k.books hfuel
      (Bool.eq_false_of_not_eq_true hcounts)).1
    refine ⟨_, m, by rw [hs₀]; rfl, ?_, ?_, hfits _⟩
    · rw [hallocated]
      exact k.kept.mono (Nat.le_succ n)
    · intro p block hp
      rw [hallocated] at hp
      have hne : p ≠ ptr := by
        rintro rfl
        exact hnot (AList.lookup_isSome.mp (by simp [hp]))
      rw [AList.lookup_insert_ne hne]
      exact k.live p block hp

/-! ## A block that is given back -/

omit [DecidableEq ε] in
theorem erase_of_not_mem {a : AList fun _ : β => Block} (h : ptr ∉ a) : a.erase ptr = a :=
  AList.ext (List.kerase_of_notMem_keys h)

/-- A block that is owned leaves the books if it was counted. -/
theorem Ledger.Kept.leave (k : L.Kept fuel n m) (hptr : L.tracker.blocks.lookup ptr = some block)
    (hown : L.Owned ptr) :
    ∃ s' m', checkFree fuel L.tracker block.tag = some s' ∧ s'.blocks = L.tracker.blocks ∧
      Ledger.Kept ⟨{ s' with blocks := L.tracker.blocks.erase ptr }, L.counted.erase ptr⟩
        fuel n m' := by
  have hfuel := k.kept.fuel
  have hlive : ∀ p block, (L.counted.erase ptr).lookup p = some block →
      (L.tracker.blocks.erase ptr).lookup p = some block := by
    intro p block hp
    by_cases h : p = ptr
    · subst h
      cases (AList.lookup_erase p L.counted).symm.trans hp
    · rw [AList.lookup_erase_ne h] at hp ⊢
      exact k.live p block hp
  by_cases hin : ptr ∈ L.counted
  · obtain ⟨block', hcounted⟩ := Option.isSome_iff_exists.mp (AList.lookup_isSome.mpr hin)
    obtain rfl : block' = block := Option.some.inj ((k.live _ _ hcounted).symm.trans hptr)
    obtain ⟨s₁, m', hs₁, -, k₁, -⟩ := k.kept.leave (fun site => (k.fits site).trans (by decide))
      hcounted
    obtain ⟨s₀, hs₀, rfl⟩ := Option.map_eq_some_iff.mp
      ((checkFree_blocks (s := L.tracker) L.counted).symm.trans hs₁)
    refine ⟨s₀, m', hs₀, blocks_of_checkFree hs₀, k₁, hlive, fun site => ?_⟩
    have hsum := tally_erase (fun b => if b.tag.site = site then 1 else 0) hcounted
    have hfits := k.fits site
    have hle : Ledger.countedBlocks ⟨s₀, L.counted.erase ptr⟩ site ≤ L.countedBlocks site :=
      (Nat.le_add_left _ _).trans hsum.ge
    exact hle.trans_lt hfits
  · have hzero := hown.resolve_left hin block hptr
    refine ⟨L.tracker, m, checkFree_of_absent k.books (by omega) hzero, rfl, ?_, hlive, ?_⟩
    · rw [erase_of_not_mem hin]
      exact k.kept
    · rw [erase_of_not_mem hin]
      exact k.fits

/-- A block that is not owned takes another one off the books of its place. -/
theorem Ledger.Kept.leave_not_owned (k : L.Kept fuel n m)
    (hptr : L.tracker.blocks.lookup ptr = some block) (hown : ¬ L.Owned ptr) :
    ∃ s' m' bytes, checkFree fuel L.tracker block.tag = some s' ∧
      0 < L.countedBlocks block.tag.site ∧
      Books s' m' (Function.update L.countedBlocks block.tag.site
        (L.countedBlocks block.tag.site - 1)) bytes ∧ m'.entries.length ≤ m.entries.length := by
  have hfuel := k.kept.fuel
  rw [Ledger.Owned, not_or] at hown
  have hpos : 0 < L.countedBlocks block.tag.site := by
    refine Nat.pos_of_ne_zero fun hzero => hown.2 fun block' hblock => ?_
    obtain rfl := Option.some.inj (hptr.symm.trans hblock)
    exact hzero
  have hmax := k.fits block.tag.site
  have hlt : m.entries.length < fuel := by omega
  -- The size in the tag may exceed that of the place, so the total wraps around.
  let total := (BitVec.ofNat 32 (taggedBytes L.ofCounted block.tag.site) - block.tag.size).toNat
  obtain ⟨s', m', hs', b', -, hlen, -⟩ := k.books.checkFree_of_size hlt block.tag hpos
    (by omega) (k := if L.countedBlocks block.tag.site = 1 then 0 else total)
    (fun hone => if_pos hone) fun hne => by
      rw [if_neg hne, BitVec.ofNat_toNat, BitVec.setWidth_eq]
  exact ⟨s', m', _, hs', hpos, b', hlen⟩

/-! ## The calls -/

omit [DecidableEq ε] in
/-- A block that `realloc` gives is not among the others. -/
theorem Grant.Fresh.not_mem_erase {old : β} (h : grant.Fresh s (some old))
    (hptr : grant.ptr = some ptr) : ptr ∉ s.blocks.erase old := by
  rw [AList.mem_erase]
  rintro ⟨hne, hin⟩
  exact hne (Option.some.inj (h.1 ptr hptr hin)).symm

omit [DecidableEq β] [DecidableEq ε] in
theorem Grant.Fresh.not_mem (h : grant.Fresh s none) (hptr : grant.ptr = some ptr) :
    ptr ∉ s.blocks := fun hin => by cases h.1 ptr hptr hin

theorem debugMalloc_some (hptr : grant.ptr = some ptr) :
    debugMalloc fuel s size site grant = (checkMalloc fuel
      { s with blocks := s.blocks.insert ptr (blockOf size site) } (tagOf site size)
      grant.info).map fun s' => (s', some ptr) := by
  simp only [debugMalloc, hptr, Option.map_eq_bind]
  rfl

/-- `debug_realloc` writes the tag through NULL. -/
theorem debugRealloc_refused (old : Option β) (hptr : grant.ptr = none) :
    debugRealloc fuel s old size site grant = none := by
  cases old <;> simp [debugRealloc, hptr]

theorem debugRealloc_null (hptr : grant.ptr = some ptr) :
    debugRealloc fuel s none size site grant = debugMalloc fuel s size site grant := by
  simp [debugRealloc, debugMalloc, hptr]

theorem debugRealloc_some {old : β} (hold : s.blocks.lookup old = some block)
    (hfree : checkFree fuel s block.tag = some s') (hptr : grant.ptr = some ptr) :
    debugRealloc fuel s (some old) size site grant = (checkMalloc fuel
      { s' with blocks := (s.blocks.erase old).insert ptr (blockOf size site) } (tagOf site size)
      grant.info).map fun s' => (s', some ptr) := by
  have hblocks := blocks_of_checkFree hfree
  simp only [debugRealloc, hold, hfree, hptr, hblocks, Option.map_eq_bind, Option.bind_eq_bind,
    Option.bind_some]
  rfl

/-- The counted blocks after a block was reallocated. -/
theorem counted_realloc {old : β} (hold : L.tracker.blocks.lookup old = some block)
    (hfree : checkFree fuel L.tracker block.tag = some s') (hptr : grant.ptr = some ptr) :
    (Op.realloc (some old) size site grant).counted fuel L =
      allocated fuel s' (L.counted.erase old) size site grant := by
  simp only [Op.counted, hold, hfree, hptr, Option.bind_some]

theorem Ledger.Kept.debugMalloc (k : L.Kept fuel (n + 1) m) (size : BitVec 64)
    (hgrant : grant.Fresh L.tracker none) (hroom : grant.ptr ≠ none → L.HasRoom site) :
    ∃ s' m', debugMalloc fuel L.tracker size site grant = some (s', grant.ptr) ∧
      (grant.ptr = none → s' = L.tracker) ∧
      Ledger.Kept ⟨s', allocated fuel L.tracker L.counted size site grant⟩ fuel n m' := by
  cases hptr : grant.ptr with
  | none =>
      refine ⟨L.tracker, m, by simp only [MemTracker.debugMalloc, hptr], fun _ => rfl, ?_⟩
      simp only [allocated, hptr]
      exact ⟨k.kept.mono (Nat.le_succ n), k.live, k.fits⟩
  | some ptr =>
      obtain ⟨s', m', hs', k'⟩ := k.enter size hptr (hgrant.not_mem hptr) hgrant.2
        (hroom (by simp [hptr]))
      exact ⟨s', m', by rw [debugMalloc_some hptr, hs']; rfl, by simp, k'⟩

/-- A call whose block cannot be allocated changes no count. -/
theorem counted_refused (h : op.Refused) : op.counted fuel L = L.counted := by
  cases op with
  | realloc old size site grant =>
      have hptr : grant.ptr = none := h
      cases old <;> simp only [Op.counted, allocated, hptr]
  | free ptr => exact h.elim
  | _ =>
      have hptr := h
      simp only [Op.Refused] at hptr
      simp only [Op.counted, allocated, hptr]

/-- A safe call returns, and the books are kept. -/
theorem Ledger.Kept.step (k : L.Kept fuel (n + 1) m) (hop : op.Possible fuel L.tracker)
    (hsafe : op.Safe L) :
    ∃ s' r m', (MemTracker.tracker fuel).step L.tracker op = some (s', r) ∧
      (op.Refused → r = none ∧ s' = L.tracker) ∧
      Ledger.Kept ⟨s', op.counted fuel L⟩ fuel n m' := by
  cases op with
  | malloc size site grant =>
      obtain ⟨s', m', hs', hrefused, k'⟩ := k.debugMalloc size hop hsafe
      exact ⟨s', _, m', hs', fun h => ⟨h, hrefused h⟩, k'⟩
  | calloc num size site grant =>
      obtain ⟨s', m', hs', hrefused, k'⟩ := k.debugMalloc (num.signExtend 64 * size) hop hsafe
      exact ⟨s', _, m', hs', fun h => ⟨h, hrefused h⟩, k'⟩
  | strdup str site grant =>
      obtain ⟨hne, hroom⟩ := hsafe
      obtain ⟨s', m', hs', -, k'⟩ :=
        k.debugMalloc (BitVec.ofNat 64 (str.length + 1)) hop fun _ => hroom
      obtain ⟨ptr, hptr⟩ := Option.ne_none_iff_exists'.mp hne
      refine ⟨s', some ptr, m', ?_, fun h => absurd h hne, k'⟩
      simp [MemTracker.tracker, debugStrdup, hs', hptr]
  | realloc old size site grant =>
      cases old with
      | none =>
          obtain ⟨hne, hroom⟩ := hsafe
          obtain ⟨s', m', hs', -, k'⟩ := k.debugMalloc size hop fun _ => hroom
          obtain ⟨ptr, hptr⟩ := Option.ne_none_iff_exists'.mp hne
          exact ⟨s', _, m', (debugRealloc_null hptr).trans hs', fun h => absurd h hne, k'⟩
      | some old =>
          obtain ⟨hne, hown, hroom⟩ := hsafe
          obtain ⟨block, hold, hgrant⟩ := hop
          obtain ⟨ptr, hptr⟩ := Option.ne_none_iff_exists'.mp hne
          obtain ⟨s₁, m₁, hs₁, hb₁, k₁⟩ := k.leave hold hown
          have hfresh := hgrant s₁ hs₁
          have hnew : ptr ∉ L.tracker.blocks.erase old := hb₁ ▸ hfresh.not_mem_erase hptr
          obtain ⟨s', m', hs', k'⟩ := k₁.enter size hptr hnew hfresh.2 hroom
          refine ⟨s', some ptr, m', ?_, fun h => absurd h hne, ?_⟩
          · have hstep : debugRealloc fuel L.tracker (some old) size site grant = _ :=
              debugRealloc_some hold hs₁ hptr
            exact hstep.trans (congrArg (Option.map _) hs')
          · rw [counted_realloc hold hs₁ hptr]
            exact k'
  | free ptr =>
      obtain ⟨block, hptr⟩ := Option.isSome_iff_exists.mp (AList.lookup_isSome.mpr hop)
      obtain ⟨s₁, m₁, hs₁, hb₁, k₁⟩ := k.leave hptr hsafe
      refine ⟨_, none, m₁, ?_, fun h => h.elim,
        ⟨k₁.kept.mono (Nat.le_succ n), k₁.live, k₁.fits⟩⟩
      simp only [MemTracker.tracker, debugFree, hptr, hs₁, hb₁, Option.bind_eq_bind,
        Option.bind_some, Option.map_some]

/-! ## The calls that do not survive -/

theorem Ledger.Kept.hasRoom (k : L.Kept fuel (n + 1) m) (hptr : grant.ptr = some ptr)
    (hnew : ptr ∉ L.tracker.blocks)
    (h : Balanced ⟨s', allocated fuel L.tracker L.counted size site grant⟩ m') :
    L.HasRoom site :=
  (k.fits_iff hptr (k.not_counted hnew)).mp h.fits

omit [DecidableEq β] in
/-- `checkMalloc` on any books. -/
theorem checkMalloc_counts (b : Books s m count bytes) (hfuel : m.entries.length < fuel)
    (tag : MemDebugTag) {info : Option ε} (hinfo : ∀ e, info = some e → ¬ s.mem.Live (.inr e)) :
    ∃ s' m' bytes', checkMalloc fuel s tag info = some s' ∧
      Books s' m' (if counts fuel s tag info then
        Function.update count tag.site (count tag.site + 1) else count) bytes' := by
  by_cases hcounts : counts fuel s tag info
  · have hentry := hcounts
    rw [counts_eq b hfuel, Bool.or_eq_true] at hentry
    obtain ⟨s', m', hs', b', -⟩ := b.checkMalloc hfuel tag hinfo hentry
    rw [if_pos hcounts]
    exact ⟨s', m', _, hs', b'⟩
  · have hs' := checkMalloc_of_not_counts b hfuel (Bool.eq_false_of_not_eq_true hcounts)
    rw [if_neg hcounts]
    exact ⟨s, m, bytes, hs'.1, b⟩

/-- After a block that is not owned was freed, a counter is wrong. -/
theorem Ledger.Kept.owned_of_free (k : L.Kept fuel n m)
    (hptr : L.tracker.blocks.lookup ptr = some block)
    (h : (Op.free ptr).Survives fuel L) : L.Owned ptr := by
  by_contra hown
  obtain ⟨s₁, m₁, bytes, hs₁, hpos, b₁, -⟩ := k.leave_not_owned hptr hown
  obtain ⟨⟨s', counted⟩, r, hs', hcounted, -, m', hbalanced⟩ := h
  have hstep : (MemTracker.tracker fuel).step L.tracker (.free ptr) =
      some ({ s₁ with blocks := s₁.blocks.erase ptr }, none) := by
    simp only [MemTracker.tracker, debugFree, hptr, hs₁, Option.bind_eq_bind, Option.bind_some,
      Option.map_some]
  obtain rfl : { s₁ with blocks := s₁.blocks.erase ptr } = s' :=
    (Prod.mk.inj (Option.some.inj (hstep.symm.trans hs'))).1
  have hsame : counted = L.counted :=
    hcounted.trans (erase_of_not_mem fun hin => hown (Or.inl hin))
  subst hsame
  have hmax := k.fits block.tag.site
  have hlt : Function.update L.countedBlocks block.tag.site
      (L.countedBlocks block.tag.site - 1) block.tag.site < 2 ^ 32 := by
    rw [Function.update_self]
    omega
  have heq := hbalanced.count_eq (b₁.of_blocks (s₁.blocks.erase ptr)) hlt
  rw [Function.update_self] at heq
  have hnum : Ledger.countedBlocks ⟨{ s₁ with blocks := s₁.blocks.erase ptr }, L.counted⟩
      block.tag.site = L.countedBlocks block.tag.site := rfl
  omega

/-- Books that are one behind at a place stay behind when a block is entered. -/
theorem entered_behind {c : Site → ℕ} {x : Site} (hpos : 0 < c x) (entered : Bool) (site : Site) :
    (if entered then
      Function.update (Function.update c x (c x - 1)) site
        (Function.update c x (c x - 1) site + 1)
      else Function.update c x (c x - 1)) x + 1 =
      (if entered then Function.update c site (c site + 1) else c) x := by
  cases entered with
  | false =>
      rw [if_neg Bool.false_ne_true, if_neg Bool.false_ne_true, Function.update_self]
      omega
  | true =>
      rw [if_pos rfl, if_pos rfl]
      by_cases h : x = site
      · subst h
        simp only [Function.update_self]
        omega
      · rw [Function.update_of_ne h, Function.update_of_ne h, Function.update_self]
        omega

/-- After a block that is not owned was reallocated, a counter is wrong, whether the new
block is counted or not. -/
theorem Ledger.Kept.owned_of_realloc {old : β} (k : L.Kept fuel (n + 1) m)
    (hold : L.tracker.blocks.lookup old = some block)
    (hgrant : ∀ s', checkFree fuel L.tracker block.tag = some s' → grant.Fresh s' (some old))
    (hptr : grant.ptr = some ptr)
    (h : (Op.realloc (some old) size site grant).Survives fuel L) : L.Owned old := by
  by_contra hown
  have hfuel := k.kept.fuel
  have hnot : old ∉ L.counted := fun hin => hown (Or.inl hin)
  obtain ⟨s₁, m₁, bytes, hs₁, hpos, b₁, hlen⟩ := k.leave_not_owned hold hown
  have hfresh := hgrant s₁ hs₁
  have hnew : ptr ∉ L.counted := by
    intro hin
    have herase : ptr ∈ L.counted.erase old := by rwa [erase_of_not_mem hnot]
    have hlive : ptr ∈ s₁.blocks := by
      by_contra hout
      rw [blocks_of_checkFree hs₁] at hout
      exact k.not_counted hout hin
    exact (AList.mem_erase.mp herase).1 (Option.some.inj (hfresh.1 ptr hptr hlive)).symm
  -- The books of the tracker have one block less than there are counted blocks.
  let s₂ : Tracker β ε :=
    { s₁ with blocks := (L.tracker.blocks.erase old).insert ptr (blockOf size site) }
  have hlt : m₁.entries.length < fuel := by omega
  obtain ⟨s₃, m₃, bytes₃, hs₃, b₃⟩ := checkMalloc_counts (s := s₂) (b₁.of_blocks _) hlt
    (tagOf site size) hfresh.2
  obtain ⟨⟨s', counted⟩, r, hs', hcounted, -, m', hbalanced⟩ := h
  have hstep : debugRealloc fuel L.tracker (some old) size site grant = _ :=
    debugRealloc_some hold hs₁ hptr
  rw [hs₃] at hstep
  obtain rfl : s₃ = s' := (Prod.mk.inj (Option.some.inj (hstep.symm.trans hs'))).1
  have hsame : counted = allocated fuel s₁ L.counted size site grant := by
    rw [← erase_of_not_mem hnot]
    exact hcounted.trans (counted_realloc hold hs₁ hptr)
  subst hsame
  have hnum : Ledger.countedBlocks ⟨s₃, allocated fuel s₁ L.counted size site grant⟩
      block.tag.site = _ := congrFun (countedBlocks_allocated hptr hnew) block.tag.site
  have hbehind := entered_behind hpos (counts fuel s₁ (tagOf site size) grant.info) site
  rw [← hnum] at hbehind
  have hmax := hbalanced.fits block.tag.site
  have heq := hbalanced.count_eq b₃ (lt_of_le_of_lt (Nat.le_succ _) (hbehind.trans_lt
    (hmax.trans (by decide))))
  exact Nat.succ_ne_self _ (hbehind.trans heq.symm)

/-- Only safe calls survive. -/
theorem Ledger.Kept.safe_of_survives (k : L.Kept fuel (n + 1) m)
    (hop : op.Possible fuel L.tracker) (h : op.Survives fuel L) : op.Safe L := by
  have hsome : ∀ {size : BitVec 64} {site : Site} {grant : Grant β ε} {counted m'}
      {s' : Tracker β ε}, grant.Fresh L.tracker none →
      counted = allocated fuel L.tracker L.counted size site grant →
      Balanced ⟨s', counted⟩ m' → grant.ptr ≠ none → L.HasRoom site := by
    rintro size site grant counted m' s' hgrant rfl hbalanced hne
    obtain ⟨ptr, hptr⟩ := Option.ne_none_iff_exists'.mp hne
    exact k.hasRoom hptr (hgrant.not_mem hptr) hbalanced
  cases op with
  | malloc size site grant =>
      obtain ⟨⟨s', counted⟩, r, -, hcounted, -, m', hbalanced⟩ := h
      exact hsome hop hcounted hbalanced
  | calloc num size site grant =>
      obtain ⟨⟨s', counted⟩, r, -, hcounted, -, m', hbalanced⟩ := h
      exact hsome hop hcounted hbalanced
  | strdup str site grant =>
      obtain ⟨⟨s', counted⟩, r, hs', hcounted, -, m', hbalanced⟩ := h
      have hne : grant.ptr ≠ none := by
        intro hptr
        simp [MemTracker.tracker, debugStrdup, MemTracker.debugMalloc, hptr] at hs'
      exact ⟨hne, hsome hop hcounted hbalanced hne⟩
  | realloc old size site grant =>
      have hne : grant.ptr ≠ none := by
        intro hptr
        obtain ⟨L', r, hs', -⟩ := h
        cases (debugRealloc_refused old hptr).symm.trans hs'
      obtain ⟨ptr, hptr⟩ := Option.ne_none_iff_exists'.mp hne
      cases old with
      | none =>
          obtain ⟨⟨s', counted⟩, r, hs', hcounted, -, m', hbalanced⟩ := h
          exact ⟨hne, hsome hop hcounted hbalanced hne⟩
      | some old =>
          obtain ⟨block, hold, hgrant⟩ := hop
          have hown := k.owned_of_realloc hold hgrant hptr h
          obtain ⟨s₁, m₁, hs₁, hb₁, k₁⟩ := k.leave hold hown
          have hnew := (hgrant s₁ hs₁).not_mem_erase hptr
          rw [hb₁] at hnew
          obtain ⟨⟨s', counted⟩, r, -, hcounted, -, m', hbalanced⟩ := h
          have hsame := hcounted.trans (counted_realloc hold hs₁ hptr)
          subst hsame
          exact ⟨hne, hown, k₁.hasRoom hptr hnew hbalanced⟩
  | free ptr =>
      obtain ⟨block, hptr⟩ := Option.isSome_iff_exists.mp (AList.lookup_isSome.mpr hop)
      exact k.owned_of_free hptr h

/-! ## Runs -/

theorem Ledger.Kept.run (k : L.Kept fuel (n + ops.length) m)
    (hrun : Trace (SafeSteps fuel) L ops L') : ∃ m', L'.Kept fuel n m' := by
  induction hrun generalizing n with
  | nil => exact ⟨m, k⟩
  | @concat ops op L₁ L₂ _ hstep ih =>
      rw [List.length_append, List.length_singleton, Nat.add_comm ops.length, ← Nat.add_assoc] at k
      obtain ⟨m₁, k₁⟩ := ih k
      obtain ⟨hsafe, hop, ⟨r, hs⟩, hcounted⟩ := hstep
      obtain ⟨s', r', m₂, hs', -, k₂⟩ := k₁.step hop hsafe
      obtain ⟨rfl, -⟩ := Prod.mk.inj (Option.some.inj (hs'.symm.trans hs))
      rw [← hcounted] at k₂
      exact ⟨m₂, k₂⟩

theorem kept_start {mem : Heap (ℕ ⊕ ε)} {infos : ε → AllocInfo}
    (h₀ : initMemTracker mem infos (∅ : AList fun _ : β => Block) = some s) (hfuel : n < fuel) :
    Ledger.Kept ⟨s, ∅⟩ fuel n ∅ := by
  have hsame : Ledger.ofCounted ⟨s, ∅⟩ = s := by
    rw [Ledger.ofCounted, ← initMemTracker_blocks h₀]
  refine ⟨?_, by simp, fun site => ?_⟩
  · rw [hsame]
    exact initMemTracker_kept h₀ hfuel
  · exact (by decide : 0 < 2 ^ 31)

/-- In every run whose calls are safe the counters are right after every call, and a call
survives any failure of the underlying allocator just when it is safe. -/
theorem survives_iff {mem : Heap (ℕ ⊕ ε)} {infos : ε → AllocInfo} {s₀ : Tracker β ε}
    (h₀ : initMemTracker mem infos (∅ : AList fun _ : β => Block) = some s₀)
    (hfuel : ops.length + 1 < fuel) (hrun : Trace (SafeSteps fuel) ⟨s₀, ∅⟩ ops L) :
    (∃ m, Balanced L m) ∧
      ∀ op : Op β ε, op.Possible fuel L.tracker → (op.Safe L ↔ op.Survives fuel L) := by
  have k₀ : Ledger.Kept ⟨s₀, ∅⟩ fuel (1 + ops.length) ∅ := kept_start h₀ (by omega)
  obtain ⟨m, k⟩ := k₀.run hrun
  refine ⟨⟨m, k.balanced⟩, fun op hop => ⟨fun hsafe => ?_, k.safe_of_survives hop⟩⟩
  obtain ⟨s', r, m', hs', hrefused, k'⟩ := k.step hop hsafe
  refine ⟨⟨s', op.counted fuel L⟩, r, hs', rfl, fun h => ?_, m', k'.balanced⟩
  obtain ⟨hr, rfl⟩ := hrefused h
  exact ⟨hr, by rw [counted_refused h]⟩

end Steps

section Sample

/-- A call that allocates a block, with an `AllocInfo` or without one. -/
def mallocCall (info : Option ℕ) : Op ℕ ℕ := .malloc 8 ⟨0, 1⟩ ⟨some 0, info⟩

/-- A run of this call alone. -/
theorem exists_mallocCall (info : Option ℕ) :
    ∃ (s₀ : Tracker ℕ ℕ) (L : Ledger ℕ ℕ),
      initMemTracker (fun _ => none) (fun _ => ⟨⟨0, 0, 0⟩, 0, 0⟩) ∅ = some s₀ ∧
      Trace (SafeSteps 3) ⟨s₀, ∅⟩ [mallocCall info] L ∧
      L.tracker.blocks.lookup 0 = some (blockOf 8 ⟨0, 1⟩) ∧ (info = none → L.counted = ∅) := by
  obtain ⟨s₀, h₀, hlive⟩ := exists_start (β := ℕ) (ε := ℕ) ⟨⟨0, 0, 0⟩, 0, 0⟩
  have k₀ : Ledger.Kept ⟨s₀, ∅⟩ 3 2 ∅ := kept_start h₀ (by decide)
  have hfresh : (0 : ℕ) ∉ s₀.blocks := by
    rw [initMemTracker_blocks h₀]
    exact AList.notMem_empty 0
  have hop : (mallocCall info).Possible 3 s₀ := by
    refine ⟨fun ptr hptr hin => ?_, fun e _ he => hlive e he⟩
    obtain rfl := Option.some.inj hptr
    exact absurd hin hfresh
  have hsafe : (mallocCall info).Safe ⟨s₀, ∅⟩ := fun _ => (by decide : 0 + 1 < 2 ^ 31)
  obtain ⟨s', r, m', hs', -, k'⟩ := k₀.step hop hsafe
  refine ⟨s₀, ⟨s', _⟩, h₀, .single ⟨hsafe, hop, ⟨r, hs'⟩, rfl⟩, ?_, ?_⟩
  · have hcall : debugMalloc 3 s₀ 8 ⟨0, 1⟩ ⟨some 0, info⟩ = some (s', r) := hs'
    rw [debugMalloc_some rfl] at hcall
    obtain ⟨s₁, hs₁, heq⟩ := Option.map_eq_some_iff.mp hcall
    obtain rfl := (Prod.mk.inj heq).1
    rw [blocks_of_checkMalloc hs₁]
    exact AList.lookup_insert _
  · rintro rfl
    have hcounts : counts 3 s₀ (tagOf ⟨0, 1⟩ 8) (none : Option ℕ) = false :=
      counts_eq k₀.books (by decide) _ _
    change (if counts 3 s₀ (tagOf ⟨0, 1⟩ 8) none then _ else _) = _
    rw [hcounts]
    rfl

/-- A block that was never counted is freed. -/
theorem survives_iff_uncounted : ∃ L : Ledger ℕ ℕ, (0 ∈ L.tracker.blocks ∧ L.counted = ∅) ∧
    (∃ m, Balanced L m) ∧ (Op.free 0).Survives 3 L := by
  obtain ⟨s₀, L, h₀, hrun, hlive, hcounted⟩ := exists_mallocCall none
  have hin : 0 ∈ L.tracker.blocks := AList.lookup_isSome.mp (by simp [hlive])
  obtain ⟨hbalanced, hiff⟩ := survives_iff h₀ (by decide) hrun
  have hsafe : (Op.free 0).Safe L := by
    refine Or.inr fun block _ => ?_
    rw [Ledger.countedBlocks, liveBlocks, siteTally, Ledger.ofCounted, hcounted rfl]
    exact tally_empty _
  exact ⟨L, ⟨hin, hcounted rfl⟩, hbalanced, (hiff (.free 0) hin).mp hsafe⟩

/-- A `debug_realloc` whose block cannot be allocated does not return. -/
theorem realloc_failure_fatal : ¬ ∀ (fuel : ℕ) (s₀ : Tracker ℕ ℕ) (ops : List (Op ℕ ℕ))
    (L : Ledger ℕ ℕ) (op : Op ℕ ℕ),
    initMemTracker (fun _ => none) (fun _ => ⟨⟨0, 0, 0⟩, 0, 0⟩) ∅ = some s₀ →
    ops.length + 1 < fuel → Trace (Steps fuel) ⟨s₀, ∅⟩ ops L → op.Possible fuel L.tracker →
      op.Survives fuel L := by
  intro h
  obtain ⟨s₀, L, h₀, hrun, hlive, -⟩ := exists_mallocCall (some 0)
  have hsteps : Trace (Steps 3) ⟨s₀, ∅⟩ [mallocCall (some 0)] L :=
    hrun.imp fun _ _ _ hstep => hstep.2
  have hop : (Op.realloc (some 0) 16 ⟨0, 2⟩ (⟨none, none⟩ : Grant ℕ ℕ)).Possible 3 L.tracker :=
    ⟨_, hlive, fun _ _ => ⟨by simp, by simp⟩⟩
  obtain ⟨L', r, hs', -⟩ := h 3 s₀ _ L _ h₀ (by decide) hsteps hop
  have hfail : debugRealloc 3 L.tracker (some 0) 16 ⟨0, 2⟩ ⟨none, none⟩ = none :=
    debugRealloc_refused (some 0) rfl
  cases hfail.symm.trans hs'

end Sample

end MemTracker

end Infra
