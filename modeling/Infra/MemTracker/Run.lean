import Infra.Foundation.Tally
import Infra.MemTracker.Books

/-!
# Runs of the allocation tracker

What the clients hold is an account of the calls alone: the blocks that they were
given and have not given back, each with the place that gave it out last and the size
they asked for there. Its blocks are those in memory. `Kept` says that the books of the
tracker are those of the blocks in memory, and it is kept by every legal call: one that
gives out a block enters it into the books of its place, one that takes back a block
takes it out of them, and `debug_realloc` does both.
-/

namespace Infra

namespace MemTracker

open Infra.LinkedList Infra.HashTable

section Definitions

variable {β ε : Type}

/-- The sum of `g` over the live blocks of a place. -/
def siteTally (g : Block → ℕ) (s : Tracker β ε) (site : Site) : ℕ :=
  tally (fun b => if b.tag.site = site then g b else 0) s.blocks

/-- The number of live blocks of a place. -/
def liveBlocks : Tracker β ε → Site → ℕ := siteTally fun _ => 1

/-- The sum of the sizes in the tags of the live blocks of a place. -/
def taggedBytes : Tracker β ε → Site → ℕ := siteTally fun b => b.tag.size.toNat

/-- A block of the client. -/
def blockOf (size : BitVec 64) (site : Site) : Block :=
  ⟨BitVec.ofNat 64 sizeofTag + size, tagOf site size⟩

/-- A block in the hands of a client: the place that gave it out last, and the size that was
asked for there. -/
structure Holding where
  site : Site
  size : BitVec 64
  deriving DecidableEq

/-- What the clients hold, by the addresses. -/
abbrev Holdings (β : Type) := AList fun _ : β => Holding

/-- The number of the blocks that a place gave out last. -/
def Holdings.blocksAt (H : Holdings β) (site : Site) : ℕ :=
  tally (fun h => if h.site = site then 1 else 0) H

/-- The sum of their sizes. -/
def Holdings.bytesAt (H : Holdings β) (site : Site) : ℕ :=
  tally (fun h => if h.site = site then h.size.toNat else 0) H

variable [DecidableEq β] [DecidableEq ε]

/-- The clients get the block of an answer. -/
def Holdings.give (H : Holdings β) (grant : Grant β ε) (site : Site) (size : BitVec 64) :
    Holdings β :=
  grant.ptr.elim H fun ptr => H.insert ptr ⟨site, size⟩

/-- What the clients hold after a call. -/
def Op.holdings (H : Holdings β) : Op β ε → Holdings β
  | .malloc size site grant => H.give grant site size
  | .calloc n size site grant => H.give grant site (n.signExtend 64 * size)
  | .strdup str site grant => H.give grant site (BitVec.ofNat 64 (str.length + 1))
  | .realloc ptr size site grant => (ptr.elim H H.erase).give grant site size
  | .free ptr => H.erase ptr

/-- What the clients hold after a run. -/
def Holdings.after (H : Holdings β) (ops : List (Op β ε)) : Holdings β :=
  ops.foldl (fun H op => op.holdings H) H

/-- What the underlying allocator gives for the block of a call, which is the answer. -/
def Op.answer : Op β ε → Option β
  | .malloc _ _ grant | .calloc _ _ _ grant | .strdup _ _ grant | .realloc _ _ _ grant => grant.ptr
  | .free _ => none

/-- The `AllocInfo` that the underlying allocator gives in a call. -/
def Op.info : Op β ε → Option ε
  | .malloc _ _ grant | .calloc _ _ _ grant | .strdup _ _ grant | .realloc _ _ _ grant => grant.info
  | .free _ => none

/-- The underlying allocator succeeds: it gives a block that no client has, and an
`AllocInfo` that is not in use. -/
def Grant.Succeeds (H : Holdings β) (s : Tracker β ε) (grant : Grant β ε) : Prop :=
  (∃ ptr, grant.ptr = some ptr ∧ ptr ∉ H) ∧ ∃ e, grant.info = some e ∧ ¬ s.mem.Live (.inr e)

/-- What a client and the underlying allocator respect: blocks that are
reallocated or freed are live, and every allocation succeeds. The block and the `AllocInfo`
that `realloc` frees may be given out again. -/
def Op.Legal (fuel : ℕ) (H : Holdings β) (s : Tracker β ε) : Op β ε → Prop
  | .malloc _ _ grant | .calloc _ _ _ grant | .strdup _ _ grant | .realloc none _ _ grant =>
      grant.Succeeds H s
  | .realloc (some ptr) _ _ grant => ptr ∈ H ∧ ∀ block s', s.blocks.lookup ptr = some block →
      checkFree fuel s block.tag = some s' → grant.Succeeds (H.erase ptr) s'
  | .free ptr => ptr ∈ H

/-- Each call of the run is legal when it is made, and what the clients hold satisfies `P`
after each. -/
def LegalRun (P : Holdings β → Prop) (fuel : ℕ) :
    Holdings β → Tracker β ε → List (Op β ε) → Prop
  | _, _, [] => True
  | H, s, op :: ops => op.Legal fuel H s ∧ P (op.holdings H) ∧
      ∀ s' r, (tracker fuel).step s op = some (s', r) → LegalRun P fuel (op.holdings H) s' ops

/-- The blocks in memory are those that the clients hold, with their tags. -/
def Tagged (H : Holdings β) (s : Tracker β ε) : Prop :=
  ∀ ptr, s.blocks.lookup ptr = (H.lookup ptr).map fun h => blockOf h.size h.site

/-- The books of the tracker are those of its live blocks, and `fuel` rounds are
enough for the loops while at most `n` calls are still to come. -/
structure Kept (fuel n : ℕ) (s : Tracker β ε) (m : KeyMap ε) : Prop where
  books : Books s m (liveBlocks s) (taggedBytes s)
  fuel : m.entries.length + n < fuel

end Definitions

section Blocks

variable {β ε : Type} {s s' : Tracker β ε} {g : Block → ℕ}

/-- A place without live blocks has no bytes. -/
theorem siteTally_eq_zero {site : Site} (h : liveBlocks s site = 0) :
    siteTally g s site = 0 := by
  rw [liveBlocks, siteTally] at h
  refine tally_eq_zero (fun b hb => ?_) h
  by_cases hs : b.tag.site = site
  · simp [hs] at hb
  · rw [if_neg hs]

variable [DecidableEq β] {ptr : β} {block : Block}

/-- A block that is allocated counts at its place. -/
theorem siteTally_insert (hptr : ptr ∉ s.blocks) (hs : s'.blocks = s.blocks.insert ptr block) :
    siteTally g s' = Function.update (siteTally g s) block.tag.site
      (siteTally g s block.tag.site + g block) := by
  funext site
  rw [siteTally, hs, tally_insert _ hptr]
  by_cases h : site = block.tag.site
  · subst h
    simp [siteTally, Nat.add_comm]
  · simp [siteTally, Function.update_of_ne h, Ne.symm h]

/-- A block that is freed counted at its place. -/
theorem siteTally_erase (hptr : s.blocks.lookup ptr = some block)
    (hs : s'.blocks = s.blocks.erase ptr) :
    siteTally g s' = Function.update (siteTally g s) block.tag.site
      (siteTally g s block.tag.site - g block) := by
  funext site
  have hsum := tally_erase (fun b => if b.tag.site = site then g b else 0) hptr
  rw [siteTally, hs]
  by_cases h : site = block.tag.site
  · subst h
    simp only [if_true] at hsum
    rw [Function.update_self, siteTally, hsum]
    omega
  · rw [Function.update_of_ne h, siteTally, hsum, if_neg (Ne.symm h), Nat.zero_add]

theorem le_siteTally (hptr : s.blocks.lookup ptr = some block) :
    g block ≤ siteTally g s block.tag.site := by
  have := le_tally (fun b => if b.tag.site = block.tag.site then g b else 0) hptr
  rwa [if_pos rfl] at this

end Blocks

section Holdings

variable {β ε : Type} [DecidableEq β] [DecidableEq ε] {H : Holdings β} {s s' : Tracker β ε}
  {ptr : β} {size : BitVec 64} {site : Site}

omit [DecidableEq ε] in
theorem Tagged.mem_iff (t : Tagged H s) : ptr ∈ s.blocks ↔ ptr ∈ H := by
  rw [← AList.lookup_isSome, ← AList.lookup_isSome, t, Option.isSome_map]

omit [DecidableEq ε] in
theorem Tagged.insert (t : Tagged H s) (hs : s'.blocks = s.blocks.insert ptr (blockOf size site)) :
    Tagged (H.insert ptr ⟨site, size⟩) s' := by
  intro p
  rw [hs]
  by_cases h : p = ptr
  · subst h
    rw [AList.lookup_insert, AList.lookup_insert]
    rfl
  · rw [AList.lookup_insert_ne h, AList.lookup_insert_ne h, t]

omit [DecidableEq ε] in
theorem Tagged.erase (t : Tagged H s) (hs : s'.blocks = s.blocks.erase ptr) :
    Tagged (H.erase ptr) s' := by
  intro p
  rw [hs]
  by_cases h : p = ptr
  · subst h
    rw [AList.lookup_erase, AList.lookup_erase]
    rfl
  · rw [AList.lookup_erase_ne h, AList.lookup_erase_ne h, t]

omit [DecidableEq ε] in
/-- The live blocks of a place are those that it gave out last. -/
theorem Tagged.liveBlocks_eq (t : Tagged H s) : liveBlocks s site = H.blocksAt site := by
  rw [liveBlocks, siteTally, tally_of_lookup t]
  rfl

omit [DecidableEq ε] in
/-- The sizes in the tags are those that were asked for, as far as these fit into the tags. -/
theorem Tagged.taggedBytes_eq (t : Tagged H s) (hfits : H.bytesAt site < 2 ^ 32) :
    taggedBytes s site = H.bytesAt site := by
  rw [taggedBytes, siteTally, tally_of_lookup t, Holdings.bytesAt]
  refine tally_congr fun p hp => ?_
  have htag : (blockOf p.2.size p.2.site).tag.site = p.2.site := rfl
  have hsize : (blockOf p.2.size p.2.site).tag.size.toNat = p.2.size.toNat % 2 ^ 32 :=
    BitVec.toNat_setWidth ..
  by_cases h : p.2.site = site
  · have hle := le_tally (fun h => if h.site = site then h.size.toNat else 0)
      (AList.mem_lookup_iff.mpr hp)
    simp only [h, if_true] at hle
    rw [htag, if_pos h, if_pos h, hsize, Nat.mod_eq_of_lt (hle.trans_lt hfits)]
  · rw [htag, if_neg h, if_neg h]

end Holdings

section Steps

variable {β ε : Type} [DecidableEq β] [DecidableEq ε] {s : Tracker β ε} {m : KeyMap ε}
  {H : Holdings β} {fuel n : ℕ}

/-- A block that is given out enters the books of its place, when this has an
`AllocInfo` or gets one. -/
theorem Kept.enter (k : Kept fuel (n + 1) s m) (size : BitVec 64) (site : Site)
    (info : Option ε) {ptr : β} (hptr : ptr ∉ s.blocks)
    (hinfo : ∀ e, info = some e → ¬ s.mem.Live (.inr e))
    (hcounts : (m.lookup (siteKey site)).isSome ∨ info.isSome) :
    ∃ s' m', checkMalloc fuel { s with blocks := s.blocks.insert ptr (blockOf size site) }
        (tagOf site size) info = some s' ∧
      Kept fuel n s' m' ∧ s'.blocks = s.blocks.insert ptr (blockOf size site) ∧
      ∀ x, s'.mem.Live (.inr x) → info = some x ∨ s.mem.Live (.inr x) := by
  have hfuel := k.fuel
  have hlt : m.entries.length < fuel := by omega
  obtain ⟨s', m', hs', b', hb, hlen, hlive⟩ := (k.books.of_blocks (s.blocks.insert ptr
    (blockOf size site))).checkMalloc hlt (tagOf site size) hinfo hcounts
  refine ⟨s', m', hs', ⟨?_, ?_⟩, hb, hlive⟩
  · rw [liveBlocks, taggedBytes, siteTally_insert hptr hb, siteTally_insert hptr hb]
    exact b'
  · omega

/-- A block that is given back leaves the books of its place. -/
theorem Kept.leave (k : Kept fuel n s m) (hmax : ∀ site, liveBlocks s site < 2 ^ 32) {ptr : β}
    {block : Block} (hptr : s.blocks.lookup ptr = some block) :
    ∃ s' m', checkFree fuel s block.tag = some s' ∧ s'.blocks = s.blocks ∧
      Kept fuel n { s' with blocks := s.blocks.erase ptr } m' ∧
      ∀ a, s'.mem.Live a → s.mem.Live a := by
  have hfuel := k.fuel
  have hlt : m.entries.length < fuel := by omega
  have hpos : 1 ≤ liveBlocks s block.tag.site := le_siteTally (g := fun _ => 1) hptr
  have hlast : liveBlocks s block.tag.site = 1 →
      taggedBytes s block.tag.site = block.tag.size.toNat := by
    intro hone
    have hzero : liveBlocks { s with blocks := s.blocks.erase ptr } block.tag.site = 0 := by
      rw [liveBlocks, siteTally_erase hptr rfl, Function.update_self]
      exact Nat.sub_eq_zero_of_le hone.le
    have hbytes := siteTally_eq_zero (g := fun b => b.tag.size.toNat) hzero
    have hle := le_siteTally (g := fun b => b.tag.size.toNat) hptr
    rw [siteTally_erase hptr rfl, Function.update_self] at hbytes
    exact Nat.le_antisymm (Nat.le_of_sub_eq_zero hbytes) hle
  obtain ⟨s', m', hs', b', hb, hlen, hlive⟩ := k.books.checkFree hlt block.tag hpos (hmax _)
    (le_siteTally (g := fun b => b.tag.size.toNat) hptr) hlast
  refine ⟨s', m', hs', hb, ⟨?_, by omega⟩, hlive⟩
  have herase : ({ s' with blocks := s.blocks.erase ptr } : Tracker β ε).blocks =
      s.blocks.erase ptr := rfl
  rw [liveBlocks, taggedBytes, siteTally_erase hptr herase, siteTally_erase hptr herase]
  exact b'.of_blocks _

/-- A call that gives out a block returns it, and keeps the books. -/
theorem Kept.debugMalloc (k : Kept fuel (n + 1) s m) (t : Tagged H s) {grant : Grant β ε}
    (hgrant : grant.Succeeds H s) (size : BitVec 64) (site : Site) :
    ∃ s' m', MemTracker.debugMalloc fuel s size site grant = some (s', grant.ptr) ∧
      Kept fuel n s' m' ∧ Tagged (H.give grant site size) s' ∧
      ∀ x, s'.mem.Live (.inr x) → grant.info = some x ∨ s.mem.Live (.inr x) := by
  obtain ⟨⟨ptr, hptr, hnew⟩, e, he, hlive⟩ := hgrant
  obtain ⟨s', m', hs', k', hb, hinfos⟩ := k.enter size site grant.info
    (fun h => hnew (t.mem_iff.mp h)) (by simpa [he] using hlive) (Or.inr (by simp [he]))
  rw [blockOf] at hs'
  refine ⟨s', m', by simp [MemTracker.debugMalloc, hptr, hs'], k', ?_, hinfos⟩
  rw [Holdings.give, hptr]
  exact t.insert hb

/-- A legal call returns its answer, and keeps the books. -/
theorem Kept.step (k : Kept fuel (n + 1) s m) (t : Tagged H s)
    (hmax : ∀ site, H.blocksAt site < 2 ^ 32) {op : Op β ε} (hop : op.Legal fuel H s) :
    ∃ s' m', (tracker fuel).step s op = some (s', op.answer) ∧ Kept fuel n s' m' ∧
      Tagged (op.holdings H) s' ∧
      ∀ x, s'.mem.Live (.inr x) → op.info = some x ∨ s.mem.Live (.inr x) := by
  have hlive : ∀ site, liveBlocks s site < 2 ^ 32 := fun site => t.liveBlocks_eq ▸ hmax site
  cases op with
  | malloc size site grant => exact k.debugMalloc t hop size site
  | calloc num size site grant => exact k.debugMalloc t hop (num.signExtend 64 * size) site
  | strdup str site grant =>
      obtain ⟨s', m', hs', rest⟩ := k.debugMalloc t hop (BitVec.ofNat 64 (str.length + 1)) site
      obtain ⟨⟨ptr, hptr, -⟩, -⟩ := hop
      exact ⟨s', m', by simp [tracker, debugStrdup, hs', hptr, Op.answer], rest⟩
  | realloc old size site grant =>
      cases old with
      | none =>
          obtain ⟨s', m', hs', rest⟩ := k.debugMalloc t hop size site
          obtain ⟨⟨ptr, hptr, -⟩, -⟩ := hop
          refine ⟨s', m', ?_, rest⟩
          simp only [MemTracker.debugMalloc, hptr] at hs'
          simpa [tracker, debugRealloc, hptr, Op.answer] using hs'
      | some old =>
          obtain ⟨hold, hgrant⟩ := hop
          obtain ⟨block, hblock⟩ :=
            Option.isSome_iff_exists.mp (AList.lookup_isSome.mpr (t.mem_iff.mpr hold))
          obtain ⟨s₁, m₁, hs₁, hb₁, k₁, hlive₁⟩ := k.leave hlive hblock
          have t₁ : Tagged (H.erase old) { s₁ with blocks := s.blocks.erase old } := t.erase rfl
          have hgrant₁ := hgrant block s₁ hblock hs₁
          obtain ⟨s', m', hs', k', t', hinfos⟩ := k₁.debugMalloc t₁ hgrant₁ size site
          obtain ⟨⟨ptr, hptr, -⟩, -⟩ := hgrant₁
          refine ⟨s', m', ?_, k', t', fun x hx => (hinfos x hx).imp_right (hlive₁ _)⟩
          simp only [MemTracker.debugMalloc, hptr] at hs'
          simpa [tracker, debugRealloc, hblock, hs₁, hptr, hb₁, Op.answer] using hs'
  | free ptr =>
      obtain ⟨block, hptr⟩ :=
        Option.isSome_iff_exists.mp (AList.lookup_isSome.mpr (t.mem_iff.mpr hop))
      obtain ⟨s₁, m₁, hs₁, hb₁, k₁, hlive₁⟩ := k.leave hlive hptr
      refine ⟨{ s₁ with blocks := s.blocks.erase ptr }, m₁, ?_, ⟨k₁.books, ?_⟩, t.erase rfl,
        fun x hx => Or.inr (hlive₁ _ hx)⟩
      · simp [tracker, debugFree, hptr, hs₁, hb₁, Op.answer]
      · have := k₁.fuel
        omega

/-- A legal run returns its answers, and keeps the books. -/
theorem Kept.run {P : Holdings β → Prop} (hP : ∀ H, P H → ∀ site, H.blocksAt site < 2 ^ 32)
    {ops : List (Op β ε)} (k : Kept fuel ops.length s m) (t : Tagged H s) (hH : P H)
    (hops : LegalRun P fuel H s ops) :
    ∃ s' m', (tracker fuel).run s ops = some (s', ops.map Op.answer) ∧ Kept fuel 0 s' m' ∧
      Tagged (H.after ops) s' ∧ P (H.after ops) := by
  induction ops generalizing H s m with
  | nil => exact ⟨s, m, rfl, k, t, hH⟩
  | cons op ops ih =>
      obtain ⟨hop, hP₁, hrest⟩ := hops
      obtain ⟨s₁, m₁, hs₁, k₁, t₁, -⟩ := k.step t (hP H hH) hop
      obtain ⟨s₂, m₂, hs₂, k₂, t₂, hP₂⟩ := ih k₁ t₁ hP₁ (hrest s₁ _ hs₁)
      exact ⟨s₂, m₂, Machine.run_cons.mpr ⟨s₁, _, _, hs₁, hs₂, rfl⟩, k₂, t₂, hP₂⟩

omit [DecidableEq β] in
theorem initMemTracker_blocks {mem : Heap (ℕ ⊕ ε)} {infos : ε → AllocInfo}
    {blocks : AList fun _ : β => Block} (hs : initMemTracker mem infos blocks = some s) :
    s.blocks = blocks := by
  simp only [initMemTracker, Option.bind_eq_bind, Option.bind_eq_some_iff,
    Option.some.injEq] at hs
  obtain ⟨-, -, rfl⟩ := hs
  rfl

theorem initMemTracker_tagged {mem : Heap (ℕ ⊕ ε)} {infos : ε → AllocInfo}
    (hs : initMemTracker mem infos (∅ : AList fun _ : β => Block) = some s) :
    Tagged (∅ : Holdings β) s := by
  intro ptr
  rw [initMemTracker_blocks hs]
  rfl

omit [DecidableEq β] in
/-- `initMemTracker` opens empty books. -/
theorem initMemTracker_kept {mem : Heap (ℕ ⊕ ε)} {infos : ε → AllocInfo}
    (hs : initMemTracker mem infos (∅ : AList fun _ : β => Block) = some s) (hfuel : n < fuel) :
    Kept fuel n s ∅ := by
  obtain ⟨mem₁, hm, -, hr⟩ := Ring.of_initHeads (n := bucketSize) (ν := ℕ ⊕ ε)
    Sum.inl_injective fun i hi => Ring.mallocHeads_live (h := mem) hi
  simp only [initMemTracker, initHash, if_true, hm, Option.bind_eq_bind, Option.bind_some,
    Option.some.injEq] at hs
  subst hs
  refine ⟨⟨rfl, ⟨by decide, ?_, by simp⟩, fun _ _ => rfl, by simp, fun _ _ => rfl⟩,
    by simpa using hfuel⟩
  exact (Rings.of_nil fun i hi => hr i hi).congr_entries fun i _ => by simp [bucketEntries]

end Steps

/-! ## Runs that are legal by their calls -/

section Proper

variable {β ε : Type} [DecidableEq β] [DecidableEq ε] {s : Tracker β ε} {m : KeyMap ε}
  {H : Holdings β} {fuel n : ℕ}

/-- The underlying allocator gives a block that no client has, and an `AllocInfo`. -/
def Grant.Proper (H : Holdings β) (grant : Grant β ε) : Prop :=
  (∃ ptr ∈ grant.ptr, ptr ∉ H) ∧ grant.info.isSome

/-- The call is legal as far as this depends on what the clients hold. -/
def Op.Proper (H : Holdings β) : Op β ε → Prop
  | .malloc _ _ grant | .calloc _ _ _ grant | .strdup _ _ grant | .realloc none _ _ grant =>
      grant.Proper H
  | .realloc (some ptr) _ _ grant => ptr ∈ H ∧ grant.Proper (H.erase ptr)
  | .free ptr => ptr ∈ H

/-- So is each call of a run, and what the clients hold satisfies `P` after each. -/
def ProperRun (P : Holdings β → Prop) : Holdings β → List (Op β ε) → Prop
  | _, [] => True
  | H, op :: ops => op.Proper H ∧ P (op.holdings H) ∧ ProperRun P (op.holdings H) ops

instance Grant.Proper.decidable (H : Holdings β) (grant : Grant β ε) :
    Decidable (grant.Proper H) :=
  match h : grant.ptr with
  | none => isFalse fun hp => by simp [Grant.Proper, h] at hp
  | some ptr => decidable_of_iff (ptr ∉ H ∧ grant.info.isSome) (by simp [Grant.Proper, h])

instance Op.Proper.decidable (H : Holdings β) (op : Op β ε) : Decidable (op.Proper H) :=
  match op with
  | .malloc _ _ grant | .calloc _ _ _ grant | .strdup _ _ grant | .realloc none _ _ grant =>
      inferInstanceAs (Decidable (grant.Proper H))
  | .realloc (some ptr) _ _ grant =>
      inferInstanceAs (Decidable (ptr ∈ H ∧ grant.Proper (H.erase ptr)))
  | .free ptr => inferInstanceAs (Decidable (ptr ∈ H))

instance ProperRun.decidable {P : Holdings β → Prop} [DecidablePred P] (H : Holdings β) :
    (ops : List (Op β ε)) → Decidable (ProperRun P H ops)
  | [] => isTrue trivial
  | op :: ops =>
      letI := ProperRun.decidable (P := P) (op.holdings H) ops
      inferInstanceAs (Decidable
        (op.Proper H ∧ P (op.holdings H) ∧ ProperRun P (op.holdings H) ops))

omit [DecidableEq β] [DecidableEq ε] in
theorem Grant.Proper.succeeds {grant : Grant β ε} (h : grant.Proper H)
    (hinfo : ∀ e, grant.info = some e → ¬ s.mem.Live (.inr e)) : grant.Succeeds H s := by
  obtain ⟨⟨ptr, hptr, hnew⟩, hsome⟩ := h
  obtain ⟨e, he⟩ := Option.isSome_iff_exists.mp hsome
  exact ⟨⟨ptr, hptr, hnew⟩, e, he, hinfo e he⟩

/-- Such a call is legal with an `AllocInfo` that is not in use. -/
theorem Kept.legal (k : Kept fuel n s m) (t : Tagged H s)
    (hmax : ∀ site, H.blocksAt site < 2 ^ 32) {op : Op β ε} (hop : op.Proper H)
    (hinfo : ∀ e, op.info = some e → ¬ s.mem.Live (.inr e)) : op.Legal fuel H s := by
  cases op with
  | malloc size site grant => exact hop.succeeds hinfo
  | calloc num size site grant => exact hop.succeeds hinfo
  | strdup str site grant => exact hop.succeeds hinfo
  | realloc old size site grant =>
      cases old with
      | none => exact hop.succeeds hinfo
      | some old =>
          refine ⟨hop.1, fun block s' hblock hs' => hop.2.succeeds fun e he hlive => ?_⟩
          obtain ⟨s₁, -, hs₁, -, -, hlive₁⟩ :=
            k.leave (fun site => t.liveBlocks_eq ▸ hmax site) hblock
          obtain rfl : s₁ = s' := Option.some.inj (hs₁.symm.trans hs')
          exact hinfo e he (hlive₁ _ hlive)
  | free ptr => exact hop

/-- A run is legal by its calls when no `AllocInfo` is given out twice. -/
theorem Kept.legalRun {P : Holdings β → Prop}
    (hP : ∀ H, P H → ∀ site, H.blocksAt site < 2 ^ 32) {ops : List (Op β ε)}
    (k : Kept fuel ops.length s m) (t : Tagged H s) (hH : P H) (hops : ProperRun P H ops)
    (hnodup : (ops.filterMap Op.info).Nodup)
    (hinfo : ∀ e ∈ ops.filterMap Op.info, ¬ s.mem.Live (.inr e)) : LegalRun P fuel H s ops := by
  induction ops generalizing H s m with
  | nil => trivial
  | cons op ops ih =>
      obtain ⟨hop, hP₁, hrest⟩ := hops
      have hfirst : ∀ e, op.info = some e → e ∈ (op :: ops).filterMap Op.info := by
        intro e he
        simp [he]
      have hlegal := k.legal t (hP H hH) hop fun e he => hinfo e (hfirst e he)
      refine ⟨hlegal, hP₁, fun s' r hs' => ?_⟩
      obtain ⟨s₁, m₁, hs₁, k₁, t₁, hlive⟩ := k.step t (hP H hH) hlegal
      obtain ⟨rfl, -⟩ := Prod.mk.inj (Option.some.inj (hs₁.symm.trans hs'))
      have hsub : (ops.filterMap Op.info).Sublist ((op :: ops).filterMap Op.info) :=
        (List.sublist_cons_self op ops).filterMap _
      refine ih k₁ t₁ hP₁ hrest (hnodup.sublist hsub) fun e he hin => ?_
      rcases hlive e hin with hop | hin
      · rw [List.filterMap_cons, hop] at hnodup
        exact (List.nodup_cons.mp hnodup).1 he
      · exact hinfo e (hsub.subset he) hin

end Proper

end MemTracker

end Infra
