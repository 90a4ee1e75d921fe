import Infra.MemTracker.Run

/-!
# The allocation tracker is exact

What a user of the tracker sees: in every legal run the counters of a place are
the number and the bytes of the blocks that its clients got there and still hold, by
the arguments and the answers of their calls, and `printMemStat` walks over the
places that have some, each of them once. The counters are `int`s, so they say so
for as long as they fit. The bytes of a place do not bound its blocks: blocks of
size zero are counted, too.
-/

namespace Infra

namespace MemTracker

open Infra.LinkedList Infra.HashTable

section Walk

variable {β ε : Type} [DecidableEq ε] {s : Tracker β ε} {m : KeyMap ε} {fuel : ℕ}

/-- A fold whose body appends, on entries that are elements. -/
theorem foldlM_append {α γ : Type} (f : α → List γ) {body : α → List γ → Option (List γ)}
    {xs : List α} (hbody : ∀ x ∈ xs, ∀ out, body x out = some (out ++ f x)) (out : List γ) :
    xs.foldlM (fun out x => body x out) out = some (out ++ xs.flatMap f) := by
  induction xs generalizing out with
  | nil => simp
  | cons x xs ih =>
      rw [List.foldlM_cons, hbody x List.mem_cons_self, Option.bind_eq_bind, Option.bind_some,
        ih fun y hy => hbody y (List.mem_cons_of_mem x hy)]
      simp

/-- The elements that `printMemStat` visits, in this order. -/
def visited (m : KeyMap ε) : List ε := (List.range bucketSize).flatMap (bucketEntries siteHash m)

omit [DecidableEq ε] in
theorem mem_visited {bytes : ε → List UInt8} {mem : Heap (ℕ ⊕ ε)} (h : Holds siteHash bytes mem m)
    {e : ε} : e ∈ visited m ↔ Stored m e := by
  rw [← h.listed_iff, visited, List.mem_flatMap]
  constructor
  · rintro ⟨i, hi, he⟩
    exact ⟨i, List.mem_range.mp hi, he⟩
  · rintro ⟨i, hi, he⟩
    exact ⟨i, List.mem_range.mpr hi, he⟩

omit [DecidableEq ε] in
/-- No element is visited twice. -/
theorem visited_nodup {bytes : ε → List UInt8} {mem : Heap (ℕ ⊕ ε)}
    (h : Holds siteHash bytes mem m) : (visited m).Nodup := by
  rw [visited, List.nodup_flatMap]
  constructor
  · intro i hi
    exact h.rings.nodup (List.mem_range.mp hi)
  · refine List.nodup_range.imp_of_mem fun {i j} hi hj hij e hei hej => ?_
    exact hij (h.rings.eq_of_mem (List.mem_range.mp hi) (List.mem_range.mp hj) hei hej)

/-- `printMemStat` prints a line for each element it visits. -/
theorem printMemStat_eq (h : Holds siteHash s.bytes s.mem m) (hfuel : m.entries.length < fuel) :
    printMemStat fuel s = some ((visited m).map fun e => statLine (s.infos e)) := by
  have hbucket : ∀ i ∈ List.range bucketSize, ∀ out,
      listForEach s.mem (statBody s) (.inl i) fuel out =
        some (out ++ (bucketEntries siteHash m i).map fun e => statLine (s.infos e)) := by
    intro i hi out
    have hlen : ((bucketEntries siteHash m i).map (Sum.inr : ε → ℕ ⊕ ε)).length < fuel := by
      have := List.length_filter_le (fun p : Sigma fun _ : List UInt8 => ε =>
        decide (siteHash.bucketOf p.1 = i)) m.entries.reverse
      simp only [bucketEntries, List.length_map, List.length_reverse] at this ⊢
      omega
    rw [(h.rings.ring i (List.mem_range.mp hi)).listForEach_eq hlen, List.foldlM_map,
      List.map_eq_flatMap]
    exact foldlM_append (fun e => [statLine (s.infos e)]) (fun e _ out => rfl) out
  have hfold := foldlM_append
    (fun i => (bucketEntries siteHash m i).map fun e => statLine (s.infos e)) hbucket []
  rw [printMemStat, hfold, List.nil_append, visited, List.map_flatMap]

end Walk

section Exact

variable {β ε : Type} [DecidableEq β] [DecidableEq ε] {s s₀ : Tracker β ε} {m : KeyMap ε}
  {H : Holdings β} {fuel : ℕ}

/-- The tracker says what the clients hold: `memHash` stores the elements of `m`, one
for each place that gave out some of it and none for another place, with the number and
the bytes of these blocks, and `printMemStat` visits each of them once. -/
structure Exact (fuel : ℕ) (H : Holdings β) (s : Tracker β ε) (m : KeyMap ε) : Prop where
  stores : Holds s.memHash s.bytes s.mem m
  absent : ∀ site, H.blocksAt site = 0 → ∀ e, Stored m e → (s.infos e).tag.site ≠ site
  present : ∀ site, 0 < H.blocksAt site →
    ∃ e, Stored m e ∧ (s.infos e).tag.site = site ∧
      ∀ x, Stored m x → (s.infos x).tag.site = site → x = e
  count : ∀ e, Stored m e →
    (s.infos e).count.toInt = H.blocksAt (s.infos e).tag.site
  totalSize : ∀ e, Stored m e →
    (s.infos e).totalSize.toInt = H.bytesAt (s.infos e).tag.site
  walk : ∃ es : List ε, printMemStat fuel s = some (es.map fun e => statLine (s.infos e)) ∧
    es.Nodup ∧ ∀ e, e ∈ es ↔ Stored m e

omit [DecidableEq β] [DecidableEq ε] in
theorem Books.lookup_of_stored {count size : Site → ℕ} (b : Books s m count size) {e : ε}
    (he : Stored m e) : m.lookup (siteKey (s.infos e).tag.site) = some e := by
  obtain ⟨k, hk⟩ := he
  have hkey := (b.holds.key k e hk).2
  rw [Tracker.bytes, keyOf_infoBytes] at hkey
  rw [hkey]
  exact AList.mem_lookup_iff.mpr hk

theorem toInt_ofNat_of_lt {n : ℕ} (h : n < 2 ^ 31) : (BitVec.ofNat 32 n).toInt = n := by
  rw [BitVec.toInt_ofNat', Int.bmod_eq_of_le] <;> omega

/-- Books that are kept are exact while the counters fit. -/
theorem Kept.exact {n : ℕ} (k : Kept fuel n s m) (t : Tagged H s)
    (hblocks : ∀ site, H.blocksAt site < 2 ^ 31) (hbytes : ∀ site, H.bytesAt site < 2 ^ 31) :
    Exact fuel H s m := by
  have hfuel := k.fuel
  have h := k.books.holds
  constructor
  · rw [k.books.memHash]
    exact h
  · rintro site hzero e he rfl
    have hpos := (k.books.present _ e (k.books.lookup_of_stored he)).1
    rw [t.liveBlocks_eq] at hpos
    omega
  · intro site hpos
    cases hl : m.lookup (siteKey site) with
    | none =>
        have hzero := k.books.absent site hl
        rw [t.liveBlocks_eq] at hzero
        omega
    | some e =>
        refine ⟨e, ⟨_, AList.mem_lookup_iff.mp hl⟩, k.books.site_eq hl, fun x hx hsite => ?_⟩
        have := k.books.lookup_of_stored hx
        rw [hsite, hl] at this
        exact (Option.some.inj this).symm
  · intro e he
    rw [(k.books.present _ e (k.books.lookup_of_stored he)).2.1, t.liveBlocks_eq]
    exact toInt_ofNat_of_lt (hblocks _)
  · intro e he
    rw [(k.books.present _ e (k.books.lookup_of_stored he)).2.2,
      t.taggedBytes_eq ((hbytes _).trans (by decide))]
    exact toInt_ofNat_of_lt (hbytes _)
  · exact ⟨visited m, printMemStat_eq h (by omega), visited_nodup h, fun e => mem_visited h⟩

/-- A beginning of a legal run is a legal run. -/
theorem LegalRun.of_append {P : Holdings β → Prop} {as bs : List (Op β ε)}
    (h : LegalRun P fuel H s (as ++ bs)) : LegalRun P fuel H s as := by
  induction as generalizing H s with
  | nil => trivial
  | cons a as ih => exact ⟨h.1, h.2.1, fun s' r hs' => ih (h.2.2 s' r hs')⟩

theorem LegalRun.mono {P Q : Holdings β → Prop} (hPQ : ∀ H, P H → Q H) {ops : List (Op β ε)}
    (h : LegalRun P fuel H s ops) : LegalRun Q fuel H s ops := by
  induction ops generalizing H s with
  | nil => trivial
  | cons op ops ih => exact ⟨h.1, hPQ _ h.2.1, fun s' r hs' => ih (h.2.2 s' r hs')⟩

/-- The counters of every place fit into an `int`. -/
def Fits (H : Holdings β) : Prop :=
  ∀ site, H.blocksAt site < 2 ^ 31 ∧ H.bytesAt site < 2 ^ 31

/-- In every legal run in which the counters fit, every call returns the block that it was
given, and after it the tracker says exactly what the clients hold by the calls so far. -/
theorem tracker_books_exact {mem : Heap (ℕ ⊕ ε)} {infos : ε → AllocInfo}
    (h₀ : initMemTracker mem infos (∅ : AList fun _ : β => Block) = some s₀) {ops : List (Op β ε)}
    (hfuel : ops.length < fuel) (hops : LegalRun Fits fuel ∅ s₀ ops) :
    ∀ as bs, ops = as ++ bs → ∃ s m,
      (tracker fuel).run s₀ as = some (s, as.map Op.answer) ∧
        Exact fuel (Holdings.after ∅ as) s m := by
  rintro as bs rfl
  have hlen : as.length < fuel := by
    rw [List.length_append] at hfuel
    omega
  have k₀ := initMemTracker_kept h₀ hlen
  have hfits : Fits (∅ : Holdings β) := by
    intro site
    simp [Holdings.blocksAt, Holdings.bytesAt]
  obtain ⟨s, m, hrun, k, t, hP⟩ := k₀.run (P := Fits)
    (fun H hH site => (hH site).1.trans (by decide)) (initMemTracker_tagged h₀) hfits
    hops.of_append
  exact ⟨s, m, hrun, k.exact t (fun site => (hP site).1) fun site => (hP site).2⟩

end Exact

/-! ## Runs from the start -/

section Start

variable {β ε : Type} [DecidableEq β] [DecidableEq ε] {fuel : ℕ}

omit [DecidableEq β] in
/-- A memory in which nothing is allocated is one to start from. -/
theorem exists_start (info : AllocInfo) :
    ∃ s₀ : Tracker β ε, initMemTracker (fun _ => none) (fun _ => info) ∅ = some s₀ ∧
      ∀ e, ¬ s₀.mem.Live (.inr e) := by
  obtain ⟨mem, hm, hs, -⟩ := Ring.of_initHeads (n := bucketSize) (ν := ℕ ⊕ ε)
    Sum.inl_injective fun i hi => Ring.mallocHeads_live (h := fun _ => none) hi
  have hinit : initMemTracker (fun _ => none) (fun _ => info) (∅ : AList fun _ : β => Block) =
      some ⟨siteHash, mem, fun _ => info, ∅⟩ := by
    simp only [initMemTracker, initHash, if_true, hm, Option.bind_eq_bind, Option.bind_some]
    rfl
  refine ⟨_, hinit, fun e he => ?_⟩
  have hnone : mallocHeads (fun _ => none) Sum.inl bucketSize (Sum.inr e : ℕ ⊕ ε) = none :=
    Ring.mallocHeads_eq fun i _ => by simp
  have := (hs.live _).mp he
  simp [Heap.Live, hnone] at this

/-- There, a run is legal by its calls when no `AllocInfo` is given out twice. -/
theorem legalRun_of_start {info : AllocInfo} {s₀ : Tracker β ε}
    (h₀ : initMemTracker (fun _ => none) (fun _ => info) ∅ = some s₀)
    (hlive : ∀ e, ¬ s₀.mem.Live (.inr e)) {P : Holdings β → Prop}
    (hP : ∀ H, P H → ∀ site, H.blocksAt site < 2 ^ 32) (hempty : P ∅) {ops : List (Op β ε)}
    (hops : ProperRun P ∅ ops) (hnodup : (ops.filterMap Op.info).Nodup)
    (hfuel : ops.length < fuel) : LegalRun P fuel ∅ s₀ ops :=
  (initMemTracker_kept h₀ hfuel).legalRun hP (initMemTracker_tagged h₀) hempty hops hnodup
    fun e _ => hlive e

end Start

/-! ## Blocks of two places -/

section Mixed

/-- The counters of every place fit when those of all blocks together do. -/
theorem fits_of_all {β : Type} {H : Holdings β} (hblocks : tally (fun _ => 1) H < 2 ^ 31)
    (hbytes : tally (fun h => h.size.toNat) H < 2 ^ 31) : Fits H := by
  refine fun site => ⟨(tally_mono H fun h => ?_).trans_lt hblocks,
    (tally_mono H fun h => ?_).trans_lt hbytes⟩
  · split <;> omega
  · split <;> omega

/-- A block of the first place goes over to the second one and gets a new address, and its old
address is given out again. The other block of the first place is freed. -/
def mixedCalls : List (Op ℕ ℕ) :=
  [.malloc 8 ⟨1, 10⟩ ⟨some 0, some 0⟩, .calloc 3 4 ⟨1, 10⟩ ⟨some 1, some 1⟩,
    .realloc (some 0) 5 ⟨1, 20⟩ ⟨some 2, some 2⟩,
    .strdup ⟨[97, 98], by decide⟩ ⟨1, 20⟩ ⟨some 0, some 3⟩, .free 1,
    .realloc none 7 ⟨1, 10⟩ ⟨some 1, some 4⟩]

theorem tracker_books_exact_mixed :
    ∃ s₀ : Tracker ℕ ℕ, initMemTracker (fun _ => none) (fun _ => ⟨⟨0, 0, 0⟩, 0, 0⟩) ∅ = some s₀ ∧
      ∀ as bs, mixedCalls = as ++ bs → ∃ s m,
        (tracker 7).run s₀ as = some (s, as.map Op.answer) ∧
          Exact 7 (Holdings.after ∅ as) s m := by
  obtain ⟨s₀, h₀, hlive⟩ := exists_start (β := ℕ) (ε := ℕ) ⟨⟨0, 0, 0⟩, 0, 0⟩
  have hproper : ProperRun (fun H => tally (fun _ => 1) H < 2 ^ 31 ∧
      tally (fun h => h.size.toNat) H < 2 ^ 31) ∅ mixedCalls := by decide
  have hlegal : LegalRun Fits 7 ∅ s₀ mixedCalls :=
    (legalRun_of_start h₀ hlive (fun H hH site => (fits_of_all hH.1 hH.2 site).1.trans (by decide))
      (by decide) hproper (by decide) (by decide)).mono fun H hH => fits_of_all hH.1 hH.2
  exact ⟨s₀, h₀, tracker_books_exact h₀ (by decide) hlegal⟩

/-- In the end the second place has the blocks `0` and `2`, and the first one a new block. -/
example : (Holdings.after ∅ mixedCalls).blocksAt ⟨1, 20⟩ = 2 ∧
    (Holdings.after ∅ mixedCalls).bytesAt ⟨1, 20⟩ = 8 ∧
    (Holdings.after ∅ mixedCalls).bytesAt ⟨1, 10⟩ = 7 := by
  decide

end Mixed

/-! ## Blocks of one size and one place -/

section Uniform

/-- Calls that allocate `n` blocks of one size, all in one place. -/
def uniformCalls (size : BitVec 64) (site : Site) (k n : ℕ) : List (Op ℕ ℕ) :=
  (List.range' k n).map fun i => .malloc size site ⟨some i, some i⟩

/-- What the clients hold after the first `k` of these calls. -/
structure Uniform (size : BitVec 64) (site : Site) (k : ℕ) (H : Holdings ℕ) : Prop where
  lt : ∀ ptr ∈ H, ptr < k
  blocksAt : ∀ x, H.blocksAt x = if x = site then k else 0
  bytesAt : ∀ x, H.bytesAt x = if x = site then k * size.toNat else 0

variable {size : BitVec 64} {site : Site} {k n : ℕ} {H : Holdings ℕ}

theorem Uniform.next (u : Uniform size site k H) :
    Uniform size site (k + 1) (H.insert k ⟨site, size⟩) := by
  have hnew : k ∉ H := fun h => (u.lt k h).false
  refine ⟨fun ptr h => ?_, fun x => ?_, fun x => ?_⟩
  · rcases AList.mem_insert _ |>.mp h with rfl | h
    · exact Nat.lt_succ_self _
    · exact (u.lt ptr h).trans (Nat.lt_succ_self k)
  · have hblocks := u.blocksAt x
    rw [Holdings.blocksAt] at hblocks ⊢
    rw [tally_insert _ hnew, hblocks]
    by_cases hx : x = site
    · rw [if_pos hx.symm, if_pos hx, if_pos hx, Nat.add_comm]
    · rw [if_neg (Ne.symm hx), if_neg hx, if_neg hx]
  · have hbytes := u.bytesAt x
    rw [Holdings.bytesAt] at hbytes ⊢
    rw [tally_insert _ hnew, hbytes]
    by_cases hx : x = site
    · rw [if_pos hx.symm, if_pos hx, if_pos hx, Nat.succ_mul, Nat.add_comm]
    · rw [if_neg (Ne.symm hx), if_neg hx, if_neg hx]

/-- Any number of such calls is proper, and each of them adds a block. -/
theorem Uniform.run {P : Holdings ℕ → Prop} {N : ℕ} (u : Uniform size site k H) (hN : k + n ≤ N)
    (hP : ∀ H j, Uniform size site j H → j ≤ N → P H) :
    ProperRun P H (uniformCalls size site k n) ∧
      Uniform size site (k + n) (H.after (uniformCalls size site k n)) := by
  induction n generalizing k H with
  | zero => exact ⟨trivial, u⟩
  | succ n ih =>
      have hnew : k ∉ H := fun h => (u.lt k h).false
      obtain ⟨hrun, hafter⟩ := ih u.next (by omega)
      refine ⟨⟨⟨⟨k, rfl, hnew⟩, rfl⟩, hP _ _ u.next (by omega), hrun⟩, ?_⟩
      rw [← Nat.add_assoc, Nat.add_right_comm]
      exact hafter

theorem uniformCalls_info (size : BitVec 64) (site : Site) (k n : ℕ) :
    (uniformCalls size site k n).filterMap Op.info = List.range' k n := by
  rw [uniformCalls, List.filterMap_map]
  exact List.filterMap_some

/-- With `2 ^ 31` blocks of size zero the counter of their place has overflowed,
although the place has no bytes. -/
theorem zero_size_blocks_overflow :
    ∃ s₀ : Tracker ℕ ℕ, initMemTracker (fun _ => none) (fun _ => ⟨⟨0, 0, 0⟩, 0, 0⟩) ∅ = some s₀ ∧
      LegalRun (fun H => ∀ site, H.bytesAt site < 2 ^ 31) (2 ^ 31 + 1) ∅ s₀
        (uniformCalls 0 ⟨0, 1⟩ 0 (2 ^ 31)) ∧
      ¬ ∃ s answers m, (tracker (2 ^ 31 + 1)).run s₀ (uniformCalls 0 ⟨0, 1⟩ 0 (2 ^ 31)) =
        some (s, answers) ∧
          Exact (2 ^ 31 + 1) (Holdings.after ∅ (uniformCalls 0 ⟨0, 1⟩ 0 (2 ^ 31))) s m := by
  obtain ⟨s₀, h₀, hlive⟩ := exists_start (β := ℕ) (ε := ℕ) ⟨⟨0, 0, 0⟩, 0, 0⟩
  have hstart : Uniform 0 ⟨0, 1⟩ 0 ∅ := ⟨by simp, by simp [Holdings.blocksAt],
    by simp [Holdings.bytesAt]⟩
  obtain ⟨hproper, u⟩ := hstart.run (n := 2 ^ 31) (N := 2 ^ 31)
    (P := fun H => (∀ site, H.blocksAt site < 2 ^ 32) ∧ ∀ site, H.bytesAt site < 2 ^ 31)
    (Nat.zero_add _).le fun H j u hj => ⟨fun site => by
      rw [u.blocksAt]
      split <;> omega, fun site => by simp [u.bytesAt]⟩
  have hfuel : (uniformCalls 0 ⟨0, 1⟩ 0 (2 ^ 31)).length < 2 ^ 31 + 1 := by simp [uniformCalls]
  have hlegal := legalRun_of_start h₀ hlive (fun H hH => hH.1)
    ⟨by simp [Holdings.blocksAt], by simp [Holdings.bytesAt]⟩ hproper
    (uniformCalls_info .. ▸ List.nodup_range') hfuel
  refine ⟨s₀, h₀, hlegal.mono fun H hH => hH.2, ?_⟩
  rintro ⟨s, answers, m, -, hexact⟩
  have hcount := u.blocksAt ⟨0, 1⟩
  rw [if_pos rfl, Nat.zero_add] at hcount
  obtain ⟨e, he, hsite, -⟩ := hexact.present ⟨0, 1⟩ (by rw [hcount]; decide)
  have htoInt := hexact.count e he
  rw [hsite, hcount] at htoInt
  have := BitVec.toInt_lt (x := (s.infos e).count)
  rw [htoInt] at this
  exact absurd this (by decide)

end Uniform

end MemTracker

end Infra
