import Infra.TimerWheel.Schedule

/-!
# The timer manager refines the deadline list

`Refines t s` relates a timer manager to a deadline list. The bucket `i` lists,
in the order of their additions, the waiting elements whose due tick falls into
it; the local list of `timer_tick` lists the elements being fired; and an element
that does not wait is a list of its own, which is what `is_timer_running` reads.
So every running element sits on exactly one list, and deleting it needs no
knowledge of which one.

Each function is matched by the event it logs. The functions are total on
related states: no load or store goes through NULL, and one round more than the
elements that wait is enough for the loops.
-/

namespace Infra

namespace TimerWheel

open Infra.LinkedList DeadlineList

/-- The heads in use: the buckets, and during a tick the local list. -/
def InUse {ε : Type} (t : Timer ε) (s : DeadlineList ε) : Head → Prop
  | .bucket i => i < t.numBuckets.toNat
  | .timeout => s.firing.isSome

def Heads {ε : Type} (t : Timer ε) (s : DeadlineList ε) : Set Head := {k | InUse t s k}

@[simp] theorem bucket_mem_heads {ε : Type} {t : Timer ε} {s : DeadlineList ε} {i : ℕ} :
    Head.bucket i ∈ Heads t s ↔ i < t.numBuckets.toNat := Iff.rfl

@[simp] theorem timeout_mem_heads {ε : Type} {t : Timer ε} {s : DeadlineList ε} :
    Head.timeout ∈ Heads t s ↔ s.firing.isSome := Iff.rfl

/-- The elements that each list holds. -/
def entries {ε : Type} (t : Timer ε) (s : DeadlineList ε) : Head → List ε
  | .bucket i => (s.pending.filter fun p => bucketOf t p.2 = i).map Prod.fst
  | .timeout => s.queue

/-- The timer manager `t` holds the additions of the deadline list `s`. -/
structure Refines {ε : Type} [DecidableEq ε] (t : Timer ε) (s : DeadlineList ε) : Prop where
  numBuckets : 0 < t.numBuckets
  tick : s.tick = t.tick
  distinct : s.Distinct
  elemTick : ∀ e d, (e, d) ∈ s.pending → t.elemTick e = d
  rings : Rings t.mem (Heads t s) (entries t s)
  stopped : ∀ e, e ∉ s.queue ++ s.keys → Ring t.mem (.inr e) []

/-- An addition goes to the end of the bucket of its due tick. -/
theorem entries_append {ε : Type} (t : Timer ε) (s : DeadlineList ε) (e : ε) (d : BitVec 32) :
    entries t (s.append e d) = Function.update (entries t s) (.bucket (bucketOf t d))
      (entries t s (.bucket (bucketOf t d)) ++ [e]) := by
  funext k
  cases k with
  | bucket i =>
      by_cases hi : bucketOf t d = i
      · subst hi
        simp [entries, append]
      · rw [Function.update_of_ne (by simpa using Ne.symm hi)]
        simp [entries, append, hi]
  | timeout => simp [entries]

namespace Refines

variable {ε : Type} [DecidableEq ε] {t t' : Timer ε} {s s' : DeadlineList ε}

theorem bucketOf_mem (r : Refines t s) (v : BitVec 32) :
    Head.bucket (bucketOf t v) ∈ Heads t s :=
  Nat.mod_lt _ (by have := r.numBuckets; omega)

/-- The listed elements are those that wait. -/
theorem listed_iff (r : Refines t s) {e : ε} :
    Listed (Heads t s) (entries t s) e ↔ e ∈ s.queue ++ s.keys := by
  constructor
  · rintro ⟨k, hk, he⟩
    cases k with
    | bucket i =>
        obtain ⟨p, hp, rfl⟩ := List.mem_map.mp he
        exact List.mem_append_right _ (List.mem_map_of_mem (List.mem_filter.mp hp).1)
    | timeout => exact List.mem_append_left _ he
  · intro he
    rcases List.mem_append.mp he with he | he
    · refine ⟨.timeout, ?_, he⟩
      cases hf : s.firing with
      | none => simp [queue, hf] at he
      | some q => simp [hf]
    · obtain ⟨⟨x, d⟩, hp, rfl⟩ := List.mem_map.mp he
      exact ⟨.bucket (bucketOf t d), r.bucketOf_mem d, by
        simpa [entries] using ⟨d, hp, rfl⟩⟩

theorem live (r : Refines t s) (e : ε) : t.mem.Live (.inr e) := by
  by_cases he : e ∈ s.queue ++ s.keys
  · exact r.rings.live (r.listed_iff.mpr he)
  · exact (r.stopped e he).live List.mem_cons_self

/-- `is_timer_running` tells whether the element waits. -/
theorem isTimerRunning_eq (r : Refines t s) (e : ε) :
    isTimerRunning t e = some (decide (e ∈ s.queue ++ s.keys)) := by
  obtain ⟨c, hc⟩ := Option.isSome_iff_exists.mp (r.live e)
  by_cases he : e ∈ s.queue ++ s.keys
  · obtain ⟨k, hk, hek⟩ := r.listed_iff.mpr he
    obtain ⟨y, hy, hne⟩ := (r.rings.ring k hk).next_ne_self (x := .inr e) (by simp [hek])
    simp only [Heap.next, hc, Option.bind_some] at hy
    simp [isTimerRunning, hc, hy, hne, he]
  · obtain ⟨hn, hp⟩ := Ring.nil_iff.mp (r.stopped e he)
    simp only [Heap.next, Heap.prev, hc, Option.bind_some] at hn hp
    simp [isTimerRunning, hc, hn, hp, he]

/-- A stopped element keeps its links when only waiting elements change. -/
theorem stopped_of_sameOutside (r : Refines t s) {h' : Heap (Node ε)}
    {S : Node ε → Prop} (hs : SameOutside t.mem h' S) {e : ε} (he : e ∉ s.queue ++ s.keys)
    (hS : S (.inr e) → Owns (Heads t s) (entries t s) (.inr e)) :
    Ring h' (.inr e) [] := by
  refine (r.stopped e he).of_sameOutside hs ?_
  intro a ha hSa
  obtain rfl : a = .inr e := by simpa using ha
  exact he (r.listed_iff.mp (hS hSa))

/-! ## `add_timer` and `del_timer` -/

/-- `add_timer` on a stopped element is one addition. -/
theorem addTimer (r : Refines t s) {e : ε} (expires : ℤ) (he : e ∉ s.queue ++ s.keys) :
    ∃ t', TimerWheel.addTimer t e expires = some t' ∧
      Refines t' (s.append e (t.tick + getTickFromMilsec t expires)) := by
  have hrun := r.isTimerRunning_eq e
  obtain ⟨h₁, e₁, s₁, -⟩ := Ring.of_initListHead (h := t.mem) (.inr e) (r.live e)
  have hlist : ¬ Listed (Heads t s) (entries t s) e := fun h => he (r.listed_iff.mp h)
  have r₁ : Rings h₁ (Heads t s) (entries t s) := by
    refine r.rings.congr fun a ha => s₁.eq a ?_
    rintro rfl
    exact hlist ha
  obtain ⟨h₂, e₂, r₂, s₂⟩ := r₁.listAddTail_spec
    (r.bucketOf_mem (t.tick + getTickFromMilsec t expires)) ((s₁.live _).mpr (r.live e)) hlist
  let d := t.tick + getTickFromMilsec t expires
  refine ⟨{ t with mem := h₂, elemTick := Function.update t.elemTick e d },
    by simp [TimerWheel.addTimer, hrun, he, e₁, e₂, d], ?_⟩
  constructor
  · exact r.numBuckets
  · exact r.tick
  · have hnd : (s.queue ++ s.keys ++ [e]).Nodup := by
      rw [List.nodup_append]
      exact ⟨r.distinct, by simp, by rintro a ha b hb rfl; simp at hb; exact he (hb ▸ ha)⟩
    simpa [Distinct] using hnd
  · intro x v hx
    rcases List.mem_append.mp hx with hx | hx
    · have hxe : x ≠ e :=
        fun h => he (h ▸ List.mem_append_right _ (mem_keys.mpr ⟨v, hx⟩))
      simpa [Function.update_of_ne hxe] using r.elemTick x v hx
    · simp only [List.mem_singleton, Prod.mk.injEq] at hx
      simp [hx.1, hx.2, d]
  · rw [← entries_append] at r₂
    exact r₂
  · intro x hx
    have hxw : x ∉ s.queue ++ s.keys ∧ x ≠ e := by
      simpa [not_or, and_assoc] using hx
    refine r.stopped_of_sameOutside ((s₁.mono (T := fun a => a = .inr e ∨
      Owns (Heads t s) (entries t s) a) fun a ha => Or.inl ha).trans s₂) hxw.1 ?_
    rintro (h | h)
    · exact absurd (Sum.inr.inj h) hxw.2
    · exact h

/-- Taking an element out of every list takes its addition out of the deadline
list. -/
theorem entries_delete (r : Refines t s) (e : ε) {k : Head} (hk : k ∈ Heads t s) :
    (entries t s k).erase e = entries t (s.delete e) k := by
  rw [(r.rings.nodup hk).erase_eq_filter]
  cases k with
  | bucket i =>
      simp [entries, delete, List.filter_map, List.filter_filter, Function.comp_def, bne,
        Bool.beq_eq_decide_eq, Bool.and_comm]
  | timeout => simp [entries, bne, Bool.beq_eq_decide_eq]

theorem waiting_delete {e x : ε} (hx : x ∉ (s.delete e).queue ++ (s.delete e).keys) :
    x = e ∨ x ∉ s.queue ++ s.keys := by
  by_contra hno
  rw [not_or, not_not] at hno
  exact hx (by simpa [hno.1] using hno.2)

/-- `del_timer` is one deletion, whether the element runs or not. -/
theorem delTimer (r : Refines t s) (e : ε) :
    ∃ t', TimerWheel.delTimer t e = some t' ∧ Refines t' (s.delete e) := by
  have hrun := r.isTimerRunning_eq e
  have hdist := step_distinct r.distinct (step_del (e := e).mpr rfl)
  have htick : ∀ x d, (x, d) ∈ (s.delete e).pending → t.elemTick x = d :=
    fun x d hx => r.elemTick x d (List.mem_filter.mp hx).1
  have hheads : Heads t (s.delete e) = Heads t s := by
    ext k
    cases k <;> simp [delete]
  by_cases he : e ∈ s.queue ++ s.keys
  · obtain ⟨h', e', r', re, sm⟩ := r.rings.listDelInit_spec (r.listed_iff.mpr he)
    refine ⟨{ t with mem := h' }, by simp [TimerWheel.delTimer, hrun, he, e'], r.numBuckets,
      r.tick, hdist, htick, ?_, ?_⟩
    · change Rings h' (Heads t (s.delete e)) (entries t (s.delete e))
      rw [hheads]
      exact r'.congr_entries fun k hk => (r.entries_delete e hk).symm
    · intro x hx
      by_cases hxe : x = e
      · exact hxe ▸ re
      · exact r.stopped_of_sameOutside sm ((waiting_delete hx).resolve_left hxe) id
  · refine ⟨t, by simp [TimerWheel.delTimer, hrun, he], r.numBuckets, r.tick, hdist, htick,
      ?_, ?_⟩
    · rw [hheads]
      refine r.rings.congr_entries fun k hk => ?_
      rw [← r.entries_delete e hk, List.erase_of_not_mem]
      exact fun hm => he (r.listed_iff.mp ⟨k, hk, hm⟩)
    · intro x hx
      rcases waiting_delete hx with rfl | hx
      · exact r.stopped x he
      · exact r.stopped x hx

end Refines

end TimerWheel

end Infra
