import Infra.TimerWheel.Refinement

/-!
# `timer_tick` refines one tick of the deadline list

The first loop walks the current bucket and moves what is due to the local list,
so it splits the bucket in two, which is how the deadline list starts a tick. The
second loop empties the local list from the front; a callback may take elements
out of it or add elements to the buckets, but never adds to it, so the loop ends.
-/

namespace Infra

namespace TimerWheel

open Infra.LinkedList DeadlineList

/-! ## The first loop -/

section Collect

variable {ε : Type} [DecidableEq ε] {t : Timer ε} {s : DeadlineList ε}

/-- An element is due when its addition is. -/
theorem decide_due (r : Refines t s) {p : ε × BitVec 32} (hp : p ∈ s.pending) :
    decide (t.elemTick p.1 = t.tick) = decide (p.2 = s.tick) := by
  rw [r.elemTick p.1 p.2 hp, r.tick]

/-- Splitting the current bucket by the due tick splits the whole deadline
list. -/
theorem entries_begin (r : Refines t s) (k : Head) :
    Function.update (Function.update (Function.update (entries t s) .timeout [])
      (.bucket (bucketOf t t.tick)) ((entries t s (.bucket (bucketOf t t.tick))).filter
        fun e => !decide (t.elemTick e = t.tick))) .timeout
      ([] ++ (entries t s (.bucket (bucketOf t t.tick))).filter
        fun e => decide (t.elemTick e = t.tick)) k = entries t (s.begin s.tick) k := by
  cases k with
  | bucket i =>
      rw [Function.update_of_ne (by simp)]
      by_cases hi : i = bucketOf t t.tick
      · subst hi
        simp only [Function.update_self, entries, begin, List.filter_map, List.filter_filter]
        refine congrArg _ (List.filter_congr fun p hp => ?_)
        rw [Function.comp_apply, decide_due r hp, Bool.and_comm, decide_not]
      · rw [Function.update_of_ne (by simpa using hi), Function.update_of_ne (by simp)]
        simp only [entries, begin, List.filter_filter]
        refine congrArg _ (List.filter_congr fun p _ => ?_)
        by_cases hp : p.2 = s.tick
        · have hne : bucketOf t s.tick ≠ i := fun h => hi (by rw [← h, r.tick])
          simp [hp, hne]
        · simp [hp]
  | timeout =>
      simp only [Function.update_self, List.nil_append, entries, queue_begin, due,
        List.filter_map, List.filter_filter]
      refine congrArg _ (List.filter_congr fun p hp => ?_)
      rw [Function.comp_apply, decide_due r hp]
      by_cases hv : p.2 = s.tick
      · simp [hv, r.tick]
      · simp [hv]

/-- `timer_tick` up to its second loop starts the tick. -/
theorem collect_refines (r : Refines t s) (hf : s.firing = none) {fuel : ℕ}
    (hfuel : s.pending.length < fuel) :
    ∃ t', collect fuel t = some t' ∧ Refines t' (s.begin s.tick) := by
  have hq : s.queue = [] := by simp [queue, hf]
  have hout : Head.timeout ∉ Heads t s := by
    intro h
    have : s.firing.isSome := h
    simp [hf] at this
  obtain ⟨m, hm, sm, rm⟩ := Ring.of_initListHead (h := t.mem.alloc (.inl .timeout))
    (.inl .timeout) (by simp [Heap.Live, Heap.alloc])
  have hold : ∀ a, a ≠ .inl .timeout → m a = t.mem a := by
    intro a ha
    rw [sm.eq a ha]
    exact Function.update_of_ne ha _ _
  have r₀ : Rings m (Heads t s) (entries t s) := by
    refine r.rings.congr fun a ha => hold a ?_
    rintro rfl
    exact hout ha
  have r₁ := r₀.insert_head hout rm
  have hcur : Head.bucket (bucketOf t t.tick) ≠ .timeout := by simp
  have hsrc : Function.update (entries t s) .timeout [] (.bucket (bucketOf t t.tick)) =
      entries t s (.bucket (bucketOf t t.tick)) := Function.update_of_ne hcur _ _
  have hlen : (entries t s (.bucket (bucketOf t t.tick))).length < fuel := by
    have := List.length_filter_le (fun p : ε × BitVec 32 => bucketOf t p.2 = bucketOf t t.tick)
      s.pending
    simp only [entries, List.length_map]
    omega
  have htest : ∀ e ∈ Function.update (entries t s) .timeout [] (.bucket (bucketOf t t.tick)),
      isDue t e = some (decide (t.elemTick e = t.tick)) := fun e _ => rfl
  obtain ⟨m', hm', r', s'⟩ := r₁.moveIf_spec (Or.inr (r.bucketOf_mem t.tick)) (Or.inl rfl) hcur
    htest (hsrc ▸ hlen)
  rw [hsrc, Function.update_self] at r'
  refine ⟨{ t with mem := m', tick := t.tick + 1 }, by simp [collect, hm, hm'], ?_⟩
  constructor
  · exact r.numBuckets
  · exact congrArg (· + 1) r.tick
  · exact step_distinct r.distinct (step_tick.mpr ⟨⟨rfl, hf⟩, rfl⟩)
  · intro e d he
    exact r.elemTick e d (List.mem_filter.mp he).1
  · have hheads : insert Head.timeout (Heads t s) = Heads t (s.begin s.tick) := by
      ext k
      cases k with
      | bucket i => simp
      | timeout => simp [begin]
    rw [hheads] at r'
    exact r'.congr_entries fun k _ => (entries_begin r k).symm
  · intro e he
    have hwait : e ∉ s.queue ++ s.keys := by
      rw [hq, List.nil_append]
      intro hk
      obtain ⟨d, hd⟩ := DeadlineList.mem_keys.mp hk
      apply he
      by_cases hv : d = s.tick
      · exact List.mem_append_left _ (mem_due.mpr (hv ▸ hd))
      · exact List.mem_append_right _ (DeadlineList.mem_keys.mpr ⟨d, by simp [begin, hd, hv]⟩)
    have hring : Ring m (.inr e) [] := (r.stopped e hwait).congr fun a ha => hold a (by
      obtain rfl : a = .inr e := by simpa using ha
      simp)
    refine hring.of_sameOutside s' fun a ha hO => ?_
    obtain rfl : a = .inr e := by simpa using ha
    obtain ⟨k, hk, hek⟩ := hO
    cases k with
    | bucket i =>
        rw [Function.update_of_ne (by simp)] at hek
        rcases hk with hk | hk
        · simp at hk
        · exact hwait (r.listed_iff.mp ⟨_, hk, hek⟩)
    | timeout => simp at hek

end Collect

/-! ## The second loop -/

section Drain

variable {ε : Type} [DecidableEq ε]

/-- The world `w`, whose log starts at the tick `start`, holds the deadline list
`s`: the log leads to `s`, and the timer manager refines it. -/
structure Follows (start : BitVec 32) (w : World ε) (s : DeadlineList ε) : Prop where
  log : (init start).replay w.log = some s
  refines : Refines w.timer s

variable {start : BitVec 32} {w : World ε} {s : DeadlineList ε}

/-- A legal call returns, and logs one event of the deadline list. What is still
to be fired does not grow. -/
theorem Follows.doCall (f : Follows start w s) {c : Call ε} (hc : LegalCall w c) :
    ∃ w' s' p, TimerWheel.doCall w c = some w' ∧ Follows start w' s' ∧
      s'.firing = s.firing.map (List.filter p) := by
  cases c with
  | add e expires =>
      have he : e ∉ s.queue ++ s.keys := by
        have := hc.1
        rw [f.refines.isTimerRunning_eq] at this
        simpa using this
      obtain ⟨t', ht', r'⟩ := f.refines.addTimer expires he
      let delay := getTickFromMilsec w.timer expires
      refine ⟨{ timer := t', log := w.log ++ [.add e w.timer.tick delay] },
        s.append e (w.timer.tick + delay), fun _ => true, ?_, ⟨?_, r'⟩, ?_⟩
      · simp [TimerWheel.doCall, ht', delay]
      · exact replay_concat.mpr ⟨s, f.log, step_add.mpr ⟨⟨f.refines.tick, he⟩, rfl⟩⟩
      · cases hf : s.firing <;> simp [append, hf]
  | del e =>
      obtain ⟨t', ht', r'⟩ := f.refines.delTimer e
      refine ⟨{ timer := t', log := w.log ++ [.del e] }, s.delete e, (· ≠ e), ?_, ⟨?_, r'⟩, rfl⟩
      · simp [TimerWheel.doCall, ht']
      · exact replay_concat.mpr ⟨s, f.log, step_del.mpr rfl⟩

/-- The same for the calls of one callback. -/
theorem Follows.doCalls (f : Follows start w s) {cs : List (Call ε)} (hc : LegalCalls w cs) :
    ∃ w' s' p, TimerWheel.doCalls w cs = some w' ∧ Follows start w' s' ∧
      s'.firing = s.firing.map (List.filter p) := by
  induction cs generalizing w s with
  | nil =>
      refine ⟨w, s, fun _ => true, rfl, f, ?_⟩
      cases hf : s.firing <;> simp
  | cons c cs ih =>
      obtain ⟨w₁, s₁, p₁, h₁, f₁, hq₁⟩ := f.doCall hc.1
      obtain ⟨w₂, s₂, p₂, h₂, f₂, hq₂⟩ := ih f₁ (hc.2 w₁ h₁)
      refine ⟨w₂, s₂, fun e => p₂ e && p₁ e, by simp [TimerWheel.doCalls, h₁, h₂], f₂, ?_⟩
      rw [hq₂, hq₁]
      cases hf : s.firing <;> simp [List.filter_filter]

/-- The first element to be fired is taken out of the local list. -/
theorem Refines.pop {t : Timer ε} (r : Refines t s) {e : ε} {rest : List ε}
    (hf : s.firing = some (e :: rest)) :
    listEmpty t.mem (.inl .timeout) = some false ∧
      t.mem.next (.inl .timeout) = some (.inr e) ∧
      ∃ m, listDelInit t.mem (.inr e) = some m ∧
        Refines { t with mem := m } { s with firing := some rest } := by
  have hhead : Head.timeout ∈ Heads t s := by simp [hf]
  have hring := r.rings.ring _ hhead
  have hq : entries t s .timeout = e :: rest := by simp [entries, queue, hf]
  rw [hq, List.map_cons] at hring
  have hlist : Listed (Heads t s) (entries t s) e := ⟨_, hhead, by simp [hq]⟩
  have hdist : DeadlineList.Distinct { s with firing := some rest } :=
    step_distinct r.distinct (step_fire.mpr ⟨rest, hf, rfl⟩)
  obtain ⟨m, hm, r', re, sm⟩ := r.rings.listDelInit_spec hlist
  refine ⟨by simpa using hring.listEmpty_eq, hring.next_head_cons, m, hm, r.numBuckets,
    r.tick, hdist, r.elemTick, ?_, ?_⟩
  · have hheads : Heads t { s with firing := some rest } = Heads t s := by
      ext k
      cases k <;> simp [hf]
    change Rings m (Heads t { s with firing := some rest }) _
    rw [hheads]
    refine r'.congr_entries fun k hk => ?_
    cases k with
    | bucket i =>
        have hne : e ∉ entries t s (.bucket i) := by
          intro hm
          have := r.rings.eq_of_mem hk hhead hm (by simp [hq])
          cases this
        rw [List.erase_of_not_mem hne]
        rfl
    | timeout =>
        rw [hq, List.erase_cons_head]
        rfl
  · intro x hx
    by_cases hxe : x = e
    · exact hxe ▸ re
    · refine r.stopped_of_sameOutside sm ?_ id
      have hx : x ∉ rest ∧ x ∉ s.keys := by simpa [queue, keys] using hx
      simp [queue, hf, hxe, hx]

/-- More rounds do not change the result of the second loop. -/
theorem drain_mono (client : Client ε) {fuel fuel' : ℕ} {w w' : World ε} (hle : fuel ≤ fuel')
    (h : drain client fuel w = some w') : drain client fuel' w = some w' := by
  induction fuel generalizing fuel' w with
  | zero => simp [drain] at h
  | succ fuel ih =>
      obtain ⟨fuel', rfl⟩ : ∃ m, fuel' = m + 1 := ⟨fuel' - 1, by omega⟩
      simp only [drain, Option.bind_eq_bind, Option.bind_eq_some_iff] at h ⊢
      obtain ⟨empty, he, h⟩ := h
      refine ⟨empty, he, ?_⟩
      split at h
      · next hempty => simpa [hempty] using h
      · next hempty =>
        simp only [hempty, Bool.false_eq_true, if_false, Option.bind_eq_some_iff] at h ⊢
        obtain ⟨p, hp, h⟩ := h
        refine ⟨p, hp, ?_⟩
        cases p with
        | inl k => simp at h
        | inr e =>
            simp only [Option.bind_eq_some_iff] at h ⊢
            obtain ⟨m, hm, w₁, hw₁, h⟩ := h
            exact ⟨m, hm, w₁, hw₁, ih (by omega) h⟩

/-- The second loop fires what is left of the elements to be fired and ends with
none. -/
theorem Follows.drain (client : Client ε) {fuel : ℕ} {q : List ε} (f : Follows start w s)
    (hq : s.firing = some q) (hfuel : q.length < fuel) :
    ∃ w' s', TimerWheel.drain client fuel w = some w' ∧ Follows start w' s' ∧
      s'.firing = some [] := by
  induction fuel generalizing w s q with
  | zero => omega
  | succ fuel ih =>
      cases q with
      | nil =>
          have hring := f.refines.rings.ring .timeout (by simp [hq])
          have hempty := hring.listEmpty_eq
          simp only [entries, queue, hq, Option.getD_some, List.map_nil, List.isEmpty_nil]
            at hempty
          exact ⟨w, s, by simp [TimerWheel.drain, hempty], f, hq⟩
      | cons e rest =>
          obtain ⟨hempty, hnext, m, hm, r₁⟩ := f.refines.pop hq
          let w₁ : World ε :=
            { timer := { w.timer with mem := m }, log := w.log ++ [.fire e] }
          have f₁ : Follows start w₁ { s with firing := some rest } :=
            ⟨replay_concat.mpr ⟨s, f.log, step_fire.mpr ⟨rest, hq, rfl⟩⟩, r₁⟩
          obtain ⟨w₂, s₂, p, hw₂, f₂, hs₂⟩ := f₁.doCalls (client.legal e w₁)
          have hs₂ : s₂.firing = some (rest.filter p) := by simpa using hs₂
          have hlen : (rest.filter p).length < fuel := by
            have := List.length_filter_le p rest
            simp only [List.length_cons] at hfuel
            omega
          obtain ⟨w₃, s₃, hw₃, f₃, hs₃⟩ := ih f₂ hs₂ hlen
          refine ⟨w₃, s₃, ?_, f₃, hs₃⟩
          simp only [TimerWheel.drain, hempty, hnext, hm, Option.bind_eq_bind,
            Option.bind_some, Bool.false_eq_true, if_false]
          rw [hw₂]
          exact hw₃

/-! ## A whole tick -/

/-- More rounds do not change the result of `timer_tick`. -/
theorem timerTick_mono (client : Client ε) {fuel fuel' : ℕ} {w w' : World ε}
    (hle : fuel ≤ fuel') (h : timerTick client fuel w = some w') :
    timerTick client fuel' w = some w' := by
  simp only [timerTick, collect, Option.bind_eq_bind, Option.bind_eq_some_iff] at h ⊢
  obtain ⟨t, ⟨m, hm, m', hm', ht⟩, w₁, hw₁, hw'⟩ := h
  exact ⟨t, ⟨m, hm, m', listForEachSafe_mono hle hm', ht⟩, w₁, drain_mono client hle hw₁, hw'⟩

/-- The result of `timer_tick` does not depend on the rounds it was given. -/
theorem timerTick_unique (client : Client ε) {fuel fuel' : ℕ} {w w₁ w₂ : World ε}
    (h₁ : timerTick client fuel w = some w₁) (h₂ : timerTick client fuel' w = some w₂) :
    w₁ = w₂ := by
  rcases Nat.le_total fuel fuel' with hle | hle
  · exact Option.some.inj ((timerTick_mono client hle h₁).symm.trans h₂)
  · exact Option.some.inj (h₁.symm.trans (timerTick_mono client hle h₂))

/-- Between ticks `timer_tick` returns: it takes at most one round more than the
elements that wait, and its log is that of one tick of the deadline list. -/
theorem Follows.timerTick (client : Client ε) (f : Follows start w s) (hf : s.firing = none) :
    ∃ w' s', (∀ fuel, s.pending.length < fuel → TimerWheel.timerTick client fuel w = some w') ∧
      Follows start w' s' ∧ s'.firing = none := by
  have hdue : (s.due s.tick).length < s.pending.length + 1 := by
    have := List.length_filter_le (fun p : ε × BitVec 32 => p.2 = s.tick) s.pending
    simp only [due, List.length_map]
    omega
  obtain ⟨t₁, ht₁, r₁⟩ := collect_refines f.refines hf (Nat.lt_succ_self s.pending.length)
  have f₁ : Follows start { timer := t₁, log := w.log ++ [.tick w.timer.tick] }
      (s.begin s.tick) :=
    ⟨replay_concat.mpr ⟨s, f.log, step_tick.mpr ⟨⟨f.refines.tick, hf⟩, by
      rw [f.refines.tick]⟩⟩, r₁⟩
  obtain ⟨w₂, s₂, hw₂, f₂, hs₂⟩ := f₁.drain client rfl hdue
  have htick : TimerWheel.timerTick client (s.pending.length + 1) w =
      some { timer := { w₂.timer with mem := w₂.timer.mem.free (.inl .timeout) }
             log := w₂.log ++ [.tickEnd] } := by
    simp [TimerWheel.timerTick, ht₁, hw₂]
  refine ⟨_, { s₂ with firing := none }, fun fuel hfuel =>
    timerTick_mono client (Nat.succ_le_of_lt hfuel) htick, ⟨?_, ?_⟩, rfl⟩
  · exact replay_concat.mpr ⟨s₂, f₂.log, step_tickEnd.mpr ⟨hs₂, rfl⟩⟩
  · have r₂ := f₂.refines
    have hq : s₂.queue = [] := by simp [queue, hs₂]
    have hfree : ∀ a, a ≠ .inl .timeout → w₂.timer.mem.free (.inl .timeout) a =
        w₂.timer.mem a := fun a ha => Function.update_of_ne ha _ _
    refine ⟨r₂.numBuckets, r₂.tick, ?_, r₂.elemTick, ?_, ?_⟩
    · exact step_distinct r₂.distinct (step_tickEnd.mpr ⟨hs₂, rfl⟩)
    · have hsub : Heads w₂.timer { s₂ with firing := none } ⊆ Heads w₂.timer s₂ := by
        intro k hk
        cases k with
        | bucket i => exact hk
        | timeout => simp at hk
      refine ((r₂.rings.mono hsub).congr fun a ha => hfree a ?_).congr_entries fun k hk => ?_
      · rintro rfl
        simp [Owns] at ha
      · cases k with
        | bucket i => rfl
        | timeout => simp at hk
    · intro e he
      have he : e ∉ s₂.queue ++ s₂.keys := by
        rw [hq]
        exact he
      refine (r₂.stopped e he).congr fun a ha => hfree a ?_
      obtain rfl : a = .inr e := by simpa using ha
      simp

end Drain

end TimerWheel

end Infra
