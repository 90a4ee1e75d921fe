import Infra.TimerWheel.DeadlineList

/-!
# The schedule of a deadline list

What a log of the deadline list satisfies, said about the log alone. The proofs
follow one addition through the log: as long as it waits the counter moves
towards its due tick, at that tick it joins the elements that are being fired,
and the tick cannot end before it has been taken out of them.
-/

namespace Infra

namespace TimerWheel

/-- The event is the start of a tick. -/
def Event.isTick {ε : Type} : Event ε → Bool
  | .tick _ => true
  | _ => false

/-- The event is the call of a callback. -/
def Event.isFire {ε : Type} : Event ε → Bool
  | .fire _ => true
  | _ => false

/-- What a timer manager promises about a log that starts in `s₀`.

* `fires_on_time`: an addition that fires does so in the execution of the tick
  `now + delay`, the tick after `delay` further ones.
* `settled_by_end`: when that tick ends the addition has fired or was deleted.
* `fires_its_addition`: each fire belongs to an addition that was made before it
  and was neither fired nor deleted since.
* `fires_in_order`: of two additions due at the same tick, the one made first is
  fired or deleted first.
* `not_in_same_tick`: nothing added while a tick is processed fires in it.
* `bounded`: a tick fires at most the elements that were due when it started. -/
structure Schedule {ε : Type} [DecidableEq ε] (s₀ : DeadlineList ε) (log : List (Event ε)) :
    Prop where
  fires_on_time : ∀ A e now delay B C,
    log = A ++ .add e now delay :: (B ++ .fire e :: C) → .fire e ∉ B → .del e ∉ B →
      ∃ B₁ B₂, B = B₁ ++ .tick (now + delay) :: B₂ ∧ B₁.countP Event.isTick = delay.toNat ∧
        (∀ v, .tick v ∉ B₂) ∧ .tickEnd ∉ B₂
  settled_by_end : ∀ A e now delay B v C D,
    log = A ++ .add e now delay :: (B ++ .tick v :: (C ++ .tickEnd :: D)) →
      B.countP Event.isTick = delay.toNat → .tickEnd ∉ C →
        v = now + delay ∧ (.fire e ∈ B ++ .tick v :: C ∨ .del e ∈ B ++ .tick v :: C)
  fires_its_addition : ∀ A e B, log = A ++ .fire e :: B →
    ∃ A₁ now delay A₂, A = A₁ ++ .add e now delay :: A₂ ∧ .fire e ∉ A₂ ∧ .del e ∉ A₂
  fires_in_order : ∀ A e₁ now₁ delay₁ B e₂ now₂ delay₂ C D,
    log = A ++ .add e₁ now₁ delay₁ :: (B ++ .add e₂ now₂ delay₂ :: (C ++ .fire e₂ :: D)) →
      now₁ + delay₁ = now₂ + delay₂ → .fire e₁ ∉ B → .del e₁ ∉ B → .fire e₂ ∉ C →
        .del e₂ ∉ C → .fire e₁ ∈ C ∨ .del e₁ ∈ C
  not_in_same_tick : ∀ A v B e now delay C D,
    log = A ++ .tick v :: (B ++ .add e now delay :: (C ++ D)) → .tickEnd ∉ B → .tickEnd ∉ C →
      .fire e ∉ C
  bounded : ∀ A v B C, log = A ++ .tick v :: (B ++ C) → .tickEnd ∉ B →
    ∀ s, s₀.replay A = some s → B.countP Event.isFire ≤ (s.due v).length

namespace DeadlineList

variable {ε : Type} [DecidableEq ε] {s s' : DeadlineList ε}

/-! ## The counter -/

/-- A step moves the counter exactly when it starts a tick. -/
theorem step_counter {ev : Event ε} (h : s.step ev = some s') :
    s'.tick = if ev.isTick then s.tick + 1 else s.tick := by
  cases ev with
  | add e now delay => rw [(step_add.mp h).2]; rfl
  | del e => rw [step_del.mp h]; rfl
  | tick v => rw [(step_tick.mp h).2]; rfl
  | fire e =>
      obtain ⟨rest, -, rfl⟩ := step_fire.mp h
      rfl
  | tickEnd => rw [(step_tickEnd.mp h).2]; rfl

theorem replay_counter {evs : List (Event ε)} (h : s.replay evs = some s') :
    s'.tick = s.tick + BitVec.ofNat 32 (evs.countP Event.isTick) := by
  induction evs generalizing s with
  | nil =>
      simp only [replay_nil, Option.some.injEq] at h
      simp [h]
  | cons ev evs ih =>
      obtain ⟨t, ht, h⟩ := replay_cons.mp h
      rw [ih h, step_counter ht]
      cases hev : ev.isTick with
      | false => simp [hev]
      | true =>
          simp only [if_true, List.countP_cons_of_pos hev, BitVec.ofNat_add]
          rw [BitVec.add_assoc, BitVec.add_comm (1 : BitVec 32)]
          rfl

/-! ## Following one addition -/

/-- An element that is being fired stays so until it is fired or deleted, and
the tick does not end before. -/
theorem firing_track {e : ε} {evs : List (Event ε)} {q : List ε} (hq : s.firing = some q)
    (he : e ∈ q) (hf : .fire e ∉ evs) (hd : .del e ∉ evs) (h : s.replay evs = some s') :
    (∃ q', s'.firing = some q' ∧ e ∈ q') ∧ (∀ v, .tick v ∉ evs) ∧ .tickEnd ∉ evs := by
  induction evs generalizing s q with
  | nil =>
      simp only [replay_nil, Option.some.injEq] at h
      exact ⟨⟨q, h ▸ hq, he⟩, by simp, by simp⟩
  | cons ev evs ih =>
      obtain ⟨t, ht, h⟩ := replay_cons.mp h
      rw [List.mem_cons, not_or] at hf hd
      have next : ∀ q', t.firing = some q' → e ∈ q' → (∀ v, Event.tick v ≠ ev) →
          Event.tickEnd ≠ ev →
          (∃ q', s'.firing = some q' ∧ e ∈ q') ∧ (∀ v, .tick v ∉ ev :: evs) ∧
            .tickEnd ∉ ev :: evs := by
        intro q' hq' he' h₁ h₂
        obtain ⟨h₃, h₄, h₅⟩ := ih hq' he' hf.2 hd.2 h
        exact ⟨h₃, fun v => by simp [h₁ v, h₄ v], by simp [h₂, h₅]⟩
      cases ev with
      | add x now delay =>
          obtain ⟨-, rfl⟩ := step_add.mp ht
          exact next q hq he (by simp) (by simp)
      | del x =>
          have hx : e ≠ x := fun hx => hd.1 (by rw [hx])
          have ht := step_del.mp ht
          subst ht
          exact next (q.filter (· ≠ x)) (by simp [delete, hq]) (by simp [he, hx]) (by simp)
            (by simp)
      | tick v =>
          have := (step_tick.mp ht).1.2
          rw [hq] at this
          cases this
      | fire x =>
          obtain ⟨rest, hr, rfl⟩ := step_fire.mp ht
          have hx : e ≠ x := fun hx => hf.1 (by rw [hx])
          rw [hq, Option.some.injEq] at hr
          subst hr
          exact next rest rfl ((List.mem_cons.mp he).resolve_left hx) (by simp) (by simp)
      | tickEnd =>
          have := (step_tickEnd.mp ht).1
          rw [hq, Option.some.injEq] at this
          simp [this] at he

theorem sub_succ_toNat (d t : BitVec 32) (h : t ≠ d) :
    (d - (t + 1)).toNat + 1 = (d - t).toNat := by
  have hne : (d - t).toNat ≠ 0 := by
    intro h0
    have : d - t = 0 := BitVec.eq_of_toNat_eq (by simpa using h0)
    exact h (by simpa using (sub_eq_zero.mp this).symm)
  bv_omega

/-- An addition that waits is still waiting when fewer ticks have passed than
it has to wait for, and at its own tick it joins the elements being fired. -/
theorem pending_track {e : ε} {d : BitVec 32} {evs : List (Event ε)}
    (hp : (e, d) ∈ s.pending) (hf : .fire e ∉ evs) (hd : .del e ∉ evs)
    (h : s.replay evs = some s') :
    ((e, d) ∈ s'.pending ∧ evs.countP Event.isTick ≤ (d - s.tick).toNat) ∨
      ∃ q B₁ B₂, s'.firing = some q ∧ e ∈ q ∧ evs = B₁ ++ .tick d :: B₂ ∧
        B₁.countP Event.isTick = (d - s.tick).toNat ∧ (∀ v, .tick v ∉ B₂) ∧ .tickEnd ∉ B₂ := by
  induction evs generalizing s with
  | nil =>
      simp only [replay_nil, Option.some.injEq] at h
      exact Or.inl ⟨h ▸ hp, by simp⟩
  | cons ev evs ih =>
      obtain ⟨t, ht, h⟩ := replay_cons.mp h
      rw [List.mem_cons, not_or] at hf hd
      have next : (e, d) ∈ t.pending → t.tick = s.tick → ev.isTick = false →
          ((e, d) ∈ s'.pending ∧ (ev :: evs).countP Event.isTick ≤ (d - s.tick).toNat) ∨
          ∃ q B₁ B₂, s'.firing = some q ∧ e ∈ q ∧ ev :: evs = B₁ ++ .tick d :: B₂ ∧
            B₁.countP Event.isTick = (d - s.tick).toNat ∧ (∀ v, .tick v ∉ B₂) ∧
            .tickEnd ∉ B₂ := by
        intro hp' htick hev
        rcases ih hp' hf.2 hd.2 h with ⟨h₁, h₂⟩ | ⟨q, B₁, B₂, h₁, h₂, h₃, h₄, h₅⟩
        · exact Or.inl ⟨h₁, by simpa [hev, htick] using h₂⟩
        · exact Or.inr ⟨q, ev :: B₁, B₂, h₁, h₂, by simp [h₃],
            by simpa [hev, htick] using h₄, h₅⟩
      cases ev with
      | add x now delay =>
          obtain ⟨-, rfl⟩ := step_add.mp ht
          exact next (by simp [append, hp]) rfl rfl
      | del x =>
          have hx : e ≠ x := fun hx => hd.1 (by rw [hx])
          have ht := step_del.mp ht
          subst ht
          exact next (by simp [delete, hp, hx]) rfl rfl
      | tick v =>
          obtain ⟨⟨rfl, hfir⟩, rfl⟩ := step_tick.mp ht
          by_cases hv : s.tick = d
          · subst hv
            obtain ⟨⟨q, hq, he⟩, h₁, h₂⟩ := firing_track rfl (mem_due.mpr hp) hf.2 hd.2 h
            exact Or.inr ⟨q, [], evs, hq, he, by simp, by simp, h₁, h₂⟩
          · have hsucc := sub_succ_toNat d s.tick hv
            have hp' : (e, d) ∈ s.pending.filter fun p => p.2 ≠ s.tick := by
              simp [hp, Ne.symm hv]
            have htick : (Event.tick s.tick : Event ε).isTick := rfl
            rcases ih hp' hf.2 hd.2 h with ⟨h₁, h₂⟩ | ⟨q, B₁, B₂, h₁, h₂, h₃, h₄, h₅⟩
            · refine Or.inl ⟨h₁, ?_⟩
              change evs.countP Event.isTick ≤ (d - (s.tick + 1)).toNat at h₂
              simp only [List.countP_cons_of_pos htick]
              omega
            · refine Or.inr ⟨q, .tick s.tick :: B₁, B₂, h₁, h₂, by simp [h₃], ?_, h₅⟩
              change B₁.countP Event.isTick = (d - (s.tick + 1)).toNat at h₄
              simp only [List.countP_cons_of_pos htick]
              omega
      | fire x =>
          obtain ⟨rest, -, rfl⟩ := step_fire.mp ht
          exact next hp rfl rfl
      | tickEnd =>
          obtain ⟨-, rfl⟩ := step_tickEnd.mp ht
          exact next hp rfl rfl

/-- An element that waits was added, and neither fired nor deleted since. -/
theorem waiting_was_added {start : BitVec 32} {evs : List (Event ε)} {e : ε}
    (h : (init start).replay evs = some s') (he : e ∈ s'.queue ++ s'.keys) :
    ∃ A₁ now delay A₂, evs = A₁ ++ .add e now delay :: A₂ ∧ .fire e ∉ A₂ ∧ .del e ∉ A₂ := by
  induction evs using List.reverseRecOn generalizing s' with
  | nil =>
      simp only [replay_nil, Option.some.injEq] at h
      subst h
      simp [init, queue, keys] at he
  | append_singleton evs ev ih =>
      obtain ⟨t, ht, hs⟩ := replay_concat.mp h
      have next : e ∈ t.queue ++ t.keys → ev ≠ .fire e → ev ≠ .del e →
          ∃ A₁ now delay A₂, evs ++ [ev] = A₁ ++ .add e now delay :: A₂ ∧ .fire e ∉ A₂ ∧
            .del e ∉ A₂ := by
        intro hm h₁ h₂
        obtain ⟨A₁, now, delay, A₂, rfl, h₃, h₄⟩ := ih ht hm
        exact ⟨A₁, now, delay, A₂ ++ [ev], by simp, by simp [h₃, h₁.symm], by simp [h₄, h₂.symm]⟩
      have hdist := replay_distinct (init_distinct start) ht
      cases ev with
      | add x now delay =>
          obtain ⟨-, rfl⟩ := step_add.mp hs
          by_cases hx : e = x
          · subst hx
            exact ⟨evs, now, delay, [], rfl, by simp, by simp⟩
          · refine next ?_ (by simp) (by simp)
            simpa [hx] using he
      | del x =>
          have hs := step_del.mp hs
          subst hs
          have hx : e ≠ x := by
            rintro rfl
            simp at he
          exact next (by simpa [hx] using he) (by simp) (by simpa using Ne.symm hx)
      | tick v =>
          obtain ⟨⟨-, hf⟩, rfl⟩ := step_tick.mp hs
          refine next ?_ (by simp) (by simp)
          simp only [queue, hf, Option.getD_none, List.nil_append]
          rcases List.mem_append.mp he with he | he
          · exact mem_keys.mpr ⟨v, mem_due.mp he⟩
          · obtain ⟨d, hd⟩ := mem_keys.mp he
            exact mem_keys.mpr ⟨d, (List.mem_filter.mp hd).1⟩
      | fire x =>
          obtain ⟨rest, hf, rfl⟩ := step_fire.mp hs
          have hx : e ≠ x := by
            rintro rfl
            have : (e :: (rest ++ t.keys)).Nodup := by
              simpa [Distinct, queue, hf] using hdist
            exact (List.nodup_cons.mp this).1 (by simpa [queue, keys] using he)
          refine next ?_ (by simpa using Ne.symm hx) (by simp)
          have he : e ∈ rest ∨ e ∈ t.keys := by simpa [queue, keys] using he
          simp only [queue, hf, Option.getD_some, List.cons_append, List.mem_cons,
            List.mem_append]
          exact Or.inr he
      | tickEnd =>
          obtain ⟨hf, rfl⟩ := step_tickEnd.mp hs
          refine next ?_ (by simp) (by simp)
          simpa [queue, keys, hf] using he

/-! ## The order of the additions of one tick -/

/-- The elements that are due at `d`, those being fired before those that
wait. -/
def line (s : DeadlineList ε) (d : BitVec 32) : List ε := s.queue ++ s.due d

omit [DecidableEq ε] in
theorem line_sublist (d : BitVec 32) : List.Sublist (s.line d) (s.queue ++ s.keys) :=
  List.Sublist.append_left (List.filter_sublist.map _) _

/-- A step that neither fires nor deletes one of two elements keeps their
order. -/
theorem step_line {e₁ e₂ : ε} {d : BitVec 32} {ev : Event ε}
    (hl : List.Sublist [e₁, e₂] (s.line d)) (h₁ : ev ≠ .fire e₁) (h₂ : ev ≠ .del e₁)
    (h₃ : ev ≠ .fire e₂) (h₄ : ev ≠ .del e₂) (h : s.step ev = some s') :
    List.Sublist [e₁, e₂] (s'.line d) := by
  cases ev with
  | add x now delay =>
      obtain ⟨-, rfl⟩ := step_add.mp h
      refine hl.trans ?_
      rw [line, line, queue_append, due_append]
      exact List.Sublist.append_left (List.sublist_append_left _ _) _
  | del x =>
      have h := step_del.mp h
      subst h
      have n₁ : e₁ ≠ x := fun hx => h₂ (by rw [hx])
      have n₂ : e₂ ≠ x := fun hx => h₄ (by rw [hx])
      have hfil : List.Sublist [e₁, e₂] ((s.line d).filter (· ≠ x)) := by
        simpa [n₁, n₂] using hl.filter (· ≠ x)
      rwa [line, List.filter_append, ← queue_delete, ← due_delete] at hfil
  | tick v =>
      obtain ⟨⟨-, hf⟩, rfl⟩ := step_tick.mp h
      have hl : List.Sublist [e₁, e₂] (s.due d) := by simpa [line, queue, hf] using hl
      by_cases hv : d = v
      · subst hv
        exact hl.trans (List.sublist_append_left _ _)
      · refine hl.trans ?_
        rw [line, due_begin hv]
        exact List.sublist_append_right _ _
  | fire x =>
      obtain ⟨rest, hf, rfl⟩ := step_fire.mp h
      have n₁ : e₁ ≠ x := fun hx => h₁ (by rw [hx])
      have hl : List.Sublist [e₁, e₂] (x :: (rest ++ s.due d)) := by
        simpa [line, queue, hf] using hl
      rcases List.sublist_cons_iff.mp hl with hl | ⟨r, hr, -⟩
      · simpa [line, queue, due] using hl
      · exact absurd (List.cons.inj hr).1 n₁
  | tickEnd =>
      obtain ⟨hf, rfl⟩ := step_tickEnd.mp h
      simpa [line, queue, hf, due] using hl

theorem replay_line {e₁ e₂ : ε} {d : BitVec 32} {evs : List (Event ε)}
    (hl : List.Sublist [e₁, e₂] (s.line d)) (h₁ : .fire e₁ ∉ evs) (h₂ : .del e₁ ∉ evs)
    (h₃ : .fire e₂ ∉ evs) (h₄ : .del e₂ ∉ evs) (h : s.replay evs = some s') :
    List.Sublist [e₁, e₂] (s'.line d) := by
  induction evs generalizing s with
  | nil =>
      simp only [replay_nil, Option.some.injEq] at h
      exact h ▸ hl
  | cons ev evs ih =>
      obtain ⟨t, ht, h⟩ := replay_cons.mp h
      rw [List.mem_cons, not_or] at h₁ h₂ h₃ h₄
      exact ih (step_line hl (Ne.symm h₁.1) (Ne.symm h₂.1) (Ne.symm h₃.1) (Ne.symm h₄.1) ht)
        h₁.2 h₂.2 h₃.2 h₄.2 h

/-- A waiting addition stands in the line of its tick. -/
theorem mem_line_of_track {e : ε} {d : BitVec 32} {evs : List (Event ε)}
    (hp : (e, d) ∈ s.pending) (hf : .fire e ∉ evs) (hd : .del e ∉ evs)
    (h : s.replay evs = some s') : e ∈ s'.line d := by
  rcases pending_track hp hf hd h with ⟨hp', -⟩ | ⟨q, -, -, hq, he, -⟩
  · exact List.mem_append_right _ (mem_due.mpr hp')
  · exact List.mem_append_left _ (by simpa [queue, hq] using he)

/-! ## The elements fired by one tick -/

/-- Until the tick ends, the elements to be fired only get fewer, and each fire
takes one of them. -/
theorem step_firing {q : List ε} {ev : Event ε} (hq : s.firing = some q) (hev : ev ≠ .tickEnd)
    (h : s.step ev = some s') :
    ∃ q', s'.firing = some q' ∧ q' ⊆ q ∧ (∀ x, ev = .fire x → x ∈ q) ∧
      q'.length + (if ev.isFire then 1 else 0) ≤ q.length := by
  cases ev with
  | add x now delay =>
      obtain ⟨-, rfl⟩ := step_add.mp h
      exact ⟨q, hq, List.Subset.refl q, by simp, by simp [Event.isFire]⟩
  | del x =>
      have h := step_del.mp h
      subst h
      exact ⟨q.filter (· ≠ x), by simp [delete, hq], List.filter_sublist.subset, by simp,
        by simpa [Event.isFire] using List.length_filter_le _ q⟩
  | tick v =>
      have := (step_tick.mp h).1.2
      rw [hq] at this
      cases this
  | fire x =>
      obtain ⟨rest, hr, rfl⟩ := step_fire.mp h
      rw [hq, Option.some.injEq] at hr
      subst hr
      exact ⟨rest, rfl, List.subset_cons_self x rest, by simp, by simp [Event.isFire]⟩
  | tickEnd => exact absurd rfl hev

theorem replay_firing {q : List ε} {evs : List (Event ε)} (hq : s.firing = some q)
    (hend : .tickEnd ∉ evs) (h : s.replay evs = some s') :
    ∃ q', s'.firing = some q' ∧ (∀ x, .fire x ∈ evs → x ∈ q) ∧
      q'.length + evs.countP Event.isFire ≤ q.length := by
  induction evs generalizing s q with
  | nil =>
      simp only [replay_nil, Option.some.injEq] at h
      exact ⟨q, h ▸ hq, by simp, by simp⟩
  | cons ev evs ih =>
      obtain ⟨t, ht, h⟩ := replay_cons.mp h
      rw [List.mem_cons, not_or] at hend
      obtain ⟨q₁, hq₁, hsub, hmem, hlen⟩ := step_firing hq (Ne.symm hend.1) ht
      obtain ⟨q₂, hq₂, hmem₂, hlen₂⟩ := ih hq₁ hend.2 h
      refine ⟨q₂, hq₂, ?_, ?_⟩
      · intro x hx
        rcases List.mem_cons.mp hx with hx | hx
        · exact hmem x hx.symm
        · exact hsub (hmem₂ x hx)
      · rw [List.countP_cons]
        omega

/-- Every log of the deadline list keeps the schedule. -/
theorem schedule {start : BitVec 32} {log : List (Event ε)}
    (h : (init start).replay log = some s') : Schedule (init start) log where
  fires_on_time := by
    rintro A e now delay B C rfl hf hd
    obtain ⟨sA, hA, h⟩ := replay_append.mp h
    obtain ⟨s₁, hadd, h⟩ := replay_cons.mp h
    obtain ⟨sB, hB, h⟩ := replay_append.mp h
    obtain ⟨s₂, hfire, -⟩ := replay_cons.mp h
    obtain ⟨⟨hnow, -⟩, rfl⟩ := step_add.mp hadd
    obtain ⟨rest, hfir, -⟩ := step_fire.mp hfire
    have hdist := replay_distinct (init_distinct start) hA
    have hdistB := replay_distinct (step_distinct hdist hadd) hB
    rcases pending_track (e := e) (d := now + delay) (by simp [append]) hf hd hB with
      ⟨hp, -⟩ | ⟨q, B₁, B₂, -, -, hsplit, hcount, hrest⟩
    · have : (e :: (rest ++ sB.keys)).Nodup := by simpa [Distinct, queue, hfir] using hdistB
      exact absurd (List.mem_append_right rest (mem_keys.mpr ⟨_, hp⟩)) (List.nodup_cons.mp this).1
    · exact ⟨B₁, B₂, hsplit, by simpa [hnow] using hcount, hrest⟩
  settled_by_end := by
    rintro A e now delay B v C D rfl hcount hend
    obtain ⟨sA, hA, h⟩ := replay_append.mp h
    obtain ⟨s₁, hadd, h⟩ := replay_cons.mp h
    rw [show B ++ Event.tick v :: (C ++ Event.tickEnd :: D) =
      (B ++ Event.tick v :: C) ++ Event.tickEnd :: D by simp] at h
    obtain ⟨s₂, hBC, h⟩ := replay_append.mp h
    obtain ⟨s₃, hlast, -⟩ := replay_cons.mp h
    obtain ⟨⟨hnow, -⟩, rfl⟩ := step_add.mp hadd
    have hempty := (step_tickEnd.mp hlast).1
    refine ⟨?_, ?_⟩
    · obtain ⟨sB, hB, hC⟩ := replay_append.mp hBC
      obtain ⟨s₄, htick, -⟩ := replay_cons.mp hC
      rw [← (step_tick.mp htick).1.1, replay_counter hB, hcount]
      simp [hnow]
    · by_contra hno
      rw [not_or] at hno
      rcases pending_track (e := e) (d := now + delay) (by simp [append]) hno.1 hno.2 hBC with
        ⟨-, hle⟩ | ⟨q, -, -, hq, he, -⟩
      · simp only [tick_append, hnow, List.countP_append, List.countP_cons, hcount,
          Event.isTick, if_true] at hle
        rw [add_sub_cancel_left] at hle
        omega
      · rw [hempty, Option.some.injEq] at hq
        simp [← hq] at he
  fires_its_addition := by
    rintro A e B rfl
    obtain ⟨sA, hA, h⟩ := replay_append.mp h
    obtain ⟨s₁, hfire, -⟩ := replay_cons.mp h
    obtain ⟨rest, hfir, -⟩ := step_fire.mp hfire
    exact waiting_was_added hA (by simp [queue, hfir])
  fires_in_order := by
    rintro A e₁ now₁ delay₁ B e₂ now₂ delay₂ C D rfl hdue hf₁ hd₁ hf₂ hd₂
    obtain ⟨sA, hA, h⟩ := replay_append.mp h
    obtain ⟨s₁, hadd₁, h⟩ := replay_cons.mp h
    obtain ⟨sB, hB, h⟩ := replay_append.mp h
    obtain ⟨s₂, hadd₂, h⟩ := replay_cons.mp h
    obtain ⟨sC, hC, h⟩ := replay_append.mp h
    obtain ⟨s₃, hfire, -⟩ := replay_cons.mp h
    have hdist := replay_distinct (step_distinct (replay_distinct (step_distinct
      (replay_distinct (init_distinct start) hA) hadd₁) hB) hadd₂) hC
    obtain ⟨-, rfl⟩ := step_add.mp hadd₁
    obtain ⟨⟨-, hnew⟩, rfl⟩ := step_add.mp hadd₂
    obtain ⟨rest, hfir, -⟩ := step_fire.mp hfire
    by_contra hno
    rw [not_or] at hno
    have hline₁ : e₁ ∈ sB.line (now₁ + delay₁) := mem_line_of_track (by simp [append]) hf₁ hd₁ hB
    have hne : e₁ ≠ e₂ := by
      rintro rfl
      exact hnew ((line_sublist _).subset hline₁)
    have hline₂ : List.Sublist [e₁, e₂]
        ((sB.append e₂ (now₂ + delay₂)).line (now₁ + delay₁)) := by
      have : List.Sublist ([e₁] ++ [e₂]) (sB.line (now₁ + delay₁) ++ [e₂]) :=
        List.Sublist.append (List.singleton_sublist.mpr hline₁) (List.Sublist.refl _)
      simpa [line, due_append, hdue] using this
    have hline₃ := replay_line hline₂ hno.1 hno.2 hf₂ hd₂ hC
    have hnd : (e₂ :: (rest ++ sC.keys)).Nodup := by simpa [Distinct, queue, hfir] using hdist
    have hsub : List.Sublist [e₁, e₂] (e₂ :: (rest ++ sC.keys)) := by
      simpa [queue, hfir] using hline₃.trans (line_sublist _)
    rcases List.sublist_cons_iff.mp hsub with hsub | ⟨r, hr, -⟩
    · exact (List.nodup_cons.mp hnd).1 (hsub.subset (by simp))
    · exact hne (List.cons.inj hr).1
  not_in_same_tick := by
    rintro A v B e now delay C D rfl hB hC hmem
    obtain ⟨sA, -, h⟩ := replay_append.mp h
    obtain ⟨s₁, htick, h⟩ := replay_cons.mp h
    obtain ⟨sB, hrB, h⟩ := replay_append.mp h
    obtain ⟨s₂, hadd, h⟩ := replay_cons.mp h
    obtain ⟨sC, hrC, -⟩ := replay_append.mp h
    obtain ⟨-, rfl⟩ := step_tick.mp htick
    obtain ⟨q, hq, -⟩ := replay_firing rfl hB hrB
    obtain ⟨⟨-, hnew⟩, rfl⟩ := step_add.mp hadd
    obtain ⟨-, -, hfire, -⟩ := replay_firing (s := sB.append e (now + delay)) hq hC hrC
    exact hnew (List.mem_append_left _ (by simpa [queue, hq] using hfire e hmem))
  bounded := by
    rintro A v B C rfl hB s hA
    obtain ⟨sA, hA', h⟩ := replay_append.mp h
    obtain ⟨s₁, htick, h⟩ := replay_cons.mp h
    obtain ⟨sB, hrB, -⟩ := replay_append.mp h
    obtain rfl : sA = s := by simpa [hA] using hA'.symm
    obtain ⟨-, rfl⟩ := step_tick.mp htick
    obtain ⟨q, -, -, hlen⟩ := replay_firing rfl hB hrB
    omega

end DeadlineList

end TimerWheel

end Infra
