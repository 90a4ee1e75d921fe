import Infra.Foundation.CInt
import Infra.Foundation.Trace
import Infra.TimerWheel.Run
import Mathlib.Tactic.Linarith
import Mathlib.Tactic.Ring

/-!
# `drive_timer`

`drive_timer` adds the milliseconds since its last call to an account, and runs
`timer_tick` for each tick rate in it. Neither the calls of the callbacks nor a tick
touch the account, so that the loop is an arithmetic of the account and of the
number of ticks.
-/

namespace Infra

namespace TimerWheel

open DeadlineList

/-- A step of a program: a call into the timer manager, or `drive_timer` when the
clock shows a time. -/
inductive Act (ε : Type) where
  | call (c : Call ε)
  | drive (now : TimeVal)

section Functions

variable {ε : Type} [DecidableEq ε]

/-- The milliseconds between two readings, as `drive_timer` computes them: the
quotient by `1000.0` is converted to a `long`. -/
def gapMilsec (prev now : TimeVal) : ℤ :=
  (now.tvSec - prev.tvSec) * 1000 + (now.tvUsec - prev.tvUsec).tdiv 1000

/-- The local variable `mtime` after the guards. -/
def mtime (timer : Timer ε) (now : TimeVal) : ℤ :=
  let mtime := gapMilsec timer.prev now
  let mtime := if mtime < 0 then 0 else mtime
  if mtime ≥ timer.tickRateTimes3 then timer.tickRate else mtime

/-- The loop of `drive_timer`. -/
def tickLoop (client : Client ε) : ℕ → World ε → Option (World ε)
  | 0, _ => none
  | fuel + 1, w =>
      if w.timer.accumulated ≥ w.timer.tickRate then do
        let timer := { w.timer with accumulated := w.timer.accumulated - w.timer.tickRate }
        let w ← timerTick client fuel { w with timer := timer }
        tickLoop client fuel w
      else some w

/-- `drive_timer`, with `gettimeofday`. -/
def driveTimer (client : Client ε) (fuel : ℕ) (now : TimeVal) (w : World ε) : Option (World ε) :=
  let timer := { w.timer with
    prev := now
    accumulated := w.timer.accumulated + mtime w.timer now }
  tickLoop client fuel { w with timer := timer }

/-- A step of a run. -/
def Drives (client : Client ε) (w : World ε) (act : Act ε) (w' : World ε) : Prop :=
  match act with
  | .call c => LegalCall w c ∧ doCall w c = some w'
  | .drive now => ∃ fuel, driveTimer client fuel now w = some w'

/-- The number of executions of `timer_tick`. -/
def World.ticks (w : World ε) : ℕ := w.log.countP Event.isTick

end Functions

/-! ## The clock -/

/-- The clock shows a time in seconds and less than a million microseconds. -/
def TimeVal.Normalised (t : TimeVal) : Prop := 0 ≤ t.tvUsec ∧ t.tvUsec < 1000000

instance (t : TimeVal) : Decidable t.Normalised := instDecidableAnd

/-- The time in microseconds. -/
def TimeVal.micros (t : TimeVal) : ℤ := t.tvSec * 1000000 + t.tvUsec

/-- What the clock shows in the calls of `drive_timer`. -/
def readings {ε : Type} (acts : List (Act ε)) : List TimeVal :=
  acts.filterMap fun
    | .call _ => none
    | .drive now => some now

section Clock

theorem readings_append {ε : Type} {acts acts' : List (Act ε)} :
    readings (acts ++ acts') = readings acts ++ readings acts' := List.filterMap_append

/-- The microseconds of a gap are its milliseconds and what is cut off. -/
theorem gapMilsec_mul (prev now : TimeVal) : 1000 * gapMilsec prev now =
    now.micros - prev.micros - (now.tvUsec - prev.tvUsec).tmod 1000 := by
  have hdiv := Int.mul_tdiv_add_tmod (now.tvUsec - prev.tvUsec) 1000
  simp only [gapMilsec, TimeVal.micros]
  omega

end Clock

/-! ## What the calls leave alone -/

section Frame

variable {ε : Type} {w w' : World ε}

/-- The two worlds have the same account, the same rates and the same last reading,
and as many ticks apart. -/
structure SameClock (w w' : World ε) (ticks : ℕ) : Prop where
  tickRate : w'.timer.tickRate = w.timer.tickRate
  tickRateTimes3 : w'.timer.tickRateTimes3 = w.timer.tickRateTimes3
  prev : w'.timer.prev = w.timer.prev
  accumulated : w'.timer.accumulated = w.timer.accumulated
  ticks : w'.ticks = w.ticks + ticks

theorem SameClock.refl (w : World ε) : SameClock w w 0 := ⟨rfl, rfl, rfl, rfl, rfl⟩

theorem SameClock.trans {w'' : World ε} {m n : ℕ} (h : SameClock w w' m)
    (h' : SameClock w' w'' n) : SameClock w w'' (m + n) where
  tickRate := h'.tickRate.trans h.tickRate
  tickRateTimes3 := h'.tickRateTimes3.trans h.tickRateTimes3
  prev := h'.prev.trans h.prev
  accumulated := h'.accumulated.trans h.accumulated
  ticks := by rw [h'.ticks, h.ticks, add_assoc]

/-- An event that is not a tick is logged after a change of the lists. -/
theorem SameClock.log {timer : Timer ε} {ev : Event ε} (hev : ev.isTick = false)
    (h : SameClock w { timer := timer, log := w.log } 0) :
    SameClock w { timer := timer, log := w.log ++ [ev] } 0 where
  tickRate := h.tickRate
  tickRateTimes3 := h.tickRateTimes3
  prev := h.prev
  accumulated := h.accumulated
  ticks := by simp [World.ticks, hev]

variable [DecidableEq ε] {client : Client ε} {fuel : ℕ}

theorem addTimer_sameClock {e : ε} {expires : ℤ} {t : Timer ε}
    (h : addTimer w.timer e expires = some t) : SameClock w { timer := t, log := w.log } 0 := by
  obtain ⟨running, -, h⟩ := Option.bind_eq_some_iff.mp h
  cases running with
  | true => cases h
  | false =>
      obtain ⟨m, -, h⟩ := Option.bind_eq_some_iff.mp h
      obtain ⟨m', -, h⟩ := Option.bind_eq_some_iff.mp h
      cases h
      exact ⟨rfl, rfl, rfl, rfl, rfl⟩

theorem delTimer_sameClock {e : ε} {t : Timer ε} (h : delTimer w.timer e = some t) :
    SameClock w { timer := t, log := w.log } 0 := by
  obtain ⟨running, -, h⟩ := Option.bind_eq_some_iff.mp h
  cases running with
  | true =>
      obtain ⟨m, -, h⟩ := Option.bind_eq_some_iff.mp h
      cases h
      exact ⟨rfl, rfl, rfl, rfl, rfl⟩
  | false =>
      cases h
      exact ⟨rfl, rfl, rfl, rfl, rfl⟩

theorem doCall_sameClock {c : Call ε} (h : doCall w c = some w') : SameClock w w' 0 := by
  cases c with
  | add e expires =>
      obtain ⟨t, ht, h⟩ := Option.bind_eq_some_iff.mp h
      cases h
      exact (addTimer_sameClock ht).log rfl
  | del e =>
      obtain ⟨t, ht, h⟩ := Option.bind_eq_some_iff.mp h
      cases h
      exact (delTimer_sameClock ht).log rfl

theorem doCalls_sameClock {cs : List (Call ε)} (h : doCalls w cs = some w') :
    SameClock w w' 0 := by
  induction cs generalizing w with
  | nil =>
      cases h
      exact SameClock.refl _
  | cons c cs ih =>
      obtain ⟨w₁, hw₁, h⟩ := Option.bind_eq_some_iff.mp h
      exact (doCall_sameClock hw₁).trans (ih h)

theorem drain_sameClock (h : drain client fuel w = some w') : SameClock w w' 0 := by
  induction fuel generalizing w with
  | zero => cases h
  | succ fuel ih =>
      obtain ⟨empty, -, h⟩ := Option.bind_eq_some_iff.mp h
      cases empty with
      | true =>
          cases h
          exact SameClock.refl _
      | false =>
          obtain ⟨p, -, h⟩ := Option.bind_eq_some_iff.mp h
          cases p with
          | inl k => cases h
          | inr e =>
              obtain ⟨m, -, h⟩ := Option.bind_eq_some_iff.mp h
              obtain ⟨w₁, hw₁, h⟩ := Option.bind_eq_some_iff.mp h
              have hpop : SameClock w
                  { timer := { w.timer with mem := m }, log := w.log ++ [.fire e] } 0 :=
                SameClock.log rfl ⟨rfl, rfl, rfl, rfl, rfl⟩
              exact (hpop.trans (doCalls_sameClock hw₁)).trans (ih h)

/-- `timer_tick` is one tick and leaves the account alone. -/
theorem timerTick_sameClock (h : timerTick client fuel w = some w') : SameClock w w' 1 := by
  obtain ⟨t, ht, h⟩ := Option.bind_eq_some_iff.mp h
  obtain ⟨w₁, hw₁, h⟩ := Option.bind_eq_some_iff.mp h
  cases h
  simp only [collect, Option.bind_eq_bind, Option.bind_eq_some_iff] at ht
  obtain ⟨m, -, m', -, ht⟩ := ht
  cases ht
  have hstart : SameClock w { timer := { w.timer with mem := m', tick := w.timer.tick + 1 }
                              log := w.log ++ [.tick w.timer.tick] } 1 :=
    ⟨rfl, rfl, rfl, rfl, by simp [World.ticks, Event.isTick]⟩
  have hend : SameClock w₁ { timer := { w₁.timer with mem := w₁.timer.mem.free (.inl .timeout) }
                             log := w₁.log ++ [.tickEnd] } 0 :=
    SameClock.log rfl ⟨rfl, rfl, rfl, rfl, rfl⟩
  exact (hstart.trans (drain_sameClock hw₁)).trans hend

end Frame

/-! ## The loop -/

section Loop

variable {ε : Type} [DecidableEq ε] {client : Client ε} {w w' : World ε} {fuel : ℕ}

/-- The loop pays for each tick out of the account, until less than a tick rate is
left. -/
theorem tickLoop_spec (h : tickLoop client fuel w = some w') (hacc : 0 ≤ w.timer.accumulated) :
    w'.timer.tickRate = w.timer.tickRate ∧ w'.timer.tickRateTimes3 = w.timer.tickRateTimes3 ∧
      w'.timer.prev = w.timer.prev ∧ 0 ≤ w'.timer.accumulated ∧
      w'.timer.accumulated < w.timer.tickRate ∧
      w'.ticks * w.timer.tickRate + w'.timer.accumulated =
        w.ticks * w.timer.tickRate + w.timer.accumulated := by
  induction fuel generalizing w with
  | zero => cases h
  | succ fuel ih =>
      rw [tickLoop] at h
      split at h
      · next hge =>
        obtain ⟨w₁, hw₁, h⟩ := Option.bind_eq_some_iff.mp h
        have hclock := timerTick_sameClock hw₁
        have hrate : w₁.timer.tickRate = w.timer.tickRate := hclock.tickRate
        have hacc₁ : w₁.timer.accumulated = w.timer.accumulated - w.timer.tickRate :=
          hclock.accumulated
        have hticks : w₁.ticks = w.ticks + 1 := hclock.ticks
        obtain ⟨h₁, h₂, h₃, h₄, h₅, h₆⟩ := ih h (by omega)
        rw [hrate] at h₁ h₅ h₆
        refine ⟨h₁, h₂.trans hclock.tickRateTimes3, h₃.trans hclock.prev, h₄, h₅, ?_⟩
        rw [h₆, hacc₁, hticks]
        push_cast
        ring
      · next hlt =>
        cases h
        exact ⟨rfl, rfl, rfl, hacc, by omega, rfl⟩

/-- More rounds do not change the result of the loop. -/
theorem tickLoop_mono {fuel' : ℕ} (hle : fuel ≤ fuel') (h : tickLoop client fuel w = some w') :
    tickLoop client fuel' w = some w' := by
  induction fuel generalizing fuel' w with
  | zero => cases h
  | succ fuel ih =>
      obtain ⟨fuel', rfl⟩ : ∃ m, fuel' = m + 1 := ⟨fuel' - 1, by omega⟩
      rw [tickLoop] at h ⊢
      split at h
      · next hge =>
        rw [if_pos hge]
        obtain ⟨w₁, hw₁, h⟩ := Option.bind_eq_some_iff.mp h
        have hle : fuel ≤ fuel' := by omega
        exact Option.bind_eq_some_iff.mpr ⟨w₁, timerTick_mono client hle hw₁, ih hle h⟩
      · next hlt =>
        rw [if_neg hlt]
        exact h

variable {start : BitVec 32} {s : DeadlineList ε}

/-- The deadline list does not see the account. -/
theorem Follows.account (f : Follows start w s) (prev : TimeVal) (accumulated : ℤ) :
    Follows start
      { w with timer := { w.timer with prev := prev, accumulated := accumulated } } s where
  log := f.log
  refines := ⟨f.refines.numBuckets, f.refines.tick, f.refines.distinct, f.refines.elemTick,
    f.refines.rings, f.refines.stopped⟩

/-- The loop returns, with rounds for its ticks and for the elements that wait. -/
theorem Follows.tickLoop (client : Client ε) (f : Follows start w s) (hf : s.firing = none)
    (hrate : 0 < w.timer.tickRate) : ∃ w' s' N, Follows start w' s' ∧ s'.firing = none ∧
      ∀ fuel, N ≤ fuel → TimerWheel.tickLoop client fuel w = some w' := by
  -- each tick takes a part of the account that is not empty
  induction hn : w.timer.accumulated.toNat using Nat.strong_induction_on generalizing w s with
  | _ n ih =>
      by_cases hge : w.timer.accumulated ≥ w.timer.tickRate
      · obtain ⟨w₁, s₁, hw₁, f₁, hf₁⟩ := (f.account w.timer.prev
          (w.timer.accumulated - w.timer.tickRate)).timerTick client hf
        have hclock := timerTick_sameClock (hw₁ _ (Nat.lt_succ_self _))
        have hrate₁ : w₁.timer.tickRate = w.timer.tickRate := hclock.tickRate
        have hacc₁ : w₁.timer.accumulated = w.timer.accumulated - w.timer.tickRate :=
          hclock.accumulated
        obtain ⟨w', s', N, f', hf', hw'⟩ :=
          ih _ (by omega) f₁ hf₁ (by omega) rfl
        refine ⟨w', s', max N (s.pending.length + 1) + 1, f', hf', fun fuel hfuel => ?_⟩
        obtain ⟨fuel, rfl⟩ : ∃ m, fuel = m + 1 := ⟨fuel - 1, by omega⟩
        rw [TimerWheel.tickLoop, if_pos hge]
        exact Option.bind_eq_some_iff.mpr ⟨w₁, hw₁ fuel (by omega), hw' fuel (by omega)⟩
      · refine ⟨w, s, 1, f, hf, fun fuel hfuel => ?_⟩
        obtain ⟨fuel, rfl⟩ : ∃ m, fuel = m + 1 := ⟨fuel - 1, by omega⟩
        rw [TimerWheel.tickLoop, if_neg hge]

theorem Follows.driveTimer (client : Client ε) (f : Follows start w s) (hf : s.firing = none)
    (hrate : 0 < w.timer.tickRate) (now : TimeVal) : ∃ w' s' N, Follows start w' s' ∧
      s'.firing = none ∧ ∀ fuel, N ≤ fuel → TimerWheel.driveTimer client fuel now w = some w' :=
  (f.account now (w.timer.accumulated + mtime w.timer now)).tickLoop client hf hrate

end Loop

end TimerWheel

end Infra
