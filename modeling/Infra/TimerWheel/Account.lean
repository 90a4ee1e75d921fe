import Infra.TimerWheel.Drive
import Mathlib.Algebra.BigOperators.Group.List.Basic

/-!
# The account of `drive_timer`

The clock may show anything. A call is credited with the milliseconds since the call
before, less what the two guards take off, and no credit is lost or counted twice:
the ticks and what is left in the account make up all credits, with the tick rate
that `init_timer` has put there.
-/

namespace Infra

namespace TimerWheel

open DeadlineList

/-- The milliseconds between the readings of a list, from a first one on. -/
def gaps : TimeVal → List TimeVal → List ℤ
  | _, [] => []
  | prev, now :: ts => gapMilsec prev now :: gaps now ts

/-- What the two guards of `drive_timer` make of a gap. -/
def guarded (tickRate guard gap : ℤ) : ℤ :=
  let mtime := if gap < 0 then 0 else gap
  if mtime ≥ guard then tickRate else mtime

/-- What a call is credited with when the guard is three tick rates. -/
def credit (tickRate gap : ℤ) : ℤ :=
  if gap < 0 then 0 else if gap ≥ 3 * tickRate then tickRate else gap

/-- The credits of the calls, as the guards leave them. -/
def credited (tickRate guard : ℤ) (prev : TimeVal) (ts : List TimeVal) : ℤ :=
  ((gaps prev ts).map (guarded tickRate guard)).sum

section Credits

variable {tickRate guard gap : ℤ} {prev now : TimeVal} {ts : List TimeVal}

theorem gaps_append :
    gaps prev (ts ++ [now]) = gaps prev ts ++ [gapMilsec (ts.getLastD prev) now] := by
  induction ts generalizing prev with
  | nil => rfl
  | cons t ts ih => rw [List.cons_append, gaps, gaps, ih, List.getLastD_cons, List.cons_append]

theorem credited_append : credited tickRate guard prev (ts ++ [now]) =
    credited tickRate guard prev ts +
      guarded tickRate guard (gapMilsec (ts.getLastD prev) now) := by
  rw [credited, gaps_append, List.map_append, List.sum_append, List.map_singleton,
    List.sum_singleton, credited]

theorem guarded_nonneg (hrate : 0 ≤ tickRate) : 0 ≤ guarded tickRate guard gap := by
  simp only [guarded]
  split <;> split <;> omega

/-- With a guard of three tick rates the guards are those of the credit. -/
theorem guarded_eq_credit (hrate : 0 < tickRate) :
    guarded tickRate (3 * tickRate) gap = credit tickRate gap := by
  simp only [guarded, credit]
  split
  · rw [if_neg (by omega)]
  · rfl

theorem credit_lt (hrate : 0 < tickRate) : credit tickRate gap < 3 * tickRate := by
  simp only [credit]
  split
  · omega
  · split <;> omega

end Credits

section Account

variable {ε : Type} {w₀ w w' : World ε} {ts : List TimeVal} {now : TimeVal}
  {acts : List (Act ε)} {tickRate nBuckets : ℤ} {start : BitVec 32}

/-- The books between two worlds, when the clock has shown these times in the calls
between them. -/
structure Accounts (w : World ε) (ts : List TimeVal) (w' : World ε) : Prop where
  tickRate : w'.timer.tickRate = w.timer.tickRate
  tickRateTimes3 : w'.timer.tickRateTimes3 = w.timer.tickRateTimes3
  prev : w'.timer.prev = ts.getLastD w.timer.prev
  nonneg : 0 ≤ w'.timer.accumulated
  total : w'.ticks * w.timer.tickRate + w'.timer.accumulated =
    w.ticks * w.timer.tickRate + w.timer.accumulated +
      credited w.timer.tickRate w.timer.tickRateTimes3 w.timer.prev ts
  settled : ts = [] ∧ w'.timer.accumulated = w.timer.accumulated ∧ w'.ticks = w.ticks ∨
    w'.timer.accumulated < w.timer.tickRate

theorem Accounts.refl (hacc : 0 ≤ w.timer.accumulated) : Accounts w [] w :=
  ⟨rfl, rfl, rfl, hacc, by simp [credited, gaps], Or.inl ⟨rfl, rfl, rfl⟩⟩

/-- A call into the timer manager has no part in the books. -/
theorem Accounts.sameClock (h : Accounts w₀ ts w) (hclock : SameClock w w' 0) :
    Accounts w₀ ts w' := by
  have hticks : w'.ticks = w.ticks := hclock.ticks
  constructor
  · rw [hclock.tickRate, h.tickRate]
  · rw [hclock.tickRateTimes3, h.tickRateTimes3]
  · rw [hclock.prev, h.prev]
  · rw [hclock.accumulated]
    exact h.nonneg
  · rw [hticks, hclock.accumulated]
    exact h.total
  · rw [hticks, hclock.accumulated]
    exact h.settled

variable [DecidableEq ε] {client : Client ε}

/-- A call of `drive_timer` enters its credit. -/
theorem Accounts.drive (hrate : 0 < w₀.timer.tickRate) (h : Accounts w₀ ts w) {fuel : ℕ}
    (hdrive : driveTimer client fuel now w = some w') : Accounts w₀ (ts ++ [now]) w' := by
  have hmtime : mtime w.timer now = guarded w₀.timer.tickRate w₀.timer.tickRateTimes3
      (gapMilsec (ts.getLastD w₀.timer.prev) now) := by
    rw [← h.tickRate, ← h.tickRateTimes3, ← h.prev]
    rfl
  have hnonneg := h.nonneg
  have hcredit : 0 ≤ mtime w.timer now := hmtime ▸ guarded_nonneg hrate.le
  obtain ⟨h₁, h₂, h₃, h₄, h₅, h₆⟩ := tickLoop_spec hdrive (by simp only; omega)
  simp only [World.ticks] at h₁ h₂ h₃ h₄ h₅ h₆
  rw [h.tickRate] at h₁ h₅ h₆
  refine ⟨h₁, h₂.trans h.tickRateTimes3, ?_, h₄, ?_, Or.inr h₅⟩
  · rw [h₃, List.getLastD_concat]
  · have htotal := h.total
    simp only [World.ticks] at htotal ⊢
    rw [h₆, credited_append, ← hmtime]
    linarith

/-- The books of a run. -/
theorem Accounts.run (hrate : 0 < w.timer.tickRate) (hacc : 0 ≤ w.timer.accumulated)
    (hrun : Trace (Drives client) w acts w') : Accounts w (readings acts) w' := by
  induction hrun with
  | nil => exact Accounts.refl hacc
  | @concat acts act w₁ w₂ _ hstep ih =>
      rw [readings_append]
      cases act with
      | call c =>
          have hread : readings [Act.call c] = [] := rfl
          rw [hread, List.append_nil]
          exact ih.sameClock (doCall_sameClock hstep.2)
      | drive now =>
          obtain ⟨fuel, hdrive⟩ := hstep
          exact ih.drive hrate hdrive

/-- `init_timer` puts one tick rate into the account. -/
theorem Initial.account (h : Initial tickRate nBuckets start w) :
    w.timer.tickRate = tickRate ∧ w.timer.tickRateTimes3 = CInt.wrap (3 * tickRate) ∧
      w.timer.accumulated = tickRate ∧ w.ticks = 0 := by
  obtain ⟨mem, elemTick, now, t, ht, hw⟩ := h.timer
  simp only [initTimer, if_true, Option.bind_eq_bind, Option.bind_eq_some_iff, Option.some.injEq,
    Prod.mk.injEq, true_and] at ht
  obtain ⟨m, -, ht⟩ := ht
  refine ⟨by rw [hw, ← ht], ?_, by rw [hw, ← ht], by rw [World.ticks, h.log, List.countP_nil]⟩
  rw [hw, ← ht, mul_comm]
  rfl

/-- The guard is three tick rates when that is an `int`. -/
theorem Initial.guard (h : Initial tickRate nBuckets start w)
    (hmax : tickRate ≤ CInt.intMax / 3) : w.timer.tickRateTimes3 = 3 * tickRate := by
  have hpos := h.tickRate_pos
  rw [h.account.2.1]
  refine CInt.wrap_eq_self ?_ ?_
  · simp only [CInt.intMin]
    omega
  · simp only [CInt.intMax] at hmax ⊢
    omega

/-- In a run every world between the steps holds a deadline list. -/
theorem Initial.follows_run (h₀ : Initial tickRate nBuckets start w₀)
    (hrun : Trace (Drives client) w₀ acts w) : ∃ s, Follows start w s ∧ s.firing = none := by
  obtain ⟨hrate, -, hacc, -⟩ := h₀.account
  have hpos := h₀.tickRate_pos
  induction hrun with
  | nil => exact ⟨_, h₀.follows, rfl⟩
  | @concat acts act w₁ w₂ hrun hstep ih =>
      obtain ⟨s, f, hf⟩ := ih
      cases act with
      | call c =>
          obtain ⟨hlegal, hcall⟩ := hstep
          obtain ⟨w', s', p, hw', f', hs'⟩ := f.doCall hlegal
          obtain rfl := Option.some.inj (hcall.symm.trans hw')
          exact ⟨s', f', by simpa [hf] using hs'⟩
      | drive now =>
          obtain ⟨fuel, hdrive⟩ := hstep
          have hbooks := Accounts.run (by omega) (by omega) hrun
          have hrate₁ : 0 < w₁.timer.tickRate := by
            rw [hbooks.tickRate]
            omega
          obtain ⟨w', s', N, f', hf', hw'⟩ := f.driveTimer client hf hrate₁ now
          have heq : w' = w₂ := Option.some.inj ((hw' _ (le_max_left N fuel)).symm.trans
            (tickLoop_mono (le_max_right N fuel) hdrive))
          exact ⟨s', heq ▸ f', hf'⟩

/-- Whatever the clock shows, the next call of `drive_timer` ends, after three ticks at
most, with less than a tick rate in the account; and the ticks and the account make up
the tick rate of `init_timer` and the credits of all calls. -/
theorem drive_conserves (client : Client ε) (h₀ : Initial tickRate nBuckets start w₀)
    (hmax : tickRate ≤ CInt.intMax / 3) (hrun : Trace (Drives client) w₀ acts w)
    (now : TimeVal) :
    ∃ w', (∃ N, ∀ fuel, N ≤ fuel → driveTimer client fuel now w = some w') ∧
      w'.ticks ≤ w.ticks + 3 ∧ 0 ≤ w'.timer.accumulated ∧ w'.timer.accumulated < tickRate ∧
      w'.ticks * tickRate + w'.timer.accumulated = tickRate +
        ((gaps w₀.timer.prev (readings acts ++ [now])).map (credit tickRate)).sum := by
  have hpos := h₀.tickRate_pos
  obtain ⟨hrate, -, hacc, hticks⟩ := h₀.account
  have hguard := h₀.guard hmax
  obtain ⟨s, f, hf⟩ := h₀.follows_run hrun
  have hbooks := Accounts.run (by omega) (by omega) hrun
  have hrate₁ : 0 < w.timer.tickRate := by
    rw [hbooks.tickRate]
    omega
  obtain ⟨w', -, N, -, -, hw'⟩ := f.driveTimer client hf hrate₁ now
  have hbooks' := hbooks.drive (by omega) (hw' N le_rfl)
  have hcredit : guarded tickRate (3 * tickRate) = credit tickRate :=
    funext fun gap => guarded_eq_credit hpos
  have hlt : w'.timer.accumulated < tickRate := by
    rcases hbooks'.settled with ⟨hnil, -⟩ | hlt
    · simp at hnil
    · omega
  have htotal := hbooks.total
  have htotal' := hbooks'.total
  rw [hrate, hguard, hacc, hticks] at htotal htotal'
  refine ⟨w', ⟨N, hw'⟩, ?_, hbooks'.nonneg, hlt, ?_⟩
  · -- what was left, at most a whole tick rate before the first call, and the credit
    have hleft : w.timer.accumulated ≤ tickRate := by
      rcases hbooks.settled with ⟨-, hleft, -⟩ | hleft <;> omega
    have hcr : credit tickRate (gapMilsec ((readings acts).getLastD w₀.timer.prev) now) <
        3 * tickRate := credit_lt hpos
    have hnonneg := hbooks'.nonneg
    rw [credited_append, hcredit] at htotal'
    have hmul : ((w'.ticks : ℤ) - w.ticks) * tickRate < 4 * tickRate := by
      rw [sub_mul]
      omega
    have := lt_of_mul_lt_mul_right hmul hpos.le
    omega
  · rw [credited, hcredit] at htotal'
    simpa using htotal'

/-- The clock goes back after the first call. -/
theorem drive_conserves_back : ∃ w : World Bool, w.ticks = 3 ∧
    ∃ w', (∃ N, ∀ fuel, N ≤ fuel → driveTimer idle fuel ⟨-1, 0⟩ w = some w') ∧
      w'.ticks ≤ w.ticks + 3 ∧ 0 ≤ w'.timer.accumulated ∧ w'.timer.accumulated < 10 ∧
      w'.ticks * 10 + w'.timer.accumulated =
        10 + ((gaps ⟨0, 0⟩ [⟨0, 25000⟩, ⟨-1, 0⟩]).map (credit 10)).sum := by
  have hdrive : (driveTimer idle 5 ⟨0, 25000⟩ (oneBucket 10 0)).map World.ticks = some 3 := by
    decide +kernel
  obtain ⟨w, hw, hticks⟩ := Option.map_eq_some_iff.mp hdrive
  have hrun : Trace (Drives idle) (oneBucket 10 0) [.drive ⟨0, 25000⟩] w := .single ⟨5, hw⟩
  exact ⟨w, hticks,
    drive_conserves idle (oneBucket_initial (by decide) 0) (by decide) hrun ⟨-1, 0⟩⟩

end Account

end TimerWheel

end Infra
