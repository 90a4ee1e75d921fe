import Infra.TimerWheel.Account
import Mathlib.Algebra.Order.Ring.Abs

/-!
# The pace of `drive_timer`

The difference of the microseconds is truncated towards zero, and the fraction that
is cut off is never made up for: it is lost when the microseconds grow and won when
they have passed a second. So the pace is kept as long as these fractions stay below
a tick.
-/

namespace Infra

namespace TimerWheel

open DeadlineList

/-! ## Steady clocks -/

/-- From a reading on, the clock never goes back and each gap is shorter than three
tick rates. -/
def Steady (tickRate : ℤ) : TimeVal → List TimeVal → Prop
  | _, [] => True
  | prev, now :: ts =>
      now.Normalised ∧ prev.micros ≤ now.micros ∧ now.micros - prev.micros < 3000 * tickRate ∧
        Steady tickRate now ts

/-- The microseconds from a reading to the last one. -/
def elapsed (start : TimeVal) (ts : List TimeVal) : ℤ :=
  (ts.getLastD start).micros - start.micros

/-- The microseconds between two readings that are left out of the account: what is
cut off of the difference of the microseconds, and when the gap counts as three
tick rates, all but one tick rate. -/
def leftOut (tickRate : ℤ) (prev now : TimeVal) : ℤ :=
  if gapMilsec prev now < 3 * tickRate then (now.tvUsec - prev.tvUsec).tmod 1000
  else now.micros - prev.micros - 1000 * tickRate

/-- The microseconds that the calls have left out. -/
def drift (tickRate : ℤ) : TimeVal → List TimeVal → ℤ
  | _, [] => 0
  | prev, now :: ts => leftOut tickRate prev now + drift tickRate now ts

/-- The ticks differ by at most one from those that the elapsed milliseconds make,
with the one that is due at once. -/
def OnPace {ε : Type} (tickRate : ℤ) (start : TimeVal) (ts : List TimeVal) (w : World ε) : Prop :=
  |(w.ticks : ℤ) - (tickRate + elapsed start ts / 1000) / tickRate| ≤ 1

section Clock

variable {tickRate : ℤ} {prev now : TimeVal} {ts : List TimeVal}

/-- A clock that does not go back shows a gap that is not negative. -/
theorem gapMilsec_nonneg (hprev : prev.Normalised) (hnow : now.Normalised)
    (hle : prev.micros ≤ now.micros) : 0 ≤ gapMilsec prev now := by
  obtain ⟨h₁, h₂⟩ := hprev
  obtain ⟨h₃, h₄⟩ := hnow
  rcases le_total 0 (now.tvUsec - prev.tvUsec) with hsign | hsign
  · have hdiv : 0 ≤ (now.tvUsec - prev.tvUsec).tdiv 1000 := Int.tdiv_nonneg hsign (by decide)
    simp only [TimeVal.micros, gapMilsec] at hle ⊢
    omega
  · have hmul := gapMilsec_mul prev now
    have hmod := Int.tmod_nonneg 1000 (Int.neg_nonneg.mpr hsign)
    rw [Int.neg_tmod] at hmod
    omega

/-- The credits of a steady clock are the time that is not left out. -/
theorem credited_mul (hprev : prev.Normalised)
    (h : Steady tickRate prev ts) : 1000 * credited tickRate (3 * tickRate) prev ts =
      elapsed prev ts - drift tickRate prev ts := by
  induction ts generalizing prev with
  | nil => simp [credited, gaps, elapsed, drift]
  | cons now ts ih =>
      obtain ⟨hnow, hle, -, hrest⟩ := h
      have hgap := gapMilsec_nonneg hprev hnow hle
      have hmul := gapMilsec_mul prev now
      have hfirst : 1000 * guarded tickRate (3 * tickRate) (gapMilsec prev now) =
          now.micros - prev.micros - leftOut tickRate prev now := by
        simp only [guarded, leftOut, if_neg (not_lt.mpr hgap)]
        by_cases hguard : gapMilsec prev now < 3 * tickRate
        · rw [if_neg (not_le.mpr hguard), if_pos hguard]
          exact hmul
        · rw [if_pos (not_lt.mp hguard), if_neg hguard]
          ring
      have hcredited : credited tickRate (3 * tickRate) prev (now :: ts) =
          guarded tickRate (3 * tickRate) (gapMilsec prev now) +
            credited tickRate (3 * tickRate) now ts := by
        simp [credited, gaps]
      have helapsed : elapsed prev (now :: ts) =
          now.micros - prev.micros + elapsed now ts := by
        rw [elapsed, elapsed, List.getLastD_cons]
        ring
      rw [hcredited, helapsed, drift, mul_add, ih hnow hrest, hfirst]
      ring

end Clock

/-! ## Runs -/

section Run

variable {ε : Type} [DecidableEq ε] {client : Client ε} {w₀ w : World ε} {acts : List (Act ε)}
  {tickRate nBuckets : ℤ} {start : BitVec 32} {ts : List TimeVal}

/-- The ticks of a run are those of the time that was not left out. -/
theorem Initial.onPace_iff (h₀ : Initial tickRate nBuckets start w₀)
    (hmax : tickRate ≤ CInt.intMax / 3) (hprev : w₀.timer.prev.Normalised)
    (h : Accounts w₀ ts w) (hclock : Steady tickRate w₀.timer.prev ts) :
    OnPace tickRate w₀.timer.prev ts w ↔
      |(elapsed w₀.timer.prev ts - drift tickRate w₀.timer.prev ts) / (1000 * tickRate) -
        elapsed w₀.timer.prev ts / (1000 * tickRate)| ≤ 1 := by
  have hrate := h₀.tickRate_pos
  obtain ⟨heq, -, hacc, hticks⟩ := h₀.account
  have htotal := h.total
  have hmul := credited_mul hprev hclock
  rw [heq, h₀.guard hmax, hacc, hticks] at htotal
  have hexpected : (tickRate + elapsed w₀.timer.prev ts / 1000) / tickRate =
      1 + elapsed w₀.timer.prev ts / (1000 * tickRate) := by
    rw [Int.add_ediv_of_dvd_left (dvd_refl tickRate), Int.ediv_self hrate.ne',
      Int.ediv_ediv_of_nonneg (by decide)]
  rw [OnPace, hexpected]
  rcases h.settled with ⟨rfl, -, hnone⟩ | hlt
  · simp [hnone, hticks, elapsed, drift]
  · have hdiv : (elapsed w₀.timer.prev ts - drift tickRate w₀.timer.prev ts) /
        (1000 * tickRate) = w.ticks - 1 := by
      have hcredited : credited tickRate (3 * tickRate) w₀.timer.prev ts =
          w.timer.accumulated + (w.ticks - 1) * tickRate := by
        push_cast at htotal
        linarith
      rw [← hmul, Int.mul_ediv_mul_of_pos _ _ (by decide), hcredited,
        Int.add_mul_ediv_right _ _ hrate.ne', Int.ediv_eq_zero_of_lt h.nonneg (heq ▸ hlt),
        zero_add]
    rw [hdiv]
    ring_nf

/-- Two times that are at most one unit apart have quotients at most one apart. -/
theorem abs_ediv_sub_le {e d k : ℤ} (hk : 0 < k) (hd : |d| ≤ k) : |(e - d) / k - e / k| ≤ 1 := by
  have hself : k / k = 1 := Int.ediv_self hk.ne'
  have hsub : (e - k) / k = e / k - 1 := by rw [Int.sub_ediv_of_dvd _ (dvd_refl k), hself]
  have hadd : (e + k) / k = e / k + 1 := by rw [Int.add_ediv_of_dvd_right (dvd_refl k), hself]
  obtain ⟨hlow, hhigh⟩ := abs_le.mp hd
  have h₁ : (e - k) / k ≤ (e - d) / k := Int.ediv_le_ediv hk (by omega)
  have h₂ : (e - d) / k ≤ (e + k) / k := Int.ediv_le_ediv hk (by omega)
  rw [abs_le]
  omega

/-- Two times that are two units apart have quotients two apart. -/
theorem one_lt_abs_ediv_sub {e d k : ℤ} (hk : 0 < k) (hd : 2 * k ≤ |d|) :
    1 < |(e - d) / k - e / k| := by
  have htwo : 2 * k / k = 2 := Int.mul_ediv_cancel _ hk.ne'
  have hdvd : k ∣ 2 * k := Dvd.intro_left 2 rfl
  rcases le_abs.mp hd with hd | hd
  · have hsub : (e - 2 * k) / k = e / k - 2 := by rw [Int.sub_ediv_of_dvd _ hdvd, htwo]
    have hle : (e - d) / k ≤ (e - 2 * k) / k := Int.ediv_le_ediv hk (by omega)
    exact lt_abs.mpr (Or.inr (by omega))
  · have hadd : (e + 2 * k) / k = e / k + 2 := by rw [Int.add_ediv_of_dvd_right hdvd, htwo]
    have hle : (e + 2 * k) / k ≤ (e - d) / k := Int.ediv_le_ediv hk (by omega)
    exact lt_abs.mpr (Or.inl (by omega))

/-- After every run the ticks are on pace just when the time with and without what
was left out has at most one whole tick more or less. So they are on pace while
not more than one tick rate was left out, and off when two tick rates were. In any
case the next call of `drive_timer` returns. -/
theorem keeps_pace_iff (client : Client ε) (h₀ : Initial tickRate nBuckets start w₀)
    (hmax : tickRate ≤ CInt.intMax / 3) (ht₀ : w₀.timer.prev.Normalised)
    (hrun : Trace (Drives client) w₀ acts w)
    (hclock : Steady tickRate w₀.timer.prev (readings acts)) :
    (OnPace tickRate w₀.timer.prev (readings acts) w ↔
      |(elapsed w₀.timer.prev (readings acts) - drift tickRate w₀.timer.prev (readings acts)) /
          (1000 * tickRate) - elapsed w₀.timer.prev (readings acts) / (1000 * tickRate)| ≤ 1) ∧
    (|drift tickRate w₀.timer.prev (readings acts)| ≤ 1000 * tickRate →
      OnPace tickRate w₀.timer.prev (readings acts) w) ∧
    (2 * (1000 * tickRate) ≤ |drift tickRate w₀.timer.prev (readings acts)| →
      ¬ OnPace tickRate w₀.timer.prev (readings acts) w) ∧
    ∀ now, ∃ w' N, ∀ fuel, N ≤ fuel → driveTimer client fuel now w = some w' := by
  have hrate := h₀.tickRate_pos
  obtain ⟨heq, -, hacc, -⟩ := h₀.account
  obtain ⟨s, f, hf⟩ := h₀.follows_run hrun
  have hbooks := Accounts.run (by omega) (by omega) hrun
  have hunit : 0 < 1000 * tickRate := by omega
  have hiff := h₀.onPace_iff hmax ht₀ hbooks hclock
  refine ⟨hiff, fun h => hiff.mpr (abs_ediv_sub_le hunit h), fun h hpace => ?_, fun now => ?_⟩
  · exact not_lt.mpr (hiff.mp hpace) (one_lt_abs_ediv_sub hunit h)
  · have hrate' : 0 < w.timer.tickRate := by
      rw [hbooks.tickRate]
      omega
    obtain ⟨w', -, N, -, -, hw'⟩ := f.driveTimer client hf hrate' now
    exact ⟨w', N, hw'⟩

end Run

section Sample

theorem oneBucket_prev (tickRate : ℤ) (start : BitVec 32) :
    (oneBucket tickRate start).timer.prev = ⟨0, 0⟩ := rfl

/-- In three calls 2.7 milliseconds are lost, so that the fourth tick is still to come after
30.7 milliseconds. -/
theorem keeps_pace_iff_lagging : ∃ w : World Bool, w.ticks = 3 ∧
    OnPace 10 ⟨0, 0⟩ [⟨0, 10900⟩, ⟨0, 21800⟩, ⟨0, 30700⟩] w := by
  have hdrive : (((driveTimer idle 4 ⟨0, 10900⟩ (oneBucket 10 0)).bind
      (driveTimer idle 4 ⟨0, 21800⟩)).bind (driveTimer idle 4 ⟨0, 30700⟩)).map World.ticks =
        some 3 := by
    decide +kernel
  simp only [Option.map_eq_some_iff, Option.bind_eq_some_iff] at hdrive
  obtain ⟨w, ⟨w₂, ⟨w₁, h₁, h₂⟩, h₃⟩, hticks⟩ := hdrive
  have hrun : Trace (Drives idle) (oneBucket 10 0)
      [.drive ⟨0, 10900⟩, .drive ⟨0, 21800⟩, .drive ⟨0, 30700⟩] w :=
    ((Trace.single ⟨4, h₁⟩).concat ⟨4, h₂⟩).concat ⟨4, h₃⟩
  have hclock : Steady 10 ⟨0, 0⟩ [⟨0, 10900⟩, ⟨0, 21800⟩, ⟨0, 30700⟩] := by
    simp only [Steady]
    decide
  have hpace := (keeps_pace_iff idle (oneBucket_initial (by decide) 0) (by decide)
    (oneBucket_prev 10 0 ▸ by decide) hrun hclock).2.1
  rw [oneBucket_prev] at hpace
  exact ⟨w, hticks, hpace (by decide)⟩

/-- With ticks of a millisecond, four calls that are nine tenths of a millisecond apart count
no millisecond. -/
theorem pace_lost : ¬ ∀ (w₀ w : World Bool) (tickRate nBuckets : ℤ) (start : BitVec 32)
    (acts : List (Act Bool)), Initial tickRate nBuckets start w₀ → tickRate ≤ CInt.intMax / 3 →
      w₀.timer.prev.Normalised → Trace (Drives idle) w₀ acts w →
      Steady tickRate w₀.timer.prev (readings acts) →
      OnPace tickRate w₀.timer.prev (readings acts) w := by
  intro h
  have hdrive : ((((driveTimer idle 3 ⟨0, 900⟩ (oneBucket 1 0)).bind
      (driveTimer idle 3 ⟨0, 1800⟩)).bind (driveTimer idle 3 ⟨0, 2700⟩)).bind
      (driveTimer idle 3 ⟨0, 3600⟩)).map World.ticks = some 1 := by decide +kernel
  simp only [Option.map_eq_some_iff, Option.bind_eq_some_iff] at hdrive
  obtain ⟨w₄, ⟨w₃, ⟨w₂, ⟨w₁, h₁, h₂⟩, h₃⟩, h₄⟩, hticks⟩ := hdrive
  have hrun : Trace (Drives idle) (oneBucket 1 0)
      [.drive ⟨0, 900⟩, .drive ⟨0, 1800⟩, .drive ⟨0, 2700⟩, .drive ⟨0, 3600⟩] w₄ :=
    (((Trace.single ⟨3, h₁⟩).concat ⟨3, h₂⟩).concat ⟨3, h₃⟩).concat ⟨3, h₄⟩
  have hpace := h (oneBucket 1 0) w₄ 1 1 0 _ (oneBucket_initial (by decide) 0) (by decide)
    (oneBucket_prev 1 0 ▸ by decide) hrun
  rw [oneBucket_prev] at hpace
  have hclock : Steady 1 ⟨0, 0⟩ [⟨0, 900⟩, ⟨0, 1800⟩, ⟨0, 2700⟩, ⟨0, 3600⟩] := by
    simp only [Steady]
    decide
  have helapsed : elapsed ⟨0, 0⟩ [⟨0, 900⟩, ⟨0, 1800⟩, ⟨0, 2700⟩, ⟨0, 3600⟩] = 3600 := by decide
  have honPace : OnPace 1 ⟨0, 0⟩ [⟨0, 900⟩, ⟨0, 1800⟩, ⟨0, 2700⟩, ⟨0, 3600⟩] w₄ := hpace hclock
  rw [OnPace, helapsed, hticks] at honPace
  exact absurd honPace (by decide)

end Sample

end TimerWheel

end Infra
