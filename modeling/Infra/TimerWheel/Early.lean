import Infra.TimerWheel.Pace

/-!
# Timers that fire early

An addition counts its ticks from the last call of `drive_timer`, and the time since
that call is credited only afterwards. So an addition is due when the account, with
the credits after the addition, has paid for one tick more than it asked for; and the
milliseconds between the last call and the addition are part of these credits. The
callback is called at the first reading from then on, and it is called early when
there is such a reading before the addition has expired.
-/

namespace Infra

namespace TimerWheel

open DeadlineList

section Definitions

/-- From a reading on, the clock shows whole milliseconds, never goes back, and no gap
is longer than a tick rate. -/
def Regular (tickRate : ℤ) : TimeVal → List TimeVal → Prop
  | _, [] => True
  | prev, now :: ts =>
      now.Normalised ∧ 1000 ∣ now.tvUsec ∧ prev.micros ≤ now.micros ∧
        now.micros - prev.micros ≤ 1000 * tickRate ∧ Regular tickRate now ts

variable {ε : Type} [DecidableEq ε]

/-- The element is added in the world `w`, and its callback is called for this addition
in a later call of `drive_timer` with the reading `c`. -/
def FiresAt (client : Client ε) (w : World ε) (elem : ε) (expires : ℤ) (acts : List (Act ε))
    (c : TimeVal) : Prop :=
  ∃ w₁ w₂ w₃, doCall w (.add elem expires) = some w₁ ∧ Trace (Drives client) w₁ acts w₂ ∧
    Drives client w₂ (.drive c) w₃ ∧ ∃ A B C, w₂.log = w₁.log ++ A ∧
      w₃.log = w₂.log ++ (B ++ .fire elem :: C) ∧ .fire elem ∉ A ++ B ∧ .del elem ∉ A ++ B

/-- After these readings the account has paid for the tick after so many others. -/
def Paid (timer : Timer ε) (delay : ℕ) (ts : List TimeVal) : Prop :=
  (delay + 1) * timer.tickRate ≤
    timer.accumulated + credited timer.tickRate timer.tickRateTimes3 timer.prev ts

/-- The account has paid for the tick after so many others at a reading before the instant. -/
def PaidBefore (timer : Timer ε) (delay : ℕ) (instant : ℤ) (ts : List TimeVal) : Prop :=
  ∃ pre t post, ts = pre ++ t :: post ∧ Paid timer delay (pre ++ [t]) ∧ t.micros < instant

/-- The instant from which on the account has paid for the tick after so many others, on a
clock whose time is all credited. -/
def dueTime (timer : Timer ε) (delay : ℕ) : ℤ :=
  timer.prev.micros + 1000 * ((delay + 1) * timer.tickRate - timer.accumulated)

end Definitions

section Clock

variable {tickRate guard : ℤ} {prev : TimeVal} {ts ts' : List TimeVal}

theorem regular_append : Regular tickRate prev (ts ++ ts') ↔
    Regular tickRate prev ts ∧ Regular tickRate (ts.getLastD prev) ts' := by
  induction ts generalizing prev with
  | nil => simp only [List.nil_append, Regular, true_and, List.getLastD_nil]
  | cons t ts ih => simp only [List.cons_append, Regular, ih, and_assoc, List.getLastD_cons]

/-- The last reading shows whole milliseconds when the first one does. -/
theorem Regular.whole (h : Regular tickRate prev ts)
    (hprev : prev.Normalised ∧ 1000 ∣ prev.tvUsec) :
    (ts.getLastD prev).Normalised ∧ 1000 ∣ (ts.getLastD prev).tvUsec := by
  induction ts generalizing prev with
  | nil => exact hprev
  | cons t ts ih =>
      rw [List.getLastD_cons]
      exact ih h.2.2.2.2 ⟨h.1, h.2.1⟩

/-- A regular clock is steady, and nothing is left out. -/
theorem Regular.steady (hrate : 0 < tickRate) (h : Regular tickRate prev ts)
    (hprev : prev.Normalised ∧ 1000 ∣ prev.tvUsec) :
    Steady tickRate prev ts ∧ drift tickRate prev ts = 0 := by
  induction ts generalizing prev with
  | nil => exact ⟨trivial, rfl⟩
  | cons t ts ih =>
      obtain ⟨ht, hwhole, hle, hgap, hrest⟩ := h
      obtain ⟨hsteady, hdrift⟩ := ih hrest ⟨ht, hwhole⟩
      have hmod : (t.tvUsec - prev.tvUsec).tmod 1000 = 0 :=
        Int.tmod_eq_zero_of_dvd (dvd_sub hwhole hprev.2)
      have hmul := gapMilsec_mul prev t
      refine ⟨⟨ht, hle, by omega, hsteady⟩, ?_⟩
      rw [drift, hdrift, leftOut, if_pos (by omega), hmod, add_zero]

/-- Each reading of a regular clock is credited with the time since the first one. -/
theorem Regular.credited_mul (hrate : 0 < tickRate) (h : Regular tickRate prev ts)
    (hprev : prev.Normalised ∧ 1000 ∣ prev.tvUsec) :
    1000 * credited tickRate (3 * tickRate) prev ts = elapsed prev ts := by
  obtain ⟨hsteady, hdrift⟩ := h.steady hrate hprev
  rw [TimerWheel.credited_mul hprev.1 hsteady, hdrift, sub_zero]

/-- Readings before others are credited with no more. -/
theorem credited_prefix_le (hrate : 0 ≤ tickRate) :
    credited tickRate guard prev ts ≤ credited tickRate guard prev (ts ++ ts') := by
  induction ts' using List.reverseRecOn with
  | nil => rw [List.append_nil]
  | append_singleton ts' t ih =>
      rw [← List.append_assoc, credited_append]
      have hnonneg : 0 ≤ guarded tickRate guard (gapMilsec ((ts ++ ts').getLastD prev) t) :=
        guarded_nonneg hrate
      omega

/-- A regular clock has paid from the due time on. -/
theorem Regular.paidBefore_iff {ε : Type} {timer : Timer ε} {delay : ℕ} {instant : ℤ}
    (hrate : 0 < timer.tickRate) (hguard : timer.tickRateTimes3 = 3 * timer.tickRate)
    (hprev : timer.prev.Normalised ∧ 1000 ∣ timer.prev.tvUsec)
    (h : Regular timer.tickRate timer.prev ts) :
    PaidBefore timer delay instant ts ↔
      ∃ t ∈ ts, dueTime timer delay ≤ t.micros ∧ t.micros < instant := by
  have hpaid : ∀ pre t post, ts = pre ++ t :: post →
      (Paid timer delay (pre ++ [t]) ↔ dueTime timer delay ≤ t.micros) := by
    rintro pre t post rfl
    rw [List.append_cons, regular_append] at h
    have hmul := h.1.credited_mul hrate hprev
    rw [elapsed, List.getLastD_concat, ← hguard] at hmul
    rw [Paid, dueTime]
    constructor <;> intro hle <;> linarith
  constructor
  · rintro ⟨pre, t, post, hts, hdue, hlt⟩
    exact ⟨t, by simp [hts], (hpaid pre t post hts).mp hdue, hlt⟩
  · rintro ⟨t, ht, hdue, hlt⟩
    obtain ⟨pre, post, hts⟩ := List.append_of_mem ht
    exact ⟨pre, t, post, hts, (hpaid pre t post hts).mpr hdue, hlt⟩

end Clock

section Early

variable {ε : Type} [DecidableEq ε] {client : Client ε} {w₀ w w₁ w₂ : World ε} {elem : ε}
  {expires : ℤ} {before acts : List (Act ε)} {c : TimeVal} {tickRate nBuckets : ℤ}
  {start : BitVec 32} {A : List (Event ε)}

/-- A call with an addition logs it. -/
theorem log_of_add (h : doCall w (.add elem expires) = some w₁) :
    w₁.log = w.log ++ [.add elem w.timer.tick (getTickFromMilsec w.timer expires)] := by
  obtain ⟨t, -, h⟩ := Option.bind_eq_some_iff.mp h
  cases h
  rfl

/-- While an addition waits, no more ticks are made than it asked for. -/
theorem ticks_of_waiting {s₂ : DeadlineList ε}
    (hadd : doCall w (.add elem expires) = some w₁) (f₂ : Follows start w₂ s₂)
    (hf₂ : s₂.firing = none) (hlog : w₂.log = w₁.log ++ A) (hfire : .fire elem ∉ A)
    (hdel : .del elem ∉ A) : w₂.ticks ≤ w.ticks + (getTickFromMilsec w.timer expires).toNat := by
  have hreplay := f₂.log
  rw [hlog, log_of_add hadd, List.append_assoc, List.singleton_append] at hreplay
  obtain ⟨s, -, hreplay⟩ := replay_append.mp hreplay
  obtain ⟨s₁, hstep, hreplay⟩ := replay_cons.mp hreplay
  obtain ⟨⟨hnow, -⟩, rfl⟩ := step_add.mp hstep
  rcases pending_track (d := w.timer.tick + getTickFromMilsec w.timer expires)
    (by simp [append]) hfire hdel hreplay with ⟨-, hcount⟩ | ⟨q, -, -, hq, -⟩
  · simp only [tick_append, hnow, add_sub_cancel_left] at hcount
    simp only [World.ticks, hlog, log_of_add hadd, List.countP_append, List.countP_cons,
      List.countP_nil, Event.isTick, Bool.false_eq_true, if_false]
    omega
  · rw [hf₂] at hq
    cases hq

/-- When the callback of an addition has been called, one tick more has been made than it
asked for. -/
theorem ticks_of_fired {s₂ : DeadlineList ε} {C : List (Event ε)}
    (hadd : doCall w (.add elem expires) = some w₁) (f₂ : Follows start w₂ s₂)
    (hlog : w₂.log = w₁.log ++ (A ++ .fire elem :: C)) (hfire : .fire elem ∉ A)
    (hdel : .del elem ∉ A) :
    w.ticks + (getTickFromMilsec w.timer expires).toNat + 1 ≤ w₂.ticks := by
  rw [log_of_add hadd, List.append_assoc, List.singleton_append] at hlog
  obtain ⟨B₁, B₂, rfl, hcount, -⟩ :=
    (DeadlineList.schedule f₂.log).fires_on_time _ _ _ _ _ _ hlog hfire hdel
  simp only [World.ticks, hlog, List.countP_append, List.countP_cons, hcount, Event.isTick,
    if_true]
  omega

/-- The callback of an addition is called in the call of `drive_timer` whose credit pays
for one tick more than the addition asked for. -/
theorem due_of_fires (h₀ : Initial tickRate nBuckets start w₀)
    (hrun : Trace (Drives client) w₀ before w) (hlegal : LegalCall w (.add elem expires))
    (hfires : FiresAt client w elem expires acts c) :
    Paid w.timer (getTickFromMilsec w.timer expires).toNat (readings acts ++ [c]) ∧
      (readings acts ≠ [] →
        ¬ Paid w.timer (getTickFromMilsec w.timer expires).toNat (readings acts)) := by
  obtain ⟨w₁, w₂, w₃, hadd, hacts, hdrive, A, B, C, hA, hB, hfire, hdel⟩ := hfires
  rw [List.mem_append, not_or] at hfire hdel
  obtain ⟨heq, -, hacc, -⟩ := h₀.account
  have hpos := h₀.tickRate_pos
  have hbooks := Accounts.run (by omega) (by omega) hrun
  have hstep : Drives client w (.call (.add elem expires)) w₁ := ⟨hlegal, hadd⟩
  have hrun₂ := (hrun.concat hstep).append hacts
  obtain ⟨s₂, f₂, hf₂⟩ := h₀.follows_run hrun₂
  obtain ⟨s₃, f₃, -⟩ := h₀.follows_run (hrun₂.concat hdrive)
  have hclock := doCall_sameClock hadd
  have hticks : w₁.ticks = w.ticks := hclock.ticks
  have hrate : 0 < w.timer.tickRate := by
    rw [hbooks.tickRate]
    omega
  have hrate₁ : 0 < w₁.timer.tickRate := by rwa [hclock.tickRate]
  have hnonneg : 0 ≤ w₁.timer.accumulated := by
    rw [hclock.accumulated]
    exact hbooks.nonneg
  have hbooks₂ := Accounts.run hrate₁ hnonneg hacts
  obtain ⟨fuel, hdrive⟩ := hdrive
  have hbooks₃ := hbooks₂.drive hrate₁ hdrive
  have hwaiting := ticks_of_waiting hadd f₂ hf₂ hA hfire.1 hdel.1
  have hfired := ticks_of_fired (A := A ++ B) (C := C) hadd f₃ (by rw [hB, hA]; simp)
    (by simp [hfire]) (by simp [hdel])
  have htotal₂ := hbooks₂.total
  have htotal₃ := hbooks₃.total
  rw [hclock.tickRate, hclock.tickRateTimes3, hclock.prev, hclock.accumulated, hticks]
    at htotal₂ htotal₃
  refine ⟨?_, fun hne => not_le.mpr ?_⟩
  · have hcount : (w.ticks : ℤ) + (getTickFromMilsec w.timer expires).toNat + 1 ≤ w₃.ticks := by
      exact_mod_cast hfired
    have hpaid := mul_le_mul_of_nonneg_right hcount hrate.le
    have hleft := hbooks₃.nonneg
    rw [Paid]
    linarith
  · have hcount : (w₂.ticks : ℤ) ≤ w.ticks + (getTickFromMilsec w.timer expires).toNat := by
      exact_mod_cast hwaiting
    have hpaid := mul_le_mul_of_nonneg_right hcount hrate.le
    have hleft : w₂.timer.accumulated < w.timer.tickRate := by
      rcases hbooks₂.settled with ⟨hnil, -⟩ | hleft
      · exact absurd hnil hne
      · rwa [hclock.tickRate] at hleft
    linarith

/-- An addition is due before its callback is called just when it is due at a reading before that
time, of all readings from the addition on. -/
theorem early_iff_paidBefore (h₀ : Initial tickRate nBuckets start w₀)
    (hrun : Trace (Drives client) w₀ before w) (hlegal : LegalCall w (.add elem expires))
    (hfires : FiresAt client w elem expires acts c) (later : List TimeVal)
    (hlater : ∀ t ∈ later, c.micros ≤ t.micros) (instant : ℤ) :
    c.micros < instant ↔
      PaidBefore w.timer (getTickFromMilsec w.timer expires).toNat instant
        (readings acts ++ c :: later) := by
  obtain ⟨hdue, hwaits⟩ := due_of_fires h₀ hrun hlegal hfires
  refine ⟨fun hearly => ⟨_, c, later, rfl, hdue, hearly⟩, ?_⟩
  rintro ⟨pre, t, post, hts, hpaid, ht⟩
  rcases List.append_eq_append_iff.mp hts with ⟨gap, rfl, hrest⟩ | ⟨gap, hacts, hrest⟩
  · -- the reading `t` is `c` or a later one
    cases gap with
    | nil =>
        obtain ⟨rfl, -⟩ := List.cons.inj hrest
        exact ht
    | cons x gap =>
        obtain ⟨-, rfl⟩ := List.cons.inj hrest
        exact (hlater t (by simp)).trans_lt ht
  · cases gap with
    | nil =>
        obtain ⟨rfl, -⟩ := List.cons.inj hrest
        exact ht
    | cons x gap =>
        -- the addition still waited after the reading `t`
        obtain ⟨rfl, -⟩ := List.cons.inj hrest
        refine absurd (hpaid.trans ?_) (hwaits (by simp [hacts]))
        have hrate : 0 ≤ w.timer.tickRate := by
          obtain ⟨heq, -, hacc, -⟩ := h₀.account
          have hpos := h₀.tickRate_pos
          have hbooks := Accounts.run (by omega) (by omega) hrun
          rw [hbooks.tickRate]
          omega
        have hsplit : readings acts = pre ++ [t] ++ gap := by simp [hacts]
        rw [hsplit]
        exact Int.add_le_add_left (credited_prefix_le hrate) _

/-- A callback is called no earlier than its expiry after the instant of the addition just
when no reading of `drive_timer` from the addition on is at or after the time at which the
addition is due, and before its expiry. On any clock an addition is due when the account has paid
for it; on a regular clock that is at a time which is known when it is made, and when that
time is not before the expiry the callback is never early. -/
theorem not_early_iff (client : Client ε) (h₀ : Initial tickRate nBuckets start w₀)
    (hrun : Trace (Drives client) w₀ before w) (hlegal : LegalCall w (.add elem expires))
    (hfires : FiresAt client w elem expires acts c) (later : List TimeVal)
    (hlater : ∀ t ∈ later, c.micros ≤ t.micros) (instant : ℤ) :
    (instant + 1000 * expires ≤ c.micros ↔
      ¬ PaidBefore w.timer (getTickFromMilsec w.timer expires).toNat (instant + 1000 * expires)
        (readings acts ++ c :: later)) ∧
    (tickRate ≤ CInt.intMax / 3 →
      w₀.timer.prev.Normalised ∧ 1000 ∣ w₀.timer.prev.tvUsec →
      Regular tickRate w₀.timer.prev (readings before ++ (readings acts ++ c :: later)) →
      (instant + 1000 * expires ≤ c.micros ↔
        ∀ t ∈ readings acts ++ c :: later,
          dueTime w.timer (getTickFromMilsec w.timer expires).toNat ≤ t.micros →
            instant + 1000 * expires ≤ t.micros) ∧
      (instant + 1000 * expires ≤ dueTime w.timer (getTickFromMilsec w.timer expires).toNat →
        instant + 1000 * expires ≤ c.micros)) := by
  have hearly := early_iff_paidBefore h₀ hrun hlegal hfires later hlater (instant + 1000 * expires)
  refine ⟨?_, fun hmax hwhole hclock => ?_⟩
  · rw [← hearly, not_lt]
  · obtain ⟨heq, -, hacc, -⟩ := h₀.account
    have hpos := h₀.tickRate_pos
    have hbooks := Accounts.run (by omega) (by omega) hrun
    have hprev : w.timer.prev = (readings before).getLastD w₀.timer.prev := hbooks.prev
    have hrate : w.timer.tickRate = tickRate := by rw [hbooks.tickRate, heq]
    have hguard : w.timer.tickRateTimes3 = 3 * w.timer.tickRate := by
      rw [hbooks.tickRateTimes3, h₀.guard hmax, hrate]
    rw [regular_append, ← hprev, ← hrate] at hclock
    have hlast := hclock.1.whole hwhole
    rw [← hprev] at hlast
    rw [hclock.2.paidBefore_iff (by omega) hguard hlast] at hearly
    have hiff : instant + 1000 * expires ≤ c.micros ↔
        ∀ t ∈ readings acts ++ c :: later,
          dueTime w.timer (getTickFromMilsec w.timer expires).toNat ≤ t.micros →
            instant + 1000 * expires ≤ t.micros := by
      rw [← not_lt, hearly]
      push Not
      rfl
    exact ⟨hiff, fun hdue => hiff.mpr fun t _ ht => hdue.trans ht⟩

end Early

section Sample

/-- A call of `drive_timer` 9 milliseconds after the start, with ticks of 10 milliseconds. -/
def drivenOnce : World Bool :=
  (driveTimer idle 4 ⟨0, 9000⟩ (oneBucket 10 0)).get (by decide +kernel)

theorem drivenOnce_trace : Trace (Drives idle) (oneBucket 10 0) [.drive ⟨0, 9000⟩] drivenOnce :=
  .single ⟨4, (Option.some_get _).symm⟩

theorem drivenOnce_legal : LegalCall drivenOnce (.add true 10) :=
  ⟨by decide, by decide, by decide +kernel⟩

/-- An addition of 10 milliseconds asks for one tick. The call after 19 milliseconds makes this
one, and the next millisecond another one. -/
theorem drivenOnce_fires :
    FiresAt idle drivenOnce true 10 [.drive ⟨0, 19000⟩] ⟨0, 20000⟩ := by
  have hrun : ((doCall drivenOnce (.add true 10)).bind fun w₁ =>
      (driveTimer idle 4 ⟨0, 19000⟩ w₁).bind fun w₂ =>
        (driveTimer idle 4 ⟨0, 20000⟩ w₂).map fun w₃ => (w₁.log, w₂.log, w₃.log)) =
      some ([.tick 0, .tickEnd, .add true 1 1],
        [.tick 0, .tickEnd, .add true 1 1] ++ [.tick 1, .tickEnd],
        [.tick 0, .tickEnd, .add true 1 1, .tick 1, .tickEnd] ++
          ([.tick 2] ++ .fire true :: [.tickEnd])) := by
    decide +kernel
  simp only [Option.bind_eq_some_iff, Option.map_eq_some_iff, Prod.mk.injEq] at hrun
  obtain ⟨w₁, h₁, w₂, h₂, w₃, h₃, hlog₁, hlog₂, hlog₃⟩ := hrun
  refine ⟨w₁, w₂, w₃, h₁, .single ⟨4, h₂⟩, ⟨4, h₃⟩, [.tick 1, .tickEnd], [.tick 2], [.tickEnd],
    ?_, ?_, by decide, by decide⟩
  · rw [hlog₁, hlog₂]
  · rw [hlog₂, hlog₃]
    rfl

theorem oneBucket_whole : (oneBucket 10 0).timer.prev.Normalised ∧
    1000 ∣ (oneBucket 10 0).timer.prev.tvUsec := by
  rw [oneBucket_prev]
  decide

theorem drivenOnce_regular : Regular 10 (oneBucket 10 0).timer.prev
    ([⟨0, 9000⟩] ++ ([⟨0, 19000⟩] ++ ⟨0, 20000⟩ :: [⟨0, 30000⟩])) := by
  rw [oneBucket_prev]
  simp only [List.cons_append, List.nil_append, Regular]
  decide

/-- The element is added at the very time of the call before, and expires after 19 milliseconds.
It is due after 20 milliseconds. -/
theorem not_early_iff_between : FiresAt idle drivenOnce true 10 [.drive ⟨0, 19000⟩] ⟨0, 20000⟩ ∧
    (9000 + 1000 * 10 ≤ (⟨0, 20000⟩ : TimeVal).micros ↔
      ∀ t ∈ [(⟨0, 19000⟩ : TimeVal), ⟨0, 20000⟩, ⟨0, 30000⟩],
        dueTime drivenOnce.timer (getTickFromMilsec drivenOnce.timer 10).toNat ≤ t.micros →
          9000 + 1000 * 10 ≤ t.micros) ∧
    9000 + 1000 * 10 ≤ (⟨0, 20000⟩ : TimeVal).micros := by
  obtain ⟨hiff, henough⟩ := (not_early_iff idle (oneBucket_initial (by decide) 0)
    drivenOnce_trace drivenOnce_legal drivenOnce_fires [⟨0, 30000⟩] (by decide) 9000).2 (by decide)
    oneBucket_whole drivenOnce_regular
  exact ⟨drivenOnce_fires, hiff, henough (by decide +kernel)⟩

/-- The element is added 6 milliseconds after the call before and called back 5 milliseconds
later. -/
theorem fires_early : ¬ ∀ (w₀ w : World Bool) (tickRate nBuckets : ℤ) (start : BitVec 32)
    (before acts : List (Act Bool)) (elem : Bool) (expires instant : ℤ) (c : TimeVal),
    Initial tickRate nBuckets start w₀ → Trace (Drives idle) w₀ before w →
      LegalCall w (.add elem expires) → tickRate ≤ expires →
      w₀.timer.prev.Normalised ∧ 1000 ∣ w₀.timer.prev.tvUsec →
      Regular tickRate w₀.timer.prev (readings before ++ (readings acts ++ [c])) →
      readings before ≠ [] → w.timer.prev.micros ≤ instant →
      instant ≤ ((readings acts ++ [c]).headD c).micros →
      FiresAt idle w elem expires acts c → instant + 1000 * expires ≤ c.micros := by
  intro h
  have hclock := (regular_append.mp
    (show Regular 10 _ ([⟨0, 9000⟩, ⟨0, 19000⟩, ⟨0, 20000⟩] ++ [⟨0, 30000⟩]) from
      drivenOnce_regular)).1
  have hlate := h (oneBucket 10 0) drivenOnce 10 1 0 [.drive ⟨0, 9000⟩] [.drive ⟨0, 19000⟩] true
    10 15000 ⟨0, 20000⟩ (oneBucket_initial (by decide) 0) drivenOnce_trace drivenOnce_legal le_rfl
    oneBucket_whole hclock (by decide) (by decide +kernel) (by decide) drivenOnce_fires
  exact absurd hlate (by decide)

end Sample

end TimerWheel

end Infra
