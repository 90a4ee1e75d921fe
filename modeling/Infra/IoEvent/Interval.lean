import Infra.IoEvent.Drive
import Infra.TimerWheel.Pace
import Mathlib.Algebra.Order.BigOperators.Group.List

/-!
# The poll interval of `drive_io_event`

After each time that `select` wakes, `drive_io_event` takes the time since its start
off what remains, although the earlier times have been taken off before. So what
remains is right after the first of them, and later only if the clock still showed
the start at all but the last.
-/

namespace Infra

namespace IoEvent

open Infra.TimerWheel

section Definitions

variable {ε γ π : Type}

/-- `drive_io_event` before a call of `select`, with the time it hands over. -/
structure LoopHead (ε γ π : Type) where
  remain : ℤ
  world : World ε γ π

/-- A call of `select` that wakes with ready descriptors: the time it was given, and what
the clock shows after the callbacks. -/
structure Wake where
  timeout : ℤ
  now : TimeVal

/-- A call of `drive_io_event` before its first call of `select`. -/
def LoopHead.first (w : World ε γ π) : LoopHead ε γ π where
  remain := CInt.wrap (w.driver.pollInterval * 1000)
  world := w

variable [DecidableEq ε]

/-- `select` wakes, and the loop of a call that began at `start` goes on. -/
def Wakes (client : Client ε γ π) (kernel : Kernel ε γ π) (start : TimeVal) (original : ℤ)
    (h : LoopHead ε γ π) (wake : Wake) (h' : LoopHead ε γ π) : Prop :=
  ∃ fuel, iteration client kernel fuel h.remain h.world = some (h'.world, .goesOn) ∧
    wake = ⟨h.remain, kernel.gettimeofday h'.world⟩ ∧
    h'.remain = CInt.wrap (h.remain - diffTimeInUsec start wake.now) ∧
    ¬ (h'.remain > original ∨ h'.remain < 30)

/-- `select` wakes, and the call returns through its own check of what remains. -/
def Leaves (client : Client ε γ π) (kernel : Kernel ε γ π) (start : TimeVal) (original : ℤ)
    (h : LoopHead ε γ π) (now : TimeVal) (w' : World ε γ π) : Prop :=
  ∃ fuel remain, iteration client kernel fuel h.remain h.world = some (w', .goesOn) ∧
    now = kernel.gettimeofday w' ∧ remain = CInt.wrap (h.remain - diffTimeInUsec start now) ∧
    (remain > original ∨ remain < 30)

/-- The readings never go back, and less than `2 ^ 31` microseconds pass. -/
def Forward (start : TimeVal) (ts : List TimeVal) : Prop :=
  (start :: ts).Pairwise (fun t t' => t.micros ≤ t'.micros) ∧
    ∀ t ∈ ts, t.micros - start.micros < 2 ^ 31

/-- Each call of `select` gets the interval less the time from the start to the reading
before it, the next one included. -/
def Honoured (start : TimeVal) (original : ℤ) (wakes : List Wake) (remain : ℤ) : Prop :=
  (∀ pre wake post, wakes = pre ++ wake :: post →
    wake.timeout = original - elapsed start (pre.map Wake.now)) ∧
  remain = original - elapsed start (wakes.map Wake.now)

/-- The clock shows the start of the call. -/
def AtStart (start : TimeVal) (ts : List TimeVal) : Prop := ∀ t ∈ ts, t.micros = start.micros

/-- What is taken off the interval after some readings. -/
def spent (start : TimeVal) (ts : List TimeVal) : ℤ :=
  (ts.map fun t => t.micros - start.micros).sum

end Definitions

section Clock

variable {start now : TimeVal} {ts ts' : List TimeVal}

theorem Forward.left (h : Forward start (ts ++ ts')) : Forward start ts :=
  ⟨h.1.sublist (by simp), fun t ht => h.2 t (List.mem_append_left _ ht)⟩

theorem Forward.start_le (h : Forward start ts) : ∀ t ∈ ts, start.micros ≤ t.micros :=
  (List.pairwise_cons.mp h.1).1

theorem Forward.diffTimeInUsec_eq (h : Forward start ts) (hnow : now ∈ ts) :
    diffTimeInUsec start now = now.micros - start.micros := by
  have hle := h.start_le now hnow
  have hlt := h.2 now hnow
  have hmicros : (now.tvSec - start.tvSec) * 1000000 + (now.tvUsec - start.tvUsec) =
      now.micros - start.micros := by
    simp only [TimeVal.micros]
    ring
  rw [diffTimeInUsec, hmicros, CInt.wrap_eq_self (by simp only [CInt.intMin]; omega)
    (by simp only [CInt.intMax]; omega)]
  exact if_neg (by omega)

theorem spent_append :
    spent start (ts ++ [now]) = spent start ts + (now.micros - start.micros) := by
  simp [spent]

theorem Forward.spent_nonneg (h : Forward start ts) : 0 ≤ spent start ts := by
  refine List.sum_nonneg fun x hx => ?_
  obtain ⟨t, ht, rfl⟩ := List.mem_map.mp hx
  have := h.start_le t ht
  omega

theorem Forward.spent_eq_zero (h : Forward start ts) : spent start ts = 0 ↔ AtStart start ts := by
  induction ts using List.reverseRecOn with
  | nil => simp [spent, AtStart]
  | append_singleton ts t ih =>
      have hnonneg := h.left.spent_nonneg
      have hle := h.start_le t (by simp)
      rw [spent_append, AtStart, List.forall_mem_append, List.forall_mem_singleton]
      constructor
      · intro hzero
        exact ⟨(ih h.left).mp (by omega), by omega⟩
      · rintro ⟨hts, ht⟩
        rw [(ih h.left).mpr hts]
        omega

/-- What was taken off is what the last reading shows just when the others show the
start. -/
theorem Forward.spent_eq_elapsed (h : Forward start ts) :
    spent start ts = elapsed start ts ↔ AtStart start ts.dropLast := by
  rcases List.eq_nil_or_concat ts with rfl | ⟨ts, t, rfl⟩
  · simp [spent, elapsed, AtStart]
  · rw [List.concat_eq_append] at h ⊢
    rw [List.dropLast_concat, ← h.left.spent_eq_zero, spent_append, elapsed, List.getLastD_concat]
    omega

end Clock

section Run

variable {ε γ π : Type} [DecidableEq ε] {client : Client ε γ π} {kernel : Kernel ε γ π}
  {start now : TimeVal} {original remain : ℤ} {h h₀ : LoopHead ε γ π} {wakes : List Wake}
  {w w' : World ε γ π}

/-- A call that ends has been woken some times: in the last round `select` did not wake,
or the check of what remains ended the call. -/
theorem driveLoop_wakes {fuel : ℕ} {exit : Exit}
    (hloop : driveLoop client kernel start original fuel remain w = some (w', exit)) :
    ∃ wakes h, Trace (Wakes client kernel start original) ⟨remain, w⟩ wakes h ∧
      ((∃ fuel, iteration client kernel fuel h.remain h.world = some (w', exit)) ∨
        exit = .returns ∧ ∃ now, Leaves client kernel start original h now w') := by
  induction fuel generalizing remain w with
  | zero => cases hloop
  | succ fuel ih =>
      obtain ⟨⟨w₁, exit'⟩, hiter, hloop⟩ := Option.bind_eq_some_iff.mp hloop
      cases exit' with
      | returns =>
          cases hloop
          exact ⟨[], _, .nil, Or.inl ⟨fuel, hiter⟩⟩
      | crashes =>
          cases hloop
          exact ⟨[], _, .nil, Or.inl ⟨fuel, hiter⟩⟩
      | goesOn =>
          simp only at hloop
          split at hloop
          · next hcheck =>
            cases hloop
            exact ⟨[], _, .nil, Or.inr ⟨rfl, _, fuel, _, hiter, rfl, rfl, hcheck⟩⟩
          · next hcheck =>
            obtain ⟨wakes, h, hrun, hend⟩ := ih hloop
            have hwake : Wakes client kernel start original ⟨remain, w⟩
                ⟨remain, kernel.gettimeofday w₁⟩
                ⟨CInt.wrap (remain - diffTimeInUsec start (kernel.gettimeofday w₁)), w₁⟩ :=
              ⟨fuel, hiter, rfl, rfl, hcheck⟩
            exact ⟨_, h, (Trace.single hwake).append hrun, hend⟩

/-- What remains is taken from what remained before. -/
theorem wrap_remain (hmax : original ≤ CInt.intMax) (hremain : 0 ≤ remain ∧ remain ≤ original)
    {ts : List TimeVal} (hclock : Forward start ts) (hnow : now ∈ ts) :
    CInt.wrap (remain - diffTimeInUsec start now) = remain - (now.micros - start.micros) := by
  have hle := hclock.start_le now hnow
  have hlt := hclock.2 now hnow
  rw [hclock.diffTimeInUsec_eq hnow]
  refine CInt.wrap_eq_self ?_ (by omega)
  simp only [CInt.intMin]
  omega

/-- The time that each call of `select` gets. -/
theorem remain_eq (hrun : Trace (Wakes client kernel start original) h₀ wakes h)
    (hfirst : h₀.remain = original) (hpos : 0 ≤ original) (hmax : original ≤ CInt.intMax)
    (hclock : Forward start (wakes.map Wake.now)) :
    (∀ pre wake post, wakes = pre ++ wake :: post →
      wake.timeout = original - spent start (pre.map Wake.now)) ∧
    h.remain = original - spent start (wakes.map Wake.now) ∧ 0 ≤ h.remain ∧
      h.remain ≤ original := by
  induction hrun with
  | nil => exact ⟨by simp, by simp [spent, hfirst], by omega, by omega⟩
  | @concat wakes wake h₁ h₂ _ hstep ih =>
      obtain ⟨fuel, -, rfl, hremain, hcheck⟩ := hstep
      rw [List.map_append, List.map_singleton] at hclock ⊢
      obtain ⟨htimeouts, heq, hrange⟩ := ih hclock.left
      rw [wrap_remain hmax hrange hclock (by simp)] at hremain
      rw [not_or] at hcheck
      refine ⟨fun pre wake post hsplit => ?_, ?_, by omega, by omega⟩
      · rcases append_singleton_eq hsplit with ⟨rfl, rfl, rfl⟩ | ⟨post, rfl, hwakes⟩
        · exact heq
        · exact htimeouts pre wake post hwakes
      · rw [spent_append, hremain, heq]
        omega

/-- A `drive_io_event` that ends. -/
theorem driveIoEvent_wakes {fuel : ℕ} {exit : Exit}
    (hcall : driveIoEvent client kernel fuel w = some (w', exit)) :
    ∃ wakes h, Trace (Wakes client kernel (kernel.gettimeofday w) (LoopHead.first w).remain)
        (LoopHead.first w) wakes h ∧
      ((∃ fuel, iteration client kernel fuel h.remain h.world = some (w', exit)) ∨
        exit = .returns ∧ ∃ now, Leaves client kernel (kernel.gettimeofday w)
          (LoopHead.first w).remain h now w') := driveLoop_wakes hcall

/-- Each call of `select` in a call of `drive_io_event` gets the interval less the time
that has passed just when the clock still showed the start at all wakes but the last. The
call ends by its own check after a wake just when the times from the start to all the wakes
add up to more than the interval less 30 microseconds. So it ends early just when this sum is
larger, and the last of the times is not; never, when the clock showed the start at the wakes
before. -/
theorem interval_honoured_iff (client : Client ε γ π) (kernel : Kernel ε γ π)
    (hpos : 0 < w.driver.pollInterval * 1000)
    (hmax : w.driver.pollInterval * 1000 ≤ CInt.intMax)
    (hrun : Trace (Wakes client kernel (kernel.gettimeofday w) (LoopHead.first w).remain)
      (LoopHead.first w) wakes h)
    (hclock : Forward (kernel.gettimeofday w) (wakes.map Wake.now)) :
    (Honoured (kernel.gettimeofday w) (w.driver.pollInterval * 1000) wakes h.remain ↔
      AtStart (kernel.gettimeofday w) (wakes.map Wake.now).dropLast) ∧
    ∀ fuel now w', iteration client kernel fuel h.remain h.world = some (w', .goesOn) →
      now = kernel.gettimeofday w' →
      Forward (kernel.gettimeofday w) (wakes.map Wake.now ++ [now]) →
      (Leaves client kernel (kernel.gettimeofday w) (LoopHead.first w).remain h now w' ↔
        w.driver.pollInterval * 1000 - 30 <
          spent (kernel.gettimeofday w) (wakes.map Wake.now ++ [now])) ∧
      (Leaves client kernel (kernel.gettimeofday w) (LoopHead.first w).remain h now w' →
        AtStart (kernel.gettimeofday w) (wakes.map Wake.now) →
        w.driver.pollInterval * 1000 - (now.micros - (kernel.gettimeofday w).micros) < 30) := by
  have hfirst : (LoopHead.first w).remain = w.driver.pollInterval * 1000 :=
    CInt.wrap_eq_self (by simp only [CInt.intMin]; omega) hmax
  rw [hfirst] at hrun ⊢
  obtain ⟨htimeouts, hremain, hrange⟩ := remain_eq hrun hfirst hpos.le hmax hclock
  have hiff : Honoured (kernel.gettimeofday w) (w.driver.pollInterval * 1000) wakes h.remain ↔
      AtStart (kernel.gettimeofday w) (wakes.map Wake.now).dropLast := by
    rw [← hclock.spent_eq_elapsed]
    refine ⟨fun hright => ?_, fun heq => ⟨fun pre wake post hsplit => ?_, by rw [hremain, heq]⟩⟩
    · have := hright.2
      omega
    · -- the readings before a call of `select` are among those before the next one
      rw [htimeouts pre wake post hsplit]
      have hstart := hclock.spent_eq_elapsed.mp heq
      rw [hsplit, List.map_append] at hclock hstart
      rw [List.map_cons, List.dropLast_append_cons] at hstart
      rw [hclock.left.spent_eq_elapsed.mpr fun t ht =>
        hstart t (List.mem_append_left _ (List.mem_of_mem_dropLast ht))]
  refine ⟨hiff, fun fuel now w' hiter hnow hforward => ?_⟩
  have hleft := wrap_remain hmax hrange hforward (show now ∈ wakes.map Wake.now ++ [now] by simp)
  have hleaves : Leaves client kernel (kernel.gettimeofday w) (w.driver.pollInterval * 1000) h now
      w' ↔ w.driver.pollInterval * 1000 - 30 <
        spent (kernel.gettimeofday w) (wakes.map Wake.now ++ [now]) := by
    have hlast := hforward.start_le now (by simp)
    rw [spent_append]
    constructor
    · rintro ⟨-, remain, -, -, rfl, hcheck⟩
      rw [hleft] at hcheck
      omega
    · intro hlt
      exact ⟨fuel, _, hiter, hnow, rfl, Or.inr (by rw [hleft]; omega)⟩
  refine ⟨hleaves, fun hend hstart => ?_⟩
  have hlt := hleaves.mp hend
  rw [spent_append, hclock.spent_eq_zero.mpr hstart] at hlt
  omega

end Run

section Sample

/-- A clock that still shows the start after the first pass, then 3 milliseconds, then 8. -/
def late : Kernel ℕ Unit Unit where
  select := allReady.select
  gettimeofday w := ⟨0, if w.log.length ≤ 3 then 0 else if w.log.length ≤ 6 then 3000 else 8000⟩

/-- Three calls of `select` get what is left of 10 milliseconds, and the call ends 2
milliseconds early after the last of them. -/
theorem interval_honoured_iff_late : ∃ w₂ w₃ : World ℕ Unit Unit,
    Trace (Wakes replacer late ⟨0, 0⟩ 10000) (LoopHead.first ⟨newDriver, []⟩)
      [⟨10000, ⟨0, 0⟩⟩, ⟨10000, ⟨0, 3000⟩⟩] ⟨7000, w₂⟩ ∧
    Honoured ⟨0, 0⟩ 10000 [⟨10000, ⟨0, 0⟩⟩, ⟨10000, ⟨0, 3000⟩⟩] 7000 ∧
    Leaves replacer late ⟨0, 0⟩ 10000 ⟨7000, w₂⟩ ⟨0, 8000⟩ w₃ := by
  obtain ⟨w₁, w₂, w₃, hiter₁, hnow₁, hiter₂, hnow₂, hiter₃, hnow₃⟩ : ∃ w₁ w₂ w₃,
      iteration replacer late 2 10000 ⟨newDriver, []⟩ = some (w₁, .goesOn) ∧
        late.gettimeofday w₁ = ⟨0, 0⟩ ∧
        iteration replacer late 2 10000 w₁ = some (w₂, .goesOn) ∧
        late.gettimeofday w₂ = ⟨0, 3000⟩ ∧
        iteration replacer late 2 7000 w₂ = some (w₃, .goesOn) ∧
        late.gettimeofday w₃ = ⟨0, 8000⟩ := ⟨_, _, _, rfl, rfl, rfl, rfl, rfl, rfl⟩
  have hleft₁ : 10000 = CInt.wrap (10000 - diffTimeInUsec ⟨0, 0⟩ ⟨0, 0⟩) := by decide
  have hleft₂ : 7000 = CInt.wrap (10000 - diffTimeInUsec ⟨0, 0⟩ ⟨0, 3000⟩) := by decide
  have hrun₁ : Trace (Wakes replacer late ⟨0, 0⟩ 10000) (LoopHead.first ⟨newDriver, []⟩)
      [⟨10000, ⟨0, 0⟩⟩] ⟨10000, w₁⟩ :=
    .single ⟨2, hiter₁, by rw [hnow₁]; rfl, hleft₁, by simp⟩
  have hrun : Trace (Wakes replacer late ⟨0, 0⟩ 10000) (LoopHead.first ⟨newDriver, []⟩)
      [⟨10000, ⟨0, 0⟩⟩, ⟨10000, ⟨0, 3000⟩⟩] ⟨7000, w₂⟩ :=
    hrun₁.concat ⟨2, hiter₂, by rw [hnow₂], hleft₂, by simp⟩
  have hall : Forward ⟨0, 0⟩ ([⟨0, 0⟩, ⟨0, 3000⟩] ++ [⟨0, 8000⟩]) := by
    refine ⟨?_, by decide⟩
    simp only [TimeVal.micros, List.cons_append, List.nil_append, List.pairwise_cons]
    decide
  have hboth : Forward ⟨0, 0⟩ [⟨0, 0⟩, ⟨0, 3000⟩] := hall.left
  obtain ⟨hhonoured, hends⟩ := interval_honoured_iff replacer late (w := ⟨newDriver, []⟩)
    (by decide) (by decide) hrun hboth
  have hstart : AtStart ⟨0, 0⟩ [⟨0, 0⟩] := by simp [AtStart]
  refine ⟨w₂, w₃, hrun, hhonoured.mpr hstart, ?_⟩
  exact (hends 2 ⟨0, 8000⟩ w₃ hiter₃ hnow₃.symm hall).1.mpr (by decide)

/-- A clock that is a millisecond later after each pass, and descriptors that are always
ready. -/
def ticking : Kernel ℕ Unit Unit where
  select := allReady.select
  gettimeofday w := ⟨0, 1000 * w.log.length⟩

theorem iteration_ticking : ∃ w₁ w₂,
    iteration replacer ticking 2 10000 ⟨newDriver, []⟩ = some (w₁, .goesOn) ∧
      ticking.gettimeofday w₁ = ⟨0, 3000⟩ ∧
      iteration replacer ticking 2 7000 w₁ = some (w₂, .goesOn) ∧
      ticking.gettimeofday w₂ = ⟨0, 6000⟩ := ⟨_, _, rfl, rfl, rfl, rfl⟩

/-- The interval is 10 milliseconds, and `select` wakes after 3 and after 6 of them. -/
theorem wakes_twice : ∃ w₂, Trace (Wakes replacer ticking ⟨0, 0⟩ 10000)
    (LoopHead.first ⟨newDriver, []⟩) [⟨10000, ⟨0, 3000⟩⟩, ⟨7000, ⟨0, 6000⟩⟩] ⟨1000, w₂⟩ := by
  obtain ⟨w₁, w₂, hiter₁, hnow₁, hiter₂, hnow₂⟩ := iteration_ticking
  have hleft₁ : 7000 = CInt.wrap (10000 - diffTimeInUsec ⟨0, 0⟩ ⟨0, 3000⟩) := by decide
  have hleft₂ : 1000 = CInt.wrap (7000 - diffTimeInUsec ⟨0, 0⟩ ⟨0, 6000⟩) := by decide
  have h₁ : Trace (Wakes replacer ticking ⟨0, 0⟩ 10000) (LoopHead.first ⟨newDriver, []⟩)
      [⟨10000, ⟨0, 3000⟩⟩] ⟨7000, w₁⟩ :=
    .single ⟨2, hiter₁, by rw [hnow₁]; rfl, hleft₁, by simp⟩
  exact ⟨w₂, h₁.concat ⟨2, hiter₂, by rw [hnow₂], hleft₂, by simp⟩⟩

theorem forward_ticking : Forward ⟨0, 0⟩ [⟨0, 3000⟩, ⟨0, 6000⟩] := by
  refine ⟨?_, by decide⟩
  simp only [TimeVal.micros, List.pairwise_cons]
  decide

/-- The third call of `select` gets 1 millisecond, where 4 are left. -/
theorem time_taken_twice : ¬ ∀ (w : World ℕ Unit Unit) (wakes : List Wake)
    (h : LoopHead ℕ Unit Unit), 0 < w.driver.pollInterval * 1000 →
      w.driver.pollInterval * 1000 ≤ CInt.intMax →
      Trace (Wakes replacer ticking (ticking.gettimeofday w) (LoopHead.first w).remain)
        (LoopHead.first w) wakes h →
      Forward (ticking.gettimeofday w) (wakes.map Wake.now) →
      Honoured (ticking.gettimeofday w) (w.driver.pollInterval * 1000) wakes h.remain := by
  intro hall
  obtain ⟨w₂, hrun⟩ := wakes_twice
  have hright : 1000 = 10000 - elapsed ⟨0, 0⟩ [⟨0, 3000⟩, ⟨0, 6000⟩] :=
    (hall ⟨newDriver, []⟩ _ _ (by decide) (by decide) hrun forward_ticking).2
  exact absurd hright (by decide)

end Sample

end IoEvent

end Infra
