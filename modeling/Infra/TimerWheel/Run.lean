import Infra.TimerWheel.Tick

/-!
# Runs of the timer manager

`init_timer` builds an empty deadline list. Every call and every tick keeps the
relation to it, so in every world that a run reaches the log is one of the
deadline list: it keeps the schedule, the calls that are legal return, and so
does the next tick, after one round more than the elements that wait.
-/

namespace Infra

namespace TimerWheel

open Infra.LinkedList DeadlineList

section Start

variable {ε : Type} [DecidableEq ε]

/-- A stopped element is a list of its own. -/
theorem ring_of_isTimerRunning {t : Timer ε} {e : ε} (h : isTimerRunning t e = some false) :
    Ring t.mem (.inr e) [] := by
  rw [Ring.nil_iff]
  cases hc : t.mem (.inr e) with
  | none => simp [isTimerRunning, hc] at h
  | some c =>
      have hb : c.next = some (.inr e) ∧ c.prev = some (.inr e) := by
        simpa [isTimerRunning, hc] using h
      simpa [Heap.next, Heap.prev, hc] using hb

/-- `init_timer` builds the empty deadline list. -/
theorem Initial.follows {tickRate nBuckets : ℤ} {start : BitVec 32} {w : World ε}
    (h : Initial tickRate nBuckets start w) :
    Follows start w (init start) := by
  obtain ⟨mem, elemTick, now, t, ht, hw⟩ := h.timer
  have hinj : Function.Injective fun i => (.inl (.bucket i) : Node ε) :=
    fun i j hij => by simpa using hij
  obtain ⟨m, hm, -, hr⟩ := Ring.of_initHeads (n := nBuckets.toNat) hinj
    fun i hi => Ring.mallocHeads_live (h := mem) hi
  simp only [initTimer, if_true, hm, Option.bind_eq_bind, Option.bind_some, Option.some.injEq,
    Prod.mk.injEq, true_and] at ht
  have hnum : w.timer.numBuckets = nBuckets := by rw [hw, ← ht]
  have hmem : w.timer.mem = m := by rw [hw, ← ht]
  refine ⟨by rw [h.log]; rfl, ?_⟩
  constructor
  · rw [hnum]
    exact h.nBuckets_pos
  · rw [hw]
    rfl
  · exact init_distinct start
  · intro e d he
    simp [init] at he
  · have hrings : Rings m (Heads w.timer (init start)) fun _ => [] := by
      apply Rings.of_nil
      intro k hk
      cases k with
      | bucket i => exact hr i (by simpa [hnum] using hk)
      | timeout => simp [init] at hk
    rw [hmem]
    refine hrings.congr_entries fun k _ => ?_
    cases k <;> simp [entries, init, queue]
  · intro e _
    exact ring_of_isTimerRunning (h.elems e)

end Start

section Run

variable {ε : Type} [DecidableEq ε] {client : Client ε} {tickRate nBuckets : ℤ}
  {start : BitVec 32} {w₀ w : World ε}

/-- In every world that a run reaches, between the ticks, the timer manager
holds a deadline list that the log leads to. -/
theorem Reach.follows (h : Reach client w₀ w) (h₀ : Initial tickRate nBuckets start w₀) :
    ∃ s, Follows start w s ∧ s.firing = none := by
  induction h with
  | start => exact ⟨init start, h₀.follows, rfl⟩
  | call c _ hc hw ih =>
      obtain ⟨s, f, hf⟩ := ih
      obtain ⟨w', s', p, hw', f', hs'⟩ := f.doCall hc
      obtain rfl := Option.some.inj (hw.symm.trans hw')
      exact ⟨s', f', by simpa [hf] using hs'⟩
  | tick fuel _ hw ih =>
      obtain ⟨s, f, hf⟩ := ih
      obtain ⟨w', s', hw', f', hs'⟩ := f.timerTick client hf
      obtain rfl := timerTick_unique client hw (hw' _ (Nat.lt_succ_self _))
      exact ⟨s', f', hs'⟩

/-- The timer manager refines a deadline list over whole runs. In every world
that a run reaches, the log is one of the deadline list and keeps its schedule,
the lists of the timer manager hold what the deadline list says, every legal
call returns, and the next tick returns whatever the callbacks do. -/
theorem timer_refines_deadline_list (client : Client ε)
    (h₀ : Initial tickRate nBuckets start w₀) (h : Reach client w₀ w) :
    ∃ s, (init start).replay w.log = some s ∧ Refines w.timer s ∧ s.firing = none ∧
      Schedule (init start) w.log ∧
      (∀ c, LegalCall w c → (doCall w c).isSome) ∧
      ∃ w', ∀ fuel, s.pending.length < fuel → timerTick client fuel w = some w' := by
  obtain ⟨s, f, hf⟩ := h.follows h₀
  obtain ⟨w', -, hw', -⟩ := f.timerTick client hf
  refine ⟨s, f.log, f.refines, hf, DeadlineList.schedule f.log, ?_, w', hw'⟩
  intro c hc
  obtain ⟨w₁, -, -, hw₁, -⟩ := f.doCall hc
  simp [hw₁]

/-- A client whose callbacks make no calls. -/
def idle : Client Bool := ⟨fun _ _ => [], fun _ _ => trivial⟩

/-- A timer manager of one bucket and two stopped elements, whose counter is `start`. -/
def oneBucket (tickRate : ℤ) (start : BitVec 32) : World Bool :=
  let mem : Heap (Node Bool)
    | .inl _ => none
    | .inr e => some ⟨some (.inr e), some (.inr e)⟩
  let init := initTimer mem (fun _ => 0) true ⟨0, 0⟩ tickRate 1
  { timer := { (init.get rfl).2 with tick := start }, log := [] }

theorem oneBucket_initial {tickRate : ℤ} (h : 0 < tickRate) (start : BitVec 32) :
    Initial tickRate 1 start (oneBucket tickRate start) where
  tickRate_pos := h
  nBuckets_pos := by decide
  timer := ⟨_, _, _, _, rfl, rfl⟩
  elems := fun e => by cases e <;> rfl
  log := rfl

/-- The first tick is the last one before the counter wraps. -/
theorem timer_refines_deadline_list_wrap :
    ∃ w, Reach idle (oneBucket 10 (BitVec.allOnes 32)) w ∧
      w.log = [.add true (BitVec.allOnes 32) 2, .tick (BitVec.allOnes 32), .tickEnd, .tick 0,
        .tickEnd, .tick 1, .fire true, .tickEnd] ∧
      ∃ s, (init (BitVec.allOnes 32)).replay w.log = some s ∧ Refines w.timer s ∧
        s.firing = none ∧ Schedule (init (BitVec.allOnes 32)) w.log ∧
        (∀ c, LegalCall w c → (doCall w c).isSome) ∧
        ∃ w', ∀ fuel, s.pending.length < fuel → timerTick idle fuel w = some w' := by
  have hrun : ((((doCall (oneBucket 10 (BitVec.allOnes 32)) (.add true 15)).bind
      (timerTick idle 2)).bind (timerTick idle 2)).bind (timerTick idle 2)).map World.log = some
        [.add true (BitVec.allOnes 32) 2, .tick (BitVec.allOnes 32), .tickEnd, .tick 0,
          .tickEnd, .tick 1, .fire true, .tickEnd] := by decide +kernel
  simp only [Option.map_eq_some_iff, Option.bind_eq_some_iff] at hrun
  obtain ⟨w₄, ⟨w₃, ⟨w₂, ⟨w₁, h₁, h₂⟩, h₃⟩, h₄⟩, hlog⟩ := hrun
  have hlegal : LegalCall (oneBucket 10 (BitVec.allOnes 32)) (.add true 15) :=
    ⟨by decide, by decide, by decide⟩
  have h : Reach idle (oneBucket 10 (BitVec.allOnes 32)) w₄ :=
    .tick 2 (.tick 2 (.tick 2 (.call _ .start hlegal h₁) h₂) h₃) h₄
  exact ⟨w₄, h, hlog, timer_refines_deadline_list idle (oneBucket_initial (by decide) _) h⟩

end Run

end TimerWheel

end Infra
