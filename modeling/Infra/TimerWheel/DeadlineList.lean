import Infra.TimerWheel.Basic
import Mathlib.Data.List.Nodup

/-!
# A plain deadline list

What a timer manager is for: additions wait in one list, in the order in which
they were made, each with the tick at which it is due. A tick takes those that
are due out of the list, and they fire one after the other unless they are
deleted first. There are no buckets here, and the state is a function of the
events: `replay` runs a log and has no result when an event is not possible.

`Schedule` is what a log of the deadline list satisfies: an addition fires in
the execution of its own tick or was deleted, it fires once, additions that are
due together fire in the order in which they were made, and nothing added while
a tick is processed fires in it.
-/

namespace Infra

namespace TimerWheel

/-- The additions that wait, and during a tick the elements that are still to
be fired in it. -/
structure DeadlineList (ε : Type) where
  tick : BitVec 32
  pending : List (ε × BitVec 32)
  firing : Option (List ε)

namespace DeadlineList

section Definitions

variable {ε : Type} [DecidableEq ε]

/-- The elements that are still to be fired in the tick being processed. -/
def queue (s : DeadlineList ε) : List ε := s.firing.getD []

/-- The elements of the additions that wait. -/
def keys (s : DeadlineList ε) : List ε := s.pending.map Prod.fst

/-- The elements of the additions that are due at the tick `v`, in the order of
the additions. -/
def due (s : DeadlineList ε) (v : BitVec 32) : List ε :=
  (s.pending.filter fun p => p.2 = v).map Prod.fst

/-- A new addition waits behind the others. -/
def append (s : DeadlineList ε) (e : ε) (d : BitVec 32) : DeadlineList ε :=
  { s with pending := s.pending ++ [(e, d)] }

/-- A deleted element neither waits nor is still to be fired. -/
def delete (s : DeadlineList ε) (e : ε) : DeadlineList ε :=
  { s with
    pending := s.pending.filter fun p => p.1 ≠ e
    firing := s.firing.map fun q => q.filter (· ≠ e) }

/-- The tick `v` starts: what is due at `v` is to be fired. -/
def begin (s : DeadlineList ε) (v : BitVec 32) : DeadlineList ε :=
  { tick := s.tick + 1
    pending := s.pending.filter fun p => p.2 ≠ v
    firing := some (s.due v) }

/-- One event. -/
def step (s : DeadlineList ε) : Event ε → Option (DeadlineList ε)
  | .add e now delay =>
      if s.tick = now ∧ e ∉ s.queue ++ s.keys then
        some (s.append e (now + delay))
      else none
  | .del e => some (s.delete e)
  | .tick v => if s.tick = v ∧ s.firing = none then some (s.begin v) else none
  | .fire e =>
      match s.firing with
      | some (x :: rest) => if x = e then some { s with firing := some rest } else none
      | _ => none
  | .tickEnd => if s.firing = some [] then some { s with firing := none } else none

/-- A log of events, one after the other. -/
def replay : DeadlineList ε → List (Event ε) → Option (DeadlineList ε)
  | s, [] => some s
  | s, ev :: evs => do
      let s ← s.step ev
      replay s evs

/-- The deadline list before anything has happened. -/
def init (start : BitVec 32) : DeadlineList ε := { tick := start, pending := [], firing := none }

/-- No element waits twice. -/
def Distinct (s : DeadlineList ε) : Prop := (s.queue ++ s.keys).Nodup

end Definitions

/-! ## Inversion of the steps -/

section Steps

variable {ε : Type} [DecidableEq ε] {s s' : DeadlineList ε}

theorem step_add {e : ε} {now delay : BitVec 32} :
    s.step (.add e now delay) = some s' ↔
      (s.tick = now ∧ e ∉ s.queue ++ s.keys) ∧ s' = s.append e (now + delay) := by
  simp only [step]
  split <;> simp_all [eq_comm]

theorem step_del {e : ε} :
    s.step (.del e) = some s' ↔ s' = s.delete e := by
  simp [step, eq_comm]

theorem step_tick {v : BitVec 32} :
    s.step (.tick v) = some s' ↔
      (s.tick = v ∧ s.firing = none) ∧ s' = s.begin v := by
  simp only [step]
  split <;> simp_all [eq_comm]

theorem step_fire {e : ε} :
    s.step (.fire e) = some s' ↔
      ∃ rest, s.firing = some (e :: rest) ∧ s' = { s with firing := some rest } := by
  simp only [step]
  split
  · next x rest hx =>
    constructor
    · intro h
      split at h
      · next he =>
        subst he
        exact ⟨rest, hx, by simpa using h.symm⟩
      · simp at h
    · rintro ⟨rest', hr, rfl⟩
      rw [hx] at hr
      simp only [Option.some.injEq, List.cons.injEq] at hr
      simp [hr.1, hr.2]
  · next hn =>
    constructor
    · simp
    · rintro ⟨rest, hr, -⟩
      exact absurd hr (hn e rest)

theorem step_tickEnd :
    s.step .tickEnd = some s' ↔ s.firing = some [] ∧ s' = { s with firing := none } := by
  simp only [step]
  split <;> simp_all [eq_comm]

@[simp] theorem replay_nil : s.replay [] = some s := rfl

theorem replay_cons {ev : Event ε} {evs : List (Event ε)} :
    s.replay (ev :: evs) = some s' ↔ ∃ t, s.step ev = some t ∧ t.replay evs = some s' := by
  simp [replay, Option.bind_eq_some_iff]

theorem replay_append {a b : List (Event ε)} :
    s.replay (a ++ b) = some s' ↔ ∃ t, s.replay a = some t ∧ t.replay b = some s' := by
  induction a generalizing s with
  | nil => simp
  | cons ev a ih =>
      simp only [List.cons_append, replay_cons, ih]
      constructor
      · rintro ⟨t, ht, u, hu, hb⟩
        exact ⟨u, ⟨t, ht, hu⟩, hb⟩
      · rintro ⟨u, ⟨t, ht, hu⟩, hb⟩
        exact ⟨t, ht, u, hu, hb⟩

theorem replay_concat {a : List (Event ε)} {ev : Event ε} :
    s.replay (a ++ [ev]) = some s' ↔ ∃ t, s.replay a = some t ∧ t.step ev = some s' := by
  simp [replay_append, replay_cons]

end Steps

/-! ## The waiting elements after a step -/

section Waiting

variable {ε : Type} {s : DeadlineList ε} {e : ε} {d v : BitVec 32}

theorem mem_due : e ∈ s.due v ↔ (e, v) ∈ s.pending := by
  simp [due]

theorem mem_keys : e ∈ s.keys ↔ ∃ d, (e, d) ∈ s.pending := by
  simp [keys]

@[simp] theorem tick_append : (s.append e d).tick = s.tick := rfl

@[simp] theorem queue_append : (s.append e d).queue = s.queue := rfl

@[simp] theorem keys_append : (s.append e d).keys = s.keys ++ [e] := by
  simp [append, keys]

theorem due_append : (s.append e d).due v = s.due v ++ if d = v then [e] else [] := by
  by_cases h : d = v <;> simp [append, due, h]

@[simp] theorem queue_begin : (s.begin v).queue = s.due v := rfl

theorem due_begin (h : d ≠ v) : (s.begin v).due d = s.due d := by
  rw [begin, due, due, List.filter_filter]
  refine congrArg _ (List.filter_congr fun p _ => ?_)
  by_cases hp : p.2 = d <;> simp [hp, h]

theorem keys_begin : (s.begin v).keys = (s.pending.filter fun p => p.2 ≠ v).map Prod.fst := rfl

variable [DecidableEq ε]

@[simp] theorem queue_delete : (s.delete e).queue = s.queue.filter (· ≠ e) := by
  cases hf : s.firing <;> simp [delete, queue, hf]

@[simp] theorem keys_delete : (s.delete e).keys = s.keys.filter (· ≠ e) := by
  simp [delete, keys, List.filter_map, Function.comp_def]

theorem due_delete : (s.delete e).due v = (s.due v).filter (· ≠ e) := by
  simp [delete, due, List.filter_map, List.filter_filter, Function.comp_def, Bool.and_comm]

end Waiting

/-! ## No element waits twice -/

section Distinct

variable {ε : Type} [DecidableEq ε] {s s' : DeadlineList ε}

omit [DecidableEq ε] in
theorem init_distinct (start : BitVec 32) : (init start : DeadlineList ε).Distinct := by
  simp [init, Distinct, queue, keys]

/-- A step keeps the waiting elements distinct. -/
theorem step_distinct {ev : Event ε} (hd : s.Distinct) (h : s.step ev = some s') :
    s'.Distinct := by
  cases ev with
  | add e now delay =>
      obtain ⟨⟨-, he⟩, rfl⟩ := step_add.mp h
      have : (s.queue ++ s.keys ++ [e]).Nodup := by
        rw [List.nodup_append]
        exact ⟨hd, by simp, by rintro a ha b hb rfl; simp at hb; exact he (hb ▸ ha)⟩
      simpa [Distinct] using this
  | del e =>
      rw [step_del.mp h]
      rw [Distinct, queue_delete, keys_delete, ← List.filter_append]
      exact hd.filter _
  | tick v =>
      obtain ⟨⟨-, hf⟩, rfl⟩ := step_tick.mp h
      have hk : s.keys.Nodup := by simpa [Distinct, queue, hf] using hd
      have hdisj : ∀ a ∈ s.due v, ∀ b ∈ (s.pending.filter fun p => p.2 ≠ v).map Prod.fst,
          a ≠ b := by
        rintro a ha b hb rfl
        obtain ⟨⟨c, d⟩, hcd, rfl⟩ := List.mem_map.mp hb
        simp only [List.mem_filter, decide_eq_true_eq] at hcd
        have := List.inj_on_of_nodup_map hk (mem_due.mp ha) hcd.1 rfl
        simp only [Prod.mk.injEq] at this
        exact hcd.2 this.2.symm
      have : (s.due v ++ (s.pending.filter fun p => p.2 ≠ v).map Prod.fst).Nodup :=
        List.nodup_append.mpr ⟨hk.sublist (List.filter_sublist.map _),
          hk.sublist (List.filter_sublist.map _), hdisj⟩
      simpa [Distinct, keys_begin] using this
  | fire e =>
      obtain ⟨rest, hf, rfl⟩ := step_fire.mp h
      have : (e :: (rest ++ s.keys)).Nodup := by simpa [Distinct, queue, hf] using hd
      simpa [Distinct, queue, keys] using this.of_cons
  | tickEnd =>
      obtain ⟨hf, rfl⟩ := step_tickEnd.mp h
      simpa [Distinct, queue, hf, keys] using hd

theorem replay_distinct {evs : List (Event ε)} (hd : s.Distinct) (h : s.replay evs = some s') :
    s'.Distinct := by
  induction evs generalizing s with
  | nil =>
      simp only [replay_nil, Option.some.injEq] at h
      exact h ▸ hd
  | cons ev evs ih =>
      obtain ⟨t, ht, h⟩ := replay_cons.mp h
      exact ih (step_distinct hd ht) h

end Distinct

end DeadlineList

end TimerWheel

end Infra
