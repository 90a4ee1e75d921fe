import Mathlib.Data.Nat.Notation
import Mathlib.Data.Option.Basic

/-!
# Machines that answer requests, and simulation

A machine reads one request at a time and answers it. A step has no result when
the machine cannot take the request: for a program this is a crash, for a
specification it is a request that its user must not make. So a specification
that simulates a program says two things at once: which runs are legal, and what
the program answers on every one of them without crashing.
-/

namespace Infra

/-- A machine with states `σ`, requests `ι` and answers `ο`. -/
structure Machine (σ ι ο : Type) where
  step : σ → ι → Option (σ × ο)

namespace Machine

variable {σ τ ι ο : Type}

/-- A finite sequence of requests, with the sequence of the answers. -/
def run (M : Machine σ ι ο) : σ → List ι → Option (σ × List ο)
  | s, [] => some (s, [])
  | s, i :: is => do
      let (s, o) ← M.step s i
      let (s, os) ← run M s is
      some (s, o :: os)

section Run

variable {M : Machine σ ι ο} {s s' : σ} {os : List ο}

@[simp] theorem run_nil : M.run s [] = some (s, []) := rfl

theorem run_cons {i : ι} {is : List ι} :
    M.run s (i :: is) = some (s', os) ↔
      ∃ t o os', M.step s i = some (t, o) ∧ M.run t is = some (s', os') ∧ os = o :: os' := by
  simp only [run, Option.bind_eq_bind, Option.bind_eq_some_iff, Option.some.injEq,
    Prod.mk.injEq, Prod.exists]
  constructor
  · rintro ⟨t, o, h, t', os', h', rfl, rfl⟩
    exact ⟨t, o, os', h, h', rfl⟩
  · rintro ⟨t, o, os', h, h', rfl⟩
    exact ⟨t, o, h, s', os', h', rfl, rfl⟩

/-- A run of requests that can be taken in every state has a result. -/
theorem run_isSome {P : ι → Prop} (hstep : ∀ s i, P i → (M.step s i).isSome) {is : List ι}
    (h : ∀ i ∈ is, P i) : (M.run s is).isSome := by
  induction is generalizing s with
  | nil => rfl
  | cons i is ih =>
      obtain ⟨⟨t, o⟩, ht⟩ := Option.isSome_iff_exists.mp (hstep s i (h i List.mem_cons_self))
      obtain ⟨⟨t', os'⟩, hrun⟩ := Option.isSome_iff_exists.mp
        (ih (s := t) fun j hj => h j (List.mem_cons_of_mem i hj))
      rw [run_cons.mpr ⟨t, o, os', ht, hrun, rfl⟩]
      rfl

end Run

/-- The machine `C` simulates the machine `A` along `R`: it takes every request
that `A` takes, with the same answer. `R n` is the relation when at most `n`
requests are still to come, for machines that are only given so many rounds for
their loops. -/
structure Simulates (C : Machine σ ι ο) (A : Machine τ ι ο) (R : ℕ → σ → τ → Prop) : Prop where
  step : ∀ n s t i t' o, R (n + 1) s t → A.step t i = some (t', o) →
    ∃ s', C.step s i = some (s', o) ∧ R n s' t'

/-- A simulation carries over to whole runs. -/
theorem Simulates.run {C : Machine σ ι ο} {A : Machine τ ι ο} {R : ℕ → σ → τ → Prop}
    (h : Simulates C A R) {s : σ} {t t' : τ} {is : List ι} {os : List ο}
    (hR : R is.length s t) (hA : A.run t is = some (t', os)) :
    ∃ s', C.run s is = some (s', os) ∧ R 0 s' t' := by
  induction is generalizing s t os with
  | nil =>
      simp only [run_nil, Option.some.injEq, Prod.mk.injEq] at hA
      obtain ⟨rfl, rfl⟩ := hA
      exact ⟨s, rfl, hR⟩
  | cons i is ih =>
      obtain ⟨t₁, o, os', ht, hrun, rfl⟩ := run_cons.mp hA
      obtain ⟨s₁, hs, hR₁⟩ := h.step is.length s t i t₁ o hR ht
      obtain ⟨s₂, hs₂, hR₂⟩ := ih hR₁ hrun
      exact ⟨s₂, run_cons.mpr ⟨s₁, o, os', hs, hs₂, rfl⟩, hR₂⟩

/-- The machines `C`, which are given rounds for their loops, simulate the machine `A`: each
step of `A` is one of theirs as soon as the rounds are enough for it. -/
structure SimulatesEventually (C : ℕ → Machine σ ι ο) (A : Machine τ ι ο) (R : σ → τ → Prop) :
    Prop where
  step : ∀ s t i t' o, R s t → A.step t i = some (t', o) →
    ∃ N s', (∀ n, N ≤ n → (C n).step s i = some (s', o)) ∧ R s' t'

/-- Then some number of rounds is enough for a whole run. -/
theorem SimulatesEventually.run {C : ℕ → Machine σ ι ο} {A : Machine τ ι ο} {R : σ → τ → Prop}
    (h : SimulatesEventually C A R) {s : σ} {t t' : τ} {is : List ι} {os : List ο}
    (hR : R s t) (hA : A.run t is = some (t', os)) :
    ∃ N s', (∀ n, N ≤ n → (C n).run s is = some (s', os)) ∧ R s' t' := by
  induction is generalizing s t os with
  | nil =>
      simp only [run_nil, Option.some.injEq, Prod.mk.injEq] at hA
      obtain ⟨rfl, rfl⟩ := hA
      exact ⟨0, s, fun _ _ => rfl, hR⟩
  | cons i is ih =>
      obtain ⟨t₁, o, os', ht, hrun, rfl⟩ := run_cons.mp hA
      obtain ⟨N₁, s₁, hs, hR₁⟩ := h.step s t i t₁ o hR ht
      obtain ⟨N₂, s₂, hs₂, hR₂⟩ := ih hR₁ hrun
      refine ⟨max N₁ N₂, s₂, fun n hn => run_cons.mpr ⟨s₁, o, os', ?_, ?_, rfl⟩, hR₂⟩
      · exact hs n (Nat.le_trans (Nat.le_max_left N₁ N₂) hn)
      · exact hs₂ n (Nat.le_trans (Nat.le_max_right N₁ N₂) hn)

end Machine

end Infra
