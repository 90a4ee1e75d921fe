import Infra.Foundation.Trace
import Infra.IoEvent.Basic
import Mathlib.Data.List.Find
import Mathlib.Data.List.Nodup

/-!
# A plain registry

What an event driver is for: for each event type it knows some descriptors, each
with a callback and its argument, and during a pass some of them wait for their
turn. There is no memory here. `Step` says what each event of a log does and
when it is possible, and `Runs` is a whole log.

A registration keeps its address from the listen that makes it to the unlisten
that ends it, and its descriptor names it among those of its type.
-/

namespace Infra

namespace IoEvent

/-- A registration: the address of its element, and the element. -/
abbrev Reg (ε γ π : Type) := ε × Element γ π

/-- The registrations of each type that do not wait, and those that wait for
their turn. -/
structure Registry (ε γ π : Type) where
  idle : IOEventType → List (Reg ε γ π)
  waiting : IOEventType → List (Reg ε γ π)

namespace Registry

section Definitions

variable {ε γ π : Type}

/-- The registrations of a type. -/
def regs (s : Registry ε γ π) (t : IOEventType) : List (Reg ε γ π) := s.idle t ++ s.waiting t

/-- The descriptors that are registered for a type. -/
def fds (s : Registry ε γ π) (t : IOEventType) : List ℤ := (s.regs t).map fun r => r.2.fd

/-- A change to both lists of one type. -/
def alter (s : Registry ε γ π) (t : IOEventType) (f : List (Reg ε γ π) → List (Reg ε γ π)) :
    Registry ε γ π where
  idle := Function.update s.idle t (f (s.idle t))
  waiting := Function.update s.waiting t (f (s.waiting t))

/-- The registration of the descriptor of `p` gets the callback and the argument
of `p`; others are left alone. -/
def setHandler (p : Element γ π) (r : Reg ε γ π) : Reg ε γ π :=
  if r.2.fd = p.fd then (r.1, p) else r

/-- A listen, with its return value: a registered descriptor gets a new callback
and argument, another one gets a registration behind the idle ones. -/
def listen (s : Registry ε γ π) (t : IOEventType) (p : Element γ π) (malloc : Option ε) :
    Registry ε γ π × ℤ :=
  if p.fd ∈ s.fds t then (s.alter t (List.map (setHandler p)), 0)
  else
    match malloc with
    | none => (s, -1)
    | some e => ({ s with idle := Function.update s.idle t (s.idle t ++ [(e, p)]) }, 0)

/-- An unlisten, with its return value. -/
def unlisten (s : Registry ε γ π) (t : IOEventType) (fd : ℤ) : Registry ε γ π × ℤ :=
  if fd ∈ s.fds t then (s.alter t (List.filter fun r => r.2.fd ≠ fd), 0) else (s, -1)

/-- A pass starts: the ready registrations wait for their turn. -/
def begin (s : Registry ε γ π) (t : IOEventType) (set : FdSet) : Registry ε γ π where
  idle := Function.update s.idle t ((s.idle t).filter fun r => !set r.2.fd)
  waiting := Function.update s.waiting t (s.waiting t ++ (s.idle t).filter fun r => set r.2.fd)

/-- The registration `r`, the first that waits, has its turn. -/
def next (s : Registry ε γ π) (t : IOEventType) (r : Reg ε γ π) (rest : List (Reg ε γ π)) :
    Registry ε γ π where
  idle := Function.update s.idle t (s.idle t ++ [r])
  waiting := Function.update s.waiting t rest

/-- One event. -/
def Step (s : Registry ε γ π) (ev : Event ε γ π) (s' : Registry ε γ π) : Prop :=
  match ev with
  | .listen t p malloc ret => s.listen t p malloc = (s', ret)
  | .unlisten t fd ret => s.unlisten t fd = (s', ret)
  | .pass t set => s' = s.begin t set
  | .dispatch t e p => ∃ rest, s.waiting t = (e, p) :: rest ∧ s' = s.next t (e, p) rest

/-- A log of events, one after the other. -/
abbrev Runs (s : Registry ε γ π) : List (Event ε γ π) → Registry ε γ π → Prop := Trace Step s

/-- No descriptor is registered twice for a type. -/
def Distinct (s : Registry ε γ π) : Prop := ∀ t, (s.fds t).Nodup

end Definitions

section Facts

variable {ε γ π : Type} {s s₁ s₂ : Registry ε γ π} {t : IOEventType}

theorem mem_fds {fd : ℤ} : fd ∈ s.fds t ↔ ∃ r ∈ s.regs t, r.2.fd = fd := List.mem_map

@[simp] theorem setHandler_fst (p : Element γ π) (r : Reg ε γ π) :
    (setHandler p r).1 = r.1 := by
  unfold setHandler
  split <;> rfl

@[simp] theorem setHandler_fd (p : Element γ π) (r : Reg ε γ π) :
    (setHandler p r).2.fd = r.2.fd := by
  unfold setHandler
  split
  · next h => exact h.symm
  · rfl

theorem regs_alter_self {f : List (Reg ε γ π) → List (Reg ε γ π)}
    (hf : ∀ l l', f (l ++ l') = f l ++ f l') : (s.alter t f).regs t = f (s.regs t) := by
  simp [regs, alter, hf]

theorem regs_alter_of_ne {f : List (Reg ε γ π) → List (Reg ε γ π)} {t' : IOEventType}
    (ht : t' ≠ t) : (s.alter t f).regs t' = s.regs t' := by
  simp [regs, alter, Function.update_of_ne ht]

/-- Two registrations of one type with the same descriptor are one. -/
theorem Distinct.eq_of_fd (h : s.Distinct) {r r' : Reg ε γ π} (hr : r ∈ s.regs t)
    (hr' : r' ∈ s.regs t) (hfd : r.2.fd = r'.2.fd) : r = r' :=
  List.inj_on_of_nodup_map (h t) hr hr' hfd

/-- Starting a pass only moves registrations. -/
theorem regs_begin_perm (s : Registry ε γ π) (t : IOEventType) (set : FdSet) (t' : IOEventType) :
    ((s.begin t set).regs t').Perm (s.regs t') := by
  by_cases ht : t' = t
  · subst ht
    simp only [regs, begin, Function.update_self]
    have hsplit : ((s.idle t').filter (fun r => !set r.2.fd) ++
        (s.idle t').filter fun r => set r.2.fd).Perm (s.idle t') :=
      List.perm_append_comm.trans (List.filter_append_perm _ _)
    refine (List.perm_append_comm_assoc _ _ _).trans (List.perm_append_comm.trans ?_)
    exact hsplit.append_right (s.waiting t')
  · simp [regs, begin, ht]

/-- A turn only moves the registration. -/
theorem regs_next_perm {r : Reg ε γ π} {rest : List (Reg ε γ π)} (hw : s.waiting t = r :: rest)
    (t' : IOEventType) : ((s.next t r rest).regs t').Perm (s.regs t') := by
  by_cases ht : t' = t
  · subst ht
    simp [regs, next, hw]
  · simp [regs, next, ht]

end Facts

end Registry

end IoEvent

end Infra
