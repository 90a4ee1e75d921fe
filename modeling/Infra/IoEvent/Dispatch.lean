import Infra.IoEvent.Pass

/-!
# A dispatch pass is exact

What the log of a pass over one type says about the registrations that were
there when it began. The invariant splits the ready ones in those whose turn is
over and those still to come, in the order in which they stood: the registrations
that wait are those to come that were not unlistened, each with the callback and
the argument last given to it.
-/

namespace Infra

namespace IoEvent

open Registry

section Definitions

variable {ε γ π : Type}

/-- The event takes the descriptor out of the registrations of the type. -/
def Event.unlistens (t : IOEventType) (fd : ℤ) : Event ε γ π → Bool
  | .unlisten t' fd' ret => decide (t' = t ∧ fd' = fd ∧ ret = 0)
  | _ => false

/-- Some event takes the descriptor out of the registrations of the type. -/
def unlistened (t : IOEventType) (fd : ℤ) (evs : List (Event ε γ π)) : Bool :=
  evs.any (Event.unlistens t fd)

/-- What an event leaves of the callback and argument of a registration. -/
def Event.rehandle (t : IOEventType) (p : Element γ π) : Event ε γ π → Element γ π
  | .listen t' p' _ _ => if t' = t ∧ p.fd = p'.fd then p' else p
  | _ => p

/-- The callback and argument most recently set for a registration that began
with those of `p`. -/
def latest (t : IOEventType) (evs : List (Event ε γ π)) (p : Element γ π) : Element γ π :=
  evs.foldl (Event.rehandle t) p

/-- Whether the descriptor is registered after an event. -/
def Event.registers (t : IOEventType) (fd : ℤ) (before : Bool) : Event ε γ π → Bool
  | .listen t' p _ ret => before || decide (t' = t ∧ p.fd = fd ∧ ret = 0)
  | .unlisten t' fd' ret => before && !decide (t' = t ∧ fd' = fd ∧ ret = 0)
  | _ => before

/-- The registrations that the events call, each as it was called. -/
def called (evs : List (Event ε γ π)) : List (Reg ε γ π) :=
  evs.filterMap fun ev =>
    match ev with
    | .dispatch _ e p => some (e, p)
    | _ => none

/-- A registration as its element and descriptor. -/
def key (r : Reg ε γ π) : ε × ℤ := (r.1, r.2.fd)

/-- The turn of the registration is over: it was called, or it was unlistened
before that. -/
def Over (t : IOEventType) (evs : List (Event ε γ π)) (r : Reg ε γ π) : Prop :=
  key r ∈ (called evs).map key ∨ unlistened t r.2.fd evs

/-- The events `evs` are those of an exact pass over the type `t` that started
with the idle registrations `idle` and ended with `idle'`. -/
structure ExactPass (t : IOEventType) (set : FdSet) (idle : List (Reg ε γ π))
    (evs : List (Event ε γ π)) (idle' : List (Reg ε γ π)) : Prop where
  /-- Nothing of another type is called. -/
  inPass : ∀ ev ∈ evs, ev.InPass t
  /-- The calls are in the order of the ready registrations, none of them twice. -/
  order : ((called evs).map key).Sublist ((idle.filter fun r => set r.2.fd).map key)
  nodup : ((idle.filter fun r => set r.2.fd).map key).Nodup
  /-- A call is for a ready registration that was there at the start and was not
  unlistened since, with what was last set for it, when the turns of those before
  it are over. -/
  turn : ∀ A e p B, evs = A ++ .dispatch t e p :: B → ∃ front r back,
    (idle.filter fun r => set r.2.fd) = front ++ r :: back ∧ (∀ x ∈ front, Over t A x) ∧
      ¬ unlistened t r.2.fd A ∧ e = r.1 ∧ p = latest t A r.2
  /-- No ready registration is left out. -/
  all : ∀ r ∈ idle, set r.2.fd → Over t evs r
  /-- What was not unlistened is still there. -/
  kept : ∀ r ∈ idle, ¬ unlistened t r.2.fd evs → (r.1, latest t evs r.2) ∈ idle'
  /-- The descriptors registered at the end, each of them once. -/
  still : ∀ fd, fd ∈ idle'.map (fun r => r.2.fd) ↔
    evs.foldl (Event.registers t fd) (decide (fd ∈ idle.map fun r => r.2.fd))
  once : (idle'.map fun r => r.2.fd).Nodup

end Definitions

section Facts

variable {ε γ π : Type} {t : IOEventType} {evs : List (Event ε γ π)} {ev : Event ε γ π}
  {s s₁ s₂ : Registry ε γ π}

@[simp] theorem unlistened_concat (fd : ℤ) :
    unlistened t fd (evs ++ [ev]) = (unlistened t fd evs || ev.unlistens t fd) := by
  simp [unlistened]

@[simp] theorem latest_concat (p : Element γ π) :
    latest t (evs ++ [ev]) p = ev.rehandle t (latest t evs p) := by
  simp [latest]

@[simp] theorem Event.rehandle_fd (p : Element γ π) : (ev.rehandle t p).fd = p.fd := by
  cases ev with
  | listen t' p' malloc ret =>
      simp only [Event.rehandle]
      split
      · next h => exact h.2.symm
      · rfl
  | _ => rfl

@[simp] theorem latest_fd (p : Element γ π) : (latest t evs p).fd = p.fd := by
  induction evs using List.reverseRecOn with
  | nil => rfl
  | append_singleton evs ev ih => rw [latest_concat, Event.rehandle_fd, ih]

theorem called_concat : called (evs ++ [ev]) = called evs ++ called [ev] :=
  List.filterMap_append ..

theorem Over.concat {r : Reg ε γ π} (h : Over t evs r) : Over t (evs ++ [ev]) r := by
  rcases h with h | h
  · exact Or.inl (by rw [called_concat, List.map_append]; exact List.mem_append_left _ h)
  · exact Or.inr (by simp [h])

/-! ## What one event does to the registrations of a type -/

/-- A call changes a list of registrations of its type by an unlisten or a
listen. -/
def Event.onRegs (t : IOEventType) (ev : Event ε γ π) (l : List (Reg ε γ π)) :
    List (Reg ε γ π) :=
  (l.filter fun r => !ev.unlistens t r.2.fd).map fun r => (r.1, ev.rehandle t r.2)

theorem Event.onRegs_eq_self {l : List (Reg ε γ π)}
    (h : ∀ r ∈ l, ev.unlistens t r.2.fd = false ∧ ev.rehandle t r.2 = r.2) :
    ev.onRegs t l = l := by
  have hfilter : (l.filter fun r => !ev.unlistens t r.2.fd) = l :=
    List.filter_eq_self.mpr fun r hr => by simp [(h r hr).1]
  rw [Event.onRegs, hfilter]
  exact (List.map_congr_left fun r hr => by rw [(h r hr).2, id]).trans (List.map_id l)

theorem Event.onRegs_listen {p : Element γ π} {malloc : Option ε} {ret : ℤ}
    {l : List (Reg ε γ π)} :
    (Event.listen t p malloc ret).onRegs t l = l.map (setHandler p) := by
  have hfilter : (l.filter fun r => !(Event.listen t p malloc ret).unlistens t r.2.fd) = l :=
    List.filter_eq_self.mpr fun r _ => rfl
  rw [Event.onRegs, hfilter]
  refine List.map_congr_left fun r _ => ?_
  simp only [setHandler, Event.rehandle, true_and]
  split <;> rfl

theorem Event.onRegs_unlisten {fd : ℤ} {l : List (Reg ε γ π)} :
    (Event.unlisten t fd 0).onRegs t l = l.filter fun r => r.2.fd ≠ fd := by
  rw [Event.onRegs]
  refine (List.map_id _).trans (List.filter_congr fun r _ => ?_)
  simp [Event.unlistens, eq_comm]

/-- The call `ev` changes the registrations of the type `t` where they stand, and
adds `new` to the idle ones. -/
structure Acts (t : IOEventType) (ev : Event ε γ π) (s₁ s₂ : Registry ε γ π)
    (new : List (Reg ε γ π)) : Prop where
  waiting : s₂.waiting t = ev.onRegs t (s₁.waiting t)
  idle : s₂.idle t = ev.onRegs t (s₁.idle t) ++ new
  new : ∀ fd, fd ∈ new.map (fun r => r.2.fd) ↔ fd ∉ s₁.fds t ∧ ev.registers t fd false

theorem Acts.regs_perm {new : List (Reg ε γ π)} (a : Acts t ev s₁ s₂ new) :
    (s₂.regs t).Perm (ev.onRegs t (s₁.regs t) ++ new) := by
  have hregs : ev.onRegs t (s₁.regs t) =
      ev.onRegs t (s₁.idle t) ++ ev.onRegs t (s₁.waiting t) := by
    simp [Event.onRegs, regs]
  rw [regs, a.waiting, a.idle, hregs, List.append_assoc, List.append_assoc]
  exact List.perm_append_comm.append_left _

/-- A call that leaves the old registrations of the type alone. -/
theorem Acts.of_same {new : List (Reg ε γ π)} (hw : s₂.waiting t = s₁.waiting t)
    (hi : s₂.idle t = s₁.idle t ++ new)
    (hold : ∀ r : Reg ε γ π, r.2.fd ∈ s₁.fds t →
      ev.unlistens t r.2.fd = false ∧ ev.rehandle t r.2 = r.2)
    (hnew : ∀ fd, fd ∈ new.map (fun r => r.2.fd) ↔ fd ∉ s₁.fds t ∧ ev.registers t fd false) :
    Acts t ev s₁ s₂ new := by
  refine ⟨?_, ?_, hnew⟩
  · rw [hw, Event.onRegs_eq_self fun r hr =>
      hold r (mem_fds.mpr ⟨r, List.mem_append_right _ hr, rfl⟩)]
  · rw [hi, Event.onRegs_eq_self fun r hr =>
      hold r (mem_fds.mpr ⟨r, List.mem_append_left _ hr, rfl⟩)]

/-- A listen changes the callback and the argument of its descriptor or adds a
registration for it. -/
theorem Acts.listen {t' : IOEventType} {p : Element γ π} {malloc : Option ε} {ret : ℤ}
    (h : s₁.listen t' p malloc = (s₂, ret)) :
    ∃ new, Acts t (.listen t' p malloc ret) s₁ s₂ new := by
  by_cases hp : p.fd ∈ s₁.fds t'
  · simp only [Registry.listen, hp, if_true] at h
    cases h
    by_cases ht : t' = t
    · subst ht
      refine ⟨[], by simp [Event.onRegs_listen, alter], by simp [Event.onRegs_listen, alter],
        fun fd => ?_⟩
      simpa [Event.registers] using fun hfd (h : p.fd = fd) => hfd (h ▸ hp)
    · refine ⟨[], Acts.of_same (by simp [alter, Ne.symm ht]) (by simp [alter, Ne.symm ht])
        (fun r _ => ?_) fun fd => ?_⟩
      · simp [Event.unlistens, Event.rehandle, ht]
      · simp [Event.registers, ht]
  · have hold : ∀ ret, ∀ r : Reg ε γ π, r.2.fd ∈ s₁.fds t →
        (Event.listen t' p malloc ret).unlistens t r.2.fd = false ∧
          (Event.listen t' p malloc ret).rehandle t r.2 = r.2 := by
      intro ret r hr
      have hne : ¬ (t' = t ∧ r.2.fd = p.fd) := fun h => hp (h.1 ▸ h.2 ▸ hr)
      simp [Event.unlistens, Event.rehandle, hne]
    cases malloc with
    | none =>
        simp only [Registry.listen, hp, if_false] at h
        cases h
        exact ⟨[], Acts.of_same rfl (by simp) (hold _) fun fd => by simp [Event.registers]⟩
    | some e =>
        simp only [Registry.listen, hp, if_false] at h
        cases h
        by_cases ht : t' = t
        · subst ht
          refine ⟨[(e, p)], Acts.of_same rfl (by simp) (hold _) fun fd => ?_⟩
          have hne : fd = p.fd → fd ∉ s₁.fds t' := fun h => by rwa [h]
          simpa [Event.registers, eq_comm] using hne
        · refine ⟨[], Acts.of_same rfl (by simp [Ne.symm ht]) (hold _) fun fd => ?_⟩
          simp [Event.registers, ht]

/-- An unlisten takes the registration of its descriptor out. -/
theorem Acts.unlisten {t' : IOEventType} {fd : ℤ} {ret : ℤ}
    (h : s₁.unlisten t' fd = (s₂, ret)) : Acts t (.unlisten t' fd ret) s₁ s₂ [] := by
  by_cases hfd : fd ∈ s₁.fds t'
  · rw [Registry.unlisten, if_pos hfd] at h
    cases h
    by_cases ht : t' = t
    · subst ht
      refine ⟨by simp [Event.onRegs_unlisten, alter], by simp [Event.onRegs_unlisten, alter],
        fun fd => by simp [Event.registers]⟩
    · refine Acts.of_same (by simp [alter, Ne.symm ht]) (by simp [alter, Ne.symm ht])
        (fun r _ => ?_) fun fd => ?_
      · simp [Event.unlistens, Event.rehandle, ht]
      · simp [Event.registers]
  · rw [Registry.unlisten, if_neg hfd] at h
    cases h
    refine Acts.of_same rfl (by simp) (fun r hr => ?_) fun fd => by simp [Event.registers]
    simp [Event.unlistens, Event.rehandle]

/-- Every call acts on the registrations of a type in this way. -/
theorem Registry.Step.acts (h : Step s₁ ev s₂) (hev : ev.IsCall) (t : IOEventType) :
    ∃ new, Acts t ev s₁ s₂ new := by
  cases ev with
  | listen => exact Acts.listen h
  | unlisten => exact ⟨[], Acts.unlisten h⟩
  | pass => exact hev.elim
  | dispatch => exact hev.elim

theorem called_call (hev : ev.IsCall) : called [ev] = [] := by
  cases ev with
  | listen => rfl
  | unlisten => rfl
  | pass => exact hev.elim
  | dispatch => exact hev.elim

end Facts

/-! ## The invariant of a pass -/

section Pass

variable {ε γ π : Type} {t : IOEventType} {evs : List (Event ε γ π)} {ev : Event ε γ π}
  {s s₁ s₂ : Registry ε γ π} {q passed rest : List (Reg ε γ π)}

/-- After the events `evs` of a pass over the ready registrations `q` the turns of
`passed` are over and those of `rest` are to come. -/
structure Passing (t : IOEventType) (q : List (Reg ε γ π)) (evs : List (Event ε γ π))
    (s : Registry ε γ π) (passed rest : List (Reg ε γ π)) : Prop where
  ready : q = passed ++ rest
  waiting : s.waiting t = (rest.filter fun r => !unlistened t r.2.fd evs).map
    fun r => (r.1, latest t evs r.2)
  finished : ∀ x ∈ passed, Over t evs x
  order : ((called evs).map key).Sublist (passed.map key)

namespace Passing

/-- A call keeps the invariant. -/
theorem call (h : Passing t q evs s₁ passed rest) (hstep : Step s₁ ev s₂) (hev : ev.IsCall) :
    Passing t q (evs ++ [ev]) s₂ passed rest := by
  obtain ⟨new, a⟩ := hstep.acts hev t
  refine ⟨h.ready, ?_, fun x hx => (h.finished x hx).concat, ?_⟩
  · rw [a.waiting, h.waiting, Event.onRegs, List.filter_map, List.map_map, List.filter_filter]
    refine (List.map_congr_left fun r _ => ?_).trans (congrArg _ (List.filter_congr fun r _ => ?_))
    · simp
    · simp [Bool.and_comm]
  · rw [called_concat, called_call hev, List.append_nil]
    exact h.order

/-- The first registration that waits is the first one to come that was not
unlistened. -/
theorem turn (h : Passing t q evs s₁ passed rest) {r' : Reg ε γ π} {tail : List (Reg ε γ π)}
    (hw : s₁.waiting t = r' :: tail) :
    ∃ front r back, rest = front ++ r :: back ∧ (∀ x ∈ front, Over t evs x) ∧
      ¬ unlistened t r.2.fd evs ∧ r' = (r.1, latest t evs r.2) ∧
      tail = (back.filter fun r => !unlistened t r.2.fd evs).map
        fun r => (r.1, latest t evs r.2) := by
  have hwait := h.waiting.symm.trans hw
  obtain ⟨r, tail', hfilter, hr, htail⟩ := List.map_eq_cons_iff.mp hwait
  obtain ⟨front, back, hrest, hfront, hlive, hback⟩ := List.filter_eq_cons_iff.mp hfilter
  refine ⟨front, r, back, hrest, fun x hx => Or.inr (by simpa using hfront x hx),
    by simpa using hlive, hr.symm, ?_⟩
  rw [← htail, ← hback]

/-- A turn keeps the invariant. -/
theorem dispatch (h : Passing t q evs s₁ passed rest) {e : ε} {p : Element γ π}
    (hstep : Step s₁ (.dispatch t e p) s₂) :
    ∃ passed' rest', Passing t q (evs ++ [.dispatch t e p]) s₂ passed' rest' := by
  obtain ⟨tail, hw, rfl⟩ := hstep
  obtain ⟨front, r, back, rfl, hfront, hlive, hr, htail⟩ := h.turn hw
  obtain ⟨rfl, rfl⟩ := Prod.mk.inj hr
  have hcalled : called (evs ++ [.dispatch t r.1 (latest t evs r.2)]) =
      called evs ++ [(r.1, latest t evs r.2)] := called_concat
  refine ⟨passed ++ front ++ [r], back, by simp [h.ready], ?_, fun x hx => ?_, ?_⟩
  · simp [Registry.next, htail, Event.unlistens, Event.rehandle]
  · rcases List.mem_append.mp hx with hx | hx
    · rcases List.mem_append.mp hx with hx | hx
      · exact (h.finished x hx).concat
      · exact (hfront x hx).concat
    · obtain rfl := List.mem_singleton.mp hx
      exact Or.inl (by simp [hcalled, key])
  · have hsame : [(r.1, latest t evs r.2)].map key = [r].map key := by simp [key]
    rw [hcalled, List.map_append, List.map_append, hsame]
    exact (h.order.trans ((List.sublist_append_left passed front).map key)).append_right _

end Passing

/-- The invariant holds all along a pass. -/
theorem Registry.Runs.passing {set : FdSet} (h : Runs (s.begin t set) evs s₂)
    (hevs : ∀ ev ∈ evs, ev.InPass t) (hw : s.waiting t = []) :
    ∃ passed rest, Passing t ((s.idle t).filter fun r => set r.2.fd) evs s₂ passed rest := by
  refine h.rule (I := fun evs s' => ∃ passed rest,
    Passing t ((s.idle t).filter fun r => set r.2.fd) evs s' passed rest) hevs ?_ ?_
  · refine ⟨[], _, rfl, ?_, by simp, by simp [called]⟩
    simp [begin, hw, unlistened, latest]
  · rintro evs s₁ ev s₂ hev ⟨passed, rest, hpass⟩ hstep
    cases ev with
    | listen => exact ⟨passed, rest, hpass.call hstep trivial⟩
    | unlisten => exact ⟨passed, rest, hpass.call hstep trivial⟩
    | pass => exact hev.elim
    | dispatch t' e p =>
        obtain rfl : t' = t := hev
        exact hpass.dispatch hstep

/-! ## What stays registered -/

theorem mem_onRegs {r : Reg ε γ π} {l : List (Reg ε γ π)} (hr : r ∈ l)
    (h : ev.unlistens t r.2.fd = false) : (r.1, ev.rehandle t r.2) ∈ ev.onRegs t l :=
  List.mem_map_of_mem (List.mem_filter.mpr ⟨hr, by simp [h]⟩)

/-- Every event changes the registrations of a type as a call does; a pass and a
dispatch only move them. -/
theorem Registry.Step.regs_perm (h : Step s₁ ev s₂) (t : IOEventType) :
    ∃ new, (s₂.regs t).Perm (ev.onRegs t (s₁.regs t) ++ new) ∧
      ∀ fd, fd ∈ new.map (fun r => r.2.fd) ↔ fd ∉ s₁.fds t ∧ ev.registers t fd false := by
  have hcall : ev.IsCall → ∃ new, (s₂.regs t).Perm (ev.onRegs t (s₁.regs t) ++ new) ∧
      ∀ fd, fd ∈ new.map (fun r => r.2.fd) ↔ fd ∉ s₁.fds t ∧ ev.registers t fd false := by
    intro hc
    obtain ⟨new, a⟩ := h.acts hc t
    exact ⟨new, a.regs_perm, a.new⟩
  cases ev with
  | listen => exact hcall trivial
  | unlisten => exact hcall trivial
  | pass t' set =>
      obtain rfl : s₂ = s₁.begin t' set := h
      refine ⟨[], ?_, fun fd => by simp [Event.registers]⟩
      rw [Event.onRegs_eq_self fun r _ => ⟨rfl, rfl⟩, List.append_nil]
      exact regs_begin_perm s₁ t' set t
  | dispatch t' e p =>
      obtain ⟨rest, hw, rfl⟩ := h
      refine ⟨[], ?_, fun fd => by simp [Event.registers]⟩
      rw [Event.onRegs_eq_self fun r _ => ⟨rfl, rfl⟩, List.append_nil]
      exact regs_next_perm hw t

/-- A registration that is not unlistened stays, with what was last set for it. -/
theorem Registry.Runs.kept (h : Runs s evs s₂) {r : Reg ε γ π} (hr : r ∈ s.regs t)
    (hlive : unlistened t r.2.fd evs = false) : (r.1, latest t evs r.2) ∈ s₂.regs t := by
  induction h with
  | nil => exact hr
  | concat _ hstep ih =>
      rw [unlistened_concat, Bool.or_eq_false_iff] at hlive
      obtain ⟨new, hperm, -⟩ := hstep.regs_perm t
      rw [hperm.mem_iff, latest_concat]
      exact List.mem_append_left _ (mem_onRegs (ih hlive.1) (by simpa using hlive.2))

/-- Which descriptors are registered after an event. -/
theorem Registry.Step.mem_fds (h : Step s₁ ev s₂) (fd : ℤ) :
    fd ∈ s₂.fds t ↔ ev.registers t fd (decide (fd ∈ s₁.fds t)) := by
  obtain ⟨new, hperm, hnew⟩ := h.regs_perm t
  have hold : fd ∈ (ev.onRegs t (s₁.regs t)).map (fun r => r.2.fd) ↔
      fd ∈ s₁.fds t ∧ ev.unlistens t fd = false := by
    simp only [Event.onRegs, List.map_map, fds, List.mem_map, List.mem_filter,
      Function.comp_apply, Event.rehandle_fd]
    constructor
    · rintro ⟨r, ⟨hr, hlive⟩, rfl⟩
      exact ⟨⟨r, hr, rfl⟩, by simpa using hlive⟩
    · rintro ⟨⟨r, hr, rfl⟩, hlive⟩
      exact ⟨r, ⟨hr, by simpa using hlive⟩, rfl⟩
  rw [fds, (hperm.map _).mem_iff, List.map_append, List.mem_append, hold, hnew]
  cases ev with
  | listen t' p malloc ret =>
      by_cases hfd : fd ∈ s₁.fds t <;> simp [Event.registers, Event.unlistens, hfd]
  | unlisten t' fd' ret =>
      by_cases hfd : fd ∈ s₁.fds t <;>
        simp [Event.registers, Event.unlistens, hfd, imp_iff_not_or]
  | pass => simp [Event.registers, Event.unlistens]
  | dispatch => simp [Event.registers, Event.unlistens]

/-- Which descriptors are registered after some events. -/
theorem Registry.Runs.mem_fds (h : Runs s evs s₂) (fd : ℤ) :
    fd ∈ s₂.fds t ↔ evs.foldl (Event.registers t fd) (decide (fd ∈ s.fds t)) := by
  induction h with
  | nil => simp
  | @concat evs ev s₁ s₂ _ hstep ih =>
      have hbool : decide (fd ∈ s₁.fds t) =
          evs.foldl (Event.registers t fd) (decide (fd ∈ s.fds t)) := by
        rw [Bool.eq_iff_iff, decide_eq_true_iff]
        exact ih
      rw [hstep.mem_fds fd, List.foldl_concat, hbool]

end Pass

/-! ## The pass -/

section Exact

variable {ε γ π : Type} {t : IOEventType} {evs : List (Event ε γ π)} {s s' : Registry ε γ π}

theorem key_nodup (hd : s.Distinct) (set : FdSet) :
    (((s.idle t).filter fun r => set r.2.fd).map key).Nodup := by
  have hfd : (s.idle t).map (Prod.snd ∘ key) |>.Nodup := by
    have := hd t
    rw [fds, regs, List.map_append] at this
    exact this.of_append_left
  rw [← List.map_map] at hfd
  exact (hfd.of_map _).sublist (List.filter_sublist.map _)

/-- A run of the registry from the start of a pass to the end is an exact pass. -/
theorem Registry.Runs.exactPass {set : FdSet} (h : Runs (s.begin t set) evs s')
    (hevs : ∀ ev ∈ evs, ev.InPass t) (hd : s.Distinct) (hd' : s'.Distinct)
    (hw : s.waiting t = []) (hw' : s'.waiting t = []) :
    ExactPass t set (s.idle t) evs (s'.idle t) := by
  obtain ⟨passed, rest, hpass⟩ := h.passing hevs hw
  have hidle : s.regs t = s.idle t := by simp [regs, hw]
  have hidle' : s'.regs t = s'.idle t := by simp [regs, hw']
  have hbegin := regs_begin_perm s t set t
  refine ⟨hevs, ?_, key_nodup hd set, ?_, fun r hr hset => ?_, fun r hr hlive => ?_,
    fun fd => ?_, ?_⟩
  · rw [hpass.ready, List.map_append]
    exact hpass.order.trans (List.sublist_append_left _ _)
  · rintro A e p B rfl
    obtain ⟨s₁, hA, hB⟩ := h.cut (A ++ [.dispatch t e p]) B (by simp)
    obtain ⟨s₀, hA, hstep⟩ := hA.concat_inv
    obtain ⟨passed, rest, hpass⟩ :=
      Registry.Runs.passing hA (fun ev hev => hevs ev (by simp [hev])) hw
    obtain ⟨tail, hwait, -⟩ := hstep
    obtain ⟨front, r, back, hrest, hfront, hlive, hr, -⟩ := hpass.turn hwait
    refine ⟨passed ++ front, r, back, by simp [hpass.ready, hrest], fun x hx => ?_, hlive,
      congrArg Prod.fst hr, congrArg Prod.snd hr⟩
    exact (List.mem_append.mp hx).elim (hpass.finished x) (hfront x)
  · have hready : r ∈ passed ++ rest := by
      rw [← hpass.ready]
      exact List.mem_filter.mpr ⟨hr, hset⟩
    rcases List.mem_append.mp hready with hr | hr
    · exact hpass.finished r hr
    · have hnone := hpass.waiting.symm.trans hw'
      rw [List.map_eq_nil_iff, List.filter_eq_nil_iff] at hnone
      exact Or.inr (by simpa using hnone r hr)
  · rw [← hidle']
    refine h.kept (hbegin.mem_iff.mpr (hidle ▸ hr)) (by simpa using hlive)
  · have hstart : decide (fd ∈ (s.begin t set).fds t) =
        decide (fd ∈ (s.idle t).map fun r => r.2.fd) := by
      rw [decide_eq_decide, fds, (hbegin.map _).mem_iff, hidle]
    have hfds := h.mem_fds (t := t) fd
    rwa [hstart, fds, hidle'] at hfds
  · have := hd' t
    rwa [fds, hidle'] at this

variable [DecidableEq ε]

/-- A client whose callbacks unlisten the descriptor 5 and listen to 7. -/
def meddler : Client ℕ Unit Unit where
  malloc w :=
    if w.driver.mem (.inr (w.log.length + 2)) = none then some (w.log.length + 2) else none
  calls _ _ _ _ _ := [.unlisten 5 .rx, .listen 7 .rx () ()]
  fresh w e h := by
    split at h
    · next hfree => exact Option.some.inj h ▸ hfree
    · simp at h

end Exact

end IoEvent

end Infra
