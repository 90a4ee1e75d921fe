import Infra.IoEvent.Refinement

/-!
# `check_select` returns

The first loop splits the `io_set` in two, which is how the registry starts a
pass. The second loop empties the working set from the front. A callback may
take registrations out of it but adds none to it, so the loop ends, and each
loop and each search needs no more rounds than there are registrations when it
starts. How many that is depends on the callbacks, so a result is one for all
large numbers of rounds.
-/

namespace Infra

namespace IoEvent

open Infra.LinkedList Registry

section Kinds

variable {ε γ π : Type}

/-- The event is a call into the driver. -/
def Event.IsCall : Event ε γ π → Prop
  | .listen .. | .unlisten .. => True
  | .pass .. | .dispatch .. => False

/-- The event belongs to a pass over the type `t` that has started: it is a call
or a dispatch. -/
def Event.InPass (t : IOEventType) : Event ε γ π → Prop
  | .listen .. | .unlisten .. => True
  | .pass .. => False
  | .dispatch t' .. => t' = t

theorem Event.IsCall.inPass {t : IOEventType} {ev : Event ε γ π} (h : ev.IsCall) :
    ev.InPass t := by
  cases ev with
  | listen => trivial
  | unlisten => trivial
  | pass => exact h.elim
  | dispatch => exact h.elim

variable {s s' : Registry ε γ π}

/-- Once a pass has started no registration is made to wait. -/
theorem Registry.Step.length_waiting {ev : Event ε γ π} {t₀ : IOEventType} (h : Step s ev s')
    (hev : ev.InPass t₀) (t : IOEventType) : (s'.waiting t).length ≤ (s.waiting t).length := by
  have halter : ∀ (t' : IOEventType) (f : List (Reg ε γ π) → List (Reg ε γ π)),
      (∀ l, (f l).length ≤ l.length) →
        ((s.alter t' f).waiting t).length ≤ (s.waiting t).length := by
    intro t' f hf
    by_cases ht : t = t'
    · subst ht
      simpa [alter] using hf _
    · simp [alter, ht]
  cases ev with
  | listen t' p malloc ret =>
      replace h : s.listen t' p malloc = (s', ret) := h
      unfold Registry.listen at h
      split at h
      · cases h
        exact halter t' _ fun l => by simp
      · cases malloc <;> cases h <;> exact le_rfl
  | unlisten t' fd ret =>
      replace h : s.unlisten t' fd = (s', ret) := h
      unfold Registry.unlisten at h
      split at h <;> cases h
      · exact halter t' _ fun l => List.length_filter_le _ l
      · exact le_rfl
  | pass => exact hev.elim
  | dispatch t' e p =>
      obtain ⟨rest, hw, rfl⟩ := h
      by_cases ht : t = t'
      · subst ht
        simp [Registry.next, hw]
      · simp [Registry.next, ht]

theorem Registry.Runs.length_waiting {evs : List (Event ε γ π)} {t₀ : IOEventType}
    (h : Runs s evs s') (hevs : ∀ ev ∈ evs, ev.InPass t₀) (t : IOEventType) :
    (s'.waiting t).length ≤ (s.waiting t).length :=
  h.rule (I := fun _ s' => (s'.waiting t).length ≤ (s.waiting t).length) hevs le_rfl
    fun _ _ _ _ hev hle hstep => (hstep.length_waiting hev t).trans hle

end Kinds

/-- From the world `w` with the registry `s` the events `evs` lead to the world
`w'` with the registry `s'`. -/
structure Advances {ε γ π : Type} (w : World ε γ π) (s : Registry ε γ π)
    (evs : List (Event ε γ π)) (w' : World ε γ π) (s' : Registry ε γ π) : Prop where
  log : w'.log = w.log ++ evs
  runs : Runs s evs s'
  refines : Refines w'.driver s'

section Pass

variable {ε γ π : Type} {w w₁ w₂ : World ε γ π} {s s₁ s₂ : Registry ε γ π}
  {evs evs' : List (Event ε γ π)}

namespace Advances

theorem refl (r : Refines w.driver s) : Advances w s [] w s :=
  ⟨(List.append_nil _).symm, .nil, r⟩

theorem trans (h : Advances w s evs w₁ s₁) (h' : Advances w₁ s₁ evs' w₂ s₂) :
    Advances w s (evs ++ evs') w₂ s₂ :=
  ⟨by rw [h'.log, h.log, List.append_assoc], h.runs.append h'.runs, h'.refines⟩

end Advances

variable [DecidableEq ε]

/-! ## More rounds -/

section Rounds

variable {d : Driver ε γ π} {client : Client ε γ π} {t : IOEventType} {fuel fuel' : ℕ}

/-- More rounds do not change what a function returns. -/
theorem getIoEventElement_mono {fd : ℤ} {r : Option ε} (hle : fuel ≤ fuel')
    (h : getIoEventElement d t fd fuel = some r) : getIoEventElement d t fd fuel' = some r := by
  simp only [getIoEventElement, Option.bind_eq_bind, Option.bind_eq_some_iff] at h ⊢
  obtain ⟨p, hp, h⟩ := h
  refine ⟨p, listFind_mono hle hp, ?_⟩
  cases p with
  | some p => exact h
  | none =>
      obtain ⟨p, hp, h⟩ := Option.bind_eq_some_iff.mp h
      exact Option.bind_eq_some_iff.mpr ⟨p, listFind_mono hle hp, h⟩

theorem doCall_mono {c : Call γ π} (hle : fuel ≤ fuel') (h : doCall client fuel w c = some w₁) :
    doCall client fuel' w c = some w₁ := by
  cases c with
  | listen fd type cb priv =>
      simp only [doCall, listenIoEvent, Option.bind_eq_bind, Option.bind_eq_some_iff] at h ⊢
      obtain ⟨r, ⟨p, hp, hr⟩, h⟩ := h
      exact ⟨r, ⟨p, getIoEventElement_mono hle hp, hr⟩, h⟩
  | unlisten fd type =>
      simp only [doCall, unlistenIoEvent, Option.bind_eq_bind, Option.bind_eq_some_iff] at h ⊢
      obtain ⟨r, ⟨p, hp, hr⟩, h⟩ := h
      exact ⟨r, ⟨p, getIoEventElement_mono hle hp, hr⟩, h⟩

theorem doCalls_mono {cs : List (Call γ π)} (hle : fuel ≤ fuel')
    (h : doCalls client fuel w cs = some w₁) : doCalls client fuel' w cs = some w₁ := by
  induction cs generalizing w with
  | nil => exact h
  | cons c cs ih =>
      obtain ⟨w₂, hc, h⟩ := Option.bind_eq_some_iff.mp h
      exact Option.bind_eq_some_iff.mpr ⟨w₂, doCall_mono hle hc, ih h⟩

theorem drain_mono (hle : fuel ≤ fuel') (h : drain client t fuel w = some w₁) :
    drain client t fuel' w = some w₁ := by
  induction fuel generalizing fuel' w with
  | zero => simp [drain] at h
  | succ fuel ih =>
      obtain ⟨fuel', rfl⟩ : ∃ m, fuel' = m + 1 := ⟨fuel' - 1, by omega⟩
      simp only [drain, Option.bind_eq_bind, Option.bind_eq_some_iff] at h ⊢
      obtain ⟨empty, hempty, h⟩ := h
      refine ⟨empty, hempty, ?_⟩
      split at h
      · next he => rwa [if_pos he]
      · next he =>
        rw [if_neg he]
        obtain ⟨p, hp, h⟩ := Option.bind_eq_some_iff.mp h
        refine Option.bind_eq_some_iff.mpr ⟨p, hp, ?_⟩
        cases p with
        | inl k => exact h
        | inr p =>
            simp only [Option.bind_eq_some_iff] at h ⊢
            obtain ⟨m₁, h₁, m₂, h₂, q, hq, w₂, hc, h⟩ := h
            exact ⟨m₁, h₁, m₂, h₂, q, hq, w₂, doCalls_mono (by omega) hc, ih (by omega) h⟩

theorem checkSelect_mono {set : FdSet} (hle : fuel ≤ fuel')
    (h : checkSelect client set t fuel w = some w₁) :
    checkSelect client set t fuel' w = some w₁ := by
  simp only [checkSelect, collect, Option.bind_eq_bind, Option.bind_eq_some_iff] at h ⊢
  obtain ⟨d, ⟨mem, hmem, hd⟩, h⟩ := h
  exact ⟨d, ⟨mem, listForEachSafe_mono hle hmem, hd⟩, drain_mono hle h⟩

end Rounds

/-! ## Each function returns -/

/-- A call returns. -/
theorem doCall_spec (client : Client ε γ π) (r : Refines w.driver s) (c : Call γ π) :
    ∃ N w' s' ev, (∀ fuel, N < fuel → doCall client fuel w c = some w') ∧
      Advances w s [ev] w' s' ∧ ev.IsCall := by
  cases c with
  | listen fd type cb priv =>
      let p : Element γ π := { fd := fd, cb := cb, priv := priv }
      obtain ⟨d, s', ret, hd, hs, r'⟩ := r.listenIoEvent_spec (client.fresh w) type p
      refine ⟨(s.regs type).length,
        { driver := d, log := w.log ++ [.listen type p (client.malloc w) ret] }, s', _,
        fun fuel hf => ?_,
        ⟨rfl, Trace.single hs, r'⟩, trivial⟩
      have hd := hd fuel hf
      simp only [doCall, Option.bind_eq_bind]
      rw [hd]
      rfl
  | unlisten fd type =>
      obtain ⟨d, s', ret, hd, hs, r'⟩ := r.unlistenIoEvent_spec type fd
      refine ⟨(s.regs type).length,
        { driver := d, log := w.log ++ [.unlisten type fd ret] }, s', _, fun fuel hf => ?_,
        ⟨rfl, Trace.single hs, r'⟩, trivial⟩
      simp [doCall, hd fuel hf]

/-- The calls of a callback return. -/
theorem doCalls_spec (client : Client ε γ π) (r : Refines w.driver s) (cs : List (Call γ π)) :
    ∃ N w' s' evs, (∀ fuel, N < fuel → doCalls client fuel w cs = some w') ∧
      Advances w s evs w' s' ∧ ∀ ev ∈ evs, ev.IsCall := by
  induction cs generalizing w s with
  | nil => exact ⟨0, w, s, [], fun _ _ => rfl, .refl r, by simp⟩
  | cons c cs ih =>
      obtain ⟨N₁, w₁, s₁, ev, h₁, a₁, c₁⟩ := doCall_spec client r c
      obtain ⟨N₂, w₂, s₂, evs, h₂, a₂, c₂⟩ := ih a₁.refines
      refine ⟨max N₁ N₂, w₂, s₂, [ev] ++ evs, fun fuel hf => ?_, a₁.trans a₂, ?_⟩
      · simp [doCalls, h₁ fuel (by omega), h₂ fuel (by omega)]
      · simpa using ⟨c₁, c₂⟩

/-- The first loop of `check_select` starts the pass. -/
theorem collect_spec {d : Driver ε γ π} (r : Refines d s) (set : FdSet) (t : IOEventType) :
    ∃ d', (∀ fuel, (s.idle t).length < fuel → collect d set t fuel = some d') ∧
      Refines d' (s.begin t set) := by
  have hready : ∀ x ∈ s.idle t, fdIsSet d set x.1 = some (set x.2.fd) := by
    intro x hx
    simp [fdIsSet, r.fields t x (List.mem_append_left _ hx)]
  let b : ε → Bool := fun e => (fdIsSet d set e).getD false
  have hb : ∀ x ∈ s.idle t, b x.1 = set x.2.fd := fun x hx => by simp [b, hready x hx]
  have htest : ∀ e ∈ entries s (.ioSet t), fdIsSet d set e = some (b e) := by
    intro e he
    obtain ⟨x, hx, rfl⟩ := List.mem_map.mp he
    rw [hb x hx, hready x hx]
  have hne : Head.ioSet t ≠ .workingSet t := by simp
  obtain ⟨mem, hmem, r', -⟩ := r.rings.moveIf_spec (Set.mem_univ (Head.ioSet t))
    (Set.mem_univ (Head.workingSet t)) hne htest
    (Nat.lt_succ_self (entries s (.ioSet t)).length)
  refine ⟨{ d with mem := mem }, fun fuel hf => ?_,
    r.of_perm (regs_begin_perm s t set) (r'.congr_entries fun k _ => ?_)⟩
  · have hlen : (entries s (.ioSet t)).length + 1 ≤ fuel := by
      simp only [entries, List.length_map]
      omega
    simp [collect, listForEachSafe_mono hlen hmem]
  · have hfilter : ∀ p : Bool → Bool, ((s.idle t).map Prod.fst).filter (fun e => p (b e)) =
        ((s.idle t).filter fun x => p (set x.2.fd)).map Prod.fst := by
      intro p
      rw [List.filter_map]
      exact congrArg _ (List.filter_congr fun x hx => by simp [hb x hx])
    cases k with
    | ioSet t' =>
        rw [Function.update_of_ne (by simp)]
        by_cases ht : t' = t
        · subst ht
          simpa [entries, begin] using (hfilter (! ·)).symm
        · simp [entries, begin, ht]
    | workingSet t' =>
        by_cases ht : t' = t
        · subst ht
          simpa [entries, begin] using (hfilter id).symm
        · simp [entries, begin, ht]

/-- The next registration that waits has its turn. -/
theorem Refines.next {d : Driver ε γ π} (r : Refines d s) {t : IOEventType} {x : Reg ε γ π}
    {rest : List (Reg ε γ π)} (hw : s.waiting t = x :: rest) :
    listEmpty d.mem (.inl (.workingSet t)) = some false ∧
      d.mem.next (.inl (.workingSet t)) = some (.inr x.1) ∧
      d.elements x.1 = some x.2 ∧
      ∃ m₁ m₂, listDelInit d.mem (.inr x.1) = some m₁ ∧
        listAddTail m₁ (.inr x.1) (.inl (.ioSet t)) = some m₂ ∧
        Refines { d with mem := m₂ } (s.next t x rest) := by
  have hx : x ∈ s.regs t := List.mem_append_right _ (by simp [hw])
  have hring := r.rings.ring (.workingSet t) trivial
  have hentries : entries s (.workingSet t) = x.1 :: rest.map Prod.fst := by
    simp [entries, hw]
  rw [hentries, List.map_cons] at hring
  obtain ⟨m₁, h₁, r₁, e₁, -⟩ := r.rings.listDelInit_spec (listed_iff.mpr ⟨t, x, hx, rfl⟩)
  obtain ⟨m₂, h₂, r₂, -⟩ := r₁.listAddTail_spec (k := .ioSet t) trivial
    (e₁.live List.mem_cons_self) (r.rings.not_listed_erase x.1)
  refine ⟨by simpa using hring.listEmpty_eq, hring.next_head_cons, r.fields t x hx, m₁, m₂, h₁,
    h₂, r.of_perm (regs_next_perm hw) (r₂.congr_entries fun k _ => ?_)⟩
  have hother : ∀ k, k ≠ Head.workingSet t → (entries s k).erase x.1 = entries s k := by
    intro k hk
    refine List.erase_of_not_mem fun hm => hk ?_
    exact r.rings.eq_of_mem (Set.mem_univ k) (Set.mem_univ _) hm (by simp [hentries])
  cases k with
  | ioSet t' =>
      by_cases ht : t' = t
      · subst ht
        rw [Function.update_self, hother _ (by simp)]
        simp [entries, Registry.next]
      · rw [Function.update_of_ne (by simpa using ht), hother _ (by simp)]
        simp [entries, Registry.next, ht]
  | workingSet t' =>
      rw [Function.update_of_ne (by simp)]
      by_cases ht : t' = t
      · subst ht
        rw [hentries, List.erase_cons_head]
        simp [entries, Registry.next]
      · rw [hother _ (by simpa using ht)]
        simp [entries, Registry.next, ht]

/-- The second loop of `check_select` returns, with no registration of its type
left waiting. -/
theorem drain_spec (client : Client ε γ π) (r : Refines w.driver s) (t : IOEventType) :
    ∃ N w' s' evs, (∀ fuel, N < fuel → drain client t fuel w = some w') ∧
      Advances w s evs w' s' ∧ (∀ ev ∈ evs, ev.InPass t) ∧ s'.waiting t = [] := by
  induction hn : (s.waiting t).length using Nat.strong_induction_on generalizing w s with
  | _ n ih =>
    cases hw : s.waiting t with
    | nil =>
        have hempty := (r.rings.ring (.workingSet t) trivial).listEmpty_eq
        simp only [entries, hw, List.map_nil, List.isEmpty_nil] at hempty
        refine ⟨0, w, s, [], fun fuel hf => ?_, .refl r, by simp, hw⟩
        obtain ⟨fuel, rfl⟩ := Nat.exists_eq_add_of_lt hf
        simp [drain, hempty]
    | cons x rest =>
        obtain ⟨hempty, hnext, hfield, m₁, m₂, h₁, h₂, r₁⟩ := r.next hw
        let w₁ : World ε γ π :=
          { driver := { w.driver with mem := m₂ }, log := w.log ++ [.dispatch t x.1 x.2] }
        have a₁ : Advances w s [.dispatch t x.1 x.2] w₁ (s.next t x rest) :=
          ⟨rfl, Trace.single ⟨rest, hw, rfl⟩, r₁⟩
        obtain ⟨N₂, w₂, s₂, evs₂, hc, a₂, c₂⟩ :=
          doCalls_spec client (w := w₁) r₁ (client.calls x.2.cb x.2.fd t x.2.priv w₁)
        have hless : (s₂.waiting t).length < n := by
          have := a₂.runs.length_waiting (fun ev hev => (c₂ ev hev).inPass (t := t)) t
          simp only [Registry.next, Function.update_self] at this
          simp only [hw, List.length_cons] at hn
          omega
        obtain ⟨N₃, w₃, s₃, evs₃, hd, a₃, c₃, hend⟩ := ih _ hless a₂.refines rfl
        refine ⟨max N₂ N₃ + 1, w₃, s₃, _, fun fuel hf => ?_, a₁.trans (a₂.trans a₃), ?_, hend⟩
        · obtain ⟨fuel, rfl⟩ : ∃ m, fuel = m + 1 := ⟨fuel - 1, by omega⟩
          have hc := hc fuel (by omega)
          have hd := hd fuel (by omega)
          simp only [drain, hempty, hnext, h₁, h₂, hfield, Option.bind_eq_bind,
            Option.bind_some, Bool.false_eq_true, if_false]
          rw [hc]
          exact hd
        · intro ev hev
          rcases List.mem_append.mp hev with hev | hev
          · obtain rfl := List.mem_singleton.mp hev
            rfl
          · rcases List.mem_append.mp hev with hev | hev
            · exact (c₂ ev hev).inPass
            · exact c₃ ev hev

/-- `check_select` returns: it is a pass of the registry that leaves no
registration of its type waiting. -/
theorem checkSelect_spec (client : Client ε γ π) (r : Refines w.driver s) (set : FdSet)
    (t : IOEventType) :
    ∃ N w' s' evs, (∀ fuel, N < fuel → checkSelect client set t fuel w = some w') ∧
      w'.log = w.log ++ .pass t set :: evs ∧ Runs (s.begin t set) evs s' ∧
      Refines w'.driver s' ∧ (∀ ev ∈ evs, ev.InPass t) ∧ s'.waiting t = [] := by
  obtain ⟨d, hd, r₁⟩ := collect_spec r set t
  obtain ⟨N, w', s', evs, hdrain, a, c, hend⟩ :=
    drain_spec client (w := { driver := d, log := w.log ++ [.pass t set] }) r₁ t
  refine ⟨max (s.idle t).length N, w', s', evs, fun fuel hf => ?_, ?_, a.runs, a.refines, c, hend⟩
  · simp [checkSelect, hd fuel (by omega), hdrain fuel (by omega)]
  · rw [a.log, List.append_assoc, List.singleton_append]

end Pass

end IoEvent

end Infra
