import Infra.IoEvent.Registry

/-!
# The event driver refines the registry

`Refines d s` relates an event driver to a registry. The `io_set` of a type
lists its idle registrations and the `working_set` those that wait, each element
is on one list, and its fields are those of its registration. So an element that
was freed is on no list, and it is not read again.

The search looks through both lists of a type, and finds the registration of the
descriptor if there is one. Each function is then one event of the registry.
-/

namespace Infra

namespace IoEvent

open Infra.LinkedList Registry

/-- The elements that each list holds. -/
def entries {ε γ π : Type} (s : Registry ε γ π) : Head → List ε
  | .ioSet t => (s.idle t).map Prod.fst
  | .workingSet t => (s.waiting t).map Prod.fst

/-- The event driver `d` holds the registrations of the registry `s`. -/
structure Refines {ε γ π : Type} (d : Driver ε γ π) (s : Registry ε γ π) : Prop where
  fields : ∀ t, ∀ r ∈ s.regs t, d.elements r.1 = some r.2
  distinct : s.Distinct
  rings : Rings d.mem Set.univ (entries s)

namespace Refines

variable {ε γ π : Type} {d : Driver ε γ π} {s : Registry ε γ π} {t : IOEventType}

/-- The listed elements are those of the registrations. -/
theorem listed_iff {e : ε} :
    Listed Set.univ (entries s) e ↔ ∃ t, ∃ r ∈ s.regs t, r.1 = e := by
  constructor
  · rintro ⟨k, -, he⟩
    cases k with
    | ioSet t =>
        obtain ⟨r, hr, rfl⟩ := List.mem_map.mp he
        exact ⟨t, r, List.mem_append_left _ hr, rfl⟩
    | workingSet t =>
        obtain ⟨r, hr, rfl⟩ := List.mem_map.mp he
        exact ⟨t, r, List.mem_append_right _ hr, rfl⟩
  · rintro ⟨t, r, hr, rfl⟩
    rcases List.mem_append.mp hr with hr | hr
    · exact ⟨.ioSet t, trivial, List.mem_map_of_mem hr⟩
    · exact ⟨.workingSet t, trivial, List.mem_map_of_mem hr⟩

/-- An element is the element of one registration of one type. -/
theorem eq_of_element (r : Refines d s) {t' : IOEventType} {x y : Reg ε γ π}
    (hx : x ∈ s.regs t) (hy : y ∈ s.regs t') (hxy : x.1 = y.1) : t = t' ∧ x = y := by
  have hfield : x.2 = y.2 := by
    have hx := r.fields t x hx
    rw [hxy, r.fields t' y hy] at hx
    exact (Option.some.inj hx).symm
  refine ⟨?_, Prod.ext hxy hfield⟩
  have hside : ∀ {t : IOEventType} {z : Reg ε γ π}, z ∈ s.regs t →
      z.1 ∈ entries s (.ioSet t) ∨ z.1 ∈ entries s (.workingSet t) := by
    intro t z hz
    exact (List.mem_append.mp hz).imp List.mem_map_of_mem List.mem_map_of_mem
  have hdisj : ∀ j k e, e ∈ entries s j → e ∈ entries s k → j = k :=
    fun j k e hj hk => r.rings.disjoint j trivial k trivial e hj hk
  rcases hside hx with hx | hx <;> rcases hside hy with hy | hy <;>
    · have := hdisj _ _ _ hx (hxy ▸ hy)
      cases this <;> rfl

/-- The registrations may move between the lists of their types. -/
theorem of_perm {s' : Registry ε γ π} {mem : Heap (Node ε)} (r : Refines d s)
    (hp : ∀ t, (s'.regs t).Perm (s.regs t)) (rings : Rings mem Set.univ (entries s')) :
    Refines { d with mem := mem } s' :=
  ⟨fun t x hx => r.fields t x ((hp t).mem_iff.mp hx),
    fun t => ((hp t).map _).nodup_iff.mpr (r.distinct t), rings⟩

/-! ## The search -/

/-- The comparison tells whether the registration of an element is for the
descriptor. -/
theorem hasFd_eq (r : Refines d s) (fd : ℤ) {x : Reg ε γ π} (hx : x ∈ s.regs t) :
    hasFd d fd (.inr x.1) = some (decide (x.2.fd = fd)) := by
  simp [hasFd, r.fields t x hx]

variable [DecidableEq ε]

/-- A search in one list of a type. -/
theorem listFind_eq (r : Refines d s) {k : Head} {l : List (Reg ε γ π)} {fd : ℤ} {fuel : ℕ}
    (hk : entries s k = l.map Prod.fst) (hl : ∀ x ∈ l, x ∈ s.regs t) (hf : l.length < fuel) :
    listFind d.mem (hasFd d fd) (.inl k) fuel =
      some ((l.find? fun x => decide (x.2.fd = fd)).map fun x => .inr x.1) := by
  have hring := r.rings.ring k trivial
  rw [hk, List.map_map] at hring
  have htest : ∀ a ∈ l.map (Sum.inr ∘ Prod.fst),
      hasFd d fd a = some ((hasFd d fd a).getD false) := by
    intro a ha
    obtain ⟨x, hx, rfl⟩ := List.mem_map.mp ha
    rw [Function.comp_apply, r.hasFd_eq fd (hl x hx), Option.getD_some]
  rw [hring.listFind_eq htest (by simpa using hf), List.find?_map]
  have hsame : l.find? ((fun a => (hasFd d fd a).getD false) ∘ Sum.inr ∘ Prod.fst) =
      l.find? fun x => decide (x.2.fd = fd) :=
    List.find?_congr fun x hx => by simp [r.hasFd_eq fd (hl x hx)]
  rw [hsame]
  rfl

/-- `get_io_event_element` finds the registration of the descriptor. -/
theorem getIoEventElement_eq (r : Refines d s) (fd : ℤ) {fuel : ℕ}
    (hf : (s.regs t).length < fuel) :
    getIoEventElement d t fd fuel =
      some (((s.regs t).find? fun x => decide (x.2.fd = fd)).map Prod.fst) := by
  have hlen : (s.idle t).length + (s.waiting t).length < fuel := by
    simpa [regs] using hf
  rw [getIoEventElement, r.listFind_eq (k := .ioSet t) (t := t) rfl
    (fun x hx => List.mem_append_left _ hx) (by omega)]
  rw [r.listFind_eq (k := .workingSet t) (t := t) rfl
    (fun x hx => List.mem_append_right _ hx) (by omega), regs, List.find?_append]
  cases hidle : (s.idle t).find? fun x => decide (x.2.fd = fd) with
  | some x => simp
  | none => cases (s.waiting t).find? fun x => decide (x.2.fd = fd) <;> simp

theorem getIoEventElement_mem (r : Refines d s) {x : Reg ε γ π} (hx : x ∈ s.regs t) {fuel : ℕ}
    (hf : (s.regs t).length < fuel) : getIoEventElement d t x.2.fd fuel = some (some x.1) := by
  rw [r.getIoEventElement_eq x.2.fd hf]
  cases hfind : (s.regs t).find? fun y => decide (y.2.fd = x.2.fd) with
  | none =>
      have := List.find?_eq_none.mp hfind x hx
      simp at this
  | some y =>
      have hfd : y.2.fd = x.2.fd := by simpa using List.find?_some hfind
      rw [r.distinct.eq_of_fd (List.mem_of_find?_eq_some hfind) hx hfd]
      rfl

theorem getIoEventElement_notMem (r : Refines d s) {fd : ℤ} (hfd : fd ∉ s.fds t) {fuel : ℕ}
    (hf : (s.regs t).length < fuel) : getIoEventElement d t fd fuel = some none := by
  rw [r.getIoEventElement_eq fd hf]
  have hfind : ((s.regs t).find? fun x => decide (x.2.fd = fd)) = none := by
    rw [List.find?_eq_none]
    intro x hx
    simpa using fun h => hfd (mem_fds.mpr ⟨x, hx, h⟩)
  rw [hfind]
  rfl

/-! ## `init_io_event_driver` -/

/-- `init_io_event_driver` leaves no registration. -/
theorem of_initIoEventDriver (d : Driver ε γ π) (pollInterval : ℤ)
    (hl : ∀ k, d.mem.Live (.inl k)) :
    ∃ d', initIoEventDriver d pollInterval = some (d', 0) ∧
      Refines d' ⟨fun _ => [], fun _ => []⟩ := by
  have r₀ : Rings d.mem (∅ : Set Head) fun _ => ([] : List ε) := Rings.of_nil (by simp)
  obtain ⟨m₁, h₁, r₁, l₁⟩ := r₀.initListHead_spec hl (.ioSet .rx)
  obtain ⟨m₂, h₂, r₂, l₂⟩ := r₁.initListHead_spec l₁ (.ioSet .tx)
  obtain ⟨m₃, h₃, r₃, l₃⟩ := r₂.initListHead_spec l₂ (.ioSet .error)
  obtain ⟨m₄, h₄, r₄, l₄⟩ := r₃.initListHead_spec l₃ (.workingSet .rx)
  obtain ⟨m₅, h₅, r₅, l₅⟩ := r₄.initListHead_spec l₄ (.workingSet .tx)
  obtain ⟨m₆, h₆, r₆, l₆⟩ := r₅.initListHead_spec l₅ (.workingSet .error)
  refine ⟨{ d with pollInterval := pollInterval, maxFd := 0, mem := m₆ },
    by simp [initIoEventDriver, h₁, h₂, h₃, h₄, h₅, h₆], by simp [regs], fun t => by
      simp [fds, regs], ?_⟩
  refine (r₆.mono fun k _ => ?_).congr_entries fun k _ => by cases k <;> rfl
  rcases k with t | t <;> cases t <;> simp

/-! ## `listen_io_event` -/

omit [DecidableEq ε] in
theorem entries_setHandler (p : Element γ π) :
    entries (s.alter t (List.map (setHandler p))) = entries s := by
  funext k
  have hfst : Prod.fst ∘ setHandler (ε := ε) p = Prod.fst := funext fun r => setHandler_fst p r
  cases k with
  | ioSet t' =>
      by_cases ht : t' = t
      · subst ht
        simp [entries, alter, List.map_map, hfst]
      · simp [entries, alter, ht]
  | workingSet t' =>
      by_cases ht : t' = t
      · subst ht
        simp [entries, alter, List.map_map, hfst]
      · simp [entries, alter, ht]

omit [DecidableEq ε] in
theorem distinct_setHandler (h : s.Distinct) (p : Element γ π) :
    (s.alter t (List.map (setHandler p))).Distinct := by
  intro t'
  by_cases ht : t' = t
  · subst ht
    have hfd : (fun r : Reg ε γ π => r.2.fd) ∘ setHandler p = fun r => r.2.fd :=
      funext fun r => setHandler_fd p r
    rw [fds, regs_alter_self fun _ _ => List.map_append, List.map_map, hfd]
    exact h t'
  · rw [fds, regs_alter_of_ne ht]
    exact h t'

/-- A listen on a registered descriptor. -/
theorem listen_registered (r : Refines d s) {x : Reg ε γ π} {p : Element γ π} (hx : x ∈ s.regs t)
    (hp : x.2.fd = p.fd) :
    Refines { d with elements := Function.update d.elements x.1 (some p) }
      (s.alter t (List.map (setHandler p))) := by
  refine ⟨fun t' y hy => ?_, distinct_setHandler r.distinct p, ?_⟩
  · by_cases ht : t' = t
    · subst ht
      rw [regs_alter_self fun _ _ => List.map_append] at hy
      obtain ⟨z, hz, rfl⟩ := List.mem_map.mp hy
      by_cases hzx : z = x
      · subst hzx
        simp [setHandler, hp]
      · have hne : z.1 ≠ x.1 := fun h => hzx (r.eq_of_element hz hx h).2
        have hfd : z.2.fd ≠ p.fd := fun h => hzx (r.distinct.eq_of_fd hz hx (h.trans hp.symm))
        simpa [setHandler, hfd, Function.update_of_ne hne] using r.fields t' z hz
    · rw [regs_alter_of_ne ht] at hy
      have hne : y.1 ≠ x.1 := fun h => ht (r.eq_of_element hy hx h).1
      simpa [Function.update_of_ne hne] using r.fields t' y hy
  · rw [entries_setHandler]
    exact r.rings

/-- A listen on another descriptor, with memory for its element. -/
theorem listen_new (r : Refines d s) {e : ε} (he : d.mem (.inr e) = none) {p : Element γ π}
    (hp : p.fd ∉ s.fds t) :
    ∃ mem, listAddTail (d.mem.alloc (.inr e)) (.inr e) (.inl (.ioSet t)) = some mem ∧
      Refines { d with mem := mem, elements := Function.update d.elements e (some p) }
        { s with idle := Function.update s.idle t (s.idle t ++ [(e, p)]) } := by
  have hnot : ¬ Listed Set.univ (entries s) e := by
    intro h
    have := r.rings.live h
    simp [Heap.Live, he] at this
  have r₀ : Rings (d.mem.alloc (.inr e)) Set.univ (entries s) := by
    refine r.rings.congr fun a ha => Function.update_of_ne ?_ _ _
    rintro rfl
    exact hnot ha
  obtain ⟨mem, hmem, r₁, -⟩ := r₀.listAddTail_spec (k := .ioSet t) trivial
    (by simp [Heap.Live, Heap.alloc]) hnot
  have hregs : ∀ t' y,
      y ∈ regs { s with idle := Function.update s.idle t (s.idle t ++ [(e, p)]) } t' ↔
        y ∈ s.regs t' ∨ t' = t ∧ y = (e, p) := by
    intro t' y
    by_cases ht : t' = t
    · subst ht
      simp only [regs, Function.update_self, List.mem_append, List.mem_singleton, true_and]
      tauto
    · simp [regs, ht]
  refine ⟨mem, hmem, fun t' y hy => ?_, fun t' => ?_, ?_⟩
  · rcases (hregs t' y).mp hy with hy | ⟨-, rfl⟩
    · have hne : y.1 ≠ e := fun h => hnot (listed_iff.mpr ⟨t', y, hy, h⟩)
      simpa [Function.update_of_ne hne] using r.fields t' y hy
    · simp
  · by_cases ht : t' = t
    · subst ht
      have hperm :
          (fds { s with idle := Function.update s.idle t' (s.idle t' ++ [(e, p)]) } t').Perm
            (p.fd :: s.fds t') := by
        simp only [fds, regs, Function.update_self]
        rw [List.append_assoc, ← List.map_cons (f := fun r : Reg ε γ π => r.2.fd) (a := (e, p))]
        exact List.perm_middle.map _
      exact hperm.nodup_iff.mpr (List.nodup_cons.mpr ⟨hp, r.distinct t'⟩)
    · simpa [fds, regs, Function.update_of_ne ht] using r.distinct t'
  · refine r₁.congr_entries fun k _ => ?_
    cases k with
    | ioSet t' =>
        by_cases ht : t' = t
        · subst ht
          simp [entries]
        · simp [entries, ht]
    | workingSet t' => simp [entries]

/-- `listen_io_event` is one listen of the registry. -/
theorem listenIoEvent_spec (r : Refines d s) {malloc : Option ε}
    (hm : ∀ e, malloc = some e → d.mem (.inr e) = none) (t : IOEventType) (p : Element γ π) :
    ∃ d' s' ret, (∀ fuel, (s.regs t).length < fuel →
        listenIoEvent d malloc fuel p.fd t p.cb p.priv = some (d', ret)) ∧
      s.listen t p malloc = (s', ret) ∧ Refines d' s' := by
  by_cases hp : p.fd ∈ s.fds t
  · obtain ⟨x, hx, hfd⟩ := mem_fds.mp hp
    refine ⟨_, _, 0, fun fuel hf => ?_, if_pos hp, r.listen_registered hx hfd⟩
    have hfound := r.getIoEventElement_mem hx hf
    rw [hfd] at hfound
    simp only [listenIoEvent, hfound, Option.bind_eq_bind, Option.bind_some, r.fields t x hx, hfd]
  · cases malloc with
    | none =>
        refine ⟨d, s, -1, fun fuel hf => ?_, by simp [Registry.listen, hp], r⟩
        simp [listenIoEvent, r.getIoEventElement_notMem hp hf]
    | some e =>
        obtain ⟨mem, hmem, r'⟩ := r.listen_new (hm e rfl) hp
        refine ⟨_, _, 0, fun fuel hf => ?_, by simp [Registry.listen, hp], r'⟩
        simp [listenIoEvent, r.getIoEventElement_notMem hp hf, hmem]

/-! ## `unlisten_io_event` -/

/-- Taking the element of a registration out of every list takes the
registration out of the registry. -/
theorem entries_remove (r : Refines d s) {x : Reg ε γ π} (hx : x ∈ s.regs t) (k : Head) :
    (entries s k).erase x.1 =
      entries (s.alter t (List.filter fun y => y.2.fd ≠ x.2.fd)) k := by
  have hfilter : ∀ t' (l : List (Reg ε γ π)), (∀ y ∈ l, y ∈ s.regs t') →
      (l.map Prod.fst).filter (fun e => e != x.1) =
        (if t' = t then l.filter fun y => y.2.fd ≠ x.2.fd else l).map Prod.fst := by
    intro t' l hl
    rw [List.filter_map]
    split
    · next ht =>
      subst ht
      refine congrArg _ (List.filter_congr fun y hy => ?_)
      have hiff : y.1 = x.1 ↔ y.2.fd = x.2.fd :=
        ⟨fun h => by rw [(r.eq_of_element (hl y hy) hx h).2],
          fun h => by rw [r.distinct.eq_of_fd (hl y hy) hx h]⟩
      simp [bne, Bool.beq_eq_decide_eq, hiff]
    · next ht =>
      rw [List.filter_eq_self.mpr fun y hy => ?_]
      simpa using fun h => ht (r.eq_of_element (hl y hy) hx h).1
  rw [(r.rings.nodup (Set.mem_univ k)).erase_eq_filter]
  cases k with
  | ioSet t' =>
      rw [entries, hfilter t' _ fun y hy => List.mem_append_left _ hy]
      by_cases ht : t' = t
      · subst ht
        simp [entries, alter]
      · simp [entries, alter, ht]
  | workingSet t' =>
      rw [entries, hfilter t' _ fun y hy => List.mem_append_right _ hy]
      by_cases ht : t' = t
      · subst ht
        simp [entries, alter]
      · simp [entries, alter, ht]

/-- The element of a registration is taken out of its list and freed. -/
theorem release (r : Refines d s) {x : Reg ε γ π} (hx : x ∈ s.regs t) :
    ∃ mem, listDelInit d.mem (.inr x.1) = some mem ∧
      Refines { d with mem := mem.free (.inr x.1)
                       elements := Function.update d.elements x.1 none }
        (s.alter t (List.filter fun y => y.2.fd ≠ x.2.fd)) := by
  obtain ⟨mem, hmem, r', -, -⟩ := r.rings.listDelInit_spec (listed_iff.mpr ⟨t, x, hx, rfl⟩)
  have hold : ∀ t' y, y ∈ regs (s.alter t (List.filter fun y => y.2.fd ≠ x.2.fd)) t' →
      y ∈ s.regs t' ∧ ¬ (t' = t ∧ y = x) := by
    intro t' y hy
    by_cases ht : t' = t
    · subst ht
      rw [regs_alter_self fun _ _ => List.filter_append ..] at hy
      obtain ⟨hy, hfd⟩ := List.mem_filter.mp hy
      refine ⟨hy, ?_⟩
      rintro ⟨-, rfl⟩
      simp at hfd
    · rw [regs_alter_of_ne ht] at hy
      exact ⟨hy, fun h => ht h.1⟩
  refine ⟨mem, hmem, fun t' y hy => ?_, fun t' => ?_, ?_⟩
  · obtain ⟨hy, hne⟩ := hold t' y hy
    have hne : y.1 ≠ x.1 := fun h => hne (r.eq_of_element hy hx h)
    simpa [Function.update_of_ne hne] using r.fields t' y hy
  · by_cases ht : t' = t
    · subst ht
      rw [fds, regs_alter_self fun _ _ => List.filter_append ..]
      exact (r.distinct t').sublist (List.filter_sublist.map _)
    · rw [fds, regs_alter_of_ne ht]
      exact r.distinct t'
  · have hfree : Rings (mem.free (.inr x.1)) Set.univ fun k => (entries s k).erase x.1 := by
      refine r'.congr fun a ha => Function.update_of_ne ?_ _ _
      rintro rfl
      exact r.rings.not_listed_erase x.1 ha
    exact hfree.congr_entries fun k _ => (r.entries_remove hx k).symm

/-- `unlisten_io_event` is one unlisten of the registry. -/
theorem unlistenIoEvent_spec (r : Refines d s) (t : IOEventType) (fd : ℤ) :
    ∃ d' s' ret, (∀ fuel, (s.regs t).length < fuel →
        unlistenIoEvent d fuel fd t = some (d', ret)) ∧
      s.unlisten t fd = (s', ret) ∧ Refines d' s' := by
  by_cases hfd : fd ∈ s.fds t
  · obtain ⟨x, hx, rfl⟩ := mem_fds.mp hfd
    obtain ⟨mem, hmem, r'⟩ := r.release hx
    refine ⟨_, _, 0, fun fuel hf => ?_, by rw [Registry.unlisten, if_pos hfd], r'⟩
    simp [unlistenIoEvent, r.getIoEventElement_mem hx hf, hmem]
  · refine ⟨d, s, -1, fun fuel hf => ?_, by rw [Registry.unlisten, if_neg hfd], r⟩
    simp [unlistenIoEvent, r.getIoEventElement_notMem hfd hf]

end Refines

end IoEvent

end Infra
