import Infra.IoEvent.Moments

/-!
# The elements from `malloc` to `free`

The elements of an event driver come from `listen_io_event` and go with
`unlisten_io_event`, or with `deinit_io_event_driver` at the end. At every moment in
between those that are allocated are the elements of the registrations, so none is
lost, and the end frees all of them.
-/

namespace Infra

namespace IoEvent

open Infra.LinkedList Registry

section Functions

variable {ε γ π : Type} [DecidableEq ε]

/-- The body of the loop of `free_io_event_list`. -/
def freeElement (p : Node ε) (driver : Driver ε γ π) : Option (Driver ε γ π) :=
  match p with
  | .inl _ => none
  | .inr p => do
      let mem ← listDelInit driver.mem (.inr p)
      some { driver with mem := mem.free (.inr p)
                         elements := Function.update driver.elements p none }

/-- `free_io_event_list`. -/
def freeIoEventList (driver : Driver ε γ π) (head : Head) (fuel : ℕ) : Option (Driver ε γ π) :=
  listForEachSafe Driver.mem freeElement (.inl head) fuel driver

/-- `deinit_io_event_driver`. -/
def deinitIoEventDriver (driver : Driver ε γ π) (fuel : ℕ) : Option (Driver ε γ π) := do
  let driver ← freeIoEventList driver (.ioSet .rx) fuel
  let driver ← freeIoEventList driver (.ioSet .tx) fuel
  let driver ← freeIoEventList driver (.ioSet .error) fuel
  let driver ← freeIoEventList driver (.workingSet .rx) fuel
  let driver ← freeIoEventList driver (.workingSet .tx) fuel
  freeIoEventList driver (.workingSet .error) fuel

end Functions

variable {ε γ π : Type} [DecidableEq ε] {d d' d₀ : Driver ε γ π} {s s' : Registry ε γ π}
  {m m' : Moment ε γ π} {t : IOEventType}

/-- Every allocated element is that of a registration. -/
def Covered (d : Driver ε γ π) (s : Registry ε γ π) : Prop :=
  ∀ e, d.mem.Live (.inr e) → Listed Set.univ (entries s) e

/-! ## The moves -/

theorem live_moveIf {test : ε → Option Bool} {dest : Head} {p : Node ε} {mem mem' : Heap (Node ε)}
    {a : Node ε} (h : moveIf test dest p mem = some mem') : mem'.Live a ↔ mem.Live a := by
  cases p with
  | inl k => cases h
  | inr e =>
      obtain ⟨found, -, h⟩ := Option.bind_eq_some_iff.mp h
      cases found with
      | false =>
          obtain rfl := Option.some.inj h
          exact Iff.rfl
      | true =>
          obtain ⟨mem₁, hdel, hadd⟩ := Option.bind_eq_some_iff.mp h
          exact (live_listAddTail hadd).trans (live_listDel hdel)

/-- What a pass does allocates nothing and frees nothing. -/
theorem live_work {a : Node ε} (h : work m = some m') :
    m'.driver.mem.Live a ↔ m.driver.mem.Live a := by
  obtain ⟨driver, control⟩ := m
  cases control with
  | outside => cases h
  | collecting type set p n =>
      simp only [work] at h
      split at h
      · obtain rfl := Option.some.inj h
        exact Iff.rfl
      · obtain ⟨mem, hmove, h⟩ := Option.bind_eq_some_iff.mp h
        obtain ⟨n', -, h⟩ := Option.bind_eq_some_iff.mp h
        obtain rfl := Option.some.inj h
        exact live_moveIf hmove
  | draining type =>
      obtain ⟨empty, -, h⟩ := Option.bind_eq_some_iff.mp h
      cases empty with
      | true =>
          obtain rfl := Option.some.inj h
          exact Iff.rfl
      | false =>
          obtain ⟨p, -, h⟩ := Option.bind_eq_some_iff.mp h
          cases p with
          | inl k => cases h
          | inr e =>
              obtain ⟨mem₁, hdel, h⟩ := Option.bind_eq_some_iff.mp h
              obtain ⟨mem₂, hadd, h⟩ := Option.bind_eq_some_iff.mp h
              obtain ⟨q, -, h⟩ := Option.bind_eq_some_iff.mp h
              obtain rfl := Option.some.inj h
              exact (live_listAddTail hadd).trans (live_listDelInit hdel)
  | inCallback type =>
      obtain rfl := Option.some.inj h
      exact Iff.rfl

/-- A listen allocates at most the element of its registration. -/
theorem Refines.covered_listen (r : Refines d s) (hc : Covered d s) {malloc : Option ε}
    (hm : ∀ e, malloc = some e → d.mem (.inr e) = none) (t : IOEventType) (p : Element γ π) :
    ∃ d' s' ret, (∀ fuel, (s.regs t).length < fuel →
        listenIoEvent d malloc fuel p.fd t p.cb p.priv = some (d', ret)) ∧
      Refines d' s' ∧ Covered d' s' := by
  by_cases hp : p.fd ∈ s.fds t
  · obtain ⟨x, hx, hfd⟩ := mem_fds.mp hp
    refine ⟨_, _, 0, fun fuel hf => ?_, r.listen_registered hx hfd, ?_⟩
    · have hfound := r.getIoEventElement_mem hx hf
      rw [hfd] at hfound
      simp only [listenIoEvent, hfound, Option.bind_eq_bind, Option.bind_some, r.fields t x hx,
        hfd]
    · rw [Covered, entries_setHandler]
      exact hc
  · cases malloc with
    | none =>
        refine ⟨d, s, -1, fun fuel hf => ?_, r, hc⟩
        simp [listenIoEvent, r.getIoEventElement_notMem hp hf]
    | some e =>
        obtain ⟨mem, hmem, r'⟩ := r.listen_new (hm e rfl) hp
        refine ⟨_, _, 0, fun fuel hf => ?_, r', fun e' he' => ?_⟩
        · simp [listenIoEvent, r.getIoEventElement_notMem hp hf, hmem]
        · have hlive := (live_listAddTail hmem).mp he'
          by_cases hee : e' = e
          · subst hee
            exact Refines.listed_iff.mpr ⟨t, (e', p), by simp [regs], rfl⟩
          · have hold : d.mem.Live (.inr e') := by
              simpa [Heap.Live, Heap.alloc, Function.update_of_ne, hee] using hlive
            obtain ⟨t', y, hy, rfl⟩ := Refines.listed_iff.mp (hc e' hold)
            refine Refines.listed_iff.mpr ⟨t', y, ?_, rfl⟩
            by_cases ht : t' = t
            · subst ht
              simp only [regs, Function.update_self, List.mem_append] at hy ⊢
              tauto
            · simpa [regs, Function.update_of_ne ht] using hy

/-- An unlisten frees the element of the registration that it takes out. -/
theorem Refines.covered_unlisten (r : Refines d s) (hc : Covered d s) (t : IOEventType) (fd : ℤ) :
    ∃ d' s' ret, (∀ fuel, (s.regs t).length < fuel →
        unlistenIoEvent d fuel fd t = some (d', ret)) ∧ Refines d' s' ∧ Covered d' s' := by
  by_cases hfd : fd ∈ s.fds t
  · obtain ⟨x, hx, rfl⟩ := mem_fds.mp hfd
    obtain ⟨mem, hmem, r'⟩ := r.release hx
    refine ⟨_, _, 0, fun fuel hf => ?_, r', fun e he => ?_⟩
    · simp [unlistenIoEvent, r.getIoEventElement_mem hx hf, hmem]
    · have hne : e ≠ x.1 := by
        rintro rfl
        simp [Heap.Live, Heap.free] at he
      have hold : d.mem.Live (.inr e) := by
        refine (live_listDelInit hmem).mp ?_
        simpa [Heap.Live, Heap.free, Function.update_of_ne, hne] using he
      obtain ⟨k, hk, hek⟩ := hc e hold
      refine ⟨k, hk, ?_⟩
      rw [← r.entries_remove hx k]
      exact (List.mem_erase_of_ne hne).mpr hek
  · refine ⟨d, s, -1, fun fuel hf => ?_, r, hc⟩
    simp [unlistenIoEvent, r.getIoEventElement_notMem hfd hf]

theorem Refines.covered_enterCall (r : Refines d s) (hc : Covered d s) {malloc : Option ε}
    (hm : ∀ e, malloc = some e → d.mem (.inr e) = none) (c : Call γ π) :
    ∃ N d' s' ret, (∀ fuel, N < fuel →
        IoEvent.enterCall d malloc fuel c = some (d', ret)) ∧ Refines d' s' ∧ Covered d' s' := by
  cases c with
  | listen fd type cb priv => exact ⟨_, r.covered_listen hc hm type ⟨fd, cb, priv⟩⟩
  | unlisten fd type => exact ⟨_, r.covered_unlisten hc type fd⟩

/-- Every move leaves the allocated elements those of the registrations. -/
theorem Holds.covered_move {move : Move ε γ π} (h : Holds m s) (hc : Covered m.driver s)
    (hmove : Happens m move m') : ∃ s', Holds m' s' ∧ Covered m'.driver s' := by
  cases move with
  | call c malloc ret =>
      obtain ⟨hcall, hm, fuel, d₁, hret, rfl⟩ := hmove
      obtain ⟨N, d', s', ret', hd, r', hc'⟩ := h.1.covered_enterCall hc hm c
      have hsame := enterCall_mono (le_max_left fuel (N + 1)) hret
      rw [hd _ (by omega)] at hsame
      obtain ⟨rfl, rfl⟩ := Prod.mk.inj (Option.some.inj hsame)
      refine ⟨s', ⟨r', ?_⟩, hc'⟩
      cases hcontrol : m.control with
      | collecting => exact (hcontrol ▸ hcall : Control.MayCall (.collecting ..)).elim
      | _ => trivial
  | enter t set =>
      obtain ⟨m'', henter, hdriver, hholds⟩ := h.1.enterPass t set
      obtain rfl := Option.some.inj (henter.symm.trans hmove.2)
      exact ⟨s, hholds, hdriver ▸ hc⟩
  | work =>
      have hm : m.control ≠ .outside := by
        intro hm
        simp only [Happens, IoEvent.work, hm] at hmove
        cases hmove
      obtain ⟨m'', s', hwork, hholds, hperm⟩ := h.work hm
      obtain rfl := Option.some.inj (hwork.symm.trans hmove)
      refine ⟨s', hholds, fun e he => ?_⟩
      obtain ⟨t, x, hx, rfl⟩ := Refines.listed_iff.mp (hc e ((live_work hwork).mp he))
      exact Refines.listed_iff.mpr ⟨t, x, (hperm t).mem_iff.mpr hx, rfl⟩

/-! ## The end -/

/-- The invariant of the loop of `free_io_event_list`: the elements behind it are freed, and
the list is that of the elements ahead of it. -/
def FreedTo (d : Driver ε γ π) (R : Head → List ε) (k : Head) (done todo : List (Node ε))
    (d' : Driver ε γ π) : Prop :=
  ∃ as bs : List ε, done = as.map .inr ∧ todo = bs.map .inr ∧
    Rings d'.mem Set.univ (Function.update R k bs) ∧
    ∀ e, d'.mem.Live (.inr e) ↔ d.mem.Live (.inr e) ∧ e ∉ as

variable {R : Head → List ε} {k : Head} {done todo : List (Node ε)} {x : Node ε}

omit [DecidableEq ε] in
theorem FreedTo.walk (h : FreedTo d R k done todo d') : Walk d'.mem (.inl k) todo := by
  obtain ⟨as, bs, -, rfl, rings, -⟩ := h
  have hring := rings.ring k trivial
  rw [Function.update_self] at hring
  exact (Walk.of_ring hring).1

/-- One round of the loop. -/
theorem FreedTo.step (h : FreedTo d R k done (x :: todo) d') :
    ∃ d'', freeElement x d' = some d'' ∧ FreedTo d R k (done ++ [x]) todo d'' := by
  obtain ⟨as, bs, rfl, hbs, rings, hlive⟩ := h
  cases bs with
  | nil => simp at hbs
  | cons e bs =>
      simp only [List.map_cons, List.cons.injEq] at hbs
      obtain ⟨rfl, rfl⟩ := hbs
      have hlisted : Listed Set.univ (Function.update R k (e :: bs)) e := ⟨k, trivial, by simp⟩
      obtain ⟨mem, hmem, r', -, -⟩ := rings.listDelInit_spec hlisted
      refine ⟨{ d' with mem := mem.free (.inr e)
                        elements := Function.update d'.elements e none },
        by simp [freeElement, hmem], as ++ [e], bs, by simp, rfl, ?_, fun e' => ?_⟩
      · have hfree : Rings (mem.free (.inr e)) Set.univ
            fun j => (Function.update R k (e :: bs) j).erase e := by
          refine r'.congr fun a ha => Function.update_of_ne ?_ _ _
          rintro rfl
          exact rings.not_listed_erase e ha
        refine hfree.congr_entries fun j hj => ?_
        by_cases hjk : j = k
        · subst hjk
          simp
        · rw [Function.update_of_ne hjk, Function.update_of_ne hjk, List.erase_of_not_mem]
          intro hm
          exact hjk (rings.eq_of_mem hj trivial (e := e) (by simpa [hjk] using hm) (by simp))
      · by_cases he : e' = e
        · subst he
          simp [Heap.Live, Heap.free]
        · have hsame : (mem.free (.inr e)).Live (.inr e') ↔ mem.Live (.inr e') := by
            simp [Heap.Live, Heap.free, Function.update_of_ne, he]
          rw [hsame, live_listDelInit hmem, hlive, List.mem_append, List.mem_singleton,
            or_iff_left he]

/-- `free_io_event_list` frees the elements of its list, and no others. -/
theorem freeIoEventList_spec (rings : Rings d.mem Set.univ R) {fuel : ℕ}
    (hf : (R k).length < fuel) :
    ∃ d', freeIoEventList d k fuel = some d' ∧
      Rings d'.mem Set.univ (Function.update R k []) ∧
      ∀ e, d'.mem.Live (.inr e) ↔ d.mem.Live (.inr e) ∧ e ∉ R k := by
  have hstart : FreedTo d R k [] ((R k).map .inr) d :=
    ⟨[], R k, rfl, rfl, by rwa [Function.update_eq_self], by simp⟩
  obtain ⟨d', hrun, as, bs, has, hbs, rings', hlive⟩ :=
    (rings.ring k trivial).listForEachSafe_rule (I := FreedTo d R k)
      (fun _ _ _ h => h.walk) (fun _ _ _ _ h => h.step) hstart (by simpa using hf)
  obtain rfl : as = R k := (List.map_injective_iff.mpr Sum.inr_injective has).symm
  obtain rfl : bs = [] := by simpa using hbs
  exact ⟨d', hrun, rings', hlive⟩

/-- The lists that are freed one after the other are empty then, and their elements are
freed. -/
theorem freeIoEventLists_spec (rings : Rings d.mem Set.univ R) {fuel : ℕ}
    (hf : ∀ k, (R k).length < fuel) (heads : List Head) :
    ∃ d', heads.foldlM (fun d k => freeIoEventList d k fuel) d = some d' ∧
      Rings d'.mem Set.univ (fun k => if k ∈ heads then [] else R k) ∧
      ∀ e, d'.mem.Live (.inr e) ↔ d.mem.Live (.inr e) ∧ ∀ k ∈ heads, e ∉ R k := by
  induction heads generalizing d R with
  | nil => exact ⟨d, rfl, rings.congr_entries fun k _ => by simp, by simp⟩
  | cons k heads ih =>
      obtain ⟨d₁, hrun₁, rings₁, hlive₁⟩ := freeIoEventList_spec rings (hf k)
      have hf₁ : ∀ j, (Function.update R k [] j).length < fuel := by
        intro j
        by_cases hjk : j = k
        · simpa [hjk] using Nat.zero_lt_of_lt (hf k)
        · simpa [hjk] using hf j
      obtain ⟨d₂, hrun₂, rings₂, hlive₂⟩ := ih rings₁ hf₁
      refine ⟨d₂, by simp [hrun₁, hrun₂], rings₂.congr_entries fun j _ => ?_, fun e => ?_⟩
      · by_cases hjk : j = k
        · simp [hjk]
        · simp [hjk]
      · have hrest : (∀ j ∈ heads, e ∉ Function.update R k [] j) ↔
            ∀ j ∈ heads, j ≠ k → e ∉ R j := by
          refine forall₂_congr fun j _ => ?_
          by_cases hjk : j = k <;> simp [hjk]
        rw [hlive₂, hlive₁, hrest, List.forall_mem_cons, and_assoc]
        refine and_congr_right fun _ => and_congr_right fun hk => forall₂_congr fun j _ => ?_
        exact ⟨fun h => if hjk : j = k then hjk ▸ hk else h hjk, fun h _ => h⟩

/-- `deinit_io_event_driver` frees the elements of all lists, and leaves these empty. -/
theorem deinitIoEventDriver_spec (rings : Rings d.mem Set.univ R) {fuel : ℕ}
    (hf : ∀ k, (R k).length < fuel) :
    ∃ d', deinitIoEventDriver d fuel = some d' ∧ (∀ k, Ring d'.mem (.inl k) []) ∧
      ∀ e, d'.mem.Live (.inr e) ↔ d.mem.Live (.inr e) ∧ ¬ Listed Set.univ R e := by
  obtain ⟨heads, hdeinit, hall⟩ : ∃ heads : List Head, (∀ d : Driver ε γ π,
      deinitIoEventDriver d fuel = heads.foldlM (fun d k => freeIoEventList d k fuel) d) ∧
        ∀ k, k ∈ heads := by
    refine ⟨[.ioSet .rx, .ioSet .tx, .ioSet .error, .workingSet .rx, .workingSet .tx,
      .workingSet .error], fun d => by simp [deinitIoEventDriver], ?_⟩
    rintro (t | t) <;> cases t <;> simp
  obtain ⟨d', hrun, rings', hlive⟩ := freeIoEventLists_spec rings hf heads
  refine ⟨d', (hdeinit d).trans hrun, fun k => ?_, fun e => ?_⟩
  · have hring := rings'.ring k trivial
    rwa [if_pos (hall k)] at hring
  · rw [hlive]
    simp [Listed, hall]

theorem deinitIoEventDriver_mono {fuel fuel' : ℕ} (hle : fuel ≤ fuel')
    (h : deinitIoEventDriver d fuel = some d') : deinitIoEventDriver d fuel' = some d' := by
  have hmono : ∀ {d d' : Driver ε γ π} {k : Head}, freeIoEventList d k fuel = some d' →
      freeIoEventList d k fuel' = some d' := fun h => listForEachSafe_mono hle h
  simp only [deinitIoEventDriver, Option.bind_eq_bind, Option.bind_eq_some_iff] at h ⊢
  obtain ⟨d₁, h₁, d₂, h₂, d₃, h₃, d₄, h₄, d₅, h₅, h₆⟩ := h
  exact ⟨d₁, hmono h₁, d₂, hmono h₂, d₃, hmono h₃, d₄, hmono h₄, d₅, hmono h₅, hmono h₆⟩

/-- A new event driver has no elements. -/
theorem live_initIoEventDriver {pollInterval ret : ℤ} {a : Node ε}
    (h : initIoEventDriver d₀ pollInterval = some (d, ret)) :
    d.mem.Live a ↔ d₀.mem.Live a := by
  simp only [initIoEventDriver, Option.bind_eq_bind, Option.bind_eq_some_iff, Option.some.injEq,
    Prod.mk.injEq] at h
  obtain ⟨m₁, h₁, m₂, h₂, m₃, h₃, m₄, h₄, m₅, h₅, m₆, h₆, rfl, -⟩ := h
  exact (live_initListHead h₆).trans ((live_initListHead h₅).trans ((live_initListHead h₄).trans
    ((live_initListHead h₃).trans ((live_initListHead h₂).trans (live_initListHead h₁)))))

/-- The elements of the registrations are those that are found for a descriptor. -/
theorem Refines.listed_iff_found (r : Refines d s) {N : ℕ} (hN : ∀ t, (s.regs t).length ≤ N)
    {e : ε} : Listed Set.univ (entries s) e ↔ ∃ t fd, ∀ fuel, N < fuel →
      getIoEventElement d t fd fuel = some (some e) := by
  constructor
  · intro he
    obtain ⟨t, x, hx, rfl⟩ := Refines.listed_iff.mp he
    exact ⟨t, x.2.fd, fun fuel hf => r.getIoEventElement_mem hx ((hN t).trans_lt hf)⟩
  · rintro ⟨t, fd, hfound⟩
    have hsearch := (r.getIoEventElement_eq fd ((hN t).trans_lt (Nat.lt_succ_self N))).symm.trans
      (hfound _ (Nat.lt_succ_self N))
    obtain ⟨x, hx, rfl⟩ := Option.map_eq_some_iff.mp (Option.some.inj hsearch)
    exact Refines.listed_iff.mpr ⟨t, x, List.mem_of_find?_eq_some hx, rfl⟩

/-- At every moment of every run the allocated elements are those that the searches for
the registered descriptors find, and `deinit_io_event_driver` then frees all of them. -/
theorem elements_accounted {pollInterval : ℤ} {moves : List (Move ε γ π)}
    (hl : ∀ k, d₀.mem.Live (.inl k)) (hnone : ∀ e, d₀.mem (.inr e) = none)
    (hinit : initIoEventDriver d₀ pollInterval = some (d, 0))
    (hrun : Trace Happens ⟨d, .outside⟩ moves m) :
    ∃ N, (∀ e, m.driver.mem.Live (.inr e) ↔ ∃ t fd, ∀ fuel, N < fuel →
        getIoEventElement m.driver t fd fuel = some (some e)) ∧
      ∃ d', (∀ fuel, N < fuel → deinitIoEventDriver m.driver fuel = some d') ∧
        (∀ e, d'.mem (.inr e) = none) ∧ ∀ k, Ring d'.mem (.inl k) [] := by
  obtain ⟨d₁, hinit₁, r₀⟩ := Refines.of_initIoEventDriver d₀ pollInterval hl
  obtain rfl : d₁ = d := (Prod.mk.inj (Option.some.inj (hinit₁.symm.trans hinit))).1
  have hnew : Covered d₁ ⟨fun _ => [], fun _ => []⟩ := fun e he => by
    rw [live_initIoEventDriver hinit, Heap.Live, hnone] at he
    cases he
  obtain ⟨s, h, hc⟩ : ∃ s, Holds m s ∧ Covered m.driver s := by
    refine hrun.invariant (I := fun m => ∃ s, Holds m s ∧ Covered m.driver s) ?_
      ⟨_, ⟨r₀, trivial⟩, hnew⟩
    rintro m move m' ⟨s, h, hc⟩ hmove
    exact h.covered_move hc hmove
  obtain ⟨N, hN⟩ : ∃ N, ∀ t, (s.regs t).length ≤ N := by
    refine ⟨(s.regs .rx).length + (s.regs .tx).length + (s.regs .error).length, fun t => ?_⟩
    cases t <;> omega
  have hentries : ∀ k, (entries s k).length < N + 1 := by
    rintro (t | t) <;> have := hN t <;> simp only [regs, List.length_append] at this <;>
      simp only [entries, List.length_map] <;> omega
  obtain ⟨d', hdeinit, hempty, hfreed⟩ := deinitIoEventDriver_spec h.1.rings hentries
  refine ⟨N, fun e => ?_, d', fun fuel hf => deinitIoEventDriver_mono hf hdeinit, fun e => ?_,
    hempty⟩
  · rw [← h.1.listed_iff_found hN]
    exact ⟨hc e, fun he => h.1.rings.live he⟩
  · have hnot : ¬ d'.mem.Live (.inr e) := fun he => ((hfreed e).mp he).2 (hc e ((hfreed e).mp he).1)
    simpa [Heap.Live] using hnot

section Sample

/-- Of three listens one is undone and one finds no memory. -/
def listens : List (Move ℕ Unit Unit) :=
  [.call (.listen 3 .rx () ()) (some 0) 0, .call (.listen 5 .tx () ()) (some 1) 0,
    .call (.unlisten 3 .rx) none 0, .call (.listen 7 .error () ()) none (-1)]

theorem elements_accounted_listens : ∃ m d', Trace Happens ⟨newDriver, .outside⟩ listens m ∧
    m.driver.mem.Live (.inr 1) ∧ ¬ m.driver.mem.Live (.inr 0) ∧
      ∃ N, (∀ fuel, N < fuel → deinitIoEventDriver m.driver fuel = some d') ∧
        d'.mem (.inr 1) = none := by
  obtain ⟨m₁, m₂, m₃, m₄, h₁, h₂, h₃, h₄, hone, hzero⟩ : ∃ m₁ m₂ m₃ m₄ : Moment ℕ Unit Unit,
      Happens ⟨newDriver, .outside⟩ (.call (.listen 3 .rx () ()) (some 0) 0) m₁ ∧
      Happens m₁ (.call (.listen 5 .tx () ()) (some 1) 0) m₂ ∧
      Happens m₂ (.call (.unlisten 3 .rx) none 0) m₃ ∧
      Happens m₃ (.call (.listen 7 .error () ()) none (-1)) m₄ ∧
      (m₄.driver.mem (.inr 1)).isSome ∧ m₄.driver.mem (.inr 0) = none := by
    refine ⟨_, _, _, _, ⟨trivial, ?_, 1, _, rfl, rfl⟩, ⟨trivial, ?_, 1, _, rfl, rfl⟩,
      ⟨trivial, by simp, 2, _, rfl, rfl⟩, ⟨trivial, by simp, 1, _, rfl, rfl⟩, rfl, rfl⟩
    · rintro e ⟨⟩
      rfl
    · rintro e ⟨⟩
      rfl
  have hrun := (((Trace.single h₁).concat h₂).concat h₃).concat h₄
  obtain ⟨N, -, d', hdeinit, hfreed, -⟩ :=
    elements_accounted blank_live (d := newDriver) (fun _ => rfl) rfl hrun
  exact ⟨m₄, d', hrun, hone, by simp [Heap.Live, hzero], N, hdeinit, hfreed 1⟩

end Sample

end IoEvent

end Infra
