import Infra.IoEvent.Drive

/-!
# Every moment of a pass

A run here is cut into its smallest moves: one call into the event driver, one
round of the first loop of `check_select`, one turn up to the callback, the return
of the callback. Between any two of them the lists of a type together hold at most
one element for a descriptor, so that the event driver is a table from types and
descriptors to callbacks with their arguments. Calls change one entry of the table,
and a pass none.
-/

namespace Infra

namespace IoEvent

open Infra.LinkedList Registry

/-- Where the program is: outside of a pass, in the first loop of `check_select` at `p`
with `n` read ahead, at the test of its second loop, or in a callback. -/
inductive Control (ε : Type) where
  | outside
  | collecting (type : IOEventType) (set : FdSet) (p n : Node ε)
  | draining (type : IOEventType)
  | inCallback (type : IOEventType)

/-- The program can call the event driver here. -/
def Control.MayCall {ε : Type} : Control ε → Prop
  | .outside | .inCallback _ => True
  | .collecting .. | .draining _ => False

/-- The event driver and where the program is. -/
structure Moment (ε γ π : Type) where
  driver : Driver ε γ π
  control : Control ε

/-- A move: a call with the answer of `malloc` and its return value, the start of a
pass, or what the pass does next when its callbacks call nothing more. -/
inductive Move (ε γ π : Type) where
  | call (c : Call γ π) (malloc : Option ε) (ret : ℤ)
  | enter (type : IOEventType) (set : FdSet)
  | work

section Moves

variable {ε γ π : Type} [DecidableEq ε]

/-- A call into the event driver. -/
def enterCall (driver : Driver ε γ π) (malloc : Option ε) (fuel : ℕ) :
    Call γ π → Option (Driver ε γ π × ℤ)
  | .listen fd type cb priv => listenIoEvent driver malloc fuel fd type cb priv
  | .unlisten fd type => unlistenIoEvent driver fuel fd type

/-- `check_select` up to the test of its first loop. -/
def enterPass (driver : Driver ε γ π) (type : IOEventType) (set : FdSet) :
    Option (Moment ε γ π) := do
  let p ← driver.mem.next (.inl (.ioSet type))
  let n ← driver.mem.next p
  some { driver := driver, control := .collecting type set p n }

/-- The next move of a pass. -/
def work (m : Moment ε γ π) : Option (Moment ε γ π) :=
  match m.control with
  | .outside => none
  | .collecting type set p n =>
      if p = .inl (.ioSet type) then some { m with control := .draining type }
      else do
        let mem ← moveIf (fdIsSet m.driver set) (.workingSet type) p m.driver.mem
        let n' ← mem.next n
        some { driver := { m.driver with mem := mem }, control := .collecting type set n n' }
  | .draining type => do
      let empty ← listEmpty m.driver.mem (.inl (.workingSet type))
      if empty then some { m with control := .outside }
      else do
        let p ← m.driver.mem.next (.inl (.workingSet type))
        match p with
        | .inl _ => none
        | .inr p => do
            let mem ← listDelInit m.driver.mem (.inr p)
            let mem ← listAddTail mem (.inr p) (.inl (.ioSet type))
            let _ ← m.driver.elements p
            some { driver := { m.driver with mem := mem }, control := .inCallback type }
  | .inCallback type => some { m with control := .draining type }

/-- One move; `malloc` answers with an address that is not in use. -/
def Happens (m : Moment ε γ π) (move : Move ε γ π) (m' : Moment ε γ π) : Prop :=
  match move with
  | .call c malloc ret =>
      m.control.MayCall ∧ (∀ e, malloc = some e → m.driver.mem (.inr e) = none) ∧
        ∃ fuel d, enterCall m.driver malloc fuel c = some (d, ret) ∧ m' = ⟨d, m.control⟩
  | .enter type set => m.control = .outside ∧ enterPass m.driver type set = some m'
  | .work => work m = some m'

end Moves

/-! ## The passes are made of these moves -/

section Passes

variable {ε γ π : Type} [DecidableEq ε] {client : Client ε γ π} {t : IOEventType} {set : FdSet}
  {fuel : ℕ} {w w' : World ε γ π}

theorem doCall_moves {c : Call γ π} {control : Control ε} (hcontrol : control.MayCall)
    (h : doCall client fuel w c = some w') :
    ∃ move, Happens ⟨w.driver, control⟩ move ⟨w'.driver, control⟩ := by
  cases c with
  | listen fd type cb priv =>
      obtain ⟨⟨d, ret⟩, hd, h⟩ := Option.bind_eq_some_iff.mp h
      cases h
      exact ⟨.call (.listen fd type cb priv) (client.malloc w) ret, hcontrol, client.fresh w,
        fuel, d, hd, rfl⟩
  | unlisten fd type =>
      obtain ⟨⟨d, ret⟩, hd, h⟩ := Option.bind_eq_some_iff.mp h
      cases h
      exact ⟨.call (.unlisten fd type) none ret, hcontrol, by simp, fuel, d, hd, rfl⟩

theorem doCalls_moves {cs : List (Call γ π)} (control : Control ε) (hcontrol : control.MayCall)
    (h : doCalls client fuel w cs = some w') :
    ∃ moves, Trace Happens ⟨w.driver, control⟩ moves ⟨w'.driver, control⟩ := by
  induction cs generalizing w with
  | nil =>
      cases h
      exact ⟨[], .nil⟩
  | cons c cs ih =>
      obtain ⟨w₁, hc, h⟩ := Option.bind_eq_some_iff.mp h
      obtain ⟨move, hmove⟩ := doCall_moves hcontrol hc
      obtain ⟨moves, hmoves⟩ := ih h
      exact ⟨_, (Trace.single hmove).append hmoves⟩

theorem collect_moves {d : Driver ε γ π} {p n : Node ε} {mem' : Heap (Node ε)}
    (h : listForEachSafeFrom id (moveIf (fdIsSet d set) (.workingSet t)) (.inl (.ioSet t)) fuel p n
      d.mem = some mem') :
    ∃ moves,
      Trace Happens ⟨d, .collecting t set p n⟩ moves ⟨{ d with mem := mem' }, .draining t⟩ := by
  induction fuel generalizing d p n with
  | zero => cases h
  | succ fuel ih =>
      rw [listForEachSafeFrom] at h
      split at h
      · next hp =>
        cases h
        have hstep : Happens ⟨d, .collecting t set p n⟩ .work ⟨d, .draining t⟩ := by
          simp [Happens, work, hp]
        exact ⟨_, .single hstep⟩
      · next hp =>
        obtain ⟨mem, hmem, h⟩ := Option.bind_eq_some_iff.mp h
        obtain ⟨n', hn', h⟩ := Option.bind_eq_some_iff.mp h
        have hn' : mem.next n = some n' := hn'
        have hstep : Happens ⟨d, .collecting t set p n⟩ .work
            ⟨{ d with mem := mem }, .collecting t set n n'⟩ := by
          simp [Happens, work, hp, hmem, hn']
        obtain ⟨moves, hmoves⟩ := ih (d := { d with mem := mem }) h
        exact ⟨_, (Trace.single hstep).append hmoves⟩

theorem drain_moves (h : drain client t fuel w = some w') :
    ∃ moves, Trace Happens ⟨w.driver, .draining t⟩ moves ⟨w'.driver, .outside⟩ := by
  induction fuel generalizing w with
  | zero => cases h
  | succ fuel ih =>
      obtain ⟨empty, hempty, h⟩ := Option.bind_eq_some_iff.mp h
      cases empty with
      | true =>
          obtain rfl : w = w' := Option.some.inj h
          have hstep : Happens ⟨w.driver, .draining t⟩ .work ⟨w.driver, .outside⟩ := by
            simp [Happens, work, hempty]
          exact ⟨_, .single hstep⟩
      | false =>
          obtain ⟨p, hp, h⟩ := Option.bind_eq_some_iff.mp h
          cases p with
          | inl k => cases h
          | inr p =>
              simp only [Option.bind_eq_bind, Option.bind_eq_some_iff] at h
              obtain ⟨m₁, h₁, m₂, h₂, q, hq, w₁, hc, h⟩ := h
              have hturn : Happens ⟨w.driver, .draining t⟩ .work
                  ⟨{ w.driver with mem := m₂ }, .inCallback t⟩ := by
                simp [Happens, work, hempty, hp, h₁, h₂, hq]
              obtain ⟨moves₁, hcalls⟩ := doCalls_moves (.inCallback t) trivial hc
              have hreturn :
                  Happens ⟨w₁.driver, .inCallback t⟩ .work ⟨w₁.driver, .draining t⟩ := rfl
              obtain ⟨moves₂, hrest⟩ := ih h
              exact ⟨_, (((Trace.single hturn).append hcalls).concat hreturn).append hrest⟩

/-- A pass of `check_select` is a run of moves from outside to outside. -/
theorem checkSelect_moves (h : checkSelect client set t fuel w = some w') :
    ∃ moves, Trace Happens ⟨w.driver, .outside⟩ moves ⟨w'.driver, .outside⟩ := by
  obtain ⟨d, hcollect, hdrain⟩ := Option.bind_eq_some_iff.mp h
  obtain ⟨mem, hmem, hd⟩ := Option.bind_eq_some_iff.mp hcollect
  obtain rfl := Option.some.inj hd
  simp only [listForEachSafe, Option.bind_eq_bind, Option.bind_eq_some_iff] at hmem
  obtain ⟨p, hp, n, hn, hmem⟩ := hmem
  have henter : Happens ⟨w.driver, .outside⟩ (.enter t set) ⟨w.driver, .collecting t set p n⟩ :=
    ⟨rfl, by simp only [id] at hp hn; simp [enterPass, hp, hn]⟩
  obtain ⟨moves₁, h₁⟩ := collect_moves hmem
  obtain ⟨moves₂, h₂⟩ := drain_moves hdrain
  exact ⟨_, ((Trace.single henter).append h₁).append h₂⟩

end Passes

/-! ## The table of the registrations -/

/-- For each type the descriptors that are registered, with their callback and its
argument. -/
abbrev Table (γ π : Type) := IOEventType → ℤ → Option (γ × π)

section Tables

variable {ε γ π : Type}

/-- A call on a table, with its return value; `room` tells whether there is memory for
another entry. -/
def Table.call (table : Table γ π) (room : Bool) : Call γ π → Table γ π × ℤ
  | .listen fd type cb priv =>
      if (table type fd).isSome || room then
        (Function.update table type (Function.update (table type) fd (some (cb, priv))), 0)
      else (table, -1)
  | .unlisten fd type =>
      if (table type fd).isSome then
        (Function.update table type (Function.update (table type) fd none), 0)
      else (table, -1)

/-- What a move does to a table: a call is one on the table with the same return value,
and the moves of a pass do nothing. -/
def TableStep (table : Table γ π) (move : Move ε γ π) (table' : Table γ π) : Prop :=
  match move with
  | .call c malloc ret => table.call malloc.isSome c = (table', ret)
  | .enter .. | .work => table' = table

/-- In the memory of the event driver the two lists of each type together hold one
element for each entry of the table, and no other. -/
structure Represents (d : Driver ε γ π) (table : Table γ π) : Prop where
  lists : ∀ t, ∃ (ioSet workingSet : List ε) (es : List (Element γ π)),
    Ring d.mem (.inl (.ioSet t)) (ioSet.map .inr) ∧
      Ring d.mem (.inl (.workingSet t)) (workingSet.map .inr) ∧
      (ioSet ++ workingSet).Nodup ∧ (ioSet ++ workingSet).map d.elements = es.map some ∧
      (es.map Element.fd).Nodup ∧
      ∀ fd cb priv, table t fd = some (cb, priv) ↔ ⟨fd, cb, priv⟩ ∈ es

variable {d : Driver ε γ π} {s s' : Registry ε γ π} {t : IOEventType}

/-- The table of a registry. -/
def Registry.table (s : Registry ε γ π) : Table γ π := fun t fd =>
  ((s.regs t).find? fun r => decide (r.2.fd = fd)).map fun r => (r.2.cb, r.2.priv)

theorem Registry.table_eq_some (h : s.Distinct) {fd : ℤ} {cb : γ} {priv : π} :
    s.table t fd = some (cb, priv) ↔ ∃ e, (e, ⟨fd, cb, priv⟩) ∈ s.regs t := by
  simp only [Registry.table, Option.map_eq_some_iff, Prod.mk.injEq]
  constructor
  · rintro ⟨⟨e, p⟩, hfind, rfl, rfl⟩
    have hfd : p.fd = fd := by simpa using List.find?_some hfind
    subst hfd
    exact ⟨e, List.mem_of_find?_eq_some hfind⟩
  · rintro ⟨e, he⟩
    cases hfind : (s.regs t).find? fun r => decide (r.2.fd = fd) with
    | none =>
        have := List.find?_eq_none.mp hfind _ he
        simp at this
    | some r =>
        have hfd : r.2.fd = fd := by simpa using List.find?_some hfind
        obtain rfl := h.eq_of_fd (List.mem_of_find?_eq_some hfind) he hfd
        exact ⟨_, rfl, rfl, rfl⟩

theorem Registry.table_isSome {fd : ℤ} : (s.table t fd).isSome ↔ fd ∈ s.fds t := by
  simp [Registry.table, mem_fds]

/-- A table is known by its entries. -/
theorem Registry.table_eq (h : s.Distinct) {table : Table γ π}
    (heq : ∀ t fd cb priv, (∃ e, (e, ⟨fd, cb, priv⟩) ∈ s.regs t) ↔ table t fd = some (cb, priv)) :
    s.table = table := by
  funext t fd
  refine Option.ext fun v => ?_
  rw [Registry.table_eq_some h]
  exact heq t fd v.1 v.2

/-- Registrations that move have the same table. -/
theorem Registry.table_perm (h : s.Distinct) (h' : s'.Distinct)
    (hp : ∀ t, (s'.regs t).Perm (s.regs t)) : s'.table = s.table :=
  Registry.table_eq h' fun t fd cb priv => by
    rw [Registry.table_eq_some h]
    exact exists_congr fun e => (hp t).mem_iff

/-- A registry that differs in the registration of one descriptor has a table that
differs in one entry. -/
theorem Registry.table_update (h : s.Distinct) (h' : s'.Distinct) (t : IOEventType) (fd : ℤ)
    (v : Option (γ × π))
    (hself : ∀ cb priv, (∃ e, (e, ⟨fd, cb, priv⟩) ∈ s'.regs t) ↔ v = some (cb, priv))
    (hother : ∀ t' r, t' = t → r.2.fd ≠ fd → (r ∈ s'.regs t' ↔ r ∈ s.regs t'))
    (htype : ∀ t', t' ≠ t → s'.regs t' = s.regs t') :
    Function.update s.table t (Function.update (s.table t) fd v) = s'.table := by
  refine (Registry.table_eq h' fun t' fd' cb priv => ?_).symm
  by_cases ht : t' = t
  · subst ht
    rw [Function.update_self]
    by_cases hfd : fd' = fd
    · rw [hfd, Function.update_self]
      exact hself cb priv
    · rw [Function.update_of_ne hfd, Registry.table_eq_some h]
      exact exists_congr fun e => hother t' _ rfl hfd
  · rw [htype t' ht, Function.update_of_ne ht, Registry.table_eq_some h]

/-- A listen on the registry is one on its table. -/
theorem Registry.table_listen {p : Element γ π} {malloc : Option ε} {ret : ℤ}
    (h : s.Distinct) (h' : s'.Distinct) (hl : s.listen t p malloc = (s', ret)) :
    s.table.call malloc.isSome (.listen p.fd t p.cb p.priv) = (s'.table, ret) := by
  by_cases hp : p.fd ∈ s.fds t
  · simp only [Registry.listen, hp, if_true] at hl
    obtain ⟨rfl, rfl⟩ := Prod.mk.inj hl
    have hregs := regs_alter_self (s := s) (t := t) (f := List.map (setHandler p))
      fun _ _ => List.map_append
    have hupdate := Registry.table_update h h' t p.fd (some (p.cb, p.priv))
      (fun cb priv => ?_) (fun t' r ht hne => ?_) fun t' ht => regs_alter_of_ne ht
    · rw [Table.call, if_pos (by simp [Registry.table_isSome, hp]), hupdate]
    · obtain ⟨x, hx, hfd⟩ := mem_fds.mp hp
      rw [hregs, Option.some.injEq, Prod.mk.injEq]
      constructor
      · rintro ⟨e, he⟩
        obtain ⟨y, hy, heq⟩ := List.mem_map.mp he
        have hyfd : y.2.fd = p.fd := by
          rw [← setHandler_fd p y, heq]
        rw [setHandler, if_pos hyfd] at heq
        exact ⟨congrArg (fun r => r.2.cb) heq, congrArg (fun r => r.2.priv) heq⟩
      · rintro ⟨rfl, rfl⟩
        exact ⟨x.1, List.mem_map.mpr ⟨x, hx, by simp [setHandler, hfd]⟩⟩
    · subst ht
      rw [hregs]
      constructor
      · intro hr
        obtain ⟨y, hy, rfl⟩ := List.mem_map.mp hr
        rw [setHandler_fd] at hne
        rwa [setHandler, if_neg hne]
      · exact fun hr => List.mem_map.mpr ⟨r, hr, by rw [setHandler, if_neg hne]⟩
  · cases malloc with
    | none =>
        simp only [Registry.listen, hp, if_false] at hl
        obtain ⟨rfl, rfl⟩ := Prod.mk.inj hl
        rw [Table.call, if_neg (by simp [Registry.table_isSome, hp])]
    | some e =>
        simp only [Registry.listen, hp, if_false] at hl
        obtain ⟨rfl, rfl⟩ := Prod.mk.inj hl
        have hregs : ∀ y, y ∈ regs { s with
            idle := Function.update s.idle t (s.idle t ++ [(e, p)]) } t ↔
            y ∈ s.regs t ∨ y = (e, p) := by
          intro y
          simp only [regs, Function.update_self, List.mem_append, List.mem_singleton]
          tauto
        have hupdate := Registry.table_update h h' t p.fd (some (p.cb, p.priv))
          (fun cb priv => ?_) (fun t' r ht hne => ?_) fun t' ht => by simp [regs, ht]
        · rw [Table.call, if_pos (by simp), hupdate]
        · rw [Option.some.injEq, Prod.mk.injEq]
          constructor
          · rintro ⟨e', he⟩
            rcases (hregs _).mp he with he | he
            · exact absurd (mem_fds.mpr ⟨_, he, rfl⟩) hp
            · exact ⟨congrArg (fun r => r.2.cb) he.symm, congrArg (fun r => r.2.priv) he.symm⟩
          · rintro ⟨rfl, rfl⟩
            exact ⟨e, (hregs _).mpr (Or.inr rfl)⟩
        · subst ht
          exact (hregs r).trans (or_iff_left fun heq => hne (by rw [heq]))

/-- An unlisten on the registry is one on its table. -/
theorem Registry.table_unlisten {fd : ℤ} {ret : ℤ} (room : Bool) (h : s.Distinct)
    (h' : s'.Distinct) (hl : s.unlisten t fd = (s', ret)) :
    s.table.call room (.unlisten fd t) = (s'.table, ret) := by
  by_cases hfd : fd ∈ s.fds t
  · rw [Registry.unlisten, if_pos hfd] at hl
    obtain ⟨rfl, rfl⟩ := Prod.mk.inj hl
    have hregs := regs_alter_self (s := s) (t := t) (f := List.filter fun r => r.2.fd ≠ fd)
      fun _ _ => List.filter_append ..
    have hupdate := Registry.table_update h h' t fd none
      (fun cb priv => ?_) (fun t' r ht hne => ?_) fun t' ht => regs_alter_of_ne ht
    · rw [Table.call, if_pos (Registry.table_isSome.mpr hfd), hupdate]
    · rw [hregs]
      simp
    · subst ht
      rw [hregs, List.mem_filter]
      simp [hne]
  · rw [Registry.unlisten, if_neg hfd] at hl
    obtain ⟨rfl, rfl⟩ := Prod.mk.inj hl
    rw [Table.call, if_neg fun h => hfd (Registry.table_isSome.mp h)]

/-- What refines a registry represents its table. -/
theorem Refines.represents (r : Refines d s) : Represents d s.table := by
  refine ⟨fun t => ⟨(s.idle t).map Prod.fst, (s.waiting t).map Prod.fst, (s.regs t).map Prod.snd,
    r.rings.ring (.ioSet t) trivial, r.rings.ring (.workingSet t) trivial, ?_, ?_, ?_, ?_⟩⟩
  · refine List.nodup_append.mpr ⟨r.rings.nodup (k := .ioSet t) trivial,
      r.rings.nodup (k := .workingSet t) trivial, ?_⟩
    rintro a ha b hb rfl
    have := r.rings.disjoint (.ioSet t) trivial (.workingSet t) trivial a ha hb
    cases this
  · rw [← List.map_append, List.map_map, List.map_map]
    exact List.map_congr_left fun x hx => r.fields t x hx
  · rw [List.map_map]
    exact r.distinct t
  · intro fd cb priv
    rw [Registry.table_eq_some r.distinct]
    simp

end Tables

/-! ## What holds at every moment -/

section Moments

variable {ε γ π : Type} {d d₀ : Driver ε γ π} {s : Registry ε γ π} {m m' : Moment ε γ π}
  {t : IOEventType}

/-- Where a loop over the `io_set` is when the registrations `todo` are to come. -/
def position (t : IOEventType) : List (Reg ε γ π) → Node ε
  | [] => .inl (.ioSet t)
  | r :: _ => .inr r.1

/-- In the first loop the elements before `p` that are still in the `io_set` are not
ready. -/
def Control.Fits (d : Driver ε γ π) (s : Registry ε γ π) : Control ε → Prop
  | .collecting t set p n => ∃ kept todo : List (Reg ε γ π), s.idle t = kept ++ todo ∧
      (∀ r ∈ kept, set r.2.fd = false) ∧ p = position t todo ∧ d.mem.next p = some n
  | _ => True

/-- The moment is one of the registry `s`. -/
def Holds (m : Moment ε γ π) (s : Registry ε γ π) : Prop :=
  Refines m.driver s ∧ m.control.Fits m.driver s

/-- The next element can be read anywhere in the `io_set`, and at its head. -/
theorem Refines.next_position (r : Refines d s) {kept todo : List (Reg ε γ π)}
    (hidle : s.idle t = kept ++ todo) : ∃ n, d.mem.next (position t todo) = some n := by
  have hring := r.rings.ring (.ioSet t) trivial
  rw [entries, List.map_map, hidle, List.map_append] at hring
  have hwalk := Walk.of_suffix hring
  cases todo with
  | nil => exact Option.isSome_iff_exists.mp hwalk.head
  | cons x todo => exact ⟨_, hwalk.next_cons⟩

theorem Refines.next_of_cons (r : Refines d s) {kept todo : List (Reg ε γ π)} {x : Reg ε γ π}
    (hidle : s.idle t = kept ++ x :: todo) :
    d.mem.next (.inr x.1) = some (position t todo) := by
  have hring := r.rings.ring (.ioSet t) trivial
  rw [entries, List.map_map, hidle, List.map_append] at hring
  have hnext := (Walk.of_suffix hring).next_cons
  cases todo <;> exact hnext

theorem Refines.next_io_set (r : Refines d s) :
    d.mem.next (.inl (.ioSet t)) = some (position t (s.idle t)) := by
  have hring := r.rings.ring (.ioSet t) trivial
  rw [entries, List.map_map] at hring
  have hnext := (Walk.of_ring hring).2
  cases hidle : s.idle t <;> simp only [hidle] at hnext <;> exact hnext

/-- When the first loop has gone through `seen`, the sets are those with the elements that
stay and those that were moved. -/
theorem rings_moved {mem : Heap (Head ⊕ ε)} {b : ε → Bool} {seen : List ε}
    {todo kept waiting : List (Reg ε γ π)}
    (h : Rings mem Set.univ (moving (entries s) (.ioSet t) (.workingSet t) b seen
      (todo.map Prod.fst)))
    (hkept : seen.filter (fun e => !b e) = kept.map Prod.fst)
    (hwaiting : entries s (.workingSet t) ++ seen.filter b = waiting.map Prod.fst) :
    Rings mem Set.univ (entries
      ⟨Function.update s.idle t (kept ++ todo), Function.update s.waiting t waiting⟩) := by
  have hne : Head.ioSet t ≠ .workingSet t := by simp
  refine h.congr_entries fun k _ => ?_
  by_cases hd : k = .workingSet t
  · subst hd
    rw [Rings.moving_dest, hwaiting]
    simp [entries]
  · by_cases hs : k = .ioSet t
    · subst hs
      rw [Rings.moving_src hne, hkept]
      simp [entries]
    · rw [Rings.moving_other hs hd]
      cases k with
      | ioSet t' =>
          have ht : t' ≠ t := fun h => hs (h ▸ rfl)
          simp [entries, ht]
      | workingSet t' =>
          have ht : t' ≠ t := fun h => hd (h ▸ rfl)
          simp [entries, ht]

/-- The registrations of one type in another order. -/
theorem regs_update_perm {idle waiting : List (Reg ε γ π)}
    (h : (idle ++ waiting).Perm (s.regs t)) (t' : IOEventType) :
    (regs (⟨Function.update s.idle t idle, Function.update s.waiting t waiting⟩ :
      Registry ε γ π) t').Perm (s.regs t') := by
  by_cases ht : t' = t
  · subst ht
    simpa [regs] using h
  · simp [regs, ht]

variable [DecidableEq ε]

/-- The next element of the first loop is moved if it is ready. -/
theorem Refines.collectOne (r : Refines d s) {set : FdSet} {x : Reg ε γ π}
    {kept todo : List (Reg ε γ π)} (hidle : s.idle t = kept ++ x :: todo)
    (hkept : ∀ y ∈ kept, set y.2.fd = false) :
    ∃ mem kept' waiting', moveIf (fdIsSet d set) (.workingSet t) (.inr x.1) d.mem = some mem ∧
      (∀ y ∈ kept', set y.2.fd = false) ∧
      (kept' ++ todo ++ waiting').Perm (s.regs t) ∧
      Refines { d with mem := mem }
        ⟨Function.update s.idle t (kept' ++ todo), Function.update s.waiting t waiting'⟩ := by
  let b : ε → Bool := fun e => (fdIsSet d set e).getD false
  have hready : ∀ y ∈ s.idle t, fdIsSet d set y.1 = some (set y.2.fd) := by
    intro y hy
    simp [fdIsSet, r.fields t y (List.mem_append_left _ hy)]
  have hb : ∀ y ∈ s.idle t, b y.1 = set y.2.fd := fun y hy => by simp [b, hready y hy]
  have hx : x ∈ s.idle t := by simp [hidle]
  have hnone : (kept.map Prod.fst).filter b = [] := by
    rw [List.filter_eq_nil_iff]
    intro e he
    obtain ⟨y, hy, rfl⟩ := List.mem_map.mp he
    simp [hb y (by simp [hidle, hy]), hkept y hy]
  have hall : (kept.map Prod.fst).filter (fun e => !b e) = kept.map Prod.fst := by
    rw [List.filter_eq_self]
    intro e he
    obtain ⟨y, hy, rfl⟩ := List.mem_map.mp he
    simp [hb y (by simp [hidle, hy]), hkept y hy]
  have hne : Head.ioSet t ≠ .workingSet t := by simp
  have hmoving : Rings d.mem Set.univ (moving (entries s) (.ioSet t) (.workingSet t) b
      (kept.map Prod.fst) (x.1 :: todo.map Prod.fst)) := by
    refine r.rings.congr_entries fun k _ => ?_
    by_cases hd : k = .workingSet t
    · subst hd
      rw [Rings.moving_dest, hnone, List.append_nil]
    · by_cases hs : k = .ioSet t
      · subst hs
        rw [Rings.moving_src hne, hall]
        simp [entries, hidle]
      · exact Rings.moving_other hs hd
  obtain ⟨mem, hmem, r', -⟩ := hmoving.moveIf_step (Set.mem_univ _) (Set.mem_univ _) hne
    ((hready x hx).trans (congrArg some (hb x hx).symm))
  cases hset : set x.2.fd with
  | false =>
      have hp : (kept ++ [x] ++ todo ++ s.waiting t).Perm (s.regs t) := by
        simp [regs, hidle]
      refine ⟨mem, kept ++ [x], s.waiting t, hmem, fun y hy => ?_, hp,
        r.of_perm (regs_update_perm hp) (rings_moved r' ?_ ?_)⟩
      · rcases List.mem_append.mp hy with hy | hy
        · exact hkept y hy
        · rwa [List.mem_singleton.mp hy]
      · simp [List.filter_append, hall, hb x hx, hset]
      · simp [List.filter_append, hnone, hb x hx, hset, entries]
  | true =>
      have hp : (kept ++ todo ++ (s.waiting t ++ [x])).Perm (s.regs t) := by
        rw [regs, hidle, ← List.append_assoc, List.append_assoc kept]
        refine List.perm_append_comm.trans ?_
        simpa using List.perm_middle.symm
      refine ⟨mem, kept, s.waiting t ++ [x], hmem, hkept, hp,
        r.of_perm (regs_update_perm hp) (rings_moved r' ?_ ?_)⟩
      · simp [List.filter_append, hall, hb x hx, hset]
      · simp [List.filter_append, hnone, hb x hx, hset, entries]

/-- A pass goes on until it is over, and its moves keep the registrations. -/
theorem Holds.work (h : Holds m s) (hm : m.control ≠ .outside) :
    ∃ m' s', work m = some m' ∧ Holds m' s' ∧ ∀ t, (s'.regs t).Perm (s.regs t) := by
  obtain ⟨d, control⟩ := m
  have r : Refines d s := h.1
  have hfits : control.Fits d s := h.2
  cases control with
  | outside => exact absurd rfl hm
  | collecting t set p n =>
      obtain ⟨kept, todo, hidle, hkept, rfl, hn⟩ := hfits
      cases todo with
      | nil => exact ⟨⟨d, .draining t⟩, s, by simp [IoEvent.work, position], ⟨r, trivial⟩,
          fun _ => .refl _⟩
      | cons x todo =>
          obtain rfl := Option.some.inj (hn.symm.trans (r.next_of_cons hidle))
          obtain ⟨mem, kept', waiting', hmem, hkept', hperm, r'⟩ := r.collectOne hidle hkept
          have hidle' : Function.update s.idle t (kept' ++ todo) t = kept' ++ todo :=
            Function.update_self ..
          obtain ⟨n', hn'⟩ := r'.next_position hidle'
          refine ⟨⟨{ d with mem := mem }, .collecting t set (position t todo) n'⟩, _, ?_,
            ⟨r', kept', todo, hidle', hkept', rfl, hn'⟩, fun t' => ?_⟩
          · have hne : position t (x :: todo) ≠ .inl (.ioSet t) := by simp [position]
            have hmem : moveIf (fdIsSet d set) (.workingSet t) (position t (x :: todo)) d.mem =
                some mem := hmem
            have hn' : mem.next (position t todo) = some n' := hn'
            simp only [IoEvent.work, hne, if_false, hmem, Option.bind_eq_bind, Option.bind_some,
              hn']
          · by_cases ht : t' = t
            · subst ht
              simpa [regs] using hperm
            · simp [regs, ht]
  | draining t =>
      cases hw : s.waiting t with
      | nil =>
          have hempty := (r.rings.ring (.workingSet t) trivial).listEmpty_eq
          simp only [entries, hw, List.map_nil, List.isEmpty_nil] at hempty
          exact ⟨⟨d, .outside⟩, s, by simp [IoEvent.work, hempty], ⟨r, trivial⟩, fun _ => .refl _⟩
      | cons x rest =>
          obtain ⟨hempty, hnext, hfield, m₁, m₂, h₁, h₂, r'⟩ := r.next hw
          exact ⟨⟨{ d with mem := m₂ }, .inCallback t⟩, _,
            by simp [IoEvent.work, hempty, hnext, h₁, h₂, hfield], ⟨r', trivial⟩,
            regs_next_perm hw⟩
  | inCallback t => exact ⟨⟨d, .draining t⟩, s, rfl, ⟨r, trivial⟩, fun _ => .refl _⟩

omit [DecidableEq ε] in
/-- A pass can start. -/
theorem Refines.enterPass (r : Refines d s) (t : IOEventType) (set : FdSet) :
    ∃ m', enterPass d t set = some m' ∧ m'.driver = d ∧ Holds m' s := by
  obtain ⟨n, hn⟩ := r.next_position (show s.idle t = [] ++ s.idle t from rfl)
  refine ⟨⟨d, .collecting t set (position t (s.idle t)) n⟩, ?_, rfl, r, [], _, rfl, by simp,
    rfl, hn⟩
  simp [IoEvent.enterPass, r.next_io_set, hn]

/-- A call returns, and it is a call on the table. -/
theorem Refines.enterCall (r : Refines d s) {malloc : Option ε}
    (hm : ∀ e, malloc = some e → d.mem (.inr e) = none) (c : Call γ π) :
    ∃ d' s' ret N, (∀ fuel, N < fuel → enterCall d malloc fuel c = some (d', ret)) ∧
      Refines d' s' ∧ s.table.call malloc.isSome c = (s'.table, ret) := by
  cases c with
  | listen fd type cb priv =>
      obtain ⟨d', s', ret, hd, hs, r'⟩ := r.listenIoEvent_spec hm type ⟨fd, cb, priv⟩
      exact ⟨d', s', ret, _, hd, r', Registry.table_listen r.distinct r'.distinct hs⟩
  | unlisten fd type =>
      obtain ⟨d', s', ret, hd, hs, r'⟩ := r.unlistenIoEvent_spec type fd
      exact ⟨d', s', ret, _, hd, r', Registry.table_unlisten _ r.distinct r'.distinct hs⟩

theorem enterCall_mono {malloc : Option ε} {fuel fuel' : ℕ} {c : Call γ π}
    {a : Driver ε γ π × ℤ} (hle : fuel ≤ fuel') (h : enterCall d malloc fuel c = some a) :
    enterCall d malloc fuel' c = some a := by
  cases c with
  | listen fd type cb priv =>
      obtain ⟨p, hp, h⟩ := Option.bind_eq_some_iff.mp h
      exact Option.bind_eq_some_iff.mpr ⟨p, getIoEventElement_mono hle hp, h⟩
  | unlisten fd type =>
      obtain ⟨p, hp, h⟩ := Option.bind_eq_some_iff.mp h
      exact Option.bind_eq_some_iff.mpr ⟨p, getIoEventElement_mono hle hp, h⟩

/-- Every move is one of the table. -/
theorem Holds.move {move : Move ε γ π} (h : Holds m s) (hmove : Happens m move m') :
    ∃ s', Holds m' s' ∧ TableStep s.table move s'.table := by
  cases move with
  | call c malloc ret =>
      obtain ⟨hcall, hm, fuel, d₁, hret, rfl⟩ := hmove
      obtain ⟨d', s', ret', N, hd, r', htable⟩ := h.1.enterCall hm c
      have hsame := enterCall_mono (le_max_left fuel (N + 1)) hret
      rw [hd _ (by omega)] at hsame
      obtain ⟨rfl, rfl⟩ := Prod.mk.inj (Option.some.inj hsame)
      refine ⟨s', ⟨r', ?_⟩, htable⟩
      cases hc : m.control with
      | collecting => exact (hc ▸ hcall : Control.MayCall (.collecting ..)).elim
      | _ => trivial
  | enter t set =>
      obtain ⟨m'', henter, -, hholds⟩ := h.1.enterPass t set
      obtain rfl := Option.some.inj (henter.symm.trans hmove.2)
      exact ⟨s, hholds, rfl⟩
  | work =>
      have hm : m.control ≠ .outside := by
        intro hm
        simp only [Happens, IoEvent.work, hm] at hmove
        cases hmove
      obtain ⟨m'', s', hwork, hholds, hperm⟩ := h.work hm
      obtain rfl := Option.some.inj (hwork.symm.trans hmove)
      exact ⟨s', hholds, Registry.table_perm h.1.distinct hholds.1.distinct hperm⟩

/-- In every run of calls and passes, with calls between the passes and from callbacks,
the event driver is at every moment a table that its calls change as calls on a table
do and that its passes leave alone; and every call returns, and every pass goes on. -/
theorem registrations_refine_table {pollInterval : ℤ} {moves : List (Move ε γ π)}
    (hl : ∀ k, d₀.mem.Live (.inl k)) (hinit : initIoEventDriver d₀ pollInterval = some (d, 0))
    (hrun : Trace Happens ⟨d, .outside⟩ moves m) :
    ∃ table, Trace TableStep (fun _ _ => none) moves table ∧ Represents m.driver table ∧
      (m.control.MayCall → ∀ c malloc, (∀ e, malloc = some e → m.driver.mem (.inr e) = none) →
        ∃ ret m', Happens m (.call c malloc ret) m') ∧
      (m.control = .outside → ∀ t set, ∃ m', Happens m (.enter t set) m') ∧
      (m.control ≠ .outside → ∃ m', Happens m .work m') := by
  obtain ⟨d', hinit', r₀⟩ := Refines.of_initIoEventDriver d₀ pollInterval hl
  obtain rfl : d' = d := (Prod.mk.inj (Option.some.inj (hinit'.symm.trans hinit))).1
  have hholds : ∃ s, Holds m s ∧ Trace TableStep (fun _ _ => none) moves s.table := by
    induction hrun with
    | nil => exact ⟨⟨fun _ => [], fun _ => []⟩, ⟨r₀, trivial⟩, .nil⟩
    | concat _ hmove ih =>
        obtain ⟨s, h, htrace⟩ := ih
        obtain ⟨s', h', hstep⟩ := h.move hmove
        exact ⟨s', h', htrace.concat hstep⟩
  obtain ⟨s, h, htrace⟩ := hholds
  refine ⟨s.table, htrace, h.1.represents, fun hcall c malloc hm => ?_, fun hout t set => ?_,
    fun hout => ?_⟩
  · obtain ⟨d'', s', ret, N, hd, -, -⟩ := h.1.enterCall hm c
    exact ⟨ret, ⟨d'', m.control⟩, hcall, hm, N + 1, d'', hd _ (Nat.lt_succ_self N), rfl⟩
  · obtain ⟨m', henter, -, -⟩ := h.1.enterPass t set
    exact ⟨m', hout, henter⟩
  · obtain ⟨m', s', hwork, -, -⟩ := h.work hout
    exact ⟨m', hwork⟩

end Moments

section Sample

/-- A callback takes its own registration out and makes it again at the same address. -/
def reuse : List (Move ℕ Unit Unit) :=
  [.call (.listen 3 .rx () ()) (some 0) 0, .enter .rx fun _ => true, .work, .work, .work,
    .call (.unlisten 3 .rx) none 0, .call (.listen 3 .rx () ()) (some 0) 0]

theorem trace_reuse : ∃ d, Trace Happens ⟨newDriver, .outside⟩ reuse ⟨d, .inCallback .rx⟩ := by
  have hfresh : ∀ {d : Driver ℕ Unit Unit}, d.mem (.inr 0) = none →
      ∀ e, some 0 = some e → d.mem (.inr e) = none := by
    rintro d h e ⟨⟩
    exact h
  obtain ⟨m₁, m₂, m₃, m₄, m₅, m₆, d, h₁, h₂, h₃, h₄, h₅, h₆, h₇⟩ : ∃ m₁ m₂ m₃ m₄ m₅ m₆ d,
      Happens ⟨newDriver, .outside⟩ (.call (.listen 3 .rx () ()) (some 0) 0) m₁ ∧
      Happens m₁ (.enter .rx fun _ => true) m₂ ∧ Happens m₂ .work m₃ ∧ Happens m₃ .work m₄ ∧
      Happens m₄ .work m₅ ∧ Happens m₅ (.call (.unlisten 3 .rx) none 0) m₆ ∧
      Happens m₆ (.call (.listen 3 .rx () ()) (some 0) 0) ⟨d, .inCallback .rx⟩ :=
    ⟨_, _, _, _, _, _, _, ⟨trivial, hfresh rfl, 1, _, rfl, rfl⟩, ⟨rfl, rfl⟩, rfl, rfl, rfl,
      ⟨trivial, by simp, 2, _, rfl, rfl⟩, ⟨trivial, hfresh rfl, 1, _, rfl, rfl⟩⟩
  exact ⟨d, ((((((Trace.single h₁).concat h₂).concat h₃).concat h₄).concat h₅).concat h₆).concat h₇⟩

theorem registrations_refine_table_reuse : ∃ d table,
    Trace Happens ⟨newDriver, .outside⟩ reuse ⟨d, .inCallback .rx⟩ ∧
      Trace TableStep (fun _ _ => none) reuse table ∧ Represents d table := by
  obtain ⟨d, hrun⟩ := trace_reuse
  obtain ⟨table, htrace, h, -⟩ :=
    registrations_refine_table blank_live (d := newDriver) rfl hrun
  exact ⟨d, table, hrun, htrace, h⟩

end Sample

end IoEvent

end Infra
