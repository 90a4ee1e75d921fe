import Infra.IoEvent.Drive

/-!
# The bounds of the sets

An `fd_set` has `FD_SETSIZE` bits, and `FD_SET` and `FD_ISSET` leave it with another
descriptor. The functions that use the sets are given here once more on sets of this
size: they have no result where they leave a set, and are the same elsewhere.
`listen_io_event` takes every descriptor, so how far they get is up to its callers.
-/

namespace Infra

namespace IoEvent

open Infra.LinkedList Registry

/-- `FD_SETSIZE`. -/
def fdSetSize : ℤ := 1024

/-- The descriptor has a bit in an `fd_set`. -/
def InSet (fd : ℤ) : Prop := 0 ≤ fd ∧ fd < fdSetSize

instance (fd : ℤ) : Decidable (InSet fd) := inferInstanceAs (Decidable (_ ∧ _))

section Functions

variable {ε γ π : Type} [DecidableEq ε]

/-- The loop body of `add_to_select_set`. -/
def addToSelectSetBodyIn : Node ε → FdSet × Driver ε γ π × Bool →
    Option (FdSet × Driver ε γ π × Bool)
  | .inl _, _ => none
  | .inr p, (set, driver, notEmpty) => do
      let q ← driver.elements p
      if InSet q.fd then addToSelectSetBody (.inr p) (set, driver, notEmpty) else none

/-- `add_to_select_set`. -/
def addToSelectSetIn (set : FdSet) (driver : Driver ε γ π) (type : IOEventType) (fuel : ℕ) :
    Option (FdSet × Driver ε γ π × Bool) :=
  listForEach driver.mem addToSelectSetBodyIn (.inl (.ioSet type)) fuel (set, driver, false)

/-- The loop of `drive_io_event` up to the call of `select`. -/
def fillSetsIn (fuel : ℕ) (driver : Driver ε γ π) : Option (Driver ε γ π × SelectSets) := do
  let (rset, driver, r) ← addToSelectSetIn (fun _ => false) { driver with maxFd := 0 } .rx fuel
  let (tset, driver, t) ← addToSelectSetIn (fun _ => false) driver .tx fuel
  let (eset, driver, e) ← addToSelectSetIn (fun _ => false) driver .error fuel
  some (driver, { set := byType rset tset eset, notEmpty := byType r t e })

/-- `FD_ISSET` on the descriptor of an element. -/
def fdIsSetIn (driver : Driver ε γ π) (set : FdSet) (p : ε) : Option Bool := do
  let q ← driver.elements p
  if InSet q.fd then fdIsSet driver set p else none

/-- The first loop of `check_select`. -/
def collectIn (driver : Driver ε γ π) (set : FdSet) (type : IOEventType) (fuel : ℕ) :
    Option (Driver ε γ π) := do
  let mem ← listForEachSafe id (moveIf (fdIsSetIn driver set) (.workingSet type))
    (.inl (.ioSet type)) fuel driver.mem
  some { driver with mem := mem }

/-- `check_select`. -/
def checkSelectIn (client : Client ε γ π) (set : FdSet) (type : IOEventType) (fuel : ℕ)
    (w : World ε γ π) : Option (World ε γ π) := do
  let driver ← collectIn w.driver set type fuel
  drain client type fuel { driver := driver, log := w.log ++ [.pass type set] }

/-- What `drive_io_event` does after `select`, up to the second look at the clock. -/
def passesIn (client : Client ε γ π) (fuel : ℕ) (w : World ε γ π) :
    SelectResult → Option (World ε γ π × Exit)
  | .timeout => some (w, .returns)
  | .failed eintr => some (w, if eintr then .returns else .crashes)
  | .ready sets => do
      let w ← checkSelectIn client (sets .rx) .rx fuel w
      let w ← checkSelectIn client (sets .tx) .tx fuel w
      let w ← checkSelectIn client (sets .error) .error fuel w
      some (w, .goesOn)

/-- The loop of `drive_io_event` up to the second look at the clock. -/
def iterationIn (client : Client ε γ π) (kernel : Kernel ε γ π) (fuel : ℕ) (remain : ℤ)
    (w : World ε γ π) : Option (World ε γ π × Exit) := do
  let (driver, a) ← fillSetsIn fuel w.driver
  let w : World ε γ π := { w with driver := driver }
  passesIn client fuel w (callSelect kernel remain w a)

end Functions

section Definitions

variable {ε γ π : Type}

/-- What `select` is passed for the registry `s`: the set of a type holds the descriptors
that are registered for it, a set without descriptors is left out, and the first argument
is greater than each of them. -/
structure Covers (s : Registry ε γ π) (nfds : ℤ) (a : SelectSets) : Prop where
  omitted : ∀ t, a.given t = none ↔ s.fds t = []
  exact : ∀ t set, a.given t = some set → ∀ fd, set fd ↔ fd ∈ s.fds t
  bound : ∀ t, ∀ fd ∈ s.fds t, fd < nfds

/-- The descriptor is registered for the type when the pass of the type begins. -/
def AtPass (s : Registry ε γ π) (ready : IOEventType → FdSet)
    (during : IOEventType → List (Event ε γ π)) (t : IOEventType) (fd : ℤ) : Prop :=
  (before ready during t).foldl (Event.registers t fd) (decide (fd ∈ s.fds t)) = true

end Definitions

/-! ## The sets are built -/

section Fill

variable {ε γ π : Type} {d : Driver ε γ π} {s : Registry ε γ π} {t : IOEventType}

/-- The loop of `add_to_select_set` stops at a descriptor outside of the set. -/
theorem foldlM_addToSelectSetBodyIn {l : List (Reg ε γ π)}
    (hl : ∀ x ∈ l, d.elements x.1 = some x.2) {set : FdSet} {n : ℤ} {notEmpty : Bool}
    {y : FdSet × Driver ε γ π × Bool} :
    (l.map (Sum.inr ∘ Prod.fst)).foldlM (fun a x => addToSelectSetBodyIn x a)
        (set, { d with maxFd := n }, notEmpty) = some y ↔
      (l.map (Sum.inr ∘ Prod.fst)).foldlM (fun a x => addToSelectSetBody x a)
        (set, { d with maxFd := n }, notEmpty) = some y ∧ ∀ x ∈ l, InSet x.2.fd := by
  induction l generalizing set n notEmpty with
  | nil => simp
  | cons x l ih =>
      have hx := hl x List.mem_cons_self
      have hbody : addToSelectSetBody (.inr x.1) (set, { d with maxFd := n }, notEmpty) =
          some (Function.update set x.2.fd true, { d with maxFd := max n x.2.fd }, true) := by
        simp [addToSelectSetBody, hx]
      have hbodyIn : addToSelectSetBodyIn (.inr x.1) (set, { d with maxFd := n }, notEmpty) =
          if InSet x.2.fd then
            some (Function.update set x.2.fd true, { d with maxFd := max n x.2.fd }, true)
          else none := by
        simp only [addToSelectSetBodyIn, hx, hbody, Option.bind_eq_bind, Option.bind_some]
      rw [List.map_cons, List.foldlM_cons, List.foldlM_cons, Function.comp_apply, hbody, hbodyIn,
        List.forall_mem_cons]
      by_cases hin : InSet x.2.fd
      · rw [if_pos hin, and_iff_right hin]
        exact ih fun y hy => hl y (List.mem_cons_of_mem x hy)
      · rw [if_neg hin]
        constructor
        · intro h
          cases h
        · intro h
          exact absurd h.2.1 hin

variable [DecidableEq ε] {fuel : ℕ}

theorem Refines.addToSelectSetIn_iff (r : Refines d s) {set : FdSet} {n : ℤ}
    (hf : (s.idle t).length < fuel) {y : FdSet × Driver ε γ π × Bool} :
    addToSelectSetIn set { d with maxFd := n } t fuel = some y ↔
      addToSelectSet set { d with maxFd := n } t fuel = some y ∧
        ∀ x ∈ s.idle t, InSet x.2.fd := by
  have hring := r.rings.ring (.ioSet t) trivial
  rw [entries, List.map_map] at hring
  rw [addToSelectSetIn, addToSelectSet, hring.listForEach_eq (by simpa using hf),
    hring.listForEach_eq (by simpa using hf)]
  exact foldlM_addToSelectSetBodyIn fun x hx => r.fields t x (List.mem_append_left _ hx)

/-- The sets are built if and only if each descriptor is in them. -/
theorem Refines.fillSetsIn_iff (r : Refines d s) (hf : ∀ t, (s.idle t).length < fuel)
    {y : Driver ε γ π × SelectSets} :
    fillSetsIn fuel d = some y ↔
      fillSets fuel d = some y ∧ ∀ t, ∀ x ∈ s.idle t, InSet x.2.fd := by
  obtain ⟨rset, h₁, -⟩ := r.addToSelectSet_spec 0 .rx
  obtain ⟨tset, h₂, -⟩ := r.addToSelectSet_spec (maxFdOf 0 (s.idle .rx)) .tx
  have h₁ := h₁ fuel (hf .rx)
  have h₂ := h₂ fuel (hf .tx)
  simp only [fillSetsIn, fillSets, Option.bind_eq_bind, Option.bind_eq_some_iff]
  constructor
  · rintro ⟨a₁, g₁, a₂, g₂, a₃, g₃, h⟩
    obtain ⟨g₁, in₁⟩ := (r.addToSelectSetIn_iff (hf .rx)).mp g₁
    obtain rfl := Option.some.inj (h₁.symm.trans g₁)
    obtain ⟨g₂, in₂⟩ := (r.addToSelectSetIn_iff (hf .tx)).mp g₂
    obtain rfl := Option.some.inj (h₂.symm.trans g₂)
    obtain ⟨g₃, in₃⟩ := (r.addToSelectSetIn_iff (hf .error)).mp g₃
    refine ⟨⟨_, g₁, _, g₂, a₃, g₃, h⟩, fun t => ?_⟩
    cases t with
    | rx => exact in₁
    | tx => exact in₂
    | error => exact in₃
  · rintro ⟨⟨a₁, g₁, a₂, g₂, a₃, g₃, h⟩, hin⟩
    obtain rfl := Option.some.inj (h₁.symm.trans g₁)
    obtain rfl := Option.some.inj (h₂.symm.trans g₂)
    exact ⟨_, (r.addToSelectSetIn_iff (hf .rx)).mpr ⟨g₁, hin .rx⟩, _,
      (r.addToSelectSetIn_iff (hf .tx)).mpr ⟨g₂, hin .tx⟩, a₃,
      (r.addToSelectSetIn_iff (hf .error)).mpr ⟨g₃, hin .error⟩, h⟩

omit [DecidableEq ε] in
theorem le_maxFdOf {n : ℤ} {l : List (Reg ε γ π)} :
    n ≤ maxFdOf n l ∧ ∀ x ∈ l, x.2.fd ≤ maxFdOf n l := by
  induction l generalizing n with
  | nil => simp [maxFdOf]
  | cons x l ih =>
      obtain ⟨hn, hl⟩ := ih (n := max n x.2.fd)
      refine ⟨(le_max_left _ _).trans hn, List.forall_mem_cons.mpr ⟨?_, hl⟩⟩
      exact (le_max_right _ _).trans hn

omit [DecidableEq ε] in
theorem maxFdOf_lt {n m : ℤ} {l : List (Reg ε γ π)} (hn : n < m) (hl : ∀ x ∈ l, x.2.fd < m) :
    maxFdOf n l < m := by
  induction l generalizing n with
  | nil => exact hn
  | cons x l ih =>
      exact ih (max_lt hn (hl x List.mem_cons_self)) fun y hy => hl y (List.mem_cons_of_mem x hy)

omit [DecidableEq ε] in
/-- Sets that are built from descriptors in them hold what they should. -/
theorem Filled.covers {n : ℤ} {a : SelectSets} (filled : Filled s n a)
    (hw : ∀ t, s.waiting t = []) (hin : ∀ t, ∀ x ∈ s.idle t, InSet x.2.fd) :
    Covers s (nfds { d with maxFd := n }) a := by
  have hfds : ∀ t, s.fds t = (s.idle t).map fun x => x.2.fd := by simp [fds, regs, hw]
  have hlt : ∀ t, ∀ x ∈ s.idle t, x.2.fd < fdSetSize := fun t x hx => (hin t x hx).2
  have hn : n < fdSetSize := by
    rw [filled.maxFd]
    exact maxFdOf_lt (maxFdOf_lt (maxFdOf_lt (by decide) (hlt .rx)) (hlt .tx)) (hlt .error)
  have hrx := le_maxFdOf (n := 0) (l := s.idle .rx)
  have htx := le_maxFdOf (n := maxFdOf 0 (s.idle .rx)) (l := s.idle .tx)
  have herror := le_maxFdOf (n := maxFdOf (maxFdOf 0 (s.idle .rx)) (s.idle .tx))
    (l := s.idle .error)
  rw [← filled.maxFd] at herror
  have hpos : 0 ≤ n := hrx.1.trans (htx.1.trans herror.1)
  have hle : ∀ t, ∀ x ∈ s.idle t, x.2.fd ≤ n := by
    intro t
    cases t with
    | rx => exact fun x hx => (hrx.2 x hx).trans (htx.1.trans herror.1)
    | tx => exact fun x hx => (htx.2 x hx).trans herror.1
    | error => exact herror.2
  refine ⟨fun t => ?_, fun t set hset fd => ?_, fun t fd hfd => ?_⟩
  · rw [SelectSets.given, filled.notEmpty, hfds]
    cases s.idle t <;> simp
  · rw [SelectSets.given] at hset
    split at hset
    · cases hset
      rw [filled.set, hfds]
    · cases hset
  · rw [hfds] at hfd
    obtain ⟨x, hx, rfl⟩ := List.mem_map.mp hfd
    have hfd := hle t x hx
    have hwrap : nfds { d with maxFd := n } = n + 1 :=
      CInt.wrap_eq_self (by simp only [CInt.intMin]; omega) (by
        simp only [fdSetSize] at hn
        simp only [CInt.intMax]
        omega)
    omega

end Fill

/-! ## The passes -/

section Passes

variable {ε γ π : Type} [DecidableEq ε] {d d' : Driver ε γ π} {w w' : World ε γ π}
  {s s' : Registry ε γ π} {t : IOEventType} {set : FdSet} {fuel : ℕ} {client : Client ε γ π}

omit [DecidableEq ε] in
theorem Refines.fdIsSetIn_eq (r : Refines d s) {x : Reg ε γ π} (hx : x ∈ s.regs t) :
    fdIsSetIn d set x.1 = if InSet x.2.fd then some (set x.2.fd) else none := by
  simp only [fdIsSetIn, fdIsSet, r.fields t x hx, Option.bind_eq_bind, Option.bind_some,
    Option.map_some]

omit [DecidableEq ε] in
theorem moveIf_of_moveIfIn [DecidableEq ε] {dest : Head} {p : Node ε} {h h' : Heap (Node ε)}
    (hmove : moveIf (fdIsSetIn d set) dest p h = some h') :
    moveIf (fdIsSet d set) dest p h = some h' := by
  cases p with
  | inl k => exact hmove
  | inr e =>
      obtain ⟨found, hfound, hmove⟩ := Option.bind_eq_some_iff.mp hmove
      obtain ⟨q, -, hfound⟩ := Option.bind_eq_some_iff.mp hfound
      split at hfound
      · exact Option.bind_eq_some_iff.mpr ⟨found, hfound, hmove⟩
      · cases hfound

/-- The first loop of `check_select` returns on sets of this size if and only if each
descriptor is in them. -/
theorem Refines.collectIn_iff (r : Refines d s) (hf : (s.idle t).length < fuel) :
    collectIn d set t fuel = some d' ↔
      collect d set t fuel = some d' ∧ ∀ x ∈ s.idle t, InSet x.2.fd := by
  have hle : ∀ {mem}, listForEachSafe id (moveIf (fdIsSetIn d set) (.workingSet t))
        (.inl (.ioSet t)) fuel d.mem = some mem →
      listForEachSafe id (moveIf (fdIsSet d set) (.workingSet t)) (.inl (.ioSet t)) fuel d.mem =
        some mem := fun h => listForEachSafe_imp (fun _ _ _ => moveIf_of_moveIfIn) h
  have hregs : ∀ x ∈ s.idle t, x ∈ s.regs t := fun x hx => List.mem_append_left _ hx
  have hne : Head.ioSet t ≠ .workingSet t := by simp
  constructor
  · intro h
    obtain ⟨mem, hmem, h⟩ := Option.bind_eq_some_iff.mp h
    refine ⟨Option.bind_eq_some_iff.mpr ⟨mem, hle hmem, h⟩, fun x hx => ?_⟩
    have htest := r.rings.moveIf_returns (Set.mem_univ (Head.ioSet t))
      (Set.mem_univ (Head.workingSet t)) hne hmem x.1 (List.mem_map_of_mem hx)
    rw [r.fdIsSetIn_eq (hregs x hx)] at htest
    by_contra hout
    rw [if_neg hout] at htest
    cases htest
  · rintro ⟨h, hin⟩
    obtain ⟨mem, hmem, h⟩ := Option.bind_eq_some_iff.mp h
    have htest : ∀ e ∈ entries s (.ioSet t),
        fdIsSetIn d set e = some ((fdIsSetIn d set e).getD false) := by
      intro e he
      obtain ⟨x, hx, rfl⟩ := List.mem_map.mp he
      rw [r.fdIsSetIn_eq (hregs x hx), if_pos (hin x hx)]
      rfl
    obtain ⟨mem', hmem', -⟩ := r.rings.moveIf_spec (Set.mem_univ (Head.ioSet t))
      (Set.mem_univ (Head.workingSet t)) hne htest (by simpa [entries] using hf)
    obtain rfl := Option.some.inj (hmem.symm.trans (hle hmem'))
    exact Option.bind_eq_some_iff.mpr ⟨mem, hmem', h⟩

/-- `check_select` returns on sets of this size if and only if each descriptor is in
them. -/
theorem Refines.checkSelectIn_iff (r : Refines w.driver s) (hf : (s.idle t).length < fuel) :
    checkSelectIn client set t fuel w = some w' ↔
      checkSelect client set t fuel w = some w' ∧ ∀ x ∈ s.idle t, InSet x.2.fd := by
  simp only [checkSelectIn, checkSelect, Option.bind_eq_bind, Option.bind_eq_some_iff,
    r.collectIn_iff hf]
  constructor
  · rintro ⟨d, ⟨hd, hin⟩, h⟩
    exact ⟨⟨d, hd, h⟩, hin⟩
  · rintro ⟨⟨d, hd, h⟩, hin⟩
    exact ⟨d, ⟨hd, hin⟩, h⟩

end Passes

/-! ## The iteration -/

section Iteration

variable {ε γ π : Type} [DecidableEq ε] {client : Client ε γ π} {kernel : Kernel ε γ π}
  {w w' w₁ w₂ w₃ : World ε γ π} {s : Registry ε γ π} {remain : ℤ} {acts : List (Act γ π)}

omit [DecidableEq ε] in
theorem idle_iff_fds (hw : ∀ t, s.waiting t = []) {t : IOEventType} :
    (∀ x ∈ s.idle t, InSet x.2.fd) ↔ ∀ fd ∈ s.fds t, InSet fd := by
  rw [fds, regs, hw, List.append_nil, List.forall_mem_map]

/-- The three passes return on sets of this size if and only if each descriptor that is
registered when the pass of its type begins is in them. -/
theorem passesIn_iff {N : ℕ} {sets : IOEventType → FdSet}
    {during : IOEventType → List (Event ε γ π)}
    (h : ∀ fuel, N < fuel → checkSelect client (sets .rx) .rx fuel w = some w₁ ∧
      checkSelect client (sets .tx) .tx fuel w₁ = some w₂ ∧
      checkSelect client (sets .error) .error fuel w₂ = some w')
    (hstart : ∀ t, ∃ s₁, Refines (byType w w₁ w₂ t).driver s₁ ∧ (∀ t', s₁.waiting t' = []) ∧
      Runs s (before sets during t) s₁) :
    ∃ N', ∀ fuel, N' < fuel → (passesIn client fuel w (.ready sets) = some (w', .goesOn) ↔
      ∀ t fd, AtPass s sets during t fd → InSet fd) := by
  choose S r hw hruns using hstart
  have hat : (∀ t fd, AtPass s sets during t fd → InSet fd) ↔
      ∀ t, ∀ x ∈ (S t).idle t, InSet x.2.fd := by
    refine forall_congr' fun t => ?_
    rw [idle_iff_fds (hw t)]
    exact forall_congr' fun fd => by rw [AtPass, (hruns t).mem_fds fd]
  refine ⟨N + ((S .rx).idle .rx).length + ((S .tx).idle .tx).length +
    ((S .error).idle .error).length, fun fuel hf => ?_⟩
  have hlen : ∀ t, ((S t).idle t).length < fuel := fun t => by cases t <;> omega
  have hiff : ∀ t y, checkSelectIn client (sets t) t fuel (byType w w₁ w₂ t) = some y ↔
      checkSelect client (sets t) t fuel (byType w w₁ w₂ t) = some y ∧
        ∀ x ∈ (S t).idle t, InSet x.2.fd := fun t y => (r t).checkSelectIn_iff (hlen t)
  obtain ⟨h₁, h₂, h₃⟩ := h fuel (by omega)
  rw [hat]
  constructor
  · intro hpass
    obtain ⟨v₁, g₁, hpass⟩ := Option.bind_eq_some_iff.mp hpass
    obtain ⟨g₁, in₁⟩ := (hiff .rx v₁).mp g₁
    obtain rfl := Option.some.inj (h₁.symm.trans g₁)
    obtain ⟨v₂, g₂, hpass⟩ := Option.bind_eq_some_iff.mp hpass
    obtain ⟨g₂, in₂⟩ := (hiff .tx v₂).mp g₂
    obtain rfl := Option.some.inj (h₂.symm.trans g₂)
    obtain ⟨v₃, g₃, -⟩ := Option.bind_eq_some_iff.mp hpass
    obtain ⟨-, in₃⟩ := (hiff .error v₃).mp g₃
    intro t
    cases t with
    | rx => exact in₁
    | tx => exact in₂
    | error => exact in₃
  · intro hin
    exact Option.bind_eq_some_iff.mpr ⟨w₁, (hiff .rx w₁).mpr ⟨h₁, hin .rx⟩,
      Option.bind_eq_some_iff.mpr ⟨w₂, (hiff .tx w₂).mpr ⟨h₂, hin .tx⟩,
        Option.bind_eq_some_iff.mpr ⟨w', (hiff .error w').mpr ⟨h₃, hin .error⟩, rfl⟩⟩⟩

/-- An iteration on sets of this size builds the sets if and only if each registered
descriptor is in them, and then it goes on. -/
theorem iterationIn_eq_some (r : Refines w.driver s) {fuel : ℕ} {m : ℤ} {a : SelectSets}
    (hw₁ : w₁ = { w with driver := { w.driver with maxFd := m } })
    (hfill : fillSets fuel w.driver = some (w₁.driver, a)) (hf : ∀ t, (s.idle t).length < fuel)
    {y : World ε γ π × Exit} :
    iterationIn client kernel fuel remain w = some y ↔ (∀ t, ∀ x ∈ s.idle t, InSet x.2.fd) ∧
      passesIn client fuel w₁ (callSelect kernel remain w₁ a) = some y := by
  subst hw₁
  constructor
  · intro h
    obtain ⟨⟨d, a'⟩, hfill', hpass⟩ := Option.bind_eq_some_iff.mp h
    obtain ⟨hsame, hin⟩ := (r.fillSetsIn_iff hf).mp hfill'
    obtain ⟨rfl, rfl⟩ := Prod.mk.inj (Option.some.inj (hfill.symm.trans hsame))
    exact ⟨hin, hpass⟩
  · rintro ⟨hin, hpass⟩
    exact Option.bind_eq_some_iff.mpr ⟨_, (r.fillSetsIn_iff hf).mpr ⟨hfill, hin⟩, hpass⟩

/-- An iteration passes the right sets to `select` and returns on sets of this size if and
only if each registered descriptor is in them and what follows returns. -/
theorem covers_iff (r : Refines w.driver s) (hw : ∀ t, s.waiting t = []) {N N' : ℕ} {m : ℤ}
    {a : SelectSets} (filled : Filled s m a)
    (hw₁ : w₁ = { w with driver := { w.driver with maxFd := m } })
    (hfill : ∀ fuel, N < fuel → fillSets fuel w.driver = some (w₁.driver, a))
    {y : World ε γ π × Exit} {C : Prop} (hpass : ∀ fuel, N' < fuel →
      (passesIn client fuel w₁ (callSelect kernel remain w₁ a) = some y ↔ C)) :
    (Covers s (nfds w₁.driver) a ∧
        ∃ n, ∀ fuel, n < fuel → iterationIn client kernel fuel remain w = some y) ↔
      (∀ t, ∀ fd ∈ s.fds t, InSet fd) ∧ C := by
  have hfds : (∀ t, ∀ x ∈ s.idle t, InSet x.2.fd) ↔ ∀ t, ∀ fd ∈ s.fds t, InSet fd :=
    forall_congr' fun t => idle_iff_fds hw
  let n := max (max N N') ((s.idle .rx).length + (s.idle .tx).length + (s.idle .error).length)
  have hiter : ∀ fuel, n < fuel → (iterationIn client kernel fuel remain w = some y ↔
      (∀ t, ∀ fd ∈ s.fds t, InSet fd) ∧ C) := by
    intro fuel hf
    have hlen : ∀ t, (s.idle t).length < fuel := fun t => by cases t <;> omega
    rw [iterationIn_eq_some r hw₁ (hfill fuel (by omega)) hlen, hpass fuel (by omega), hfds]
  constructor
  · rintro ⟨-, n', h⟩
    exact (hiter _ (by omega : n < max n n' + 1)).mp (h _ (by omega))
  · intro hin
    refine ⟨?_, n, fun fuel hf => (hiter fuel hf).mpr hin⟩
    subst hw₁
    exact filled.covers hw (hfds.mpr hin.1)

/-- What an iteration does after `select`, on any sets and on sets of this size. -/
theorem passesIn_spec (client : Client ε γ π) (r : Refines w₁.driver s)
    (hw : ∀ t, s.waiting t = []) (result : SelectResult)
    (hready : ∀ sets, result = .ready sets → ∀ t fd, sets t fd → fd ∈ s.fds t) :
    ∃ N w' exit during, (∀ fuel, N < fuel → enterSelect kernel fuel remain w = some (w₁, result) →
        iteration client kernel fuel remain w = some (w', exit)) ∧
      (∀ sets, result = .ready sets → w'.log = w₁.log ++ passes sets during) ∧
      ∀ fuel, N < fuel → (passesIn client fuel w₁ result = some (w', exit) ↔
        ∀ sets, result = .ready sets → ∀ t fd, AtPass s sets during t fd → InSet fd) := by
  cases result with
  | timeout =>
      refine ⟨0, w₁, .returns, fun _ => [], fun fuel _ henter => ?_, by simp, fun fuel _ => ?_⟩
      · rw [iteration, henter]
        rfl
      · simp [passesIn]
  | failed eintr =>
      refine ⟨0, w₁, if eintr then .returns else .crashes, fun _ => [], fun fuel _ henter => ?_,
        by simp, fun fuel _ => ?_⟩
      · rw [iteration, henter]
        rfl
      · simp [passesIn]
  | ready sets =>
      obtain ⟨N, w₂, w₃, w', s', during, h, a, -, -, hstart, -⟩ :=
        passes_spec client r hw (hready sets rfl)
      obtain ⟨N', hiff⟩ := passesIn_iff h hstart
      refine ⟨max N N', w', .goesOn, during, fun fuel hf henter => ?_, ?_, fun fuel hf => ?_⟩
      · obtain ⟨h₂, h₃, h₄⟩ := h fuel (by omega)
        refine Option.bind_eq_some_iff.mpr ⟨_, henter, ?_⟩
        exact Option.bind_eq_some_iff.mpr ⟨w₂, h₂, Option.bind_eq_some_iff.mpr ⟨w₃, h₃,
          Option.bind_eq_some_iff.mpr ⟨w', h₄, rfl⟩⟩⟩
      · rintro sets' hsets
        cases hsets
        exact a.log
      · rw [hiff fuel (by omega)]
        simp

/-- In every run of calls and iterations from a new event driver, whatever `select` answers
and the callbacks do, the next iteration passes to `select` the sets of the registered
descriptors, with a first argument above each of them, and uses only descriptors that are
in the sets, if and only if each descriptor that is registered when it begins is in them,
and each one that is registered for a type when its pass begins. -/
theorem select_sets_iff (client : Client ε γ π) (kernel : Kernel ε γ π) {d₀ d : Driver ε γ π}
    {pollInterval : ℤ} (hl : ∀ k, d₀.mem.Live (.inl k))
    (hinit : initIoEventDriver d₀ pollInterval = some (d, 0))
    (hrun : Trace (Drives client kernel) ⟨d, []⟩ acts w) (remain : ℤ) :
    ∃ s, Refines w.driver s ∧ (∀ t, s.waiting t = []) ∧ ∃ fuel w₁ a w' exit during,
      fillSets fuel w.driver = some (w₁.driver, a) ∧
      enterSelect kernel fuel remain w = some (w₁, callSelect kernel remain w₁ a) ∧
      iteration client kernel fuel remain w = some (w', exit) ∧
      (∀ sets, callSelect kernel remain w₁ a = .ready sets →
        w'.log = w.log ++ passes sets during) ∧
      ((Covers s (nfds w₁.driver) a ∧ ∃ N, ∀ fuel, N < fuel →
          iterationIn client kernel fuel remain w = some (w', exit)) ↔
        (∀ t, ∀ fd ∈ s.fds t, InSet fd) ∧ ∀ sets, callSelect kernel remain w₁ a = .ready sets →
          ∀ t fd, AtPass s sets during t fd → InSet fd) := by
  obtain ⟨d', hinit', r⟩ := Refines.of_initIoEventDriver d₀ pollInterval hl
  obtain rfl : d' = d := (Prod.mk.inj (Option.some.inj (hinit'.symm.trans hinit))).1
  obtain ⟨s, r, hw⟩ := hrun.invariant (fun _ _ _ hw hstep => hstep.settled hw) ⟨_, r, fun _ => rfl⟩
  obtain ⟨N, m, a, hfill, filled⟩ := r.fillSets_spec
  obtain ⟨w₁, hw₁⟩ : ∃ w₁ : World ε γ π, w₁ = { w with driver := { w.driver with maxFd := m } } :=
    ⟨_, rfl⟩
  have hdriver : w₁.driver = { w.driver with maxFd := m } := by rw [hw₁]
  have r₁ : Refines w₁.driver s := hdriver ▸ r.maxFd m
  rw [← hdriver] at hfill
  have henter : ∀ fuel, N < fuel →
      enterSelect kernel fuel remain w = some (w₁, callSelect kernel remain w₁ a) := by
    intro fuel hf
    rw [enterSelect, hfill fuel hf, hw₁]
    rfl
  obtain ⟨N', w', exit, during, hiter, hlog, hpass⟩ := passesIn_spec client r₁ hw
    (callSelect kernel remain w₁ a) fun _ h _ _ => filled.mem_fds h
  have hf : max N N' < max N N' + 1 := Nat.lt_succ_self _
  refine ⟨s, r, hw, max N N' + 1, w₁, a, w', exit, during, hfill _ (by omega),
    henter _ (by omega), hiter _ (by omega) (henter _ (by omega)), ?_,
    covers_iff r hw filled hw₁ hfill hpass⟩
  rwa [hw₁] at hlog ⊢

end Iteration

section Sample

/-- The descriptors 3 and 5 are registered, and 5 again by a callback: the sets are right, and
the iteration stays within them. -/
theorem select_sets_iff_two : ∃ (w : World ℕ Unit Unit) (s : Registry ℕ Unit Unit),
    w.log.length = 2 ∧ Refines w.driver s ∧ (∀ t, s.waiting t = []) ∧
      ∃ fuel driver a w' exit, fillSets fuel w.driver = some (driver, a) ∧
        iteration replacer allReady fuel 10000 w = some (w', exit) ∧
        Covers s (nfds driver) a ∧ ∃ N, ∀ fuel, N < fuel →
          iterationIn replacer allReady fuel 10000 w = some (w', exit) := by
  obtain ⟨w, -, w₂, sets₂, hrun, hlog, -, hiter₂, hlog₂, helements⟩ := iteration_listenTwo
  obtain ⟨s, r, hw, fuel, w₁, a, w', exit, during, hfill, -, hiter, hpasses, hiff⟩ :=
    select_sets_iff replacer allReady blank_live (d := newDriver) rfl hrun 10000
  have hfds : ∀ t, ∀ fd ∈ s.fds t, InSet fd := by
    intro t fd hfd
    obtain ⟨x, hx, rfl⟩ := List.mem_map.mp hfd
    rcases helements _ _ (r.fields t x hx) with h | h <;> rw [h] <;> decide
  have hsame := iteration_mono (le_max_left fuel 5) hiter
  rw [iteration_mono (le_max_right fuel 5) hiter₂] at hsame
  obtain ⟨rfl, rfl⟩ := Prod.mk.inj (Option.some.inj hsame)
  refine ⟨w, s, hlog, r, hw, fuel, w₁.driver, a, w₂, _, hfill, hiter,
    hiff.mpr ⟨hfds, fun sets hsets t fd hat => ?_⟩⟩
  rcases listen_of_registers hat with hreg | ⟨p, e, hmem, rfl⟩
  · exact hfds t fd (of_decide_eq_true hreg)
  · -- the callback listens to nothing but 5
    have hall : .listen t p e 0 ∈ passes sets during := by
      cases t <;> simp [before, passes] at hmem ⊢ <;> tauto
    rw [List.append_cancel_left ((hpasses sets hsets).symm.trans hlog₂)] at hall
    have hfive : p.fd = 5 := by
      simp [passes, before, duringTwo] at hall
      rw [hall.2.1]
    rw [hfive]
    decide

/-- The descriptor 1024 is registered, and the next iteration leaves the set. -/
theorem set_left : ∃ w : World ℕ Unit Unit,
    Trace (Drives replacer allReady) ⟨newDriver, []⟩ [.call (.listen 1024 .rx () ())] w ∧
      ∀ fuel, iterationIn replacer allReady fuel 10000 w = none := by
  refine ⟨_, Trace.single ⟨1, rfl⟩, fun fuel => ?_⟩
  cases fuel with
  | zero => rfl
  | succ fuel => rfl

end Sample

end IoEvent

end Infra
