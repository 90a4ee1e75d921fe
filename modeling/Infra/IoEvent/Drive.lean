import Infra.Foundation.CInt
import Infra.IoEvent.Dispatch
import Infra.TimerWheel.Basic

/-!
# One iteration of `drive_io_event`

An iteration puts the registered descriptors into a set for each type, hands the
sets to `select` and then makes a pass for each type in turn. A set knows only
descriptors. Inside its own pass a new registration waits for a later `select`,
as it is not on the working set; but a callback of an earlier pass can end a
registration and make another one for its descriptor, which is then taken for the
one that was selected.
-/

namespace Infra

namespace IoEvent

open Infra.LinkedList Registry

/-- What `select` does: its time is over, it fails, with `errno` equal to `EINTR`
or not, or it leaves in each set the descriptors that are ready. -/
inductive SelectResult where
  | timeout
  | failed (eintr : Bool)
  | ready (sets : IOEventType → FdSet)

/-- How an iteration ends: `drive_io_event` returns, it calls `crash`, or it goes on
to look at the clock. -/
inductive Exit where
  | returns
  | crashes
  | goesOn
  deriving DecidableEq

/-- The system calls: the answers of `select` to a number of descriptors, three
pointers to sets and a time, and those of `gettimeofday`. -/
structure Kernel (ε γ π : Type) where
  select : World ε γ π → ℤ → Option FdSet → Option FdSet → Option FdSet → ℤ → SelectResult
  gettimeofday : World ε γ π → TimerWheel.TimeVal

section Functions

variable {ε γ π : Type} [DecidableEq ε]

/-- The loop body of `add_to_select_set`. -/
def addToSelectSetBody : Node ε → FdSet × Driver ε γ π × Bool →
    Option (FdSet × Driver ε γ π × Bool)
  | .inl _, _ => none
  | .inr p, (set, driver, _) => do
      let q ← driver.elements p
      some (Function.update set q.fd true, { driver with maxFd := max driver.maxFd q.fd }, true)

/-- `add_to_select_set`, with the set as it was. -/
def addToSelectSet (set : FdSet) (driver : Driver ε γ π) (type : IOEventType) (fuel : ℕ) :
    Option (FdSet × Driver ε γ π × Bool) :=
  listForEach driver.mem addToSelectSetBody (.inl (.ioSet type)) fuel (set, driver, false)

/-- A set after `select`, which was given a pointer to it or `NULL`, when these
descriptors are ready. -/
def afterSelect (set : FdSet) (given : Bool) (ready : FdSet) : FdSet :=
  fun fd => given && set fd && ready fd

/-- The sets of `drive_io_event`, and whether they are not empty. -/
structure SelectSets where
  set : IOEventType → FdSet
  notEmpty : IOEventType → Bool

/-- The pointer to a set that `select` is passed, or `NULL`. -/
def SelectSets.given (a : SelectSets) (type : IOEventType) : Option FdSet :=
  if a.notEmpty type then some (a.set type) else none

/-- A value for each type. -/
def byType {α : Type} (rx tx error : α) : IOEventType → α
  | .rx => rx
  | .tx => tx
  | .error => error

/-- The loop of `drive_io_event` up to the call of `select`. -/
def fillSets (fuel : ℕ) (driver : Driver ε γ π) : Option (Driver ε γ π × SelectSets) := do
  let (rset, driver, r) ← addToSelectSet (fun _ => false) { driver with maxFd := 0 } .rx fuel
  let (tset, driver, t) ← addToSelectSet (fun _ => false) driver .tx fuel
  let (eset, driver, e) ← addToSelectSet (fun _ => false) driver .error fuel
  some (driver, { set := byType rset tset eset, notEmpty := byType r t e })

/-- The first argument of `select`. -/
def nfds (driver : Driver ε γ π) : ℤ := CInt.wrap (driver.maxFd + 1)

/-- The call of `select`, and the sets after it. -/
def callSelect (kernel : Kernel ε γ π) (remain : ℤ) (w : World ε γ π) (a : SelectSets) :
    SelectResult :=
  match kernel.select w (nfds w.driver) (a.given .rx) (a.given .tx) (a.given .error) remain with
  | .timeout => .timeout
  | .failed eintr => .failed eintr
  | .ready sets => .ready fun type => afterSelect (a.set type) (a.notEmpty type) (sets type)

/-- The loop of `drive_io_event` up to the look at what `select` returns. -/
def enterSelect (kernel : Kernel ε γ π) (fuel : ℕ) (remain : ℤ) (w : World ε γ π) :
    Option (World ε γ π × SelectResult) := do
  let (driver, a) ← fillSets fuel w.driver
  let w : World ε γ π := { w with driver := driver }
  some (w, callSelect kernel remain w a)

/-- The loop of `drive_io_event` up to the second look at the clock. -/
def iteration (client : Client ε γ π) (kernel : Kernel ε γ π) (fuel : ℕ) (remain : ℤ)
    (w : World ε γ π) : Option (World ε γ π × Exit) := do
  let (w, result) ← enterSelect kernel fuel remain w
  match result with
  | .timeout => some (w, .returns)
  | .failed eintr => some (w, if eintr then .returns else .crashes)
  | .ready sets => do
      let w ← checkSelect client (sets .rx) .rx fuel w
      let w ← checkSelect client (sets .tx) .tx fuel w
      let w ← checkSelect client (sets .error) .error fuel w
      some (w, .goesOn)

/-- `diff_time_in_usec`. -/
def diffTimeInUsec (start now : TimerWheel.TimeVal) : ℤ :=
  let diff := CInt.wrap ((now.tvSec - start.tvSec) * 1000000 + (now.tvUsec - start.tvUsec))
  if diff < 0 then 0 else diff

/-- The loop of `drive_io_event`. -/
def driveLoop (client : Client ε γ π) (kernel : Kernel ε γ π) (start : TimerWheel.TimeVal)
    (original : ℤ) : ℕ → ℤ → World ε γ π → Option (World ε γ π × Exit)
  | 0, _, _ => none
  | fuel + 1, remain, w => do
      let (w, exit) ← iteration client kernel fuel remain w
      match exit with
      | .returns => some (w, .returns)
      | .crashes => some (w, .crashes)
      | .goesOn =>
          let remain := CInt.wrap (remain - diffTimeInUsec start (kernel.gettimeofday w))
          if remain > original ∨ remain < 30 then some (w, .returns)
          else driveLoop client kernel start original fuel remain w

/-- `drive_io_event`. -/
def driveIoEvent (client : Client ε γ π) (kernel : Kernel ε γ π) (fuel : ℕ) (w : World ε γ π) :
    Option (World ε γ π × Exit) :=
  let original := CInt.wrap (w.driver.pollInterval * 1000)
  driveLoop client kernel (kernel.gettimeofday w) original fuel original w

end Functions

/-! ## Registrations that are replaced -/

section Definitions

variable {ε γ π : Type}

/-- The largest of a number and the descriptors of some registrations. -/
def maxFdOf (n : ℤ) (l : List (Reg ε γ π)) : ℤ := (l.map fun x => x.2.fd).foldl max n

/-- The events of the passes before that of a type: `during` are the events of the
passes. -/
def before (ready : IOEventType → FdSet) (during : IOEventType → List (Event ε γ π)) :
    IOEventType → List (Event ε γ π)
  | .rx => []
  | .tx => .pass .rx (ready .rx) :: during .rx
  | .error => .pass .rx (ready .rx) :: during .rx ++ .pass .tx (ready .tx) :: during .tx

/-- The events of the three passes. -/
def passes (ready : IOEventType → FdSet) (during : IOEventType → List (Event ε γ π)) :
    List (Event ε γ π) :=
  before ready during .error ++ .pass .error (ready .error) :: during .error

/-- Every callback is called for a descriptor that is ready for its type, and for the
element that the registry had for it when the sets were built, which is still the
same registration: it was not unlistened since. -/
def SelectedOnly (s : Registry ε γ π) (ready : IOEventType → FdSet)
    (during : IOEventType → List (Event ε γ π)) : Prop :=
  ∀ t A e p B, during t = A ++ .dispatch t e p :: B →
    ready t p.fd ∧ (∃ r ∈ s.idle t, r.1 = e ∧ r.2.fd = p.fd) ∧
      unlistened t p.fd (before ready during t ++ A) = false

/-- When a ready descriptor is unlistened before the pass of its type and is
registered again when the pass begins, it is unlistened once more in the pass before
its turn comes. -/
def NoneReplaced (ready : IOEventType → FdSet) (during : IOEventType → List (Event ε γ π)) :
    Prop :=
  ∀ t fd, ready t fd → unlistened t fd (before ready during t) →
    (before ready during t).foldl (Event.registers t fd) true = true →
    ∃ A B, during t = A ++ B ∧ unlistened t fd A ∧ ∀ e p, .dispatch t e p ∈ A → p.fd ≠ fd

/-- No descriptor is unlistened before the pass of its type and then listened to again,
still before this pass. -/
def NoneRelistened (ready : IOEventType → FdSet) (during : IOEventType → List (Event ε γ π)) :
    Prop :=
  ∀ t fd A B, before ready during t = A ++ B → unlistened t fd A →
    ∀ p e, .listen t p e 0 ∈ B → p.fd ≠ fd

/-- The events of an iteration that began with the registry `s`: after a result of
`select` they are those of three passes over ready descriptors, and a registration
that was not selected is called just when one was replaced. -/
def Outcome (s : Registry ε γ π) (log log' : List (Event ε γ π)) : SelectResult → Prop
  | .ready sets => (∀ t fd, sets t fd → fd ∈ s.fds t) ∧
      ∃ during, log' = log ++ passes sets during ∧ (∀ t, ∀ ev ∈ during t, ev.InPass t) ∧
        (SelectedOnly s sets during ↔ NoneReplaced sets during)
  | _ => log' = log

end Definitions

section Facts

variable {ε γ π : Type} {t : IOEventType} {set : FdSet} {evs bef : List (Event ε γ π)}
  {s s₁ : Registry ε γ π} {idle' : List (Reg ε γ π)}

theorem unlistened_append {fd : ℤ} : unlistened t fd (bef ++ evs) =
    (unlistened t fd bef || unlistened t fd evs) := List.any_append

/-- What is registered after some events was registered before or is listened to. -/
theorem listen_of_registers {fd : ℤ} {b : Bool}
    (h : evs.foldl (Event.registers t fd) b = true) :
    b = true ∨ ∃ p e, .listen t p e 0 ∈ evs ∧ p.fd = fd := by
  induction evs generalizing b with
  | nil => exact Or.inl h
  | cons ev evs ih =>
      rcases ih h with hev | ⟨p, e, hmem, hfd⟩
      · cases ev with
        | listen t' p e ret =>
            simp only [Event.registers, Bool.or_eq_true, decide_eq_true_eq] at hev
            rcases hev with hb | ⟨rfl, hfd, rfl⟩
            · exact Or.inl hb
            · exact Or.inr ⟨p, e, List.mem_cons_self, hfd⟩
        | unlisten t' fd' ret =>
            simp only [Event.registers, Bool.and_eq_true] at hev
            exact Or.inl hev.1
        | pass | dispatch => exact Or.inl hev
      · exact Or.inr ⟨p, e, List.mem_cons_of_mem _ hmem, hfd⟩

/-- Nothing is replaced when the callbacks of a pass do not unlisten a descriptor of a later
type and listen to it again. -/
theorem NoneRelistened.noneReplaced {ready : IOEventType → FdSet}
    {during : IOEventType → List (Event ε γ π)} (h : NoneRelistened ready during) :
    NoneReplaced ready during := by
  intro t fd _ hunlistened hagain
  obtain ⟨ev, hev, hun⟩ := List.any_eq_true.mp hunlistened
  obtain ⟨A, B, hsplit⟩ := List.append_of_mem hev
  have hout : (A ++ [ev]).foldl (Event.registers t fd) true = false := by
    cases ev with
    | unlisten t' fd' ret =>
        have hfd : t' = t ∧ fd' = fd ∧ ret = 0 := by simpa [Event.unlistens] using hun
        simp [Event.registers, hfd]
    | _ => simp [Event.unlistens] at hun
  rw [hsplit, List.append_cons, List.foldl_append, hout] at hagain
  rcases listen_of_registers hagain with hfalse | ⟨p, e, hmem, hfd⟩
  · cases hfalse
  · have hA : unlistened t fd (A ++ [ev]) := by simp [unlistened, hun]
    exact absurd hfd (h t fd (A ++ [ev]) B (by rw [hsplit, List.append_cons]) hA p e hmem)

/-- An iteration whose callbacks do not listen again to what they unlistened for a later
pass calls only what was selected. -/
theorem Outcome.selectedOnly {log log' : List (Event ε γ π)}
    {sets : IOEventType → FdSet} (h : Outcome s log log' (.ready sets)) :
    ∃ during, log' = log ++ passes sets during ∧
      (NoneRelistened sets during → SelectedOnly s sets during) := by
  obtain ⟨-, during, hlog, -, hiff⟩ := h
  exact ⟨during, hlog, fun hnone => hiff.mpr hnone.noneReplaced⟩

/-- A ready registration that was not unlistened before the pass is still the one that
was selected. -/
theorem selected_of_live (hruns : Runs s bef s₁) (hd : s₁.Distinct) (hw : s.waiting t = [])
    {r : Reg ε γ π} (hr : r ∈ s₁.regs t) (hfd : r.2.fd ∈ s.fds t)
    (hlive : unlistened t r.2.fd bef = false) : ∃ r₀ ∈ s.idle t, r₀.1 = r.1 ∧ r₀.2.fd = r.2.fd := by
  obtain ⟨r₀, hr₀, heq⟩ := mem_fds.mp hfd
  have hkept := hruns.kept hr₀ (heq ▸ hlive)
  have hsame : (r₀.1, latest t bef r₀.2) = r := hd.eq_of_fd hkept hr (by simpa using heq)
  refine ⟨r₀, ?_, by rw [← hsame], heq⟩
  simpa [regs, hw] using hr₀

/-- In a pass the registrations that are called are those selected just when none of
them was replaced. -/
theorem selected_iff (hruns : Runs s bef s₁) (hd : s₁.Distinct) (hw : s.waiting t = [])
    (hw₁ : s₁.waiting t = []) (hready : ∀ fd, set fd → fd ∈ s.fds t)
    (hpass : ExactPass t set (s₁.idle t) evs idle') :
    (∀ A e p B, evs = A ++ .dispatch t e p :: B →
      set p.fd ∧ (∃ r ∈ s.idle t, r.1 = e ∧ r.2.fd = p.fd) ∧
        unlistened t p.fd (bef ++ A) = false) ↔
    ∀ fd, set fd → unlistened t fd bef → bef.foldl (Event.registers t fd) true = true →
      ∃ A B, evs = A ++ B ∧ unlistened t fd A ∧ ∀ e p, .dispatch t e p ∈ A → p.fd ≠ fd := by
  have hidle : s₁.regs t = s₁.idle t := by simp [regs, hw₁]
  constructor
  · intro h fd hset hun hreg
    have hcalled : ∀ e p, .dispatch t e p ∈ evs → p.fd ≠ fd := by
      rintro e p hmem rfl
      obtain ⟨A, B, hevs⟩ := List.append_of_mem hmem
      have hlive := (h A e p B hevs).2.2
      rw [unlistened_append, hun] at hlive
      cases hlive
    have hin : fd ∈ s₁.fds t := by
      rw [hruns.mem_fds fd, decide_eq_true (hready fd hset)]
      exact hreg
    obtain ⟨r, hr, rfl⟩ := mem_fds.mp hin
    rcases hpass.all r (hidle ▸ hr) hset with hover | hover
    · obtain ⟨x, hx, hkey⟩ := List.mem_map.mp hover
      obtain ⟨ev, hev, hx⟩ := List.mem_filterMap.mp hx
      cases ev with
      | dispatch t' e p =>
          obtain rfl : t' = t := hpass.inPass _ hev
          cases hx
          exact absurd (congrArg Prod.snd hkey) (hcalled e p hev)
      | _ => cases hx
    · exact ⟨evs, [], (List.append_nil _).symm, hover, hcalled⟩
  · intro h A e p B hevs
    obtain ⟨front, r, back, hq, -, hlive, rfl, rfl⟩ := hpass.turn A e p B hevs
    have hr := List.mem_filter.mp (hq ▸ List.mem_append_right front List.mem_cons_self)
    have hin : r ∈ s₁.regs t := hidle ▸ hr.1
    have hfd : r.2.fd ∈ s.fds t := hready _ hr.2
    have hbefore : unlistened t r.2.fd bef = false := by
      by_contra hun
      have hreg : bef.foldl (Event.registers t r.2.fd) true = true := by
        have := (hruns.mem_fds (t := t) r.2.fd).mp (mem_fds.mpr ⟨r, hin, rfl⟩)
        rwa [decide_eq_true hfd] at this
      obtain ⟨A', B', hevs', hun', hnone⟩ := h r.2.fd hr.2 (by simpa using hun) hreg
      rcases List.append_eq_append_iff.mp (hevs.symm.trans hevs') with ⟨C, rfl, hC⟩ | ⟨C, rfl, -⟩
      · cases C with
        | nil => exact hlive (by simpa using hun')
        | cons ev C =>
            obtain ⟨rfl, -⟩ := List.cons.inj hC
            exact hnone _ _ (List.mem_append_right _ List.mem_cons_self) (latest_fd r.2)
      · exact hlive (by rw [unlistened_append, hun', Bool.true_or])
    rw [latest_fd]
    refine ⟨hr.2, selected_of_live hruns hd hw hin hfd hbefore, ?_⟩
    rw [unlistened_append, hbefore, Bool.false_or]
    simpa using hlive

end Facts

/-! ## The iteration -/

section Iteration

variable {ε γ π : Type} [DecidableEq ε] {d : Driver ε γ π} {w w' : World ε γ π}
  {s s' : Registry ε γ π} {t : IOEventType} {remain : ℤ}

omit [DecidableEq ε] in
/-- `max_fd` is no part of the registrations. -/
theorem Refines.maxFd (r : Refines d s) (n : ℤ) : Refines { d with maxFd := n } s :=
  ⟨r.fields, r.distinct, r.rings⟩

omit [DecidableEq ε] in
/-- The loop of `add_to_select_set` over the elements of some registrations. -/
theorem foldlM_addToSelectSetBody {l : List (Reg ε γ π)}
    (hl : ∀ x ∈ l, d.elements x.1 = some x.2) (set : FdSet) (n : ℤ) (notEmpty : Bool) :
    ∃ set', (l.map (Sum.inr ∘ Prod.fst)).foldlM (fun a x => addToSelectSetBody x a)
        (set, { d with maxFd := n }, notEmpty) =
          some (set', { d with maxFd := maxFdOf n l }, notEmpty || !l.isEmpty) ∧
      ∀ fd, set' fd ↔ set fd ∨ fd ∈ l.map fun x => x.2.fd := by
  induction l generalizing set n notEmpty with
  | nil => exact ⟨set, by simp [maxFdOf], by simp⟩
  | cons x l ih =>
      obtain ⟨set', hfold, hset⟩ := ih (fun y hy => hl y (by simp [hy]))
        (Function.update set x.2.fd true) (max n x.2.fd) true
      have hbody : addToSelectSetBody (.inr x.1) (set, { d with maxFd := n }, notEmpty) =
          some (Function.update set x.2.fd true, { d with maxFd := max n x.2.fd }, true) := by
        simp [addToSelectSetBody, hl x List.mem_cons_self]
      refine ⟨set', ?_, fun fd => ?_⟩
      · rw [List.map_cons, List.foldlM_cons, Function.comp_apply, hbody]
        simpa [maxFdOf] using hfold
      · by_cases hfd : fd = x.2.fd
        · simp [hset, hfd]
        · simp [hset, hfd]

/-- `add_to_select_set` adds the descriptors of the `io_set`. -/
theorem Refines.addToSelectSet_spec (r : Refines d s) (n : ℤ) (t : IOEventType) :
    ∃ set, (∀ fuel, (s.idle t).length < fuel →
        addToSelectSet (fun _ => false) { d with maxFd := n } t fuel =
          some (set, { d with maxFd := maxFdOf n (s.idle t) }, !(s.idle t).isEmpty)) ∧
      ∀ fd, set fd ↔ fd ∈ (s.idle t).map fun x => x.2.fd := by
  obtain ⟨set, hfold, hset⟩ := foldlM_addToSelectSetBody (l := s.idle t)
    (fun x hx => r.fields t x (List.mem_append_left _ hx)) (fun _ => false) n false
  refine ⟨set, fun fuel hf => ?_, fun fd => by simpa using hset fd⟩
  have hring := r.rings.ring (.ioSet t) trivial
  rw [entries, List.map_map] at hring
  rw [addToSelectSet, hring.listForEach_eq (by simpa using hf)]
  simpa using hfold

/-- The sets hold the descriptors that are registered and do not wait, and `n` is the
largest of these and 0. -/
structure Filled (s : Registry ε γ π) (n : ℤ) (a : SelectSets) : Prop where
  set : ∀ t fd, a.set t fd ↔ fd ∈ (s.idle t).map fun x => x.2.fd
  notEmpty : ∀ t, a.notEmpty t = !(s.idle t).isEmpty
  maxFd : n = maxFdOf (maxFdOf (maxFdOf 0 (s.idle .rx)) (s.idle .tx)) (s.idle .error)

/-- The sets are built. -/
theorem Refines.fillSets_spec (r : Refines d s) :
    ∃ N n a, (∀ fuel, N < fuel → fillSets fuel d = some ({ d with maxFd := n }, a)) ∧
      Filled s n a := by
  obtain ⟨rset, h₁, hr⟩ := r.addToSelectSet_spec 0 .rx
  obtain ⟨tset, h₂, ht⟩ := r.addToSelectSet_spec (maxFdOf 0 (s.idle .rx)) .tx
  obtain ⟨eset, h₃, he⟩ :=
    r.addToSelectSet_spec (maxFdOf (maxFdOf 0 (s.idle .rx)) (s.idle .tx)) .error
  refine ⟨(s.idle .rx).length + (s.idle .tx).length + (s.idle .error).length, _,
    { set := byType rset tset eset
      notEmpty :=
        byType (!(s.idle .rx).isEmpty) (!(s.idle .tx).isEmpty) (!(s.idle .error).isEmpty) },
    fun fuel hf => ?_, fun t => ?_, fun t => ?_, rfl⟩
  · simp only [fillSets, h₁ fuel (by omega), h₂ fuel (by omega), h₃ fuel (by omega),
      Option.bind_eq_bind, Option.bind_some]
  · cases t with
    | rx => exact hr
    | tx => exact ht
    | error => exact he
  · cases t <;> rfl

omit [DecidableEq ε] in
/-- Only registered descriptors are ready after `select`. -/
theorem Filled.mem_fds {n : ℤ} {a : SelectSets} (filled : Filled s n a) {kernel : Kernel ε γ π}
    {sets : IOEventType → FdSet} (h : callSelect kernel remain w a = .ready sets) {fd : ℤ}
    (hfd : sets t fd) : fd ∈ s.fds t := by
  rw [callSelect] at h
  split at h
  · cases h
  · cases h
  · cases h
    simp only [afterSelect, Bool.and_eq_true] at hfd
    rw [fds, regs, List.map_append]
    exact List.mem_append_left _ ((filled.set t fd).mp hfd.1.2)

/-- The sets are built and `select` is called. -/
theorem enterSelect_spec (kernel : Kernel ε γ π) (r : Refines w.driver s) (remain : ℤ) :
    ∃ N n a, Filled s n a ∧ ∀ fuel, N < fuel → enterSelect kernel fuel remain w =
      some ({ w with driver := { w.driver with maxFd := n } },
        callSelect kernel remain { w with driver := { w.driver with maxFd := n } } a) := by
  obtain ⟨N, n, a, hfill, filled⟩ := r.fillSets_spec
  refine ⟨N, n, a, filled, fun fuel hf => ?_⟩
  rw [enterSelect, hfill fuel hf]
  rfl

/-- More rounds do not change what an iteration returns. -/
theorem addToSelectSet_mono {set : FdSet} {fuel fuel' : ℕ} {r : FdSet × Driver ε γ π × Bool}
    (hle : fuel ≤ fuel') (h : addToSelectSet set d t fuel = some r) :
    addToSelectSet set d t fuel' = some r := listForEach_mono hle h

theorem fillSets_mono {fuel fuel' : ℕ} {r : Driver ε γ π × SelectSets} (hle : fuel ≤ fuel')
    (h : fillSets fuel d = some r) : fillSets fuel' d = some r := by
  simp only [fillSets, Option.bind_eq_bind, Option.bind_eq_some_iff] at h ⊢
  obtain ⟨r₁, h₁, r₂, h₂, r₃, h₃, h⟩ := h
  exact ⟨r₁, addToSelectSet_mono hle h₁, r₂, addToSelectSet_mono hle h₂, r₃,
    addToSelectSet_mono hle h₃, h⟩

theorem enterSelect_mono {kernel : Kernel ε γ π} {fuel fuel' : ℕ}
    {r : World ε γ π × SelectResult} (hle : fuel ≤ fuel')
    (h : enterSelect kernel fuel remain w = some r) :
    enterSelect kernel fuel' remain w = some r := by
  obtain ⟨a, ha, h⟩ := Option.bind_eq_some_iff.mp h
  exact Option.bind_eq_some_iff.mpr ⟨a, fillSets_mono hle ha, h⟩

theorem iteration_mono {client : Client ε γ π} {kernel : Kernel ε γ π} {fuel fuel' : ℕ}
    {r : World ε γ π × Exit} (hle : fuel ≤ fuel')
    (h : iteration client kernel fuel remain w = some r) :
    iteration client kernel fuel' remain w = some r := by
  obtain ⟨⟨w₁, result⟩, henter, h⟩ := Option.bind_eq_some_iff.mp h
  refine Option.bind_eq_some_iff.mpr ⟨_, enterSelect_mono hle henter, ?_⟩
  cases result with
  | timeout => exact h
  | failed eintr => exact h
  | ready sets =>
      simp only [Option.bind_eq_bind, Option.bind_eq_some_iff] at h ⊢
      obtain ⟨w₂, h₂, w₃, h₃, w₄, h₄, h⟩ := h
      exact ⟨w₂, checkSelect_mono hle h₂, w₃, checkSelect_mono hle h₃, w₄,
        checkSelect_mono hle h₄, h⟩

/-- A pass between two times at which nothing waits. -/
theorem pass_spec (client : Client ε γ π) (r : Refines w.driver s) (hw : ∀ t, s.waiting t = [])
    (set : FdSet) (t : IOEventType) :
    ∃ N w' s' evs, (∀ fuel, N < fuel → checkSelect client set t fuel w = some w') ∧
      Advances w s (.pass t set :: evs) w' s' ∧ (∀ t, s'.waiting t = []) ∧
      ExactPass t set (s.idle t) evs (s'.idle t) := by
  obtain ⟨N, w', s', evs, hret, hlog, hruns, r', hevs, hw'⟩ := checkSelect_spec client r set t
  refine ⟨N, w', s', evs, hret, ⟨hlog, (Trace.single (l := .pass t set) rfl).append hruns, r'⟩,
    fun t' => ?_, hruns.exactPass hevs r.distinct r'.distinct (hw t) hw'⟩
  by_cases ht : t' = t
  · exact ht ▸ hw'
  · have hle := hruns.length_waiting hevs t'
    have hbegin : (s.begin t set).waiting t' = [] := by simp [begin, ht, hw t']
    simpa [hbegin] using hle

/-- The three passes of an iteration. -/
theorem passes_spec (client : Client ε γ π) (r : Refines w.driver s)
    (hw : ∀ t, s.waiting t = []) {sets : IOEventType → FdSet}
    (hready : ∀ t fd, sets t fd → fd ∈ s.fds t) :
    ∃ N w₁ w₂ w' s' during, (∀ fuel, N < fuel → checkSelect client (sets .rx) .rx fuel w = some w₁ ∧
        checkSelect client (sets .tx) .tx fuel w₁ = some w₂ ∧
        checkSelect client (sets .error) .error fuel w₂ = some w') ∧
      Advances w s (passes sets during) w' s' ∧ (∀ t, s'.waiting t = []) ∧
      (∀ t, ∀ ev ∈ during t, ev.InPass t) ∧
      (∀ t, ∃ s₁, Refines (byType w w₁ w₂ t).driver s₁ ∧ (∀ t', s₁.waiting t' = []) ∧
        Runs s (before sets during t) s₁) ∧
      (SelectedOnly s sets during ↔ NoneReplaced sets during) := by
  obtain ⟨N₁, w₁, s₁, evs₁, h₁, a₁, hw₁, p₁⟩ := pass_spec client r hw (sets .rx) .rx
  obtain ⟨N₂, w₂, s₂, evs₂, h₂, a₂, hw₂, p₂⟩ := pass_spec client a₁.refines hw₁ (sets .tx) .tx
  obtain ⟨N₃, w₃, s₃, evs₃, h₃, a₃, hw₃, p₃⟩ :=
    pass_spec client a₂.refines hw₂ (sets .error) .error
  refine ⟨max N₁ (max N₂ N₃), w₁, w₂, w₃, s₃, byType evs₁ evs₂ evs₃, fun fuel hf =>
    ⟨h₁ fuel (by omega), h₂ fuel (by omega), h₃ fuel (by omega)⟩, (a₁.trans a₂).trans a₃, hw₃,
    fun t => ?_, fun t => ?_, forall_congr' fun t => ?_⟩
  · cases t with
    | rx => exact p₁.inPass
    | tx => exact p₂.inPass
    | error => exact p₃.inPass
  · cases t with
    | rx => exact ⟨s, r, hw, .nil⟩
    | tx => exact ⟨s₁, a₁.refines, hw₁, a₁.runs⟩
    | error => exact ⟨s₂, a₂.refines, hw₂, (a₁.trans a₂).runs⟩
  · cases t with
    | rx => exact selected_iff .nil r.distinct (hw .rx) (hw .rx) (hready .rx) p₁
    | tx => exact selected_iff a₁.runs a₁.refines.distinct (hw .tx) (hw₁ .tx) (hready .tx) p₂
    | error =>
        exact selected_iff (a₁.trans a₂).runs a₂.refines.distinct (hw .error) (hw₂ .error)
          (hready .error) p₃

/-- An iteration ends with nothing waiting. -/
theorem iteration_spec (client : Client ε γ π) (kernel : Kernel ε γ π) (r : Refines w.driver s)
    (hw : ∀ t, s.waiting t = []) (remain : ℤ) :
    ∃ fuel w₁ result w' exit, enterSelect kernel fuel remain w = some (w₁, result) ∧
      iteration client kernel fuel remain w = some (w', exit) ∧ Outcome s w.log w'.log result ∧
      ∃ s', Refines w'.driver s' ∧ ∀ t, s'.waiting t = [] := by
  obtain ⟨N, n, a, filled, henter⟩ := enterSelect_spec kernel r remain
  let w₁ : World ε γ π := { w with driver := { w.driver with maxFd := n } }
  have r₁ : Refines w₁.driver s := r.maxFd n
  have hready : ∀ sets, callSelect kernel remain w₁ a = .ready sets →
      ∀ t fd, sets t fd → fd ∈ s.fds t := fun _ h _ _ => filled.mem_fds h
  generalize callSelect kernel remain w₁ a = result at henter hready
  cases result with
  | timeout =>
      refine ⟨N + 1, w₁, .timeout, w₁, .returns, henter _ (by omega), ?_, rfl, s, r₁, hw⟩
      simp only [iteration, henter _ (show N < N + 1 by omega), Option.bind_eq_bind,
        Option.bind_some]
      rfl
  | failed eintr =>
      refine ⟨N + 1, w₁, .failed eintr, w₁, if eintr then .returns else .crashes,
        henter _ (by omega), ?_, rfl, s, r₁, hw⟩
      simp only [iteration, henter _ (show N < N + 1 by omega), Option.bind_eq_bind,
        Option.bind_some]
      rfl
  | ready sets =>
      have hready := hready sets rfl
      obtain ⟨N', w₂, w₃, w', s', during, h, a, hw', hevs, -, hiff⟩ :=
        passes_spec client r₁ hw hready
      obtain ⟨h₂, h₃, h₄⟩ := h (max N N' + 1) (by omega)
      refine ⟨max N N' + 1, w₁, .ready sets, w', .goesOn, henter _ (by omega), ?_,
        ⟨hready, during, a.log, hevs, hiff⟩, s', a.refines, hw'⟩
      simp only [iteration, henter _ (show N < max N N' + 1 by omega), Option.bind_eq_bind,
        Option.bind_some]
      exact Option.bind_eq_some_iff.mpr ⟨w₂, h₂, Option.bind_eq_some_iff.mpr ⟨w₃, h₃,
        Option.bind_eq_some_iff.mpr ⟨w', h₄, rfl⟩⟩⟩

end Iteration

/-! ## Runs -/

/-- A step of a program: a call into the event driver, or an iteration of
`drive_io_event` with the time that remains. -/
inductive Act (γ π : Type) where
  | call (c : Call γ π)
  | iterate (remain : ℤ)

section Runs

variable {ε γ π : Type} [DecidableEq ε] {client : Client ε γ π} {kernel : Kernel ε γ π}
  {w w' w₀ : World ε γ π} {acts : List (Act γ π)}

/-- A step that goes on: after a crash there is none. -/
def Drives (client : Client ε γ π) (kernel : Kernel ε γ π) (w : World ε γ π) (act : Act γ π)
    (w' : World ε γ π) : Prop :=
  match act with
  | .call c => ∃ fuel, doCall client fuel w c = some w'
  | .iterate remain =>
      ∃ fuel exit, iteration client kernel fuel remain w = some (w', exit) ∧ exit ≠ .crashes

omit [DecidableEq ε] in
/-- The event driver holds registrations, none of which waits. -/
def Settled (w : World ε γ π) : Prop :=
  ∃ s, Refines w.driver s ∧ ∀ t, s.waiting t = []

/-- Between the steps of a run nothing waits. -/
theorem Drives.settled {act : Act γ π} (h : Drives client kernel w act w') (hw : Settled w) :
    Settled w' := by
  obtain ⟨s, r, hw⟩ := hw
  cases act with
  | call c =>
      obtain ⟨fuel, h⟩ := h
      obtain ⟨N, w₁, s₁, ev, hcall, a, hev⟩ := doCall_spec client r c
      have hsame := doCall_mono (le_max_left fuel (N + 1)) h
      rw [hcall _ (by omega)] at hsame
      obtain rfl := Option.some.inj hsame
      refine ⟨s₁, a.refines, fun t => List.length_eq_zero_iff.mp (Nat.le_zero.mp ?_)⟩
      have hpass : ∀ e ∈ [ev], e.InPass t := by simpa using hev.inPass
      have hle := a.runs.length_waiting hpass t
      rwa [hw t] at hle
  | iterate remain =>
      obtain ⟨fuel, exit, h, -⟩ := h
      obtain ⟨fuel', -, -, w₁, exit', -, h', -, hsettled⟩ :=
        iteration_spec client kernel r hw remain
      have hsame := iteration_mono (le_max_left fuel fuel') h
      rw [iteration_mono (le_max_right fuel fuel') h'] at hsame
      obtain rfl := (Prod.mk.inj (Option.some.inj hsame)).1
      exact hsettled

/-- The loop of `drive_io_event` is a run of iterations. -/
theorem driveLoop_trace {start : TimerWheel.TimeVal} {original remain : ℤ} {fuel : ℕ}
    (h : driveLoop client kernel start original fuel remain w = some (w', .returns)) :
    ∃ acts, Trace (Drives client kernel) w acts w' ∧
      ∀ act ∈ acts, ∃ remain, act = .iterate remain := by
  induction fuel generalizing remain w with
  | zero => cases h
  | succ fuel ih =>
      obtain ⟨⟨w₁, exit⟩, hiter, h⟩ := Option.bind_eq_some_iff.mp h
      have hstep : exit ≠ .crashes → Drives client kernel w (.iterate remain) w₁ :=
        fun hexit => ⟨fuel, exit, hiter, hexit⟩
      cases exit with
      | returns =>
          cases h
          exact ⟨_, .single (hstep (by decide)), by simp⟩
      | crashes => cases h
      | goesOn =>
          simp only at h
          split at h
          · cases h
            exact ⟨_, .single (hstep (by decide)), by simp⟩
          · obtain ⟨acts, hrun, hacts⟩ := ih h
            exact ⟨_, (Trace.single (hstep (by decide))).append hrun, by simpa using hacts⟩

/-- A `drive_io_event` that returns is a run of iterations. -/
theorem driveIoEvent_trace {fuel : ℕ}
    (h : driveIoEvent client kernel fuel w = some (w', .returns)) :
    ∃ acts, Trace (Drives client kernel) w acts w' ∧
      ∀ act ∈ acts, ∃ remain, act = .iterate remain := driveLoop_trace h

/-- In every run of calls and iterations from a new event driver, whatever `select`
answers and the callbacks do, the next iteration ends, and it calls only what was
selected just when its callbacks replace no registration that was. -/
theorem selected_only_iff (client : Client ε γ π) (kernel : Kernel ε γ π)
    {d₀ d : Driver ε γ π} {pollInterval : ℤ} (hl : ∀ k, d₀.mem.Live (.inl k))
    (hinit : initIoEventDriver d₀ pollInterval = some (d, 0))
    (hrun : Trace (Drives client kernel) ⟨d, []⟩ acts w) (remain : ℤ) :
    ∃ s, Refines w.driver s ∧ (∀ t, s.waiting t = []) ∧
      ∃ fuel w₁ result w' exit, enterSelect kernel fuel remain w = some (w₁, result) ∧
        iteration client kernel fuel remain w = some (w', exit) ∧
        Outcome s w.log w'.log result := by
  obtain ⟨d', hinit', r⟩ := Refines.of_initIoEventDriver d₀ pollInterval hl
  obtain rfl : d' = d := (Prod.mk.inj (Option.some.inj (hinit'.symm.trans hinit))).1
  obtain ⟨s, r, hw⟩ := hrun.invariant (fun _ _ _ hw hstep => hstep.settled hw) ⟨_, r, fun _ => rfl⟩
  obtain ⟨fuel, w₁, result, w', exit, henter, hiter, hout, -⟩ :=
    iteration_spec client kernel r hw remain
  exact ⟨s, r, hw, fuel, w₁, result, w', exit, henter, hiter, hout⟩

end Runs

section Sample

/-- A client whose callbacks for RX replace the registration of the descriptor 5 for
TX. -/
def replacer : Client ℕ Unit Unit where
  malloc := meddler.malloc
  calls _ _ type _ _ :=
    match type with
    | .rx => [.unlisten 5 .tx, .listen 5 .tx () ()]
    | _ => []
  fresh := meddler.fresh

/-- Every descriptor is ready at once. -/
def allReady : Kernel ℕ Unit Unit where
  select _ _ _ _ _ _ := .ready fun _ _ => true
  gettimeofday _ := ⟨0, 0⟩

/-- The memory of a program that has only the list heads. -/
def blank : Driver ℕ Unit Unit where
  pollInterval := 0
  maxFd := 0
  mem
    | .inl _ => some ⟨none, none⟩
    | .inr _ => none
  elements _ := none

theorem blank_live (k : Head) : blank.mem.Live (.inl k) := rfl

/-- An event driver without registrations. -/
def newDriver : Driver ℕ Unit Unit := ((initIoEventDriver blank 10).get rfl).1

/-- Two descriptors are registered. -/
def listenTwo : List (Act Unit Unit) := [.call (.listen 3 .rx () ()), .call (.listen 5 .tx () ())]

/-- The events of the next iteration: the callback for TX is called for a registration
that the callback for RX made. -/
def duringTwo : IOEventType → List (Event ℕ Unit Unit)
  | .rx => [.dispatch .rx 2 ⟨3, (), ()⟩, .unlisten .tx 5 0, .listen .tx ⟨5, (), ()⟩ (some 7) 0]
  | .tx => [.dispatch .tx 7 ⟨5, (), ()⟩]
  | .error => []

theorem iteration_listenTwo : ∃ w w₁ w' sets,
    Trace (Drives replacer allReady) ⟨newDriver, []⟩ listenTwo w ∧ w.log.length = 2 ∧
      enterSelect allReady 5 10000 w = some (w₁, .ready sets) ∧
      iteration replacer allReady 5 10000 w = some (w', .goesOn) ∧
      w'.log = w.log ++ passes sets duringTwo ∧
      ∀ e p, w.driver.elements e = some p → p.fd = 3 ∨ p.fd = 5 := by
  refine ⟨_, _, _, _, (Trace.single ⟨1, rfl⟩).concat ⟨1, rfl⟩, rfl, rfl, rfl, rfl,
    fun e p h => ?_⟩
  change Function.update (Function.update (fun _ => none) _ _) _ _ e = some p at h
  simp only [Function.update_apply] at h
  split at h
  · cases h
    exact Or.inr rfl
  · split at h
    · cases h
      exact Or.inl rfl
    · cases h

theorem selected_only_iff_two : ∃ w s, w.log.length = 2 ∧ Refines w.driver s ∧
    (∀ t, s.waiting t = []) ∧
      ∃ fuel w₁ result w' exit, enterSelect allReady fuel 10000 w = some (w₁, result) ∧
        iteration replacer allReady fuel 10000 w = some (w', exit) ∧
        Outcome s w.log w'.log result := by
  obtain ⟨w, -, -, -, hrun, hlog, -⟩ := iteration_listenTwo
  obtain ⟨s, h⟩ := selected_only_iff replacer allReady blank_live (d := newDriver) rfl hrun 10000
  exact ⟨w, s, hlog, h⟩

/-- The callback for RX replaces a registration for TX that was selected, and the new one
is called. -/
theorem registration_replaced : ¬ ∀ (w w₁ w' : World ℕ Unit Unit) (s : Registry ℕ Unit Unit)
    (sets : IOEventType → FdSet) (during : IOEventType → List (Event ℕ Unit Unit)),
    Trace (Drives replacer allReady) ⟨newDriver, []⟩ listenTwo w → Refines w.driver s →
      enterSelect allReady 5 10000 w = some (w₁, .ready sets) →
      iteration replacer allReady 5 10000 w = some (w', .goesOn) →
      w'.log = w.log ++ passes sets during → SelectedOnly s sets during := by
  intro h
  obtain ⟨w, w₁, w', sets, hrun, -, henter, hiter, hlog, -⟩ := iteration_listenTwo
  obtain ⟨d, hinit, r⟩ := Refines.of_initIoEventDriver blank 10 blank_live
  obtain rfl : newDriver = d := (Prod.mk.inj (Option.some.inj hinit)).1
  obtain ⟨s, r, -⟩ := hrun.invariant (fun _ _ _ hw hstep => hstep.settled hw) ⟨_, r, fun _ => rfl⟩
  have honly := h w w₁ w' s sets duringTwo hrun r henter hiter hlog
  have hlive := (honly .tx [] 7 ⟨5, (), ()⟩ [] rfl).2.2
  cases hlive

end Sample

end IoEvent

end Infra
