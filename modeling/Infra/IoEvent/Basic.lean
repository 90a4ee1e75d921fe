import Infra.LinkedList.Partition

/-!
# The event driver of `io_event_driver.c`

An event driver keeps the registrations for each event type in two lists: the
`io_set`, and the `working_set`, which during a dispatch pass holds the ready
elements that are still to be called. The lists are those of `list.h`. Elements
come from `malloc` and go back to `free`, so an address that is not allocated
has neither links nor fields, and a function that reads it has no result.

A callback is known by the calls of `listen_io_event` and `unlisten_io_event` it
makes, which may depend on everything that has happened so far; so may the
answers of `malloc`.
-/

namespace Infra

namespace IoEvent

open Infra.LinkedList

/-- `IOEventType`. -/
inductive IOEventType where
  | rx
  | tx
  | error
  deriving DecidableEq

/-- The list heads of an event driver. -/
inductive Head where
  | ioSet (type : IOEventType)
  | workingSet (type : IOEventType)
  deriving DecidableEq

/-- The nodes of the memory: list heads and elements. -/
abbrev Node (ε : Type) := Head ⊕ ε

/-- `IODriverElement` without its links. -/
structure Element (γ π : Type) where
  fd : ℤ
  cb : γ
  priv : π

/-- `IOEventDriver`, together with the memory its lists live in and the fields
of the allocated elements. -/
structure Driver (ε γ π : Type) where
  pollInterval : ℤ
  maxFd : ℤ
  mem : Heap (Node ε)
  elements : ε → Option (Element γ π)

/-- An `fd_set`, as `FD_ISSET` reads it: a descriptor is the distance of a bit
from the start of the set. -/
abbrev FdSet := ℤ → Bool

section Functions

variable {ε γ π : Type} [DecidableEq ε]

/-- `init_io_event_driver`. -/
def initIoEventDriver (driver : Driver ε γ π) (pollInterval : ℤ) :
    Option (Driver ε γ π × ℤ) := do
  let mem ← initListHead driver.mem (.inl (.ioSet .rx))
  let mem ← initListHead mem (.inl (.ioSet .tx))
  let mem ← initListHead mem (.inl (.ioSet .error))
  let mem ← initListHead mem (.inl (.workingSet .rx))
  let mem ← initListHead mem (.inl (.workingSet .tx))
  let mem ← initListHead mem (.inl (.workingSet .error))
  some ({ driver with pollInterval := pollInterval, maxFd := 0, mem := mem }, 0)

/-- The comparison in the loops of `get_io_event_element`. -/
def hasFd (driver : Driver ε γ π) (fd : ℤ) : Node ε → Option Bool
  | .inl _ => none
  | .inr p => (driver.elements p).map fun q => decide (q.fd = fd)

/-- `get_io_event_element`. -/
def getIoEventElement (driver : Driver ε γ π) (type : IOEventType) (fd : ℤ) (fuel : ℕ) :
    Option (Option ε) := do
  let p ← listFind driver.mem (hasFd driver fd) (.inl (.ioSet type)) fuel
  match p with
  | some p => some p.getRight?
  | none => do
      let p ← listFind driver.mem (hasFd driver fd) (.inl (.workingSet type)) fuel
      some (p.bind Sum.getRight?)

/-- `listen_io_event`; `malloc` is the answer of `malloc`. -/
def listenIoEvent (driver : Driver ε γ π) (malloc : Option ε) (fuel : ℕ) (fd : ℤ)
    (type : IOEventType) (cb : γ) (priv : π) : Option (Driver ε γ π × ℤ) := do
  let element ← getIoEventElement driver type fd fuel
  match element with
  | some element => do
      let p ← driver.elements element
      let p : Element γ π := { p with cb := cb, priv := priv }
      some ({ driver with elements := Function.update driver.elements element (some p) }, 0)
  | none =>
      match malloc with
      | none => some (driver, -1)
      | some element => do
          let p : Element γ π := { fd := fd, cb := cb, priv := priv }
          let mem ← listAddTail (driver.mem.alloc (.inr element)) (.inr element)
            (.inl (.ioSet type))
          some ({ driver with mem := mem
                              elements := Function.update driver.elements element (some p) }, 0)

/-- `unlisten_io_event`. -/
def unlistenIoEvent (driver : Driver ε γ π) (fuel : ℕ) (fd : ℤ) (type : IOEventType) :
    Option (Driver ε γ π × ℤ) := do
  let element ← getIoEventElement driver type fd fuel
  match element with
  | none => some (driver, -1)
  | some element => do
      let mem ← listDelInit driver.mem (.inr element)
      some ({ driver with mem := mem.free (.inr element)
                          elements := Function.update driver.elements element none }, 0)

/-- `FD_ISSET` on the descriptor of an element. -/
def fdIsSet (driver : Driver ε γ π) (set : FdSet) (p : ε) : Option Bool :=
  (driver.elements p).map fun q => set q.fd

/-- The first loop of `check_select`: the ready elements are moved to the
working set. -/
def collect (driver : Driver ε γ π) (set : FdSet) (type : IOEventType) (fuel : ℕ) :
    Option (Driver ε γ π) := do
  let mem ← listForEachSafe id (moveIf (fdIsSet driver set) (.workingSet type))
    (.inl (.ioSet type)) fuel driver.mem
  some { driver with mem := mem }

end Functions

/-! ## Callbacks and the log -/

/-- What happens to an event driver, in the order in which it happens. -/
inductive Event (ε γ π : Type) where
  | listen (type : IOEventType) (p : Element γ π) (malloc : Option ε) (ret : ℤ)
  | unlisten (type : IOEventType) (fd : ℤ) (ret : ℤ)
  | pass (type : IOEventType) (set : FdSet)
  | dispatch (type : IOEventType) (element : ε) (p : Element γ π)

/-- An event driver with everything that has happened to it. -/
structure World (ε γ π : Type) where
  driver : Driver ε γ π
  log : List (Event ε γ π)

/-- A call into the event driver. -/
inductive Call (γ π : Type) where
  | listen (fd : ℤ) (type : IOEventType) (cb : γ) (priv : π)
  | unlisten (fd : ℤ) (type : IOEventType)

/-- The program around the event driver: the answers of `malloc`, which are
addresses that are not in use, and the calls that the callbacks make. -/
structure Client (ε γ π : Type) where
  malloc : World ε γ π → Option ε
  calls : γ → ℤ → IOEventType → π → World ε γ π → List (Call γ π)
  fresh : ∀ w element, malloc w = some element → w.driver.mem (.inr element) = none

section Run

variable {ε γ π : Type} [DecidableEq ε]

/-- One call of `listen_io_event` or `unlisten_io_event`. -/
def doCall (client : Client ε γ π) (fuel : ℕ) (w : World ε γ π) :
    Call γ π → Option (World ε γ π)
  | .listen fd type cb priv => do
      let malloc := client.malloc w
      let (driver, ret) ← listenIoEvent w.driver malloc fuel fd type cb priv
      some { driver := driver
             log := w.log ++ [.listen type { fd := fd, cb := cb, priv := priv } malloc ret] }
  | .unlisten fd type => do
      let (driver, ret) ← unlistenIoEvent w.driver fuel fd type
      some { driver := driver, log := w.log ++ [.unlisten type fd ret] }

/-- The calls a callback makes, one after the other. -/
def doCalls (client : Client ε γ π) (fuel : ℕ) : World ε γ π → List (Call γ π) →
    Option (World ε γ π)
  | w, [] => some w
  | w, c :: cs => do
      let w ← doCall client fuel w c
      doCalls client fuel w cs

/-- The second loop of `check_select`: the first element of the working set goes
back to the `io_set`, and its callback is run. -/
def drain (client : Client ε γ π) (type : IOEventType) :
    ℕ → World ε γ π → Option (World ε γ π)
  | 0, _ => none
  | fuel + 1, w => do
      let empty ← listEmpty w.driver.mem (.inl (.workingSet type))
      if empty then some w
      else do
        let p ← w.driver.mem.next (.inl (.workingSet type))
        match p with
        | .inl _ => none
        | .inr p => do
            let mem ← listDelInit w.driver.mem (.inr p)
            let mem ← listAddTail mem (.inr p) (.inl (.ioSet type))
            let q ← w.driver.elements p
            let w : World ε γ π :=
              { driver := { w.driver with mem := mem }, log := w.log ++ [.dispatch type p q] }
            let w ← doCalls client fuel w (client.calls q.cb q.fd type q.priv w)
            drain client type fuel w

/-- `check_select`. -/
def checkSelect (client : Client ε γ π) (set : FdSet) (type : IOEventType) (fuel : ℕ)
    (w : World ε γ π) : Option (World ε γ π) := do
  let driver ← collect w.driver set type fuel
  drain client type fuel { driver := driver, log := w.log ++ [.pass type set] }

end Run

end IoEvent

end Infra
