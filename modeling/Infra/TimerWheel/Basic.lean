import Infra.LinkedList.Partition
import Mathlib.Data.BitVec

/-!
# The timer manager of `timer.c`

A timer manager keeps its running elements in an array of buckets. The bucket of
an element is the remainder of its absolute due tick by the number of buckets,
so a bucket holds elements of several rounds and `timer_tick` has to compare the
due tick with the current one.

The lists are those of `list.h`, in one memory that holds the heads of the
buckets, the head of the list on the stack of `timer_tick`, and the elements.
The tick counter and the due ticks are 32-bit unsigned and wrap. A function has
no result where the source goes through NULL, which `add_timer` does on purpose
when its element is running, or when a loop runs out of the rounds it was given.

A callback is known by the calls of `add_timer` and `del_timer` it makes. Which
calls these are may depend on everything that has happened so far, so a client
reads the whole world: the timer manager and the log of the events.
-/

namespace Infra

namespace TimerWheel

open Infra.LinkedList

/-- The list heads of a timer manager: its buckets, and the local list of
`timer_tick`. -/
inductive Head where
  | bucket (i : ℕ)
  | timeout
  deriving DecidableEq

/-- The nodes of the memory: list heads and timer elements. -/
abbrev Node (ε : Type) := Head ⊕ ε

/-- `struct timeval`. -/
structure TimeVal where
  tvSec : ℤ
  tvUsec : ℤ
  deriving DecidableEq

/-- `Timer`, together with the memory its lists live in and the `tick` field of
every `TimerElem`. -/
structure Timer (ε : Type) where
  numBuckets : ℤ
  tickRate : ℤ
  tickRateTimes3 : ℤ
  tick : BitVec 32
  prev : TimeVal
  accumulated : ℤ
  mem : Heap (Node ε)
  elemTick : ε → BitVec 32

section Functions

variable {ε : Type} [DecidableEq ε]

/-- `init_timer`; `malloc` is whether the bucket array can be allocated and `now`
is what `gettimeofday` reads. -/
def initTimer (mem : Heap (Node ε)) (elemTick : ε → BitVec 32) (malloc : Bool) (now : TimeVal)
    (tickRate nBuckets : ℤ) : Option (ℤ × Timer ε) :=
  let timer : Timer ε :=
    { numBuckets := nBuckets
      tickRate := tickRate
      tickRateTimes3 := (tickRate * 3).bmod (2 ^ 32)
      tick := 0
      prev := now
      accumulated := tickRate
      mem := mem
      elemTick := elemTick }
  if malloc then do
    let heads : ℕ → Node ε := fun i => .inl (.bucket i)
    let mem ← initHeads (mallocHeads mem heads nBuckets.toNat) heads nBuckets.toNat
    some (0, { timer with mem := mem })
  else some (-1, timer)

/-- `init_timer_elem`. -/
def initTimerElem (timer : Timer ε) (elem : ε) : Option (Timer ε) := do
  let mem ← initListHead timer.mem (.inr elem)
  some { timer with mem := mem }

/-- `is_timer_running`: an element runs unless both its links are its own
address. -/
def isTimerRunning (timer : Timer ε) (elem : ε) : Option Bool :=
  (timer.mem (.inr elem)).map fun c =>
    !(decide (c.next = some (.inr elem)) && decide (c.prev = some (.inr elem)))

/-- `get_tick_from_milsec`. -/
def getTickFromMilsec (timer : Timer ε) (milsec : ℤ) : BitVec 32 :=
  let tick := BitVec.ofInt 32 (milsec.tdiv timer.tickRate)
  let mod := BitVec.ofInt 32 (milsec.tmod timer.tickRate)
  if mod ≠ 0 ∧ milsec ≥ timer.tickRate then tick + 1 else tick

/-- The bucket index of a tick value, `tick % timer->num_buckets` in unsigned
arithmetic. -/
def bucketOf (timer : Timer ε) (tick : BitVec 32) : ℕ :=
  tick.toNat % timer.numBuckets.toNat

/-- `add_timer`. -/
def addTimer (timer : Timer ε) (elem : ε) (expires : ℤ) : Option (Timer ε) := do
  let running ← isTimerRunning timer elem
  -- the source stores through NULL here
  if running then none
  else do
    let mem ← initListHead timer.mem (.inr elem)
    let tick := timer.tick + getTickFromMilsec timer expires
    let mem ← listAddTail mem (.inr elem) (.inl (.bucket (bucketOf timer tick)))
    some { timer with mem := mem, elemTick := Function.update timer.elemTick elem tick }

/-- `del_timer`. -/
def delTimer (timer : Timer ε) (elem : ε) : Option (Timer ε) := do
  let running ← isTimerRunning timer elem
  if running then do
    let mem ← listDelInit timer.mem (.inr elem)
    some { timer with mem := mem }
  else some timer

end Functions

/-! ## Callbacks and the log -/

/-- What happens to a timer manager, in the order in which it happens. An
addition records the value of the counter and the number of ticks asked for, a
tick records the value it processes. -/
inductive Event (ε : Type) where
  | add (elem : ε) (now delay : BitVec 32)
  | del (elem : ε)
  | tick (value : BitVec 32)
  | fire (elem : ε)
  | tickEnd
  deriving DecidableEq

/-- A timer manager with everything that has happened to it. -/
structure World (ε : Type) where
  timer : Timer ε
  log : List (Event ε)

/-- A call into the timer manager. -/
inductive Call (ε : Type) where
  | add (elem : ε) (expires : ℤ)
  | del (elem : ε)

section Run

variable {ε : Type} [DecidableEq ε]

/-- One call of `add_timer` or `del_timer`. -/
def doCall (w : World ε) : Call ε → Option (World ε)
  | .add elem expires => do
      let timer ← addTimer w.timer elem expires
      some { timer := timer
             log := w.log ++ [.add elem w.timer.tick (getTickFromMilsec w.timer expires)] }
  | .del elem => do
      let timer ← delTimer w.timer elem
      some { timer := timer, log := w.log ++ [.del elem] }

/-- The calls a callback makes, one after the other. -/
def doCalls : World ε → List (Call ε) → Option (World ε)
  | w, [] => some w
  | w, c :: cs => do
      let w ← doCall w c
      doCalls w cs

/-- What `add_timer` asks of its caller: the element is initialised and stopped,
and `expires` is a non-negative `int`. `del_timer` may be called on any
element. -/
def LegalCall (w : World ε) : Call ε → Prop
  | .add elem expires =>
      isTimerRunning w.timer elem = some false ∧ 0 ≤ expires ∧ expires < 2 ^ 31
  | .del _ => True

/-- Each call of the list is legal when it is made. -/
def LegalCalls : World ε → List (Call ε) → Prop
  | _, [] => True
  | w, c :: cs => LegalCall w c ∧ ∀ w', doCall w c = some w' → LegalCalls w' cs

/-- The behaviour of all callbacks: the legal calls made when an element fires
in a given world. -/
structure Client (ε : Type) [DecidableEq ε] where
  calls : ε → World ε → List (Call ε)
  legal : ∀ elem w, LegalCalls w (calls elem w)

/-- The test of the first loop of `timer_tick`. -/
def isDue (timer : Timer ε) (elem : ε) : Option Bool :=
  some (decide (timer.elemTick elem = timer.tick))

/-- `timer_tick` up to the increment of the counter: the due elements of the
current bucket are moved to the local list. -/
def collect (fuel : ℕ) (timer : Timer ε) : Option (Timer ε) := do
  let mem ← initListHead (timer.mem.alloc (.inl .timeout)) (.inl .timeout)
  let mem ← listForEachSafe id (moveIf (isDue timer) .timeout)
    (.inl (.bucket (bucketOf timer timer.tick))) fuel mem
  some { timer with mem := mem, tick := timer.tick + 1 }

/-- The second loop of `timer_tick`: the first element of the local list is
taken out and its callback is run. -/
def drain (client : Client ε) : ℕ → World ε → Option (World ε)
  | 0, _ => none
  | fuel + 1, w => do
      let empty ← listEmpty w.timer.mem (.inl .timeout)
      if empty then some w
      else do
        let p ← w.timer.mem.next (.inl .timeout)
        match p with
        | .inl _ => none
        | .inr elem => do
            let mem ← listDelInit w.timer.mem (.inr elem)
            let w : World ε :=
              { timer := { w.timer with mem := mem }, log := w.log ++ [.fire elem] }
            let w ← doCalls w (client.calls elem w)
            drain client fuel w

/-- `timer_tick`. The local list head is allocated on entry and freed on
return. -/
def timerTick (client : Client ε) (fuel : ℕ) (w : World ε) : Option (World ε) := do
  let timer ← collect fuel w.timer
  let w ← drain client fuel { timer := timer, log := w.log ++ [.tick w.timer.tick] }
  some { timer := { w.timer with mem := w.timer.mem.free (.inl .timeout) }
         log := w.log ++ [.tickEnd] }

/-- A timer manager right after `init_timer` with a positive rate and a positive
number of buckets, with the counter set to any value, with every element
initialised and with nothing logged. -/
structure Initial (tickRate nBuckets : ℤ) (start : BitVec 32) (w : World ε) : Prop where
  tickRate_pos : 0 < tickRate
  nBuckets_pos : 0 < nBuckets
  timer : ∃ mem elemTick now t,
    initTimer mem elemTick true now tickRate nBuckets = some (0, t) ∧
      w.timer = { t with tick := start }
  elems : ∀ elem, isTimerRunning w.timer elem = some false
  log : w.log = []

/-- The worlds a program reaches that makes legal calls and runs `timer_tick`,
in any order. -/
inductive Reach (client : Client ε) (w₀ : World ε) : World ε → Prop where
  | start : Reach client w₀ w₀
  | call {w w' : World ε} (c : Call ε) : Reach client w₀ w → LegalCall w c →
      doCall w c = some w' → Reach client w₀ w'
  | tick {w w' : World ε} (fuel : ℕ) : Reach client w₀ w →
      timerTick client fuel w = some w' → Reach client w₀ w'

end Run

end TimerWheel

end Infra
