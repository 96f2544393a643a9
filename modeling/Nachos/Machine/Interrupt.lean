import Nachos.Base.Run
import Nachos.Lib.LinkedList
import Mathlib.Data.List.Basic

/-!
# Simulated time and interrupts (`machine/interrupt.cc`, `machine/stats.h`)

The interrupts that are to occur are in the sorted list `pending`. Time advances in `OneTick`, and
in `Idle` up to the next interrupt; `CheckIfDue` then calls everything that is due.

`Schedule` is overloaded. One of the two takes an object whose `CallBack` is to be called and uses
`SortedList::Insert`; the other one takes a function and its argument and uses `List::SortedInsert`.

The code of the devices is a parameter (`Devices`): what a `CallBack` does to the rest of the
world, and what it asks to be scheduled. The clock is an integer that does not overflow.

`registered` and `log` are not in the program: the interrupts in the order of their `Schedule`, and
what `CheckIfDue` has called so far.

* `Interrupt.step` — one step
* `fire`, `drain` — one pass through the loop of `CheckIfDue`, and the loop
-/

namespace Nachos

open Base

/-- Interrupts are disabled or enabled. -/
inductive IntStatus where
  | off
  | on
deriving DecidableEq

inductive MachineStatus where
  | idle
  | system
  | user
deriving DecidableEq

/-- The device that an interrupt comes from. -/
inductive IntType where
  | timer
  | disk
  | consoleWrite
  | consoleRead
  | networkSend
  | networkRecv
deriving DecidableEq

/-- The clock in the class `Statistics`. -/
structure Statistics where
  totalTicks : Int
  idleTicks : Int
  systemTicks : Int
  userTicks : Int
deriving DecidableEq

def userTick : Int := 1

def systemTick : Int := 10

/--
The class `PendingInterrupt`, over callback objects `κ` and functions `η`.

Each of the two constructors sets one of the fields `callOnInterrupt` and `handler`, `arg` only;
`none` says that the field is not set. `address` stands for the pointer to the object.
-/
structure PendingInterrupt (κ η : Type*) where
  address : Nat
  callOnInterrupt : Option κ
  handler : Option (η × Int)
  when : Int
  type : IntType
deriving DecidableEq

/-- The arguments of `Interrupt::Schedule`. -/
inductive Request (κ η : Type*) where
  | object (toCall : κ) (fromNow : Int) (type : IntType)
  | handler (handler : η) (arg : Int) (fromNow : Int) (type : IntType)

/-- What a `CallBack` does. -/
structure Handling (κ η ω : Type*) where
  world : ω
  requests : List (Request κ η)
  yieldOnReturn : Bool

/-- What is outside: the code of the devices, and what is in a list element's unset `key`. -/
structure Devices (κ η ω : Type*) where
  callBack : κ → Statistics → ω → Handling κ η ω
  garbage : PendingInterrupt κ η → Int

/-- What can be called for an interrupt. -/
inductive Invocation (κ η : Type*) where
  | callBack (object : κ)
  | handler (handler : η) (arg : Int)

/-- A call that `CheckIfDue` has made, for which interrupt, and when. -/
structure Firing (κ η : Type*) where
  interrupt : PendingInterrupt κ η
  call : Invocation κ η
  time : Int

/-- The class `Interrupt`, with the clock. -/
structure Interrupt (κ η ω : Type*) where
  level : IntStatus
  pending : LinkedList (PendingInterrupt κ η)
  inHandler : Bool
  yieldOnReturn : Bool
  status : MachineStatus
  stats : Statistics
  nextAddress : Nat
  world : ω
  halted : Bool
  /-- A pointer that was never set has been called. -/
  crashed : Bool
  registered : List (PendingInterrupt κ η)
  log : List (Firing κ η)

/-- `PendingCompare`. -/
def pendingCompare {κ η : Type*} (x y : PendingInterrupt κ η) : Int :=
  if x.when < y.when then -1
  else if x.when > y.when then 1
  else 0

/-- What can be called from outside. `setStatus` is also the end of a `OneTick` that has yielded. -/
inductive InterruptEvent (κ η : Type*) where
  | schedule (request : Request κ η)
  | setLevel (now : IntStatus)
  | oneTick
  | idle
  | setStatus (st : MachineStatus)

namespace Interrupt

variable {κ η ω : Type*} [DecidableEq κ] [DecidableEq η]

/-- `Interrupt::Interrupt` and `Statistics::Statistics`. -/
def start (world : ω) : Interrupt κ η ω where
  level := .off
  pending := .empty
  inHandler := false
  yieldOnReturn := false
  status := .system
  stats := { totalTicks := 0, idleTicks := 0, systemTicks := 0, userTicks := 0 }
  nextAddress := 0
  world := world
  halted := false
  crashed := false
  registered := []
  log := []

/-! ## Schedule -/

/-- `toOccur` has got into the list. -/
def enqueue (s : Interrupt κ η ω) (toOccur : PendingInterrupt κ η)
    (l : LinkedList (PendingInterrupt κ η)) : Interrupt κ η ω :=
  { s with
    pending := l
    nextAddress := s.nextAddress + 1
    registered := s.registered ++ [toOccur] }

/-- `Interrupt::Schedule(CallBackObj *, int, IntType)`. -/
def scheduleObject (s : Interrupt κ η ω) (toCall : κ) (fromNow : Int) (type : IntType) :
    Option (Interrupt κ η ω) :=
  let toOccur : PendingInterrupt κ η :=
    { address := s.nextAddress
      callOnInterrupt := some toCall
      handler := none
      when := s.stats.totalTicks + fromNow
      type := type }
  if fromNow > 0 then (s.pending.insert pendingCompare toOccur).map (s.enqueue toOccur) else none

/-- `Interrupt::Schedule(IntFunctionPtr, int, int, IntType)`. -/
def scheduleHandler (d : Devices κ η ω) (s : Interrupt κ η ω) (handler : η) (arg : Int)
    (fromNow : Int) (type : IntType) : Option (Interrupt κ η ω) :=
  let toOccur : PendingInterrupt κ η :=
    { address := s.nextAddress
      callOnInterrupt := none
      handler := some (handler, arg)
      when := s.stats.totalTicks + fromNow
      type := type }
  if fromNow > 0 then
    (s.pending.sortedInsert d.garbage toOccur toOccur.when).map (s.enqueue toOccur)
  else none

/-- The overloaded `Schedule`. -/
def schedule (d : Devices κ η ω) (s : Interrupt κ η ω) : Request κ η → Option (Interrupt κ η ω)
  | .object toCall fromNow type => s.scheduleObject toCall fromNow type
  | .handler handler arg fromNow type => s.scheduleHandler d handler arg fromNow type

/-! ## CheckIfDue -/

/-- The `CallBack` of `object` returns to the loop of `CheckIfDue`. -/
def called (s : Interrupt κ η ω) (l : LinkedList (PendingInterrupt κ η))
    (next : PendingInterrupt κ η) (object : κ) (h : Handling κ η ω) : Interrupt κ η ω :=
  { s with
    pending := l
    world := h.world
    yieldOnReturn := s.yieldOnReturn || h.yieldOnReturn
    log := s.log ++ [{ interrupt := next, call := .callBack object, time := s.stats.totalTicks }] }

/-- The body of the loop: `RemoveFront`, and `callOnInterrupt->CallBack()`. -/
def fire (d : Devices κ η ω) (s : Interrupt κ η ω) : Option (Interrupt κ η ω) :=
  match s.pending.removeFront with
  | none => none
  | some (next, l) =>
    match next.callOnInterrupt with
    | none => some { s with pending := l, crashed := true }
    | some object =>
      let h := d.callBack object s.stats s.world
      h.requests.foldlM (schedule d) (s.called l next object h)

/-- The do-while loop. `none`: an assertion fails, or it has not ended after `fuel` passes. -/
def drain (d : Devices κ η ω) : Nat → Interrupt κ η ω → Option (Interrupt κ η ω)
  | 0, _ => none
  | fuel + 1, s =>
    match s.fire d with
    | none => none
    | some s' =>
      if s'.crashed || s'.pending.isEmpty then some s'
      else
        match s'.pending.front with
        | none => none
        | some next => if next.when ≤ s'.stats.totalTicks then drain d fuel s' else some s'

/-- The clock is advanced to the next interrupt. -/
def advanceTo (s : Interrupt κ η ω) (next : PendingInterrupt κ η) : Interrupt κ η ω :=
  { s with
    stats := { s.stats with
      idleTicks := s.stats.idleTicks + (next.when - s.stats.totalTicks)
      totalTicks := next.when } }

/-- `CheckIfDue` from `inHandler = TRUE` on. -/
def handle (d : Devices κ η ω) (fuel : Nat) (s : Interrupt κ η ω) :
    Option (Interrupt κ η ω × Bool) :=
  (drain d fuel { s with inHandler := true }).map fun s => ({ s with inHandler := false }, true)

/-- `Interrupt::CheckIfDue`. -/
def checkIfDue (d : Devices κ η ω) (fuel : Nat) (advanceClock : Bool) (s : Interrupt κ η ω) :
    Option (Interrupt κ η ω × Bool) :=
  if s.level = .on then none
  else if s.pending.isEmpty then some (s, false)
  else
    match s.pending.front with
    | none => none
    | some next =>
      if next.when > s.stats.totalTicks then
        if advanceClock then (s.advanceTo next).handle d fuel else some (s, false)
      else s.handle d fuel

/-! ## OneTick and Idle -/

/-- `OneTick` up to `CheckIfDue`. -/
def tick (s : Interrupt κ η ω) : Interrupt κ η ω :=
  { s with
    stats :=
      if s.status = .system then
        { s.stats with
          totalTicks := s.stats.totalTicks + systemTick
          systemTicks := s.stats.systemTicks + systemTick }
      else
        { s.stats with
          totalTicks := s.stats.totalTicks + userTick
          userTicks := s.stats.userTicks + userTick }
    level := .off }

/-- `OneTick` after `CheckIfDue`, up to the return or the call of `Yield`. -/
def afterTick (s : Interrupt κ η ω) : Interrupt κ η ω :=
  if s.yieldOnReturn then { s with level := .on, yieldOnReturn := false, status := .system }
  else { s with level := .on }

/-- `Interrupt::OneTick`. The loop ends after as many passes as there are interrupts in the list. -/
def oneTick (d : Devices κ η ω) (s : Interrupt κ η ω) : Option (Interrupt κ η ω) :=
  (s.tick.checkIfDue d s.pending.elements.length false).map fun r => r.1.afterTick

/-- `Interrupt::Idle`. -/
def idle (d : Devices κ η ω) (s : Interrupt κ η ω) : Option (Interrupt κ η ω) :=
  (({ s with status := .idle } : Interrupt κ η ω).checkIfDue d s.pending.elements.length true).map
    fun r => if r.2 then { r.1 with status := .system } else { r.1 with halted := true }

/-- `Interrupt::SetLevel`. -/
def setLevel (d : Devices κ η ω) (s : Interrupt κ η ω) (now : IntStatus) :
    Option (Interrupt κ η ω) :=
  if now = .on ∧ s.inHandler = true then none
  else if now = .on ∧ s.level = .off then oneTick d { s with level := now }
  else some { s with level := now }

/-- One step. Nothing happens after `Halt` or after a crash. -/
def step (d : Devices κ η ω) (s : Interrupt κ η ω) :
    InterruptEvent κ η → Option (Interrupt κ η ω) := fun e =>
  if s.halted || s.crashed then none
  else
    match e with
    | .schedule r => s.schedule d r
    | .setLevel now => s.setLevel d now
    | .oneTick => s.oneTick d
    | .idle => s.idle d
    | .setStatus st => some { s with status := st }

end Interrupt

end Nachos
