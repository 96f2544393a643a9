import Nachos.Threads.Semaphore
import Mathlib.Logic.Function.Basic

/-!
# Threads and the scheduler (`threads/thread.cc`, `threads/scheduler.cc`, `threads/synch.cc`)

One thread runs, some are ready, the others wait in the queues of semaphores. `Fork`, `Yield`, `P`,
`V` and `Finish` move threads around with interrupts off; so do the interrupt handlers, which call
`V` between two instructions of the running thread, or while a thread that has gone to sleep waits
in `Interrupt::Idle` for something to do.

`Mode` says where the current thread is; the places between which nothing else can happen are
separate steps (`go`). `SWITCH` itself is the point between `run` and `afterSwitch`: the thread that
is switched to goes on where it called `Run` itself, or at `Thread::Begin`.

* `SchedState.step` — one step
* `Traffic` — who enters and leaves the ready list
-/

namespace Nachos

open Base

/-- `ThreadStatus`. -/
inductive ThreadStatus where
  | justCreated
  | running
  | ready
  | blocked
deriving DecidableEq

/-- Where a thread goes on when it is switched to: at its beginning, or behind its own `Run`. -/
inductive Resume (σ : Type) where
  | begin
  | yield
  /-- The `Run` of the `Sleep` in the loop of `P`. -/
  | p (x : σ)
  /-- The `Run` of the `Sleep` of `Finish`. -/
  | finish
deriving DecidableEq

/-- The part of the class `Thread` that the scheduler uses. -/
structure Thread (σ : Type) where
  status : ThreadStatus
  resume : Resume σ
deriving DecidableEq

/-- Where the current thread is. Interrupts are on in `user` and off in the others. -/
inductive Mode (σ : Type) where
  | user
  /-- Before the loop test of `P`. -/
  | test (x : σ)
  /-- In the loop of `Sleep`, before `FindNextToRun`. -/
  | sleep (finishing : Bool)
  /-- In `Interrupt::Idle`, called from `Sleep`. -/
  | idle (finishing : Bool)
  /-- Just behind `SWITCH`. -/
  | switched
deriving DecidableEq

/-- The kernel's threads. `aborted`: an assertion has failed, or a deleted thread was used. -/
structure SchedState (σ : Type) where
  thread : Nat → Option (Thread σ)
  currentThread : Nat
  readyList : List Nat
  toBeDestroyed : Option Nat
  sem : σ → Semaphore Nat
  mode : Mode σ
  next : Nat
  aborted : Bool

/--
What can happen. `v` is called by the current thread or by an interrupt handler. `go`: the current
thread goes on in the kernel.
-/
inductive SchedEvent (σ : Type) where
  | create
  | fork (t : Nat)
  | yield
  | p (x : σ)
  | v (x : σ)
  | finish
  | go

/-- A thread enters or leaves the ready list. -/
inductive Traffic where
  | enter (t : Nat)
  | leave (t : Nat)
deriving DecidableEq

namespace SchedState

variable {σ : Type} [DecidableEq σ]

/-! ## The scheduler -/

def setThread (s : SchedState σ) (t : Nat) (th : Option (Thread σ)) : SchedState σ :=
  { s with thread := Function.update s.thread t th }

/-- `Scheduler::ReadyToRun`. `none`: the thread is deleted, or `Append` finds it in the list. -/
def readyToRun (s : SchedState σ) (t : Nat) : Option (SchedState σ) := do
  let th ← s.thread t
  if t ∈ s.readyList then none
  return { s with readyList := s.readyList ++ [t] }.setThread t (some { th with status := .ready })

/-- `Scheduler::Run` up to `SWITCH`. -/
def run (s : SchedState σ) (nextThread : Nat) (finishing : Bool) : Option (SchedState σ) := do
  if finishing ∧ s.toBeDestroyed ≠ none then none
  let th ← s.thread nextThread
  return { s with
    toBeDestroyed := if finishing then some s.currentThread else s.toBeDestroyed
    currentThread := nextThread
    mode := .switched }.setThread nextThread (some { th with status := .running })

/-- `Scheduler::CheckToBeDestroyed`. A thread must not delete itself. -/
def checkToBeDestroyed (s : SchedState σ) : Option (SchedState σ) :=
  match s.toBeDestroyed with
  | none => some s
  | some d =>
    if d = s.currentThread then none else some ({ s with toBeDestroyed := none }.setThread d none)

/-- Behind `SWITCH`: the end of `Run`, or `Thread::Begin`. `Finish` is not returned to. -/
def afterSwitch (s : SchedState σ) : Option (SchedState σ) := do
  let s ← s.checkToBeDestroyed
  let th ← s.thread s.currentThread
  match th.resume with
  | .begin | .yield => return { s with mode := .user }
  | .p x => return { s with mode := .test x }
  | .finish => none

/-! ## Threads -/

/-- `Thread::Yield`. -/
def yield (s : SchedState σ) : Option (SchedState σ) := do
  match s.readyList with
  | [] => return s
  | nextThread :: rest =>
    let th ← s.thread s.currentThread
    let s := { s with readyList := rest }.setThread s.currentThread
      (some { th with resume := .yield })
    let s ← s.readyToRun s.currentThread
    s.run nextThread false

/-- `Thread::Sleep` from its beginning, for a thread that will go on at `resume`. -/
def beginSleep (s : SchedState σ) (resume : Resume σ) (finishing : Bool) :
    Option (SchedState σ) := do
  let _ ← s.thread s.currentThread
  return { s with mode := .sleep finishing }.setThread s.currentThread
    (some { status := .blocked, resume := resume })

/-- One pass through the loop of `Thread::Sleep`. -/
def sleepLoop (s : SchedState σ) (finishing : Bool) : Option (SchedState σ) :=
  match s.readyList with
  | [] => some { s with mode := .idle finishing }
  | nextThread :: rest => { s with readyList := rest }.run nextThread finishing

/-! ## Semaphores -/

def setSem (s : SchedState σ) (x : σ) (sem : Semaphore Nat) : SchedState σ :=
  { s with sem := Function.update s.sem x sem }

/-- The loop test of `Semaphore::P`. -/
def pTest (s : SchedState σ) (x : σ) : Option (SchedState σ) :=
  match (s.sem x).p s.currentThread with
  | (sem, true) => some ({ s with mode := .user }.setSem x sem)
  | (sem, false) =>
    if s.currentThread ∈ (s.sem x).queue then none
    else (s.setSem x sem).beginSleep (.p x) false

/-- `Semaphore::V`. -/
def v (s : SchedState σ) (x : σ) : Option (SchedState σ) :=
  match (s.sem x).woken with
  | none => some (s.setSem x (s.sem x).v)
  | some t => (s.setSem x (s.sem x).v).readyToRun t

/-! ## Steps -/

/-- `new Thread`. -/
def create (s : SchedState σ) : SchedState σ :=
  { s with next := s.next + 1 }.setThread s.next
    (some { status := .justCreated, resume := .begin })

/-- What an event does. `none` is a failed assertion. -/
def act (s : SchedState σ) : SchedEvent σ → Option (SchedState σ)
  | .create => some s.create
  | .fork t => s.readyToRun t
  | .yield => s.yield
  | .p x => some { s with mode := .test x }
  | .v x => s.v x
  | .finish => s.beginSleep .finish true
  | .go =>
    match s.mode with
    | .user => some s
    | .test x => s.pTest x
    | .sleep finishing => s.sleepLoop finishing
    | .idle finishing => some { s with mode := .sleep finishing }
    | .switched => s.afterSwitch

/-- When an event can happen. A thread is forked once. -/
def enabled (s : SchedState σ) : SchedEvent σ → Bool
  | .fork t => decide (s.mode = .user) &&
      decide ((s.thread t).map Thread.status = some .justCreated)
  | .v _ =>
    match s.mode with
    | .user | .idle _ => true
    | _ => false
  | .go => decide (s.mode ≠ .user)
  | _ => decide (s.mode = .user)

def step (s : SchedState σ) (e : SchedEvent σ) : Option (SchedState σ) :=
  if s.aborted = false ∧ s.enabled e then some ((s.act e).getD { s with aborted := true })
  else none

/-- The main thread runs, and nobody waits. -/
def start (value : σ → BitVec 32) : SchedState σ where
  thread := Function.update (fun _ => none) 0 (some { status := .running, resume := .begin })
  currentThread := 0
  readyList := []
  toBeDestroyed := none
  sem := fun x => .new (value x)
  mode := .user
  next := 1
  aborted := false

/-- Who enters and who leaves the ready list in a step. -/
def traffic (s : SchedState σ) : SchedEvent σ → List Traffic
  | .fork t => [.enter t]
  | .v x => ((s.sem x).woken.map Traffic.enter).toList
  | .yield => ((s.readyList.head?).map fun t => [.leave t, .enter s.currentThread]).getD []
  | .go =>
    match s.mode with
    | .sleep _ => ((s.readyList.head?).map Traffic.leave).toList
    | _ => []
  | _ => []

end SchedState

end Nachos
