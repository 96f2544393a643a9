import Nachos.Base.Placement
import Nachos.Machine.Interrupt
import Nachos.Threads.Semaphore
import Mathlib.Logic.Function.Basic

/-!
# The interrupt level across context switches (`threads/thread.cc`, `machine/interrupt.cc`)

`level` and `status` are single variables of the machine, and the copies that `P`, `V`, `Fork`,
`Yield` and `OneTick` save of them are local variables of activations. A thread that is switched
away keeps its activations on its own stack, and other threads run, with activations of their own,
before it goes on behind its `SWITCH`. Here every thread has the stack of its activations, each with
its locals, and a step is one of the current thread.

A run chooses what the kernel code calls, when a user program traps, and which interrupts are due.
The handlers are the callbacks of the devices. They call `V`, `Schedule`, which touches none of the
variables, and, from the timer, `YieldOnReturn`.

* `LevelState.step` — one step of the current thread
* `Fits` — the stack fits the level, the status and `inHandler`
* `Away` — what is on the ready list and in the queues has been switched away, or is asleep
* `LevelInv.step` — every step keeps both
* `run_levels_restored` — `SWITCH`, the four routines, `OneTick` and `SetLevel` in every run
-/

namespace Nachos

open Base

/-- The routines that turn interrupts off and set the level back when they are done. -/
inductive Routine where
  | p
  | v
  | fork
  | yield
deriving DecidableEq

/--
A point in a function of the kernel, with the local variables that count.

`called` and `had` are not variables of the code. They remember the level at which a routine was
called, and the status with which `OneTick` was entered.
-/
inductive Activation (σ : Type) where
  /-- Kernel code: a forked procedure, or `ExceptionHandler`. -/
  | kernel
  /-- `Machine::Run`, before an instruction. -/
  | user
  /-- `Machine::Run`, between an instruction and `OneTick`. -/
  | userTick
  /-- `ThreadRoot`, before `Thread::Begin`. -/
  | starting
  /-- Before the loop test of `P`. -/
  | pTest (x : σ) (called oldLevel : IntStatus)
  /-- Before `FindNextToRun` in `Yield`. -/
  | yieldFind (called oldLevel : IntStatus)
  /-- Before the last `SetLevel` of a routine. -/
  | restore (fn : Routine) (called oldLevel : IntStatus)
  /-- Behind the last `SetLevel` of a routine. -/
  | returning (fn : Routine) (called : IntStatus)
  /-- Before `FindNextToRun` in `Sleep`. -/
  | sleep (finishing : Bool)
  /-- Before and behind `CheckIfDue` in `Idle`. -/
  | idleDue
  | idleEnd
  /-- Behind `SWITCH` in `Scheduler::Run`. -/
  | switched
  /-- Before and behind `CheckIfDue` in `OneTick`, and behind its `Yield`. -/
  | tickDue (had oldStatus : MachineStatus)
  | tickEnd (had oldStatus : MachineStatus)
  | tickYield (had oldStatus : MachineStatus)
  /-- In the loop of `CheckIfDue`, in the callbacks of the devices. -/
  | handler
deriving DecidableEq

/--
The variables of the machine and the scheduler, the semaphores, and the stack of every thread. A
thread without activations does not exist.
-/
structure LevelState (σ : Type) where
  level : IntStatus
  status : MachineStatus
  inHandler : Bool
  yieldOnReturn : Bool
  currentThread : Nat
  readyList : List Nat
  sem : σ → Semaphore Nat
  stack : Nat → List (Activation σ)

/-- How the current thread goes on. -/
inductive LevelEvent (σ : Type) where
  | p (x : σ)
  | v (x : σ)
  | fork (t : Nat)
  | yield
  | finish
  | setLevel (now : IntStatus)
  /-- Kernel code calls `Machine::Run`. -/
  | runUser
  /-- `ExceptionHandler` returns. -/
  | handled
  /-- An instruction, which may raise an exception. -/
  | instruction (raises : Bool)
  /-- Whether `CheckIfDue` has a handler to invoke. -/
  | due (any : Bool)
  /-- `Alarm::CallBack`. -/
  | alarm
  /-- To the next point. -/
  | go

namespace LevelState

variable {σ : Type} [DecidableEq σ]

/-! ## One step -/

/-- The current thread's stack becomes `l`. -/
def setStack (s : LevelState σ) (l : List (Activation σ)) : LevelState σ :=
  { s with stack := Function.update s.stack s.currentThread l }

/-- `SetLevel(IntOff)`, which advances no time. -/
def disable (s : LevelState σ) (l : List (Activation σ)) : LevelState σ :=
  { s with level := .off }.setStack l

/-- `OneTick` up to `CheckIfDue`. It returns to the activations `l`. -/
def oneTick (s : LevelState σ) (l : List (Activation σ)) : LevelState σ :=
  { s with level := .off }.setStack (.tickDue s.status s.status :: l)

/-- `SetLevel`, which goes on at `l`. -/
def setLevel (s : LevelState σ) (now : IntStatus) (l : List (Activation σ)) : LevelState σ :=
  if now = .on ∧ s.level = .off then { s with level := now }.oneTick l
  else { s with level := now }.setStack l

/-- `SWITCH`: the current thread is left with the stack `l`, and `t` goes on. -/
def switchTo (s : LevelState σ) (t : Nat) (l : List (Activation σ)) : LevelState σ :=
  { s.setStack l with currentThread := t }

/-- `Scheduler::ReadyToRun`. -/
def readyToRun (s : LevelState σ) (t : Nat) : LevelState σ :=
  { s with readyList := s.readyList ++ [t] }

def setSem (s : LevelState σ) (x : σ) (sem : Semaphore Nat) : LevelState σ :=
  { s with sem := Function.update s.sem x sem }

/-- `Semaphore::V` between its two `SetLevel`s. -/
def wake (s : LevelState σ) (x : σ) : LevelState σ :=
  match (s.sem x).woken with
  | none => s.setSem x (s.sem x).v
  | some t => (s.setSem x (s.sem x).v).readyToRun t

/-- Kernel code. It calls the routines, and may change the level itself. -/
def kernelStep (s : LevelState σ) (rest : List (Activation σ)) :
    LevelEvent σ → Option (LevelState σ)
  | .p x => some (s.disable (.pTest x s.level s.level :: .kernel :: rest))
  | .v x => some ((s.wake x).disable (.restore .v s.level s.level :: .kernel :: rest))
  | .fork t =>
    if s.stack t = [] then
      some (({ s with stack := Function.update s.stack t [.starting] }.readyToRun t).disable
        (.restore .fork s.level s.level :: .kernel :: rest))
    else none
  | .yield => some (s.disable (.yieldFind s.level s.level :: .kernel :: rest))
  | .finish => some (s.disable (.sleep true :: rest))
  | .setLevel now => some (s.setLevel now (.kernel :: rest))
  | .runUser => some ({ s with status := .user }.setStack (.user :: rest))
  | .handled =>
    match rest with
    | .userTick :: rest => some ({ s with status := .user }.setStack (.userTick :: rest))
    | _ => none
  | _ => none

/-- The loop test of `P`. -/
def testStep (s : LevelState σ) (x : σ) (called oldLevel : IntStatus)
    (rest : List (Activation σ)) : LevelState σ :=
  match (s.sem x).p s.currentThread with
  | (sem, true) => (s.setSem x sem).setStack (.restore .p called oldLevel :: rest)
  | (sem, false) => (s.setSem x sem).setStack (.sleep false :: .pTest x called oldLevel :: rest)

/-- The loop of `Sleep`. The thread may find itself, when a handler has made it ready. -/
def sleepStep (s : LevelState σ) (finishing : Bool) (rest : List (Activation σ)) : LevelState σ :=
  match s.readyList with
  | [] => { s with status := .idle }.setStack (.idleDue :: .sleep finishing :: rest)
  | nextThread :: ready =>
    { s with readyList := ready }.switchTo nextThread (if finishing then [] else .switched :: rest)

/-- `Yield` behind its first `SetLevel`. -/
def yieldStep (s : LevelState σ) (called oldLevel : IntStatus) (rest : List (Activation σ)) :
    LevelState σ :=
  match s.readyList with
  | [] => s.setStack (.restore .yield called oldLevel :: rest)
  | nextThread :: ready =>
    ({ s with readyList := ready }.readyToRun s.currentThread).switchTo nextThread
      (.switched :: .restore .yield called oldLevel :: rest)

/-- The end of `OneTick`. -/
def tickEndStep (s : LevelState σ) (had oldStatus : MachineStatus) (rest : List (Activation σ)) :
    LevelState σ :=
  if s.yieldOnReturn then
    { s with
      level := .off
      yieldOnReturn := false
      status := .system }.setStack (.yieldFind .on .on :: .tickYield had oldStatus :: rest)
  else { s with level := .on }.setStack rest

def handlerStep (s : LevelState σ) (rest : List (Activation σ)) :
    LevelEvent σ → Option (LevelState σ)
  | .v x => some ((s.wake x).disable (.restore .v s.level s.level :: .handler :: rest))
  | .alarm => some (if s.status ≠ .idle then { s with yieldOnReturn := true } else s)
  | .go => some ({ s with inHandler := false }.setStack rest)
  | _ => none

/-- One step of the current thread, whose stack is `a :: rest`. -/
def stepAt (s : LevelState σ) (rest : List (Activation σ)) :
    Activation σ → LevelEvent σ → Option (LevelState σ)
  | .kernel, e => s.kernelStep rest e
  | .user, .instruction false => some (s.setStack (.userTick :: rest))
  | .user, .instruction true =>
    -- `RaiseException`; the instruction is over when `ExceptionHandler` returns.
    some ({ s with status := .system }.setStack (.kernel :: .userTick :: rest))
  | .userTick, .go => some (s.oneTick (.user :: rest))
  | .starting, .go => some (s.setLevel .on (.kernel :: rest))
  | .pTest x called oldLevel, .go => some (s.testStep x called oldLevel rest)
  | .yieldFind called oldLevel, .go => some (s.yieldStep called oldLevel rest)
  | .restore fn called oldLevel, .go => some (s.setLevel oldLevel (.returning fn called :: rest))
  | .returning _ _, .go => some (s.setStack rest)
  | .sleep finishing, .go => some (s.sleepStep finishing rest)
  | .idleDue, .due true =>
    -- When nothing is due, `Idle` halts the machine.
    some ({ s with inHandler := true }.setStack (.handler :: .idleEnd :: rest))
  | .idleEnd, .go => some ({ s with status := .system }.setStack rest)
  | .switched, .go => some (s.setStack rest)
  | .tickDue had oldStatus, .due false => some (s.setStack (.tickEnd had oldStatus :: rest))
  | .tickDue had oldStatus, .due true =>
    some ({ s with inHandler := true }.setStack (.handler :: .tickEnd had oldStatus :: rest))
  | .tickEnd had oldStatus, .go => some (s.tickEndStep had oldStatus rest)
  | .tickYield _ oldStatus, .go => some ({ s with status := oldStatus }.setStack rest)
  | .handler, e => s.handlerStep rest e
  | _, _ => none

def step (s : LevelState σ) (e : LevelEvent σ) : Option (LevelState σ) :=
  match s.stack s.currentThread with
  | [] => none
  | a :: rest => s.stepAt rest a e

/-- The main thread in `Kernel::Initialize`: `Interrupt::Interrupt` starts with interrupts off. -/
def start (value : σ → BitVec 32) : LevelState σ where
  level := .off
  status := .system
  inHandler := false
  yieldOnReturn := false
  currentThread := 0
  readyList := []
  sem := fun x => .new (value x)
  stack := Function.update (fun _ => []) 0 [.kernel]

/-! ## What a step must respect -/

/-- The step executes `SWITCH`. -/
def switches (s : LevelState σ) (e : LevelEvent σ) : Bool :=
  match s.stack s.currentThread, e with
  | .sleep _ :: _, .go | .yieldFind _ _ :: _, .go => !s.readyList.isEmpty
  | _, _ => false

/-- The argument of the `SetLevel` that the step calls, when it calls it. -/
def setLevelArg (s : LevelState σ) (e : LevelEvent σ) : Option IntStatus :=
  match s.stack s.currentThread, e with
  | .kernel :: _, .setLevel now => some now
  | .kernel :: _, .p _ | .kernel :: _, .v _ | .kernel :: _, .fork _ | .kernel :: _, .yield
  | .kernel :: _, .finish | .handler :: _, .v _ => some .off
  | .starting :: _, .go => some .on
  | .restore _ _ oldLevel :: _, .go => some oldLevel
  | .tickEnd _ _ :: _, .go => if s.yieldOnReturn then some .off else none
  | _, _ => none

/-- A routine that returns in the step, with the level at which it was called. -/
def returned (s : LevelState σ) (e : LevelEvent σ) : Option (Routine × IntStatus) :=
  match s.stack s.currentThread, e with
  | .returning fn called :: _, .go => some (fn, called)
  | _, _ => none

/-- `OneTick` returns in the step; the status with which it was entered. -/
def ticked (s : LevelState σ) (e : LevelEvent σ) : Option MachineStatus :=
  match s.stack s.currentThread, e with
  | .tickEnd had _ :: _, .go => if s.yieldOnReturn then none else some had
  | .tickYield had _ :: _, .go => some had
  | _, _ => none

/-- The interrupt level and the machine status are as the code around the step expects. -/
structure Disciplined (s : LevelState σ) (e : LevelEvent σ) : Prop where
  switch : s.switches e = true → s.level = .off ∧ s.status = .system
  setLevel : ∀ now, s.setLevelArg e = some now → now = .off ∨ s.inHandler = false
  returned : ∀ fn called, s.returned e = some (fn, called) → s.level = called
  ticked : ∀ had s', s.ticked e = some had → s.step e = some s' → s'.status = had

/-! ## The invariant -/

/--
The stack fits the level, the status and `inHandler`: they are what its first activation expects,
and what that one will leave behind is what the second one expects, and so on.
-/
def Fits : List (Activation σ) → IntStatus → MachineStatus → Bool → Prop
  | [], _, _, _ => False
  | .kernel :: _, _, st, h => st = .system ∧ h = false
  | .user :: _, _, st, h | .userTick :: _, _, st, h => st = .user ∧ h = false
  | .starting :: _, l, st, h => l = .off ∧ st = .system ∧ h = false
  | .pTest _ called oldLevel :: rest, l, st, h | .yieldFind called oldLevel :: rest, l, st, h =>
    l = .off ∧ st = .system ∧ h = false ∧ oldLevel = called ∧ Fits rest called .system false
  | .restore _ called oldLevel :: rest, l, st, h =>
    -- A handler calls `V` with interrupts off, so it does not turn them on.
    l = .off ∧ oldLevel = called ∧ (h = true → called = .off) ∧ Fits rest called st h
  | .returning _ called :: rest, l, st, h => l = called ∧ Fits rest called st h
  | .sleep finishing :: rest, l, st, h =>
    l = .off ∧ st = .system ∧ h = false ∧ (finishing = false → Fits rest .off .system false)
  | .idleDue :: rest, l, st, h | .idleEnd :: rest, l, st, h =>
    l = .off ∧ st = .idle ∧ h = false ∧ Fits rest .off .system false
  | .switched :: rest, l, st, h =>
    l = .off ∧ st = .system ∧ h = false ∧ Fits rest .off .system false
  | .tickDue had oldStatus :: rest, l, st, h | .tickEnd had oldStatus :: rest, l, st, h =>
    l = .off ∧ st = had ∧ h = false ∧ oldStatus = had ∧ Fits rest .on had false
  | .tickYield had oldStatus :: rest, l, st, h =>
    l = .on ∧ st = .system ∧ h = false ∧ oldStatus = had ∧ Fits rest .on had false
  | .handler :: rest, l, st, h => l = .off ∧ h = true ∧ Fits rest .off st false

/-- The thread is in the loop of `Sleep`, perhaps in `Idle` and a handler there, and will go on. -/
def asleep : List (Activation σ) → Bool
  | .sleep finishing :: _ => !finishing
  | .idleDue :: rest | .idleEnd :: rest | .handler :: rest | .restore _ _ _ :: rest
  | .returning _ _ :: rest => asleep rest
  | _ => false

omit [DecidableEq σ] in
theorem Fits.off_of_asleep {l : List (Activation σ)} {level : IntStatus} {status : MachineStatus}
    {inHandler : Bool} (h : Fits l level status inHandler) (hl : asleep l = true) :
    level = .off := by
  fun_induction asleep l generalizing level with
  | case1 | case2 | case3 | case4 | case5 => exact h.1
  | case6 _ called rest ih => exact h.1.trans (ih h.2 hl)
  | case7 => cases hl

/-- Where a thread is queued. -/
inductive Whereabouts (σ : Type) where
  | nowhere
  | ready
  | queue (x : σ)
deriving DecidableEq

/-- The ready list and the queues, by the place of every thread. -/
structure Queued (readyList : List Nat) (sem : σ → Semaphore Nat) (place : Nat → Whereabouts σ) :
    Prop where
  ready : Lists readyList place .ready
  queue : ∀ x, Lists (sem x).queue place (.queue x)

/-- Only threads that have been switched away, or are asleep, are queued. -/
structure Away (s : LevelState σ) (place : Nat → Whereabouts σ) : Prop where
  others : ∀ t, t ≠ s.currentThread → place t ≠ .nowhere → s.stack t ≠ []
  current : place s.currentThread ≠ .nowhere → asleep (s.stack s.currentThread) = true

/--
The stack of the current thread fits the variables of the machine, and that of every other thread
fits what they are behind `SWITCH`.
-/
structure LevelInv (s : LevelState σ) : Prop where
  current : Fits (s.stack s.currentThread) s.level s.status s.inHandler
  others : ∀ t, t ≠ s.currentThread → s.stack t = [] ∨ Fits (s.stack t) .off .system false
  queued : ∃ place, Queued s.readyList s.sem place ∧ s.Away place

variable {s s' : LevelState σ} {e : LevelEvent σ} {rest : List (Activation σ)}

omit [DecidableEq σ] in
theorem levelInv_start (value : σ → BitVec 32) : (start value).LevelInv where
  current := by simp [start, Fits]
  others := by
    intro t ht
    left
    simp only [start] at ht ⊢
    rw [Function.update_of_ne ht]
  queued := by
    refine ⟨fun _ => .nowhere, ⟨⟨List.nodup_nil, by simp [start]⟩, fun x => ⟨List.nodup_nil, ?_⟩⟩,
      ?_, ?_⟩
    · simp [start, Semaphore.new]
    · simp
    · simp

/-! ## The ready list and the queues -/

section Queues

variable {ready : List Nat} {sem : σ → Semaphore Nat} {place : Nat → Whereabouts σ} {t : Nat}

omit [DecidableEq σ] in
theorem Queued.readyToRun (h : Queued ready sem place) (ht : place t = .nowhere) :
    Queued (ready ++ [t]) sem (Function.update place t .ready) where
  ready := h.ready.append (by simp [ht])
  queue x := (h.queue x).other (by simp [ht]) (by simp)

omit [DecidableEq σ] in
theorem Queued.findNextToRun (h : Queued (t :: ready) sem place) :
    Queued ready sem (Function.update place t .nowhere) where
  ready := h.ready.tail (by simp)
  queue x := (h.queue x).other (by simp [h.ready.head]) (by simp)

/-- `P` appends a thread to a queue. -/
theorem Queued.wait (h : Queued ready sem place) (ht : place t = .nowhere) (x : σ) :
    Queued ready (Function.update sem x { sem x with queue := (sem x).queue ++ [t] })
      (Function.update place t (.queue x)) where
  ready := h.ready.other (by simp [ht]) (by simp)
  queue y := by
    by_cases hy : y = x
    · subst hy
      rw [Function.update_self]
      exact (h.queue y).append (by simp [ht])
    · rw [Function.update_of_ne hy]
      exact (h.queue y).other (by simp [ht]) (by simp [Ne.symm hy])

/-- `V` takes the first thread of a queue to the ready list. -/
theorem Queued.wake {x : σ} {queue : List Nat} (h : Queued ready sem place)
    (hx : (sem x).queue = t :: queue) :
    Queued (ready ++ [t]) (Function.update sem x (sem x).v) (Function.update place t .ready) := by
  have hqueue : Lists (t :: queue) place (.queue x) := hx ▸ h.queue x
  have ht : place t = .queue x := hqueue.head
  constructor
  · exact h.ready.append (by simp [ht])
  · intro y
    by_cases hy : y = x
    · subst hy
      rw [Function.update_self, Semaphore.v_queue, hx]
      exact hqueue.tail (by simp)
    · rw [Function.update_of_ne hy]
      exact (h.queue y).other (by simp [ht, Ne.symm hy]) (by simp)

/-- A semaphore whose queue stays as it is. -/
theorem Queued.setValue {x : σ} {sem' : Semaphore Nat} (h : Queued ready sem place)
    (hx : sem'.queue = (sem x).queue) : Queued ready (Function.update sem x sem') place where
  ready := h.ready
  queue y := by
    by_cases hy : y = x
    · subst hy
      rw [Function.update_self, hx]
      exact h.queue y
    · rw [Function.update_of_ne hy]
      exact h.queue y

end Queues

/-! ## Every step keeps it -/

theorem Away.nowhere_of_awake {place : Nat → Whereabouts σ} (h : s.Away place)
    (hawake : asleep (s.stack s.currentThread) = false) : place s.currentThread = .nowhere := by
  by_contra hne
  rw [h.current hne] at hawake
  cases hawake

omit [DecidableEq σ] in
/-- The current thread goes on; only its own stack and the variables of the machine change. -/
theorem LevelInv.setStack (h : s.LevelInv) {l : List (Activation σ)} {level : IntStatus}
    {status : MachineStatus} {inHandler yieldOnReturn : Bool}
    (hfits : Fits l level status inHandler)
    (hsleep : asleep (s.stack s.currentThread) = true → asleep l = true) :
    LevelInv ({ s with
      level := level
      status := status
      inHandler := inHandler
      yieldOnReturn := yieldOnReturn }.setStack l) := by
  obtain ⟨place, hqueued, haway⟩ := h.queued
  refine ⟨?_, ?_, place, hqueued, ?_, ?_⟩
  · simpa [LevelState.setStack] using hfits
  · intro t ht
    have ht' : t ≠ s.currentThread := ht
    simp only [LevelState.setStack, Function.update_of_ne ht']
    exact h.others t ht'
  · intro t ht
    have ht' : t ≠ s.currentThread := ht
    simp only [LevelState.setStack, Function.update_of_ne ht']
    exact haway.others t ht'
  · intro hplace
    simp only [LevelState.setStack, Function.update_self]
    exact hsleep (haway.current hplace)

/-- The loop test of `P` fails, and the thread goes to sleep. -/
theorem LevelInv.wait (h : s.LevelInv) {l : List (Activation σ)}
    (hfits : Fits l s.level s.status s.inHandler)
    (hawake : asleep (s.stack s.currentThread) = false) (hsleep : asleep l = true) (x : σ) :
    LevelInv ((s.setSem x { s.sem x with
      queue := (s.sem x).queue ++ [s.currentThread] }).setStack l) := by
  obtain ⟨place, hqueued, haway⟩ := h.queued
  refine ⟨?_, ?_, _, hqueued.wait (haway.nowhere_of_awake hawake) x, ?_, ?_⟩
  · simpa [LevelState.setStack, setSem] using hfits
  · intro t ht
    have ht' : t ≠ s.currentThread := ht
    simp only [LevelState.setStack, setSem, Function.update_of_ne ht']
    exact h.others t ht'
  · intro t ht
    have ht' : t ≠ s.currentThread := ht
    simp only [LevelState.setStack, setSem, Function.update_of_ne ht']
    exact haway.others t ht'
  · intro _
    simpa only [LevelState.setStack, setSem, Function.update_self] using hsleep

/-- The value of a semaphore changes. -/
theorem LevelInv.setValue (h : s.LevelInv) {x : σ} {sem : Semaphore Nat}
    (hx : sem.queue = (s.sem x).queue) : (s.setSem x sem).LevelInv := by
  obtain ⟨place, hqueued, haway⟩ := h.queued
  exact ⟨h.current, h.others, place, hqueued.setValue hx, haway.others, haway.current⟩

/-- A thread that is queued may move. -/
theorem LevelInv.wake (h : s.LevelInv) (x : σ) : (s.wake x).LevelInv := by
  obtain ⟨place, hqueued, haway⟩ := h.queued
  cases hx : (s.sem x).queue with
  | nil =>
    have hwake : s.wake x = s.setSem x (s.sem x).v := by
      simp [LevelState.wake, Semaphore.woken, hx]
    rw [hwake]
    exact h.setValue (by simp [hx])
  | cons t queue =>
    have hwake : s.wake x = (s.setSem x (s.sem x).v).readyToRun t := by
      simp [LevelState.wake, Semaphore.woken, hx]
    have ht : place t ≠ .nowhere := by
      have hmem : t ∈ (s.sem x).queue := by simp [hx]
      rw [((hqueued.queue x).mem t).mp hmem]
      simp
    have hmoved : ∀ u, Function.update place t .ready u ≠ .nowhere → place u ≠ .nowhere := by
      intro u hu
      by_cases hut : u = t
      · rw [hut]
        exact ht
      · rwa [Function.update_of_ne hut] at hu
    rw [hwake]
    exact ⟨h.current, h.others, _, hqueued.wake hx,
      fun u hne hu => haway.others u hne (hmoved u hu), fun hu => haway.current (hmoved _ hu)⟩

/-- A new thread is put on the ready list. -/
theorem LevelInv.fork (h : s.LevelInv) {t : Nat} (ht : s.stack t = []) :
    LevelInv ({ s with stack := Function.update s.stack t [.starting] }.readyToRun t) := by
  obtain ⟨place, hqueued, haway⟩ := h.queued
  have hcurrent : s.currentThread ≠ t := by
    rintro rfl
    have hfits := h.current
    rw [ht] at hfits
    exact hfits
  have hplace : place t = .nowhere := by
    by_contra hne
    exact haway.others t (Ne.symm hcurrent) hne ht
  refine ⟨?_, ?_, _, hqueued.readyToRun hplace, ?_, ?_⟩
  · simp only [LevelState.readyToRun, Function.update_of_ne hcurrent]
    exact h.current
  · intro u hu
    simp only [LevelState.readyToRun]
    by_cases hut : u = t
    · subst hut
      right
      simp [Fits]
    · rw [Function.update_of_ne hut]
      exact h.others u hu
  · intro u hu hne
    simp only [LevelState.readyToRun]
    by_cases hut : u = t
    · subst hut
      simp
    · rw [Function.update_of_ne hut] at hne ⊢
      exact haway.others u hu hne
  · intro hne
    simp only [LevelState.readyToRun, Function.update_of_ne hcurrent] at hne ⊢
    exact haway.current hne

omit [DecidableEq σ] in
/-- `SWITCH` away from a thread that goes on behind it, or never. -/
theorem LevelInv.switchTo (h : s.LevelInv) {t : Nat} {l : List (Activation σ)} {ready : List Nat}
    {place : Nat → Whereabouts σ} (hlevel : s.level = .off) (hstatus : s.status = .system)
    (hhandler : s.inHandler = false) (hl : l = [] ∨ Fits l .off .system false)
    (ht : Function.update s.stack s.currentThread l t ≠ []) (hqueued : Queued ready s.sem place)
    (hplace : place t = .nowhere)
    (haway : ∀ u, place u ≠ .nowhere → Function.update s.stack s.currentThread l u ≠ []) :
    LevelInv ({ s with readyList := ready }.switchTo t l) := by
  have hfits : ∀ u, Function.update s.stack s.currentThread l u = [] ∨
      Fits (Function.update s.stack s.currentThread l u) .off .system false := by
    intro u
    by_cases hu : u = s.currentThread
    · subst hu
      rw [Function.update_self]
      exact hl
    · rw [Function.update_of_ne hu]
      exact h.others u hu
  refine ⟨?_, fun u _ => hfits u, place, hqueued, fun u _ => haway u, fun hne => absurd hplace hne⟩
  simp only [LevelState.switchTo, LevelState.setStack, hlevel, hstatus, hhandler]
  exact (hfits t).resolve_left ht

omit [DecidableEq σ] in
/-- `OneTick` starts with interrupts on, whatever the level was at its call. -/
theorem LevelInv.oneTick (h : s.LevelInv) {l : List (Activation σ)} {level : IntStatus}
    (hhandler : s.inHandler = false) (hfits : Fits l .on s.status false)
    (hawake : asleep (s.stack s.currentThread) = false) :
    LevelInv ({ s with level := level }.oneTick l) := by
  have htick : Fits (.tickDue s.status s.status :: l) .off s.status s.inHandler :=
    ⟨rfl, rfl, hhandler, rfl, hfits⟩
  exact h.setStack htick (by simp [hawake])

omit [DecidableEq σ] in
/-- `SetLevel` goes on at the new level, with the status it was called with. -/
theorem LevelInv.setLevel (h : s.LevelInv) {now : IntStatus} {l : List (Activation σ)}
    (hhandler : now = .off ∨ s.inHandler = false) (hfits : Fits l now s.status s.inHandler)
    (hsleep : asleep (s.stack s.currentThread) = true → asleep l = true) :
    (s.setLevel now l).LevelInv := by
  unfold LevelState.setLevel
  split
  next hnow =>
    have hfalse : s.inHandler = false := by simpa [hnow.1] using hhandler
    have hawake : asleep (s.stack s.currentThread) = false := by
      by_contra hne
      have hoff := hfits.off_of_asleep (hsleep (by simpa using hne))
      rw [hnow.1] at hoff
      cases hoff
    rw [hnow.1, hfalse] at hfits
    exact h.oneTick hfalse hfits hawake
  next => exact h.setStack hfits hsleep

@[simp] theorem wake_status (x : σ) : (s.wake x).status = s.status := by
  unfold LevelState.wake
  split <;> rfl

@[simp] theorem wake_inHandler (x : σ) : (s.wake x).inHandler = s.inHandler := by
  unfold LevelState.wake
  split <;> rfl

/-- `V` leaves the stack of its thread alone. -/
@[simp] theorem wake_stack (x : σ) :
    (s.wake x).stack (s.wake x).currentThread = s.stack s.currentThread := by
  unfold LevelState.wake
  split <;> rfl

section Steps

variable (h : s.LevelInv)

include h

theorem LevelInv.kernelStep (hstack : s.stack s.currentThread = .kernel :: rest)
    (hs : s.kernelStep rest e = some s') : s'.LevelInv := by
  have hfits := h.current
  rw [hstack] at hfits
  obtain ⟨hstatus, hhandler⟩ := hfits
  have hkernel : ∀ l, Fits (.kernel :: rest) l .system false := fun _ => ⟨rfl, rfl⟩
  have hawake : asleep (s.stack s.currentThread) = false := by simp [hstack, asleep]
  cases e with
  | p x =>
    obtain rfl := Option.some.inj hs
    exact h.setStack ⟨rfl, hstatus, hhandler, rfl, hkernel _⟩ (by simp [hawake])
  | v x =>
    obtain rfl := Option.some.inj hs
    refine (h.wake x).setStack ⟨rfl, rfl, ?_, ?_⟩ (by simp [hawake])
    · simp [hhandler]
    · rw [wake_status, wake_inHandler]
      exact ⟨hstatus, hhandler⟩
  | fork t =>
    simp only [LevelState.kernelStep, Option.ite_none_right_eq_some, Option.some.injEq] at hs
    obtain ⟨ht, rfl⟩ := hs
    have hother : s.currentThread ≠ t := by
      rintro rfl
      rw [hstack] at ht
      cases ht
    refine (h.fork ht).setStack ⟨rfl, rfl, ?_, hstatus, hhandler⟩ ?_
    · simp [readyToRun, hhandler]
    · simp [readyToRun, Function.update_of_ne hother, hawake]
  | yield =>
    obtain rfl := Option.some.inj hs
    exact h.setStack ⟨rfl, hstatus, hhandler, rfl, hkernel _⟩ (by simp [hawake])
  | finish =>
    obtain rfl := Option.some.inj hs
    exact h.setStack ⟨rfl, hstatus, hhandler, by simp⟩ (by simp [hawake])
  | setLevel now =>
    obtain rfl := Option.some.inj hs
    exact h.setLevel (.inr hhandler) ⟨hstatus, hhandler⟩ (by simp [hawake])
  | runUser =>
    obtain rfl := Option.some.inj hs
    exact h.setStack ⟨rfl, hhandler⟩ (by simp [hawake])
  | handled =>
    simp only [LevelState.kernelStep] at hs
    split at hs
    · obtain rfl := Option.some.inj hs
      exact h.setStack ⟨rfl, hhandler⟩ (by simp [hawake])
    · cases hs
  | _ => cases hs

/-- `P` goes on with the value, or to sleep in the queue and then back to the test. -/
theorem LevelInv.testStep {x : σ} {called oldLevel : IntStatus}
    (hstack : s.stack s.currentThread = .pTest x called oldLevel :: rest) :
    (s.testStep x called oldLevel rest).LevelInv := by
  have hfits := h.current
  have hawake : asleep (s.stack s.currentThread) = false := by simp [hstack, asleep]
  rw [hstack] at hfits
  obtain ⟨hlevel, hstatus, hhandler, hold, hrest⟩ := hfits
  unfold LevelState.testStep
  by_cases hvalue : (s.sem x).value = 0
  · rw [Semaphore.p_of_zero hvalue]
    have hwaits : Fits (.sleep false :: .pTest x called oldLevel :: rest) s.level s.status
        s.inHandler :=
      ⟨hlevel, hstatus, hhandler, fun _ => ⟨rfl, rfl, rfl, hold, hrest⟩⟩
    exact h.wait hwaits hawake rfl x
  · rw [Semaphore.p_of_ne_zero hvalue]
    have hset : (s.setSem x { s.sem x with value := toInt32 ((s.sem x).value - 1) }).LevelInv :=
      h.setValue rfl
    refine hset.setStack ⟨hlevel, hold, ?_, ?_⟩ ?_
    · simp [hhandler]
    · rw [hstatus, hhandler]
      exact hrest
    · simp [setSem, hawake]

omit [DecidableEq σ] in
/-- `Sleep` finds a thread, perhaps the current one, or it idles. -/
theorem LevelInv.sleepStep {finishing : Bool}
    (hstack : s.stack s.currentThread = .sleep finishing :: rest) :
    (s.sleepStep finishing rest).LevelInv := by
  have hfits := h.current
  rw [hstack] at hfits
  obtain ⟨hlevel, hstatus, hhandler, hrest⟩ := hfits
  unfold LevelState.sleepStep
  split
  next =>
    exact h.setStack ⟨hlevel, rfl, hhandler, rfl, rfl, rfl, hrest⟩ (by simp [hstack, asleep])
  next t ready hready =>
    obtain ⟨place, hqueued, haway⟩ := h.queued
    rw [hready] at hqueued
    have ht : place t = .ready := hqueued.ready.head
    -- What is left behind is not queued when it is empty.
    have hkeep : ∀ u, place u ≠ .nowhere → Function.update s.stack s.currentThread
        (if finishing then [] else .switched :: rest) u ≠ [] := by
      intro u hu
      by_cases hcurrent : u = s.currentThread
      · subst hcurrent
        have hsleep := haway.current hu
        rw [hstack] at hsleep
        cases finishing with
        | false => simp
        | true => cases hsleep
      · rw [Function.update_of_ne hcurrent]
        exact haway.others u hcurrent hu
    refine h.switchTo hlevel hstatus hhandler ?_ (hkeep t (by simp [ht])) hqueued.findNextToRun
      (by simp) ?_
    · cases finishing with
      | true => exact .inl rfl
      | false => exact .inr ⟨rfl, rfl, rfl, hrest rfl⟩
    · intro u hu
      by_cases hut : u = t
      · rw [hut]
        exact hkeep t (by simp [ht])
      · rw [Function.update_of_ne hut] at hu
        exact hkeep u hu

/-- `Yield` puts the current thread on the ready list, behind the thread it switches to. -/
theorem LevelInv.yieldStep {called oldLevel : IntStatus}
    (hstack : s.stack s.currentThread = .yieldFind called oldLevel :: rest) :
    (s.yieldStep called oldLevel rest).LevelInv := by
  have hfits := h.current
  have hawake : asleep (s.stack s.currentThread) = false := by simp [hstack, asleep]
  rw [hstack] at hfits
  obtain ⟨hlevel, hstatus, hhandler, hold, hrest⟩ := hfits
  have hrestore : Fits (.restore .yield called oldLevel :: rest) .off .system false :=
    ⟨rfl, hold, by simp, hrest⟩
  unfold LevelState.yieldStep
  split
  next =>
    refine h.setStack ?_ (by simp [hawake])
    rw [hlevel, hstatus, hhandler]
    exact hrestore
  next t ready hready =>
    obtain ⟨place, hqueued, haway⟩ := h.queued
    rw [hready] at hqueued
    have ht : place t = .ready := hqueued.ready.head
    have hcurrent : place s.currentThread = .nowhere := haway.nowhere_of_awake hawake
    have hother : t ≠ s.currentThread := by
      rintro rfl
      rw [hcurrent] at ht
      cases ht
    have hgone : Function.update place t .nowhere s.currentThread = .nowhere := by
      rw [Function.update_of_ne hother.symm, hcurrent]
    refine h.switchTo hlevel hstatus hhandler (.inr ⟨rfl, rfl, rfl, hrestore⟩) ?_
      (hqueued.findNextToRun.readyToRun hgone) ?_ ?_
    · rw [Function.update_of_ne hother]
      exact haway.others t hother (by simp [ht])
    · rw [Function.update_of_ne hother, Function.update_self]
    · intro u hu
      by_cases huc : u = s.currentThread
      · subst huc
        simp
      · rw [Function.update_of_ne huc] at hu ⊢
        refine haway.others u huc ?_
        by_cases hut : u = t
        · rw [hut, ht]
          simp
        · rwa [Function.update_of_ne hut] at hu

theorem LevelInv.handlerStep (hstack : s.stack s.currentThread = .handler :: rest)
    (hs : s.handlerStep rest e = some s') : s'.LevelInv := by
  have hfits := h.current
  rw [hstack] at hfits
  obtain ⟨hlevel, hhandler, hrest⟩ := hfits
  cases e with
  | v x =>
    obtain rfl := Option.some.inj hs
    refine (h.wake x).setStack ⟨rfl, rfl, fun _ => hlevel, hlevel, ?_, ?_⟩ ?_
    · rw [wake_inHandler, hhandler]
    · rw [wake_status]
      exact hrest
    · simp [hstack, asleep]
  | alarm =>
    obtain rfl := Option.some.inj hs
    split
    · exact ⟨h.current, h.others, h.queued.imp fun _ ⟨hq, ha⟩ => ⟨hq, ha.others, ha.current⟩⟩
    · exact h
  | go =>
    obtain rfl := Option.some.inj hs
    refine h.setStack ?_ (by simp [hstack, asleep])
    rw [hlevel]
    exact hrest
  | _ => cases hs

omit [DecidableEq σ] in
theorem LevelInv.tickEndStep {had oldStatus : MachineStatus}
    (hstack : s.stack s.currentThread = .tickEnd had oldStatus :: rest) :
    (s.tickEndStep had oldStatus rest).LevelInv := by
  have hfits := h.current
  have hawake : asleep (s.stack s.currentThread) = false := by simp [hstack, asleep]
  rw [hstack] at hfits
  obtain ⟨_, hstatus, hhandler, hold, hrest⟩ := hfits
  unfold LevelState.tickEndStep
  split
  · exact h.setStack ⟨rfl, rfl, hhandler, rfl, rfl, rfl, rfl, hold, hrest⟩ (by simp [hawake])
  · refine h.setStack ?_ (by simp [hawake])
    rw [hstatus, hhandler]
    exact hrest

end Steps

/-- Every step keeps the stacks and the variables of the machine together. -/
theorem LevelInv.step (s : LevelState σ) (e : LevelEvent σ) (s' : LevelState σ) (h : s.LevelInv)
    (hs : s.step e = some s') : s'.LevelInv := by
  unfold LevelState.step at hs
  split at hs
  · cases hs
  next a rest hstack =>
    -- The activations with more than one way to go on have their own lemmas.
    have hfits := h.current
    rw [hstack] at hfits
    unfold stepAt at hs
    split at hs
    next => exact h.kernelStep hstack hs
    next =>
      obtain rfl := Option.some.inj hs
      exact h.setStack hfits (by simp [hstack, asleep])
    next =>
      obtain rfl := Option.some.inj hs
      exact h.setStack ⟨rfl, hfits.2⟩ (by simp [hstack, asleep])
    next =>
      obtain rfl := Option.some.inj hs
      exact h.oneTick hfits.2 ⟨hfits.1, rfl⟩ (by simp [hstack, asleep])
    next =>
      obtain rfl := Option.some.inj hs
      obtain ⟨_, hstatus, hhandler⟩ := hfits
      exact h.setLevel (.inr hhandler) ⟨hstatus, hhandler⟩ (by simp [hstack, asleep])
    next =>
      obtain rfl := Option.some.inj hs
      exact h.testStep hstack
    next =>
      obtain rfl := Option.some.inj hs
      exact h.yieldStep hstack
    next =>
      obtain rfl := Option.some.inj hs
      obtain ⟨_, rfl, hoff, hrest⟩ := hfits
      refine h.setLevel ?_ ⟨rfl, hrest⟩ (by simp [hstack, asleep])
      cases hhandler : s.inHandler with
      | false => exact .inr rfl
      | true => exact .inl (hoff hhandler)
    next =>
      obtain rfl := Option.some.inj hs
      obtain ⟨hlevel, hrest⟩ := hfits
      refine h.setStack ?_ (by simp [hstack, asleep])
      rw [hlevel]
      exact hrest
    next =>
      obtain rfl := Option.some.inj hs
      exact h.sleepStep hstack
    next =>
      obtain rfl := Option.some.inj hs
      obtain ⟨hlevel, hstatus, _, hrest⟩ := hfits
      exact h.setStack ⟨hlevel, rfl, rfl, hstatus, rfl, hrest⟩ (by simp [hstack, asleep])
    next =>
      obtain rfl := Option.some.inj hs
      obtain ⟨hlevel, _, hhandler, hrest⟩ := hfits
      refine h.setStack ?_ (by simp [hstack, asleep])
      rw [hlevel, hhandler]
      exact hrest
    next =>
      obtain rfl := Option.some.inj hs
      obtain ⟨hlevel, hstatus, hhandler, hrest⟩ := hfits
      refine h.setStack ?_ (by simp [hstack, asleep])
      rw [hlevel, hstatus, hhandler]
      exact hrest
    next =>
      obtain rfl := Option.some.inj hs
      exact h.setStack hfits (by simp [hstack, asleep])
    next =>
      obtain rfl := Option.some.inj hs
      obtain ⟨hlevel, hstatus, _, hold, hrest⟩ := hfits
      exact h.setStack ⟨hlevel, rfl, rfl, hstatus, rfl, hold, hrest⟩ (by simp [hstack, asleep])
    next =>
      obtain rfl := Option.some.inj hs
      exact h.tickEndStep hstack
    next =>
      obtain rfl := Option.some.inj hs
      obtain ⟨hlevel, _, hhandler, hold, hrest⟩ := hfits
      refine h.setStack ?_ (by simp [hstack, asleep])
      rw [hlevel, hhandler, hold]
      exact hrest
    next => exact h.handlerStep hstack hs
    next => cases hs

/-! ## Whole runs -/

section

omit [DecidableEq σ]

/-- Interrupts are turned on by kernel code, at the beginning of a thread and by the routines. -/
theorem setLevelArg_on (hon : s.setLevelArg e = some .on) :
    ∃ rest, s.stack s.currentThread = .kernel :: rest ∨
      s.stack s.currentThread = .starting :: rest ∨
      ∃ fn called, s.stack s.currentThread = .restore fn called .on :: rest := by
  unfold setLevelArg at hon
  split at hon
  case h_10 => split at hon <;> cases hon
  all_goals first
    | cases hon; done
    | simp_all

/-- No `SetLevel` turns interrupts on inside a handler. -/
theorem LevelInv.setLevelArg (h : s.LevelInv) {now : IntStatus}
    (hnow : s.setLevelArg e = some now) : now = .off ∨ s.inHandler = false := by
  cases now with
  | off => exact .inl rfl
  | on =>
    right
    have hfits := h.current
    rcases setLevelArg_on hnow with ⟨rest, hstack | hstack | ⟨fn, called, hstack⟩⟩
    · rw [hstack] at hfits
      exact hfits.2
    · rw [hstack] at hfits
      exact hfits.2.2
    · rw [hstack] at hfits
      obtain ⟨_, hold, hoff, _⟩ := hfits
      cases hhandler : s.inHandler with
      | false => rfl
      | true => cases hold.trans (hoff hhandler)

theorem LevelInv.switches (h : s.LevelInv) (hswitch : s.switches e = true) :
    s.level = .off ∧ s.status = .system := by
  have hfits := h.current
  unfold LevelState.switches at hswitch
  split at hswitch
  case h_1 hstack =>
    rw [hstack] at hfits
    exact ⟨hfits.1, hfits.2.1⟩
  case h_2 hstack =>
    rw [hstack] at hfits
    exact ⟨hfits.1, hfits.2.1⟩
  case h_3 => cases hswitch

theorem LevelInv.returned (h : s.LevelInv) {fn : Routine} {called : IntStatus}
    (hreturned : s.returned e = some (fn, called)) : s.level = called := by
  have hfits := h.current
  unfold LevelState.returned at hreturned
  split at hreturned
  case h_1 hstack =>
    rw [hstack] at hfits
    cases hreturned
    exact hfits.1
  case h_2 => cases hreturned

end

/-- `OneTick` returns with the status it was entered with, whether or not it has yielded. -/
theorem LevelInv.ticked (h : s.LevelInv) {had : MachineStatus} (hticked : s.ticked e = some had)
    (hs : s.step e = some s') : s'.status = had := by
  have hfits := h.current
  unfold LevelState.ticked at hticked
  split at hticked
  case h_1 hstack =>
    rw [hstack] at hfits
    simp only [LevelState.step, hstack, stepAt, Option.some.injEq] at hs
    subst hs
    split at hticked
    · cases hticked
    next hyield =>
      cases hticked
      rw [LevelState.tickEndStep, if_neg hyield]
      exact hfits.2.1
  case h_2 hstack =>
    rw [hstack] at hfits
    simp only [LevelState.step, hstack, stepAt, Option.some.injEq] at hs
    subst hs
    cases hticked
    exact hfits.2.2.2.1
  case h_3 => cases hticked

theorem LevelInv.disciplined (s : LevelState σ) (e : LevelEvent σ) (h : s.LevelInv) :
    s.Disciplined e where
  switch := h.switches
  setLevel _ := h.setLevelArg
  returned _ _ := h.returned
  ticked _ _ := h.ticked

/--
In every run of the threads, `SWITCH` is executed with interrupts off and in system mode, `P`, `V`,
`Fork` and `Yield` return at the level they were called with, `OneTick` returns with the status it
was entered with, and no handler turns interrupts on.
-/
theorem run_levels_restored (value : σ → BitVec 32) (es : List (LevelEvent σ)) :
    AllSteps LevelState.step Disciplined (start value) es :=
  allSteps_of_invariant LevelInv.step LevelInv.disciplined (levelInv_start value) es

-- A user program is preempted between two instructions by a thread that then waits in `P`.
example : ((run LevelState.step (start fun _ : Unit => 0)
    [.setLevel .on, .due false, .go, .fork 1, .go, .due false, .go, .go, .runUser,
      .instruction false, .go, .due true, .alarm, .go, .go, .go, .go, .due false, .go,
      .p (), .go, .go, .go, .go, .due true, .v (), .go, .go, .go, .go, .go, .go]).map
    fun s => (s.currentThread, s.level, s.status, s.stack 0)) = some (0, .on, .user, [.user]) := by
  decide

end LevelState

end Nachos
