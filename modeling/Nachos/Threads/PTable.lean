import Nachos.Base.Buffer
import Nachos.Base.CString
import Nachos.Lib.Bitmap
import Nachos.Threads.Semaphore
import Mathlib.Logic.Function.Basic

/-!
# The process table (`threads/ptable.cc`, `threads/pcb.cc`)

`PTable` has a slot for each of `MAX_PROCESS` processes: a bit in `bm` and a pointer in `pcb`.
`ExecUpdate`, `JoinUpdate` and `ExitUpdate` run in the thread of the calling process and can be
preempted at the end of every `P` and `V`, and `P` can put the thread to sleep. `Pc` has a
constructor for each place where a thread can be inside them.

Pointers are kept as pointers. The `n`-th process that is created has the PCB object `n` and the
thread `n`; `Remove` runs the destructor of the PCB and leaves the pointer in `pcb` as it is. A
thread that goes through a pointer that is out of the table, `NULL`, or to a destroyed PCB,
crashes the kernel (`Status.crashed`).

* `Sys.step` — one step of one thread
* `Sys.new` — the table that `Kernel::Initialize` makes, with the main process in it
-/

namespace Nachos

open Base

/-- `MAX_PROCESS`. -/
def maxProcess : Nat := 10

/-- The number of a process, counted in the order of creation: its PCB object and its thread. -/
abbrev Tid := Nat

/-- The three semaphores of a PCB. -/
inductive PcbSem where
  | joinsem
  | exitsem
  | multex
deriving DecidableEq

/-- The size of `PCB::FileName`. -/
def fileNameSize : Nat := 32

/--
The class `PCB`.

`fileName` are the bytes of the array `FileName`, with `parentID` behind them in memory. `alive` is
false once the destructor has run. `boolBG` is set and never read, and left out.
-/
structure PCB where
  joinsem : Semaphore Tid
  exitsem : Semaphore Tid
  multex : Semaphore Tid
  exitcode : Int
  numwait : Int
  thread : Option Tid
  fileName : List (BitVec 8)
  parentID : Int
  alive : Bool
deriving DecidableEq

namespace PCB

/-- `PCB::PCB`, called by a thread with process id `current`. -/
def new (id current : Int) : PCB where
  joinsem := .new 0
  exitsem := .new 0
  multex := .new 1
  exitcode := 0
  numwait := 0
  thread := none
  fileName := List.replicate fileNameSize 0
  parentID := if id = 0 then -1 else current
  alive := true

def sem (p : PCB) : PcbSem → Semaphore Tid
  | .joinsem => p.joinsem
  | .exitsem => p.exitsem
  | .multex => p.multex

def setSem (p : PCB) (x : PcbSem) (sem : Semaphore Tid) : PCB :=
  match x with
  | .joinsem => { p with joinsem := sem }
  | .exitsem => { p with exitsem := sem }
  | .multex => { p with multex := sem }

/--
`PCB::SetFileName`: `strcpy` into `FileName`. What does not fit goes on into `parentID`, and from
there into bytes that nobody reads.
-/
def setFileName (p : PCB) (fn : CStr) : PCB :=
  let bytes := fn.overwrite (p.fileName ++ bytesOf (.ofInt 32 p.parentID))
  { p with
    fileName := bytes.take fileNameSize
    parentID := (wordAt (fun k => bytes.getD k 0) fileNameSize).toInt }

/-- `PCB::GetFileName`: the string from `FileName` on, wherever it ends. -/
def getFileName (p : PCB) : CStr := .ofBytes (p.fileName ++ bytesOf (.ofInt 32 p.parentID))

/-- What `PCB::IncNumWait` does between its `P` and the end of its `V`. -/
def incNumWait (p : PCB) : PCB := { p with numwait := p.numwait + 1, multex := p.multex.v }

/-- What `PCB::DecNumWait` does between its `P` and the end of its `V`. -/
def decNumWait (p : PCB) : PCB :=
  { p with
    numwait := if 0 < p.numwait then p.numwait - 1 else p.numwait
    multex := p.multex.v }

end PCB

/-- Where a thread is in the code of `PTable` and `PCB`. -/
inductive ProcPc where
  /-- In none of them: the process runs its program. -/
  | user
  /-- `ExecUpdate`: in `bmsem->P()`. -/
  | execP (name : Option CStr) (getName : CStr)
  /-- `ExecUpdate`: `bmsem` is taken, nothing is checked yet. -/
  | execBody (name : Option CStr) (getName : CStr)
  /-- `PCB::Exec`: `multex` of the new PCB is taken, there is no thread yet. -/
  | execFork (id : Int) (child : Tid)
  /-- `PCB::Exec`: the thread is forked, before `multex->V()`. -/
  | execMultexV (id : Int) (child : Tid)
  /-- `ExecUpdate`: before `bmsem->V()`. -/
  | execBmV (result : Int)
  /-- `JoinUpdate`: in `multex->P()` of `IncNumWait`. -/
  | joinIncP (id : Int) (self : Tid)
  /-- `JoinUpdate`: in `IncNumWait` after its `P`. -/
  | joinIncV (id : Int) (self : Tid)
  /-- `JoinUpdate`: before `pcb[id]->JoinWait()`. -/
  | joinWait (id : Int)
  /-- `JoinUpdate`: in `joinsem->P()`. -/
  | joinP (id : Int) (child : Tid)
  /-- `JoinUpdate`: before `pcb[id]->GetExitCode()`. -/
  | joinGet (id : Int)
  /-- `JoinUpdate`: before `pcb[id]->ExitRelease()`. -/
  | joinRelease (id : Int) (ec : Int)
  /-- `ExitUpdate`: the exit code is stored, before `DecNumWait`. -/
  | exitDec
  /-- `ExitUpdate`: in `multex->P()` of `DecNumWait`. -/
  | exitDecP (parent : Tid)
  /-- `ExitUpdate`: in `DecNumWait` after its `P`. -/
  | exitDecV (parent : Tid)
  /-- `ExitUpdate`: before `pcb[id]->JoinRelease()`. -/
  | exitRelease
  /-- `ExitUpdate`: before `pcb[id]->ExitWait()`. -/
  | exitWait
  /-- `ExitUpdate`: in `exitsem->P()`. -/
  | exitP (self : Tid)
  /-- `ExitUpdate`: before `Remove(id)`. -/
  | exitRemove
deriving DecidableEq

/-- The part of `Thread` that the table uses. `result` is what the last call returned. -/
structure Proc where
  processID : Int
  pc : ProcPc
  result : Int
deriving DecidableEq

/-- The kernel runs, was shut down by `Halt`, or went through a bad pointer or assertion. -/
inductive Status where
  | running
  | halted
  | crashed
deriving DecidableEq

/-- The process table, the PCB objects and the threads. -/
structure Sys where
  bm : Bitmap
  pcb : Nat → Option Tid
  bmsem : Semaphore Tid
  heap : Tid → Option PCB
  thread : Tid → Option Proc
  next : Tid
  status : Status

/--
What a process can call. `getName` is the text that the name pointer of the calling thread points
to: `SysExec` frees that buffer, so nothing is known about it.
-/
inductive SysCall where
  | exec (name : Option CStr) (getName : CStr)
  | join (id : Int)
  | exit (exitcode : Int)

/-- Thread `t` makes a call, or goes on where it is. -/
inductive SysEvent where
  | call (t : Tid) (c : SysCall)
  | run (t : Tid)

/-- The thread that makes the step. -/
def SysEvent.tid : SysEvent → Tid
  | .call t _ => t
  | .run t => t

namespace Sys

/-! ## Pointers -/

/-- The PCB object `a`, if its destructor has not run. -/
def live? (s : Sys) (a : Tid) : Option PCB := (s.heap a).filter fun p => p.alive

/-- `pcb[k]->`: the PCB that slot `k` points to, or `none` when there is no such PCB. -/
def deref (s : Sys) (k : Int) : Option Tid :=
  if 0 ≤ k ∧ k < maxProcess then (s.pcb k.toNat).filter fun a => (s.live? a).isSome else none

def setPCB (s : Sys) (a : Tid) (p : PCB) : Sys :=
  { s with heap := Function.update s.heap a (some p) }

def goto (s : Sys) (t : Tid) (th : Proc) (pc : ProcPc) : Sys :=
  { s with thread := Function.update s.thread t (some { th with pc := pc }) }

/-- The call returns `r` to the program. -/
def ret (s : Sys) (t : Tid) (th : Proc) (r : Int) : Sys :=
  { s with thread := Function.update s.thread t (some { th with pc := .user, result := r }) }

/-- `Thread::Finish`: the thread never runs again. -/
def finish (s : Sys) (t : Tid) : Sys := { s with thread := Function.update s.thread t none }

def crash (s : Sys) : Sys := { s with status := .crashed }

/-- One pass through the test of `P` on a semaphore of PCB `a`. When it returns, go to `pc`. -/
def semP (s : Sys) (t : Tid) (th : Proc) (a : Tid) (x : PcbSem) (pc : ProcPc) : Option Sys := do
  let p ← s.live? a
  match (p.sem x).p t with
  | (sem, false) => return s.setPCB a (p.setSem x sem)
  | (sem, true) => return (s.setPCB a (p.setSem x sem)).goto t th pc

/-- `V` on a semaphore of PCB `a`. -/
def semV (s : Sys) (a : Tid) (x : PcbSem) : Option Sys := do
  let p ← s.live? a
  return s.setPCB a (p.setSem x (p.sem x).v)

/-! ## ExecUpdate -/

/-- `bmsem->P()`. -/
def execP (s : Sys) (t : Tid) (th : Proc) (name : Option CStr) (getName : CStr) : Sys :=
  match s.bmsem.p t with
  | (sem, false) => { s with bmsem := sem }
  | (sem, true) => { s with bmsem := sem }.goto t th (.execBody name getName)

/-- The name `../test/nghiala`. -/
def nghiala : CStr :=
  ⟨[46, 46, 47, 116, 101, 115, 116, 47, 110, 103, 104, 105, 97, 108, 97], by decide⟩

/-- The new PCB of `ExecUpdate`, up to the `multex->P()` of `PCB::Exec`. -/
def newPCB (t : Tid) (id current : Int) (name : CStr) : PCB :=
  { (PCB.new id current).setFileName name with
    parentID := current
    multex := ((PCB.new id current).multex.p t).1 }

/-- `ExecUpdate` from the checks to the `multex->P()` of `PCB::Exec`. -/
def execBody (s : Sys) (t : Tid) (th : Proc) (name : Option CStr) (getName : CStr) :
    Option Sys :=
  match name with
  | none => some (s.goto t th (.execBmV (-1)))
  | some name =>
    if strcmp name.chars nghiala.chars = 0 ∨ strcmp name.chars getName.chars = 0 then
      some (s.goto t th (.execBmV (-1)))
    else do
      let (bm, index) ← s.bm.findAndSet
      if index < 0 then return { s with bm := bm }.goto t th (.execBmV (-1))
      return { s with
        bm := bm
        pcb := Function.update s.pcb index.toNat (some s.next)
        heap := Function.update s.heap s.next (some (newPCB t index th.processID name))
        next := s.next + 1 }.goto t th (.execFork index s.next)

/-- `PCB::Exec` from `new Thread` to the end of `Fork`. -/
def execFork (s : Sys) (t : Tid) (th : Proc) (id : Int) (child : Tid) : Option Sys := do
  let p ← s.live? child
  let s := s.setPCB child { p with thread := some child, parentID := th.processID }
  let s := { s with
    thread := Function.update s.thread child
      (some { processID := id, pc := .user, result := 0 }) }
  return s.goto t th (.execMultexV id child)

/-- The end of `PCB::Exec`. -/
def execMultexV (s : Sys) (t : Tid) (th : Proc) (id : Int) (child : Tid) : Option Sys := do
  let s ← s.semV child .multex
  return s.goto t th (.execBmV id)

/-- The end of `ExecUpdate`. -/
def execBmV (s : Sys) (t : Tid) (th : Proc) (result : Int) : Sys :=
  { s with bmsem := s.bmsem.v }.ret t th result

/-! ## JoinUpdate -/

/-- `JoinUpdate` from its beginning to the `multex->P()` of `IncNumWait`. -/
def joinUpdate (s : Sys) (t : Tid) (th : Proc) (id : Int) : Option Sys :=
  if id < 0 then some (s.ret t th (-1))
  else do
    let child ← s.deref id
    let p ← s.live? child
    if th.processID ≠ p.parentID then return s.ret t th (-1)
    let self ← s.deref p.parentID
    return s.goto t th (.joinIncP id self)

/-- `IncNumWait` after its `P`. -/
def joinIncV (s : Sys) (t : Tid) (th : Proc) (id : Int) (self : Tid) : Option Sys := do
  let p ← s.live? self
  return (s.setPCB self p.incNumWait).goto t th (.joinWait id)

def joinWait (s : Sys) (t : Tid) (th : Proc) (id : Int) : Option Sys := do
  let child ← s.deref id
  return s.goto t th (.joinP id child)

def joinGet (s : Sys) (t : Tid) (th : Proc) (id : Int) : Option Sys := do
  let child ← s.deref id
  let p ← s.live? child
  return s.goto t th (.joinRelease id p.exitcode)

def joinRelease (s : Sys) (t : Tid) (th : Proc) (id ec : Int) : Option Sys := do
  let child ← s.deref id
  let s ← s.semV child .exitsem
  return s.ret t th ec

/-! ## ExitUpdate -/

/--
`ExitUpdate` from its beginning to `SetExitCode`.

The main process halts the machine. Without its bit the process is told so, and `SysExit`
finishes the thread.
-/
def exitUpdate (s : Sys) (t : Tid) (th : Proc) (exitcode : Int) : Option Sys :=
  if th.processID = 0 then some { s with status := .halted }
  else do
    if ← s.bm.test th.processID then
      let self ← s.deref th.processID
      let p ← s.live? self
      return (s.setPCB self { p with exitcode := exitcode }).goto t th .exitDec
    else return s.finish t

def exitDec (s : Sys) (t : Tid) (th : Proc) : Option Sys := do
  let self ← s.deref th.processID
  let p ← s.live? self
  let parent ← s.deref p.parentID
  return s.goto t th (.exitDecP parent)

/-- `DecNumWait` after its `P`. -/
def exitDecV (s : Sys) (t : Tid) (th : Proc) (parent : Tid) : Option Sys := do
  let p ← s.live? parent
  return (s.setPCB parent p.decNumWait).goto t th .exitRelease

def exitRelease (s : Sys) (t : Tid) (th : Proc) : Option Sys := do
  let self ← s.deref th.processID
  let s ← s.semV self .joinsem
  return s.goto t th .exitWait

def exitWait (s : Sys) (t : Tid) (th : Proc) : Option Sys := do
  let self ← s.deref th.processID
  return s.goto t th (.exitP self)

/-- `PTable::Remove`. The destructor of the PCB ends in `Thread::Finish`. -/
def remove (s : Sys) (t : Tid) (th : Proc) : Option Sys := do
  let bm ← s.bm.clear th.processID
  match s.pcb th.processID.toNat with
  | none => return { s with bm := bm }.finish t
  | some a =>
    let p ← s.live? a
    return ({ s with bm := bm }.setPCB a { p with alive := false }).finish t

/-! ## Steps -/

/-- A thread sleeps in the queue of the semaphore whose `P` it is in. -/
def asleep (s : Sys) (t : Tid) (th : Proc) : Bool :=
  match th.pc with
  | .execP _ _ => decide (t ∈ s.bmsem.queue)
  | .joinIncP _ a => decide (t ∈ ((s.heap a).map fun p => p.multex.queue).getD [])
  | .exitDecP a => decide (t ∈ ((s.heap a).map fun p => p.multex.queue).getD [])
  | .joinP _ a => decide (t ∈ ((s.heap a).map fun p => p.joinsem.queue).getD [])
  | .exitP a => decide (t ∈ ((s.heap a).map fun p => p.exitsem.queue).getD [])
  | _ => false

/-- A call by a process that runs its program. `none` is a crash. -/
def doCall (s : Sys) (t : Tid) (th : Proc) : SysCall → Option Sys
  | .exec name getName => some (s.goto t th (.execP name getName))
  | .join id => s.joinUpdate t th id
  | .exit exitcode => s.exitUpdate t th exitcode

/-- The thread goes on where it is. `none` is a crash. -/
def doRun (s : Sys) (t : Tid) (th : Proc) : Option Sys :=
  match th.pc with
  | .user => some s
  | .execP name getName => some (s.execP t th name getName)
  | .execBody name getName => s.execBody t th name getName
  | .execFork id child => s.execFork t th id child
  | .execMultexV id child => s.execMultexV t th id child
  | .execBmV result => some (s.execBmV t th result)
  | .joinIncP id self => s.semP t th self .multex (.joinIncV id self)
  | .joinIncV id self => s.joinIncV t th id self
  | .joinWait id => s.joinWait t th id
  | .joinP id child => s.semP t th child .joinsem (.joinGet id)
  | .joinGet id => s.joinGet t th id
  | .joinRelease id ec => s.joinRelease t th id ec
  | .exitDec => s.exitDec t th
  | .exitDecP parent => s.semP t th parent .multex (.exitDecV parent)
  | .exitDecV parent => s.exitDecV t th parent
  | .exitRelease => s.exitRelease t th
  | .exitWait => s.exitWait t th
  | .exitP self => s.semP t th self .exitsem .exitRemove
  | .exitRemove => s.remove t th

/--
One step. A call is made from the program, and a thread goes on only inside a call and only when
it does not sleep. Nothing happens once the kernel does not run any more.
-/
def step (s : Sys) : SysEvent → Option Sys
  | .call t c =>
    match s.thread t with
    | none => none
    | some th =>
      if s.status = .running ∧ th.pc = .user then some ((s.doCall t th c).getD s.crash) else none
  | .run t =>
    match s.thread t with
    | none => none
    | some th =>
      if s.status = .running ∧ th.pc ≠ .user ∧ s.asleep t th = false then
        some ((s.doRun t th).getD s.crash)
      else none

/-! ## The beginning -/

/-- `PTable::PTable(10)` and the main thread, which is process 0. -/
def new : Option Sys := do
  let bm ← Bitmap.new maxProcess (by decide)
  let bm ← bm.mark 0
  return {
    bm := bm
    pcb := Function.update (fun _ => none) 0 (some 0)
    bmsem := .new 1
    heap := Function.update (fun _ => none) 0
      (some { (PCB.new 0 0).setFileName nghiala with parentID := -1 })
    thread := Function.update (fun _ => none) 0 (some { processID := 0, pc := .user, result := 0 })
    next := 1
    status := .running }

/-! ## Whole calls -/

/-- The names `a`, `b` and `c` of programs, and `main`, the name of the first thread. -/
def nameA : CStr := ⟨[97], by decide⟩
def nameB : CStr := ⟨[98], by decide⟩
def nameC : CStr := ⟨[99], by decide⟩
def nameMain : CStr := ⟨[109, 97, 105, 110], by decide⟩

/-- `Exec` by thread `t`, from the call to the return. -/
def execAll (t : Tid) (name getName : CStr) : List SysEvent :=
  [.call t (.exec (some name) getName), .run t, .run t, .run t, .run t, .run t]

/-- `Exit(0)` by thread `t` up to the sleep in `exitsem->P()`. -/
def exitAll (t : Tid) : List SysEvent :=
  [.call t (.exit 0), .run t, .run t, .run t, .run t, .run t, .run t]

/-- `Join(id)` by thread `t`, up to the return. -/
def joinAll (t : Tid) (id : Int) : List SysEvent :=
  [.call t (.join id), .run t, .run t, .run t, .run t, .run t]

/-! ## Lemmas about pointers -/

theorem live?_eq_some {s : Sys} {a : Tid} {p : PCB} :
    s.live? a = some p ↔ s.heap a = some p ∧ p.alive = true := by
  simp [live?, Option.filter_eq_some_iff]

theorem deref_eq_some {s : Sys} {k : Int} {a : Tid} :
    s.deref k = some a ↔
      0 ≤ k ∧ k < maxProcess ∧ s.pcb k.toNat = some a ∧
        ∃ p, s.heap a = some p ∧ p.alive = true := by
  unfold deref
  split
  · next h =>
    rw [Option.filter_eq_some_iff, Option.isSome_iff_exists]
    simp only [live?_eq_some]
    exact ⟨fun ⟨h1, h2⟩ => ⟨h.1, h.2, h1, h2⟩, fun ⟨_, _, h1, h2⟩ => ⟨h1, h2⟩⟩
  · next h =>
    constructor
    · intro hn; simp at hn
    · rintro ⟨h1, h2, -⟩
      exact absurd ⟨h1, h2⟩ h

@[simp] theorem setPCB_heap (s : Sys) (a : Tid) (p : PCB) :
    (s.setPCB a p).heap = Function.update s.heap a (some p) := rfl

@[simp] theorem setPCB_bm (s : Sys) (a : Tid) (p : PCB) : (s.setPCB a p).bm = s.bm := rfl

@[simp] theorem setPCB_pcb (s : Sys) (a : Tid) (p : PCB) : (s.setPCB a p).pcb = s.pcb := rfl

@[simp] theorem setPCB_thread (s : Sys) (a : Tid) (p : PCB) :
    (s.setPCB a p).thread = s.thread := rfl

@[simp] theorem setPCB_next (s : Sys) (a : Tid) (p : PCB) : (s.setPCB a p).next = s.next := rfl

@[simp] theorem setPCB_status (s : Sys) (a : Tid) (p : PCB) :
    (s.setPCB a p).status = s.status := rfl

@[simp] theorem goto_heap (s : Sys) (t : Tid) (th : Proc) (pc : ProcPc) :
    (s.goto t th pc).heap = s.heap := rfl

@[simp] theorem goto_bm (s : Sys) (t : Tid) (th : Proc) (pc : ProcPc) :
    (s.goto t th pc).bm = s.bm := rfl

@[simp] theorem goto_pcb (s : Sys) (t : Tid) (th : Proc) (pc : ProcPc) :
    (s.goto t th pc).pcb = s.pcb := rfl

@[simp] theorem goto_thread (s : Sys) (t : Tid) (th : Proc) (pc : ProcPc) :
    (s.goto t th pc).thread = Function.update s.thread t (some { th with pc := pc }) := rfl

@[simp] theorem goto_next (s : Sys) (t : Tid) (th : Proc) (pc : ProcPc) :
    (s.goto t th pc).next = s.next := rfl

@[simp] theorem goto_status (s : Sys) (t : Tid) (th : Proc) (pc : ProcPc) :
    (s.goto t th pc).status = s.status := rfl

@[simp] theorem ret_heap (s : Sys) (t : Tid) (th : Proc) (r : Int) :
    (s.ret t th r).heap = s.heap := rfl

@[simp] theorem ret_bm (s : Sys) (t : Tid) (th : Proc) (r : Int) : (s.ret t th r).bm = s.bm := rfl

@[simp] theorem ret_pcb (s : Sys) (t : Tid) (th : Proc) (r : Int) :
    (s.ret t th r).pcb = s.pcb := rfl

@[simp] theorem ret_thread (s : Sys) (t : Tid) (th : Proc) (r : Int) :
    (s.ret t th r).thread
      = Function.update s.thread t (some { th with pc := .user, result := r }) := rfl

@[simp] theorem ret_next (s : Sys) (t : Tid) (th : Proc) (r : Int) :
    (s.ret t th r).next = s.next := rfl

@[simp] theorem ret_status (s : Sys) (t : Tid) (th : Proc) (r : Int) :
    (s.ret t th r).status = s.status := rfl

/-! ## When a step happens -/

theorem step_call_eq {s : Sys} {t : Tid} {th : Proc} {c : SysCall} (hth : s.thread t = some th)
    (hrun : s.status = .running) (hpc : th.pc = .user) :
    s.step (.call t c) = some ((s.doCall t th c).getD s.crash) := by
  simp [step, hth, hrun, hpc]

theorem step_run_eq {s : Sys} {t : Tid} {th : Proc} (hth : s.thread t = some th)
    (hrun : s.status = .running) (hpc : th.pc ≠ .user) (hawake : s.asleep t th = false) :
    s.step (.run t) = some ((s.doRun t th).getD s.crash) := by
  simp [step, hth, hrun, hpc, hawake]

theorem step_call_some {s s' : Sys} {t : Tid} {c : SysCall} (h : s.step (.call t c) = some s') :
    ∃ th, s.thread t = some th ∧ s.status = .running ∧ th.pc = .user ∧
      s' = (s.doCall t th c).getD s.crash := by
  simp only [step] at h
  split at h
  · simp at h
  · next th hth =>
    split at h
    · next hen => exact ⟨th, hth, hen.1, hen.2, (Option.some.inj h).symm⟩
    · simp at h

theorem step_run_some {s s' : Sys} {t : Tid} (h : s.step (.run t) = some s') :
    ∃ th, s.thread t = some th ∧ s.status = .running ∧ th.pc ≠ .user ∧ s.asleep t th = false ∧
      s' = (s.doRun t th).getD s.crash := by
  simp only [step] at h
  split at h
  · simp at h
  · next th hth =>
    split at h
    · next hen => exact ⟨th, hth, hen.1, hen.2.1, hen.2.2, (Option.some.inj h).symm⟩
    · simp at h

/-! ## What `P` and `V` on a PCB do -/

theorem semP_sleep {s : Sys} {t a : Tid} {th : Proc} {x : PcbSem} {pc : ProcPc} {p : PCB}
    (hp : s.live? a = some p) (hv : (p.sem x).value = 0) :
    s.semP t th a x pc
      = some (s.setPCB a (p.setSem x { p.sem x with queue := (p.sem x).queue ++ [t] })) := by
  simp [semP, hp, Semaphore.p_of_zero hv]

theorem semP_take {s : Sys} {t a : Tid} {th : Proc} {x : PcbSem} {pc : ProcPc} {p : PCB}
    (hp : s.live? a = some p) (hv : (p.sem x).value ≠ 0) :
    s.semP t th a x pc
      = some ((s.setPCB a (p.setSem x
          { p.sem x with value := toInt32 ((p.sem x).value - 1) })).goto t th pc) := by
  simp [semP, hp, Semaphore.p_of_ne_zero hv]

theorem semV_eq {s : Sys} {a : Tid} {x : PcbSem} {p : PCB} (hp : s.live? a = some p) :
    s.semV a x = some (s.setPCB a (p.setSem x (p.sem x).v)) := by
  simp [semV, hp]

end Sys

end Nachos
