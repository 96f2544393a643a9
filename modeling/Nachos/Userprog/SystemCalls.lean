import Nachos.Userprog.Exception
import Nachos.Userprog.ReadString

/-!
# The system calls of a process (`userprog/exception.cc`, `userprog/ksyscall.h`)

What the functions of `ksyscall.h` do to the memory of the process that calls them. Such a function
copies strings out of user space, puts questions to the rest of the kernel (the console, the table
of open files, the tables of processes and of semaphores), and may copy a buffer back. It can be
preempted at every question, and go to sleep there. So the body of a call is a tree: what is left
to do, with a branch for every answer that the kernel can give.

The rest of the kernel is not part of the file. The answers come from outside, and so does what the
kernel's heap holds in a buffer that is not initialised.

* `SyscallCode.body` — what the case of `ExceptionHandler` does
* `Process.step` — an instruction of a process, or what it does next in a system call
-/

namespace Nachos

open Base

/-! ## The bodies -/

/-- The questions to the rest of the kernel. -/
inductive Query where
  /-- `synchConsoleIn->GetChar()`. -/
  | getChar
  /-- `synchConsoleOut->PutChar(ch)`. -/
  | putChar (ch : BitVec 8)
  | readNum
  | printNum (number : BitVec 32)
  | readChar
  | printChar (c : BitVec 8)
  | randomNum
  /-- `fileSystem->Create(sysBuff)`. -/
  | create (sysBuff : KernelBuf)
  /-- `SysOpen` behind the test of the console names. -/
  | openSlot (name : KernelBuf) (type : BitVec 32)
  | close (fileid : BitVec 32)
  /-- Is `openFiles[id]` not null? -/
  | isOpen (id : BitVec 32)
  /-- `type[id]`. -/
  | type (id : BitVec 32)
  /-- `openFiles[id]->Read`. -/
  | read (id charcount : BitVec 32)
  /-- `openFiles[id]->Write`. -/
  | write (id : BitVec 32) (sysBuff : KernelBuf) (charcount : BitVec 32)
  | seek (pos id : BitVec 32)
  /-- Does `fileSystem->Open(name)` find the file? -/
  | findFile (name : KernelBuf)
  | execUpdate (name : KernelBuf)
  | joinUpdate (id : BitVec 32)
  | exitUpdate (exitCode : BitVec 32)
  /-- `sTab->Create(name, semval)`. -/
  | createSemaphore (name : KernelBuf) (semval : BitVec 32)
  /-- `sTab->Wait(name)`. -/
  | wait (name : KernelBuf)
  /-- `sTab->Signal(name)`. -/
  | signal (name : KernelBuf)
  | getPID

/-- What comes back: a number, and the bytes that `Read` has read. -/
structure KernelAnswer where
  value : BitVec 32
  bytes : List (BitVec 8)

/-- What is left to do of a system call. -/
inductive CallBody where
  | result (value : BitVec 32)
  /-- `SysHalt`. -/
  | halted
  /-- `Thread::Finish`. -/
  | finished
  | request (r : Query) (next : KernelAnswer → CallBody)
  /-- `new char[size]`. -/
  | allocate (size : BitVec 32) (next : KernelBuf → CallBody)
  /-- `User2System`. -/
  | copyIn (virtAddr limit : BitVec 32) (next : KernelBuf → CallBody)
  /-- `System2User`. -/
  | copyOut (virtAddr : BitVec 32) (len : Int) (buffer : KernelBuf) (next : CallBody)

namespace CallBody

/-- The answer is the result. -/
def ask (r : Query) : CallBody := .request r fun a => .result a.value

/-- The loop that reads a line from the console, from index `idx` on, with `k` passes left. -/
def readChars (next : KernelBuf → Nat → CallBody) (sysBuff : KernelBuf) (idx : Nat) :
    Nat → CallBody
  | 0 => next sysBuff idx
  | k + 1 => .request .getChar fun a =>
    let ch := a.value.setWidth 8
    if endsLine ch then next (Function.update sysBuff idx 0) idx
    else readChars next (Function.update sysBuff idx ch) (idx + 1) k

/-- The loop that puts a string on the console. -/
def putChars (next : Nat → CallBody) (sysBuff : KernelBuf) (i : Nat) : Nat → CallBody
  | 0 => next i
  | k + 1 =>
    if sysBuff i = 0 then next i
    else .request (.putChar (sysBuff i)) fun _ => putChars next sysBuff (i + 1) k

/-- Reads a line and copies it to the user: `SysReadString`, and `SysRead` from the console. -/
def takeLine (virtAddr length : BitVec 32) (next : Nat → CallBody) (sysBuff : KernelBuf) :
    CallBody :=
  readChars
    (fun sysBuff idx => .copyOut virtAddr length.toInt (Function.update sysBuff idx 0) (next idx))
    sysBuff 0 length.toInt.toNat

end CallBody

open CallBody

section Bodies

variable (regs : Registers)

def sysReadStringBody : CallBody :=
  .allocate (regs.gp 5 + 1) (takeLine (regs.gp 4) (regs.gp 5) fun _ => .result 0)

def sysPrintStringBody : CallBody :=
  .copyIn (regs.gp 4) (BitVec.ofNat 32 maxLength) fun sysBuff =>
    putChars (fun _ => .result 0) sysBuff 0 maxLength

def sysCreateFileBody : CallBody :=
  .copyIn (regs.gp 4) (BitVec.ofNat 32 maxLength) fun sysBuff =>
    if sysBuff 0 = 0 then .result (-1)
    else .request (.create sysBuff) fun code => .result (if code.value ≠ 0 then 0 else -1)

def sysOpenBody : CallBody :=
  .copyIn (regs.gp 4) 256 fun name =>
    if strcmp (cString name 257) stdinName = 0 then .result 0
    else if strcmp (cString name 257) stdoutName = 0 then .result 1
    else ask (.openSlot name (regs.gp 5))

def sysReadBody : CallBody :=
  let virtualAddr := regs.gp 4
  let charcount := regs.gp 5
  let openFileId := regs.gp 6
  if openFileId.toInt > 9 ∨ openFileId.toInt < 0 then .result (-1)
  else .request (.isOpen openFileId) fun file =>
    if file.value = 0 then .result (-4)
    else .allocate (charcount + 1) fun sysBuff =>
      if openFileId = 0 then
        takeLine virtualAddr charcount (fun idx => .result (BitVec.ofNat 32 idx)) sysBuff
      else if openFileId = 1 then .result (-2)
      else .request (.read openFileId charcount) fun size =>
        if 0 < size.value.toInt then
          .copyOut virtualAddr size.value.toInt (fillBuffer sysBuff size.bytes) (.result size.value)
        else .result (-3)

def sysWriteBody : CallBody :=
  let virtualAddr := regs.gp 4
  let charcount := regs.gp 5
  let openFileId := regs.gp 6
  if openFileId.toInt > 9 ∨ openFileId.toInt < 0 then .result (-1)
  else .request (.isOpen openFileId) fun file =>
    if file.value = 0 then .result (-4)
    else .request (.type openFileId) fun type =>
      if type.value = 1 then .result (-2)
      else .copyIn virtualAddr (charcount + 1) fun sysBuff =>
        if openFileId = 1 then
          putChars (fun i => .result (BitVec.ofNat 32 i)) sysBuff 0 maxLength
        else if openFileId = 0 then .result (-2)
        else ask (.write openFileId sysBuff charcount)

def sysExecBody : CallBody :=
  .copyIn (regs.gp 4) (maxFileLength + 1) fun name =>
    .request (.findFile name) fun oFile =>
      if oFile.value = 0 then .result (-1) else ask (.execUpdate name)

/-- With another code than 0 `SysExit` does nothing. -/
def sysExitBody : CallBody :=
  if regs.gp 4 = 0 then .request (.exitUpdate (regs.gp 4)) fun _ => .finished else .result 0

def sysCreateSemaphoreBody : CallBody :=
  .copyIn (regs.gp 4) (maxFileLength + 1) fun name => ask (.createSemaphore name (regs.gp 5))

def sysWaitBody : CallBody :=
  .copyIn (regs.gp 4) (maxFileLength + 1) fun name => ask (.wait name)

def sysSignalBody : CallBody :=
  .copyIn (regs.gp 4) (maxFileLength + 1) fun name => ask (.signal name)

/-- The cases of `ExceptionHandler`. -/
def SyscallCode.body : SyscallCode → CallBody
  | .halt => .halted
  | .add => .result (regs.gp 4 + regs.gp 5)
  | .readNum => ask .readNum
  | .printNum => ask (.printNum (regs.gp 4))
  | .readChar => ask .readChar
  | .printChar => ask (.printChar ((regs.gp 4).setWidth 8))
  | .randomNum => ask .randomNum
  | .readString => sysReadStringBody regs
  | .printString => sysPrintStringBody regs
  | .createFile => sysCreateFileBody regs
  | .openFile => sysOpenBody regs
  | .closeFile => ask (.close (regs.gp 4))
  | .readFile => sysReadBody regs
  | .writeFile => sysWriteBody regs
  | .exec => sysExecBody regs
  | .join => ask (.joinUpdate (regs.gp 4))
  | .exit => sysExitBody regs
  | .createSemaphore => sysCreateSemaphoreBody regs
  -- The name is copied once for a message.
  | .wait => .copyIn (regs.gp 4) (maxFileLength + 1) fun _ => sysWaitBody regs
  | .signal => sysSignalBody regs
  | .seek => ask (.seek (regs.gp 4) (regs.gp 5))
  | .getPID => ask .getPID

end Bodies

/-- The registers with which a case returns. -/
def SyscallCode.return (code : SyscallCode) (regs : Registers) (value : BitVec 32) : Registers :=
  (if code.hasResult then regs.setGp 2 value else regs).modifyReturnPoint

/-- It is what `ExceptionHandler` returns with. -/
theorem SyscallCode.resume_answered {ω : Type} (code : SyscallCode) (regs : Registers) (world : ω)
    (value : BitVec 32) :
    code.resume regs (.answered world value) = .returned (code.return regs value) world := rfl

/-! ## A process -/

/-- Where a process is. -/
inductive UserPhase where
  /-- Between two instructions. -/
  | user
  /-- In a system call. -/
  | call (code : SyscallCode) (body : CallBody)

/-- A process, with its registers and its machine. -/
structure Process (n : Nat) where
  registers : Registers
  machine : Machine n
  phase : UserPhase

/-- What a process is given. -/
inductive ProcessEvent where
  /-- It may go on. The answer and the junk are for a system call. -/
  | go (answer : KernelAnswer) (junk : KernelBuf)
  /-- `DelayedLoad(0, 0)` in `CheckIfDue`. -/
  | interrupt

namespace Process

variable {n : Nat}

/-- Goes on with a system call behind a memory access. -/
def ofAccess {α : Type} (p : Process n) (code : SyscallCode) (next : α → CallBody) :
    Access (Machine n × α) → Option (Process n)
  | .done (m, a) => some { p with
      machine := m
      phase := .call code (next a) }
  | .raised _ | .aborted => none

/-- The next step of a system call. `none`: the machine is halted, or the thread has finished. -/
def serve (p : Process n) (code : SyscallCode) (answer : KernelAnswer) (junk : KernelBuf) :
    CallBody → Option (Process n)
  | .result value => some { p with
      registers := code.return p.registers value
      phase := .user }
  | .halted | .finished => none
  | .request _ next => some { p with phase := .call code (next answer) }
  | .allocate size next =>
    if size.toInt < 0 then none else some { p with phase := .call code (next junk) }
  | .copyIn virtAddr limit next =>
    p.ofAccess code next (user2System p.machine virtAddr limit junk)
  | .copyOut virtAddr len buffer next =>
    p.ofAccess code (fun _ => next)
      ((system2User p.machine virtAddr len buffer).map fun m => (m, ()))

/-- The next instruction. All exceptions but the system call halt the machine. -/
def instruct (p : Process n) : Option (Process n) :=
  match oneInstruction p.registers p.machine with
  | .finished regs m => some { p with
      registers := regs
      machine := m }
  | .trapped .syscallException regs m =>
    (SyscallCode.ofType (regs.gp 2)).map fun code => ⟨regs, m, .call code (code.body regs)⟩
  | .trapped _ _ _ | .aborted | .hostFault => none

/-- The next step of a process. -/
def step (p : Process n) : ProcessEvent → Option (Process n)
  | .go answer junk =>
    match p.phase with
    | .user => p.instruct
    | .call code body => p.serve code answer junk body
  | .interrupt => (p.registers.delayedLoad 0 0).map fun regs => { p with registers := regs }

end Process

end Nachos
