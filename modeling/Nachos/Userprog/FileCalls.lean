import Nachos.Base.CString
import Nachos.Machine.Translate
import Nachos.Filesys.OpenFile

/-!
# The file system calls (`userprog/ksyscall.h`)

`Open`, `Close`, `Read`, `Write` and `Seek` as `ExceptionHandler` calls them, with their arguments
as they stand in the registers. They share one table with all other processes. Nothing in them
can be preempted while they look at the table: only the console can put a thread to sleep, and by
then the call has done with the table.

What the code does not determine is a parameter: `found` is the file that the host finds under the
name, `junk` is what the kernel's heap holds in a buffer that is not initialised, and `input` are
the characters that the console will deliver.

* `user2System`, `system2User` — the copies between user and kernel space
* `sysOpen`, `sysClose`, `sysRead`, `sysWrite`, `sysSeek`
-/

namespace Nachos

open Base

/--
What becomes of a system call.

`halted`: a memory access raised an exception, and the handler halted the machine.
`aborted`: a failed assertion, or an allocation of a negative size.
`wild`: an array was accessed outside its bounds.
-/
inductive CallOutcome (α : Type) where
  | returned (a : α)
  | halted
  | aborted
  | wild
deriving DecidableEq

namespace CallOutcome

variable {α β : Type}

def map (f : α → β) : CallOutcome α → CallOutcome β
  | returned a => returned (f a)
  | halted => halted
  | aborted => aborted
  | wild => wild

def bind : CallOutcome α → (α → CallOutcome β) → CallOutcome β
  | returned a, k => k a
  | halted, _ => halted
  | aborted, _ => aborted
  | wild, _ => wild

@[simp] theorem bind_returned (a : α) (k : α → CallOutcome β) : (returned a).bind k = k a := rfl

/-- Goes on after a memory access. -/
def ofAccess : Access α → (α → CallOutcome β) → CallOutcome β
  | .done a, k => k a
  | .raised _, _ => halted
  | .aborted, _ => aborted

/-- Goes on after an assertion. -/
def ofOption : Option α → (α → CallOutcome β) → CallOutcome β
  | some a, k => k a
  | none, _ => aborted

/-- Goes on after an access to `openFiles[i]` or `type[i]`. -/
def atIndex (i : Int) (k : Fin numOpenFiles → CallOutcome β) : CallOutcome β :=
  if h : 0 ≤ i ∧ i < numOpenFiles then k ⟨i.toNat, by omega⟩ else wild

end CallOutcome

open CallOutcome

/-- A buffer of the kernel, seen from its first byte on. -/
abbrev KernelBuf := Nat → BitVec 8

/-! ## Between user space and kernel space -/

section Copies

variable {n : Nat}

/-- The loop of `User2System` from index `i` on, with `k` passes left. -/
def user2SystemLoop (virtAddr : BitVec 32) (m : Machine n) (kernelBuf : KernelBuf) (i : Nat) :
    Nat → Access (Machine n × KernelBuf)
  | 0 => .done (m, kernelBuf)
  | k + 1 =>
    (m.readMem (virtAddr + BitVec.ofNat 32 i) 1).bind fun (m, oneChar) =>
      let kernelBuf := Function.update kernelBuf i (oneChar.setWidth 8)
      if oneChar = 0 then .done (m, kernelBuf)
      else user2SystemLoop virtAddr m kernelBuf (i + 1) k

/-- `User2System`. The buffer is not initialised, and `new` throws when its size is negative. -/
def user2System (m : Machine n) (virtAddr limit : BitVec 32) (junk : KernelBuf) :
    Access (Machine n × KernelBuf) :=
  if (limit + 1).toInt < 0 then .aborted
  else user2SystemLoop virtAddr m junk 0 limit.toInt.toNat

/-- The loop of `System2User` from index `i` on, with `k` bytes left. -/
def system2UserLoop (virtAddr : BitVec 32) (buffer : KernelBuf) (m : Machine n) (i : Nat) :
    Nat → Access (Machine n)
  | 0 => .done m
  | k + 1 =>
    let oneChar := (buffer i).signExtend 32
    (m.writeMem (virtAddr + BitVec.ofNat 32 i) 1 oneChar).bind fun m =>
      if oneChar = 0 then .done m else system2UserLoop virtAddr buffer m (i + 1) k

/-- `System2User`. No caller uses its answer. -/
def system2User (m : Machine n) (virtAddr : BitVec 32) (len : Int) (buffer : KernelBuf) :
    Access (Machine n) :=
  if len ≤ 0 then .done m else system2UserLoop virtAddr buffer m 0 len.toNat

end Copies

/-! ## Open and Close -/

/-- The name `stdin`. -/
def stdinName : List (BitVec 8) := [115, 116, 100, 105, 110]

/-- The name `stdout`. -/
def stdoutName : List (BitVec 8) := [115, 116, 100, 111, 117, 116]

section Calls

variable {n : Nat}

/-- `SysOpen` behind the test of the console names. -/
def openSlot (m : Machine n) (s : FileState) (type : BitVec 32) (found : Option Ino) :
    CallOutcome (Machine n × FileState × Int) :=
  match s.fs.findFreeSlot with
  | none => .returned (m, s, -1)
  | some freeSlot =>
    let s := { s with fs := s.fs.setType freeSlot type }
    if type = 0 ∨ type = 1 then
      let s := { s with fs := s.fs.setFile freeSlot (found.map .new) }
      match found with
      | some _ => .returned (m, s, (freeSlot : Int))
      | none =>
        -- the types of the consoles are asked for where they cannot be
        if type = 2 then .returned (m, s, 0)
        else if type = 3 then .returned (m, s, 1)
        else .returned (m, s, -1)
    else .returned (m, s, -1)

/-- `SysOpen`. -/
def sysOpen (m : Machine n) (s : FileState) (addr type : BitVec 32) (junk : KernelBuf)
    (found : Option Ino) : CallOutcome (Machine n × FileState × Int) :=
  ofAccess (user2System m addr 256 junk) fun (m, name) =>
    if strcmp (cString name 257) stdinName = 0 then .returned (m, s, 0)
    else if strcmp (cString name 257) stdoutName = 0 then .returned (m, s, 1)
    else openSlot m s type found

/-- `SysClose`. -/
def sysClose (s : FileState) (fileid : BitVec 32) : CallOutcome (FileState × Int) :=
  if 0 ≤ fileid.toInt ∧ fileid.toInt ≤ 9 then
    atIndex fileid.toInt fun i =>
      match s.fs.openFiles i with
      | some _ => .returned ({ s with fs := s.fs.setFile i none }, 0)
      | none => .returned (s, -1)
  else .returned (s, -1)

/-! ## Read and Write -/

/-- The loop that reads from the console: the buffer, and `idx` where the loop stops. -/
def readConsole (input : Nat → BitVec 8) (sysBuff : KernelBuf) (idx : Nat) : Nat → KernelBuf × Nat
  | 0 => (sysBuff, idx)
  | k + 1 =>
    if input idx = 10 ∨ input idx = 0 then (Function.update sysBuff idx 0, idx)
    else readConsole input (Function.update sysBuff idx (input idx)) (idx + 1) k

/-- The bytes that `read` has put into a buffer. -/
def fillBuffer (sysBuff : KernelBuf) (bytes : List (BitVec 8)) : KernelBuf :=
  fun i => bytes.getD i (sysBuff i)

/-- `SysRead` on the file in slot `i`. -/
def readSlot (m : Machine n) (s : FileState) (virtualAddr charcount : BitVec 32)
    (i : Fin numOpenFiles) (f : OpenFile) (sysBuff : KernelBuf) :
    CallOutcome (Machine n × FileState × Int) :=
  ofOption (f.read s.files charcount.toInt) fun (f, bytes, size) =>
    let s := { s with fs := s.fs.setFile i (some f) }
    if 0 < size then
      ofAccess (system2User m virtualAddr size (fillBuffer sysBuff bytes)) fun m =>
        .returned (m, s, size)
    else .returned (m, s, -3)

/-- `SysRead`. -/
def sysRead (m : Machine n) (s : FileState) (virtualAddr charcount openFileId : BitVec 32)
    (junk : KernelBuf) (input : Nat → BitVec 8) : CallOutcome (Machine n × FileState × Int) :=
  if openFileId.toInt > 9 ∨ openFileId.toInt < 0 then .returned (m, s, -1)
  else atIndex openFileId.toInt fun i =>
    match s.fs.openFiles i with
    | none => .returned (m, s, -4)
    | some f =>
      if (charcount + 1).toInt < 0 then .aborted
      else if openFileId = 0 then
        let (sysBuff, idx) := readConsole input junk 0 charcount.toInt.toNat
        let sysBuff := Function.update sysBuff idx 0
        ofAccess (system2User m virtualAddr charcount.toInt sysBuff) fun m =>
          .returned (m, s, idx)
      else if openFileId = 1 then .returned (m, s, -2)
      else readSlot m s virtualAddr charcount i f junk

/-- `MAX_LENGTH`. -/
def maxLength : Nat := 1000

/-- How many characters `SysWrite` puts on the console. -/
def putConsole (sysBuff : KernelBuf) : Nat := (cString sysBuff maxLength).length

/-- `SysWrite` to the file in slot `i`. -/
def writeSlot (m : Machine n) (s : FileState) (charcount : BitVec 32) (i : Fin numOpenFiles)
    (f : OpenFile) (sysBuff : KernelBuf) : CallOutcome (Machine n × FileState × Int) :=
  ofOption (f.write s.files sysBuff charcount.toInt) fun (f, files, size) =>
    .returned (m, { files := files, fs := s.fs.setFile i (some f) }, size)

/-- `SysWrite`. -/
def sysWrite (m : Machine n) (s : FileState) (virtualAddr charcount openFileId : BitVec 32)
    (junk : KernelBuf) : CallOutcome (Machine n × FileState × Int) :=
  if openFileId.toInt > 9 ∨ openFileId.toInt < 0 then .returned (m, s, -1)
  else atIndex openFileId.toInt fun i =>
    match s.fs.openFiles i with
    | none => .returned (m, s, -4)
    | some f =>
      if s.fs.type i = 1 then .returned (m, s, -2)
      else ofAccess (user2System m virtualAddr (charcount + 1) junk) fun (m, sysBuff) =>
        if openFileId = 1 then .returned (m, s, putConsole sysBuff)
        else if openFileId = 0 then .returned (m, s, -2)
        else writeSlot m s charcount i f sysBuff

/-! ## Seek -/

/-- `SysSeek` on the file in slot `i`. -/
def seekSlot (s : FileState) (pos : BitVec 32) (i : Fin numOpenFiles) (f : OpenFile) :
    CallOutcome (FileState × Int) :=
  ofOption (f.length s.files) fun length =>
    let pos := if pos.toInt = -1 then length else pos.toInt
    if pos > length ∨ pos < 0 then .returned (s, -1)
    else ofOption (f.seek pos) fun f =>
      .returned ({ s with fs := s.fs.setFile i (some f) }, pos)

/-- `SysSeek`. The range check is made against 14, not against the size of the table. -/
def sysSeek (s : FileState) (pos id : BitVec 32) : CallOutcome (FileState × Int) :=
  if id.toInt < 0 ∨ id.toInt > 14 then .returned (s, -1)
  else atIndex id.toInt fun i =>
    match s.fs.openFiles i with
    | none => .returned (s, -1)
    | some f =>
      if id = 0 ∨ id = 1 then .returned (s, -1)
      else seekSlot s pos i f

end Calls

end Nachos
