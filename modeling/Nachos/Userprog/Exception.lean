import Nachos.Machine.LoadDelay

/-!
# System calls (`userprog/exception.cc`)

`ExceptionHandler` takes the number of the call from register 2, calls the function of `ksyscall.h`
that does it, writes the result into register 2 and moves the program counters behind the
`SYSCALL`. What the function does is a parameter here. It reads its arguments from the registers and
writes none: a thread that sleeps in it gets its registers back from `RestoreUserState`.

`ModifyReturnPoint` takes the next instruction to be the one 4 bytes behind the `SYSCALL`. In the
delay slot of a branch that is taken it is not. A number without a case of its own reaches the
`ASSERTNOTREACHED` at the end.

* `Trap.exceptionHandler` — `ExceptionHandler`
* `exceptionHandler_resumes_iff` — when a system call goes on at the next instruction
-/

namespace Nachos

open Base

/-- The functions that do the work, `SysHalt` and `SysAdd` apart. -/
inductive Service where
  | sysReadNum
  | sysPrintNum
  | sysReadChar
  | sysPrintChar
  | sysRandomNum
  | sysReadString
  | sysPrintString
  | sysCreateFile
  | sysOpen
  | sysClose
  | sysRead
  | sysWrite
  | sysExec
  | sysJoin
  | sysExit
  | sysCreateSemaphore
  | user2System
  | sysWait
  | sysSignal
  | sysSeek
  | sysGetPID
deriving DecidableEq

/--
What a service comes to.

`stopped`: it has halted the machine or finished the thread. `crashed`: it has failed an assertion
of its own, or used a pointer it must not use.
-/
inductive Reply (ω : Type) where
  | answered (world : ω) (result : BitVec 32)
  | stopped
  | crashed

def Reply.andThen {ω : Type} (reply : Reply ω) (f : ω → Reply ω) : Reply ω :=
  match reply with
  | .answered world _ => f world
  | .stopped => .stopped
  | .crashed => .crashed

/-- The services, over all that is not in the registers. -/
abbrev Services (ω : Type) := Service → Registers → ω → Reply ω

/-- The `SC_` numbers that have a case. -/
inductive SyscallCode where
  | halt
  | exit
  | exec
  | join
  | seek
  | add
  | readNum
  | printNum
  | readChar
  | printChar
  | randomNum
  | readString
  | printString
  | createFile
  | openFile
  | closeFile
  | readFile
  | writeFile
  | createSemaphore
  | wait
  | signal
  | getPID
deriving DecidableEq

namespace SyscallCode

def ofType (type : BitVec 32) : Option SyscallCode :=
  match type.toNat with
  | 0 => some .halt
  | 1 => some .exit
  | 2 => some .exec
  | 3 => some .join
  | 9 => some .seek
  | 42 => some .add
  | 43 => some .readNum
  | 44 => some .printNum
  | 45 => some .readChar
  | 46 => some .printChar
  | 47 => some .randomNum
  | 48 => some .readString
  | 49 => some .printString
  | 50 => some .createFile
  | 51 => some .openFile
  | 52 => some .closeFile
  | 53 => some .readFile
  | 54 => some .writeFile
  | 55 => some .createSemaphore
  | 56 => some .wait
  | 57 => some .signal
  | 58 => some .getPID
  | _ => none

variable {ω : Type}

/-- What the case calls. `SysHalt` does not return, since `~Kernel` ends with `Exit(0)`. -/
def call (services : Services ω) (regs : Registers) (world : ω) : SyscallCode → Reply ω
  | .halt => .stopped
  | .add => .answered world (regs.gp 4 + regs.gp 5)
  | .readNum => services .sysReadNum regs world
  | .printNum => services .sysPrintNum regs world
  | .readChar => services .sysReadChar regs world
  | .printChar => services .sysPrintChar regs world
  | .randomNum => services .sysRandomNum regs world
  | .readString => services .sysReadString regs world
  | .printString => services .sysPrintString regs world
  | .createFile => services .sysCreateFile regs world
  | .openFile => services .sysOpen regs world
  | .closeFile => services .sysClose regs world
  | .readFile => services .sysRead regs world
  | .writeFile => services .sysWrite regs world
  | .exec => services .sysExec regs world
  | .join => services .sysJoin regs world
  | .exit => services .sysExit regs world
  | .createSemaphore => services .sysCreateSemaphore regs world
  -- The name is copied once for a message before `SysWait` copies it.
  | .wait => (services .user2System regs world).andThen (services .sysWait regs)
  | .signal => services .sysSignal regs world
  | .seek => services .sysSeek regs world
  | .getPID => services .sysGetPID regs world

/-- Does the case write a result into register 2? -/
def hasResult : SyscallCode → Bool
  | .halt | .exit | .printNum | .printChar | .readString | .printString => false
  | _ => true

end SyscallCode

/-- `ModifyReturnPoint`. -/
def Registers.modifyReturnPoint (regs : Registers) : Registers :=
  let regs := regs.writeRegister prevPCReg (regs pcReg)
  let regs := regs.writeRegister pcReg (regs pcReg + 4)
  regs.writeRegister nextPCReg (regs pcReg + 4)

/-- What `ExceptionHandler` comes to. -/
inductive Handled (ω : Type) where
  | returned (regs : Registers) (world : ω)
  /-- The machine is halted, or the thread has finished. -/
  | stopped
  /-- In a service. -/
  | crashed
  /-- `ASSERTNOTREACHED`. -/
  | notReached

section Handler

variable {ω : Type}

/-- The end of a case. -/
def SyscallCode.resume (code : SyscallCode) (regs : Registers) : Reply ω → Handled ω
  | .answered world result =>
    let regs := if code.hasResult then regs.setGp 2 result else regs
    .returned regs.modifyReturnPoint world
  | .stopped => .stopped
  | .crashed => .crashed

/-- `ExceptionHandler`. All exceptions but the system call halt the machine. -/
def Trap.exceptionHandler (services : Services ω) (which : Trap) (regs : Registers) (world : ω) :
    Handled ω :=
  match which with
  | .syscallException =>
    match SyscallCode.ofType (regs.gp 2) with
    | some code => code.resume regs (code.call services regs world)
    | none => .notReached
  | .memory _ | .overflowException | .illegalInstrException => .stopped

/--
The handler stops the machine or the process, or it returns to the instruction that `NextPCReg`
names, with all general registers but register 2 as they were.
-/
def Resumes (regs : Registers) : Handled ω → Prop
  | .returned regs' _ =>
    regs' pcReg = regs nextPCReg ∧ regs' nextPCReg = regs nextPCReg + 4 ∧
      ∀ r, r ≠ 2 → regs'.gp r = regs.gp r
  | .stopped => True
  | .crashed | .notReached => False

theorem modifyReturnPoint_pcReg (regs : Registers) :
    regs.modifyReturnPoint pcReg = regs pcReg + 4 := rfl

theorem modifyReturnPoint_nextPCReg (regs : Registers) :
    regs.modifyReturnPoint nextPCReg = regs pcReg + 4 + 4 := rfl

theorem modifyReturnPoint_gp (regs : Registers) (r : BitVec 5) :
    regs.modifyReturnPoint.gp r = regs.gp r := by
  have hne : ∀ {k : Fin numTotalRegs}, 32 ≤ k.val → gpReg r ≠ k := fun hk => (gpReg_ne hk r).symm
  unfold Registers.modifyReturnPoint Registers.gp Registers.writeRegister
  rw [Function.update_of_ne (hne (by decide)), Function.update_of_ne (hne (by decide)),
    Function.update_of_ne (hne (by decide))]

variable {regs : Registers}

/-- A case that returns puts 4 and 8 bytes behind the `SYSCALL` into the program counters. -/
theorem resumes_answered_iff (code : SyscallCode) (world : ω) (result : BitVec 32) :
    Resumes regs (code.resume regs (.answered world result)) ↔
      regs nextPCReg = regs pcReg + 4 := by
  have hpc : (if code.hasResult then regs.setGp 2 result else regs) pcReg = regs pcReg := by
    split
    · exact Registers.setGp_of_le (by decide)
    · rfl
  have hgp : ∀ r, r ≠ 2 →
      (if code.hasResult then regs.setGp 2 result else regs).gp r = regs.gp r := by
    intro r hr
    split
    · rw [Registers.gp_setGp, if_neg hr]
    · rfl
  unfold SyscallCode.resume Resumes
  dsimp only
  rw [modifyReturnPoint_pcReg, modifyReturnPoint_nextPCReg, hpc]
  constructor
  · rintro ⟨h, _, _⟩
    exact h.symm
  · intro h
    refine ⟨h.symm, by rw [h], fun r hr => ?_⟩
    rw [modifyReturnPoint_gp, hgp r hr]

/--
A system call goes on at the next instruction, or does not go on at all, exactly when its number has
a case and the function behind it stops, or returns to a program whose next instruction is the one
behind the `SYSCALL`.
-/
theorem exceptionHandler_resumes_iff (services : Services ω) (regs : Registers) (world : ω) :
    Resumes regs (Trap.exceptionHandler services .syscallException regs world) ↔
      ∃ code, SyscallCode.ofType (regs.gp 2) = some code ∧
        (code.call services regs world = .stopped ∨
          (∃ world' result, code.call services regs world = .answered world' result) ∧
            regs nextPCReg = regs pcReg + 4) := by
  unfold Trap.exceptionHandler
  dsimp only
  cases htype : SyscallCode.ofType (regs.gp 2) with
  | none => simp [Resumes]
  | some code =>
    simp only [Option.some.injEq, exists_eq_left']
    cases hcall : code.call services regs world with
    | answered world' result =>
      rw [resumes_answered_iff]
      simp
    | stopped => simp [SyscallCode.resume, Resumes]
    | crashed => simp [SyscallCode.resume, Resumes]

/-- `ADDIU r2, r0, 42`, `BEQ r0, r0, 3` and in its delay slot the `SYSCALL` of `Add`. -/
def delaySlotPage : Machine 1 := programPage [0x2402002a, 0x10000003, 0x0000000c]

/-- `ADDIU r2, r0, 4` and a `SYSCALL`: `SC_Create` has no case. -/
def unknownCallPage : Machine 1 := programPage [0x24020004, 0x0000000c]

/-- Services that answer 0. -/
def zeroServices : Services Unit := fun _ _ _ => .answered () 0

/-- The two ways in which a program that has just been started does not get on. -/
theorem delay_slot_not_resumed :
    (∃ regs m, runInstructions [0, 0, 0] (.initRegisters 1) delaySlotPage =
        .trapped .syscallException regs m ∧
      ¬ Resumes regs (Trap.exceptionHandler zeroServices .syscallException regs ())) ∧
    ∃ regs m, runInstructions [0, 0] (.initRegisters 1) unknownCallPage =
        .trapped .syscallException regs m ∧
      Trap.exceptionHandler zeroServices .syscallException regs () = .notReached := by
  refine ⟨⟨_, _, rfl, ?_⟩, ⟨_, _, rfl, rfl⟩⟩
  rintro ⟨h, _⟩
  revert h
  decide

end Handler

end Nachos
