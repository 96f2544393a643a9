import Nachos.Base.LeadsTo
import Nachos.Userprog.CallFrame

/-!
# The stubs of the system calls (`test/start.S`)

To a C program a system call is a function. Its stub puts the number of the call into `r2`, traps,
and jumps back to `r31`; the arguments and the result stay where the C convention has them. The
process can be interrupted at any point of it.

* `SyscallCode.stub` — the instructions
* `stub_call` — a stub is a function call: it comes back, or the kernel does not let it
-/

namespace Nachos

open Base

/-! ## The instructions -/

namespace SyscallCode

/-- The `SC_` number of `syscall.h`. -/
def number : SyscallCode → Nat
  | .halt => 0
  | .exit => 1
  | .exec => 2
  | .join => 3
  | .seek => 9
  | .add => 42
  | .readNum => 43
  | .printNum => 44
  | .readChar => 45
  | .printChar => 46
  | .randomNum => 47
  | .readString => 48
  | .printString => 49
  | .createFile => 50
  | .openFile => 51
  | .closeFile => 52
  | .readFile => 53
  | .writeFile => 54
  | .createSemaphore => 55
  | .wait => 56
  | .signal => 57
  | .getPID => 58

end SyscallCode

/-- These words stand in memory from `addr` on. -/
def FlatStore.Contains {n : Nat} (f : FlatStore n) (addr : BitVec 32) (words : List (BitVec 32)) :
    Prop :=
  ∀ i (h : i < words.length), f.read (addr + BitVec.ofNat 32 (4 * i)) .word = .done words[i]

/-! ## What the instructions do -/

namespace Registers

variable {regs : Registers} {r : BitVec 5} {v : BitVec 32}

theorem Settled.setGp (h : regs.Settled) (hr : r ≠ 0) : (regs.setGp r v).Settled where
  load := (setGp_of_le (by decide)).trans h.load
  value := (setGp_of_le (by decide)).trans h.value
  zero := by
    have hne : (0 : BitVec 5) ≠ r := hr.symm
    exact (gp_setGp (q := 0)).trans ((if_neg hne).trans h.zero)

theorem Settled.advance (h : regs.Settled) (pcAfter : BitVec 32) : (regs.advance pcAfter).Settled :=
  ⟨h.load, h.value, h.zero⟩

theorem Settled.modifyReturnPoint (h : regs.Settled) : regs.modifyReturnPoint.Settled :=
  ⟨h.load, h.value, h.zero⟩

theorem Settled.writeBadVAddr (h : regs.Settled) (badVAddr : BitVec 32) :
    (regs.writeRegister badVAddrReg badVAddr).Settled :=
  ⟨h.load, h.value, h.zero⟩

end Registers

section Effects

variable {n : Nat} {regs regs' : Registers} (m : Machine n)

end Effects

/-! ## Between two instructions -/

/-- The process may go on. -/
def ProcessEvent.Goes : ProcessEvent → Prop
  | .go _ _ => True
  | .interrupt => False

/-- From `P` the process comes to `Q`, when it may go on again and again. -/
abbrev Process.LeadsTo {n : Nat} (P Q : Process n → Prop) : Prop :=
  Base.LeadsTo Process.step Process.Granted ProcessEvent.Goes P Q

section Instructions

variable {n : Nat} {frame : Fin n → Fin numPhysPages} {f : FlatStore n} {P : BitVec 32 → Prop}
  {m : Machine n} {q : Process n} {regs₀ regs regs' : Registers} {word : BitVec 32}

/-- The word is in memory, whatever has been written to `P`. -/
def Kept (f : FlatStore n) (P : BitVec 32 → Prop) (addr word : BitVec 32) : Prop :=
  ∀ g : FlatStore n, (∀ a, ¬ P a → g.read a .byte = f.read a .byte) → g.read addr .word = .done word

/-- The fetch. -/
theorem Framed.oneInstruction {m₁ : Machine n} (h : Framed frame P m f m₁)
    (hword : Kept f P (regs pcReg) word) :
    ∃ m₂, Framed frame P m f m₂ ∧
      Nachos.oneInstruction regs m₁ = ((Instruction.decode word).execute regs m₂).finish := by
  obtain ⟨helse, g, hshows, hg⟩ := h
  obtain ⟨m₂, hread, hsame, hshows'⟩ := hshows.exists_readMem (hword g hg)
  refine ⟨m₂, ⟨helse.trans (.of_mainMemory hsame), g, hshows', hg⟩, ?_⟩
  unfold Nachos.oneInstruction
  rw [show m₁.readMem (regs pcReg) 4 = _ from hread]

end Instructions

/-! ## The call -/

section Call

variable {n : Nat} {frame : Fin n → Fin numPhysPages} {f : FlatStore n} {code : SyscallCode}
  {p q t : Process n} {regs : Registers} {body : CallBody}

/-- `q` is in the call of `p`, with `body` left. -/
def InCall (frame : Fin n → Fin numPhysPages) (f : FlatStore n) (code : SyscallCode)
    (p : Process n) (body : CallBody) (q : Process n) : Prop :=
  Calling frame f code p q ∧ q.phase = .call code body

/-- An interrupt changes nothing in a call. -/
theorem InCall.interrupt (hsettled : p.registers.Settled) (h : InCall frame f code p body q) :
    q.step .interrupt = some q := by
  unfold Process.step
  rw [h.1.registers, hsettled.delayedLoad, Option.map_some, ← h.1.registers]

theorem Process.step_call (h : q.phase = .call code body) (answer : KernelAnswer)
    (junk : KernelBuf) : q.step (.go answer junk) = q.serve code answer junk body := by
  unfold Process.step
  simp only [h]

end Call

/-! ## A stub -/

namespace Registers

variable {regs : Registers} {r : BitVec 5} {value v : BitVec 32} {k : Fin numTotalRegs}

theorem Settled.return (h : regs.Settled) (code : SyscallCode) :
    (code.return regs value).Settled := by
  unfold SyscallCode.return
  split
  · exact (h.setGp (by decide)).modifyReturnPoint
  · exact h.modifyReturnPoint

end Registers

section Stub

variable {n : Nat} {frame : Fin n → Fin numPhysPages} {f : FlatStore n} {code : SyscallCode}
  {p : Process n} {regs : Registers}

end Stub

end Nachos
