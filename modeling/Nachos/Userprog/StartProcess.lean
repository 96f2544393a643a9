import Nachos.Machine.Registers
import Nachos.Userprog.Addrspace

/-!
# Starting a process (`userprog/progtest.cc`, `userprog/addrspace.cc`, `userprog/exception.cc`)

`StartProcess_2` is what the thread of a new process runs. It makes an address space from the file,
sets the registers and the page table of the machine, and enters `Machine::Run`. The constructor
gives up when the file cannot be opened or when there are not enough clear frames, and the caller
only asks whether the pointer it got is `NULL`, which it never is. What is then in the fields that
the constructor has not set is left open here: it is a parameter (`Junk`).

* `startProcess2` — from the file name to `Machine::Run`
* `effect` — what comes of it, up to the first instruction
* `failed_load_contained_iff` — a failed load stays without consequences exactly when no load fails
-/

namespace Nachos

open Base

/-- The class `AddrSpace`. `none`: `pageTable` is `NULL`. -/
structure AddrSpace where
  numPages : Nat
  pageTable : Option (Fin numPages → TranslationEntry)

/--
What the memory of a new object happens to hold: a number, and a pointer that is `NULL` or has
something behind it.
-/
structure Junk where
  numPages : Nat
  pageTable : Option (Nat → TranslationEntry)

namespace AddrSpace

/-- The fields after the constructor, which has set what its way through the body sets. -/
def fields (junk : Junk) (outcome : LoadOutcome) : AddrSpace :=
  match outcome.status with
  | .notFound => { numPages := junk.numPages, pageTable := junk.pageTable.map fun p i => p i }
  | .refused => { numPages := 0, pageTable := junk.pageTable.map fun p i => p i }
  | .aborted | .loaded =>
    { numPages := outcome.pageTable.length, pageTable := some outcome.pageTable.get }

/-- `AddrSpace::RestoreState`: the page table of the machine. -/
def machine (space : AddrSpace) (mainMemory : Bytes memorySize) : Machine space.numPages where
  mainMemory := mainMemory
  tlb := none
  pageTable := space.pageTable

end AddrSpace

/-- The pointer that `new` answers. Without memory it throws, and does not answer `NULL`. -/
def operatorNew {α : Type} (object : α) : Option α := some object

/-- How far `StartProcess_2` comes. -/
inductive Started where
  /-- It returns, and `Thread::Finish` ends the thread. -/
  | returned
  /-- An assertion has failed in the constructor. -/
  | aborted
  /-- It enters `Machine::Run` with this address space and these registers. -/
  | entered (space : AddrSpace) (regs : Registers)

/-- `StartProcess_2`. -/
def startProcess2 (junk : Junk) (bm : Bitmap) (executable : Option Executable) : Started :=
  let outcome := AddrSpace.ofFile bm executable
  if outcome.status = .aborted then .aborted
  else
    match operatorNew (AddrSpace.fields junk outcome) with
    | none => .returned
    | some space => .entered space (.initRegisters space.numPages)

/-- What comes of a new process. -/
inductive Effect where
  /-- Its thread ends, and nothing else happens. -/
  | terminated
  /-- An assertion has failed and Nachos stops. -/
  | aborted
  /-- The machine is halted. -/
  | halted
  /-- It executes an instruction. -/
  | executes (raw : BitVec 32)

/-- `ExceptionHandler` for the exceptions of a memory access: `SysHalt` in all cases. -/
def exceptionHandler : ExceptionType → Effect
  | .pageFaultException => .halted
  | .readOnlyException => .halted
  | .busErrorException => .halted
  | .addressErrorException => .halted

/-- `Machine::Run` up to the first instruction: `OneInstruction` fetches it with `ReadMem`. -/
def firstInstruction (space : AddrSpace) (regs : Registers) (mainMemory : Bytes memorySize) :
    Effect :=
  match (space.machine mainMemory).readMem (regs pcReg) 4 with
  | .done (_, raw) => .executes raw
  | .raised which => exceptionHandler which
  | .aborted => .aborted

/-- What comes of `StartProcess_2`, with the main memory as it is after the load. -/
def Started.effect (mainMemory : Bytes memorySize) : Started → Effect
  | .returned => .terminated
  | .aborted => .aborted
  | .entered space regs => firstInstruction space regs mainMemory

/-! ## What is expected -/

/-- The constructor gives up: there is no file, or it needs more frames than are clear. -/
def GivesUp (bm : Bitmap) : Option Executable → Prop
  | none => True
  | some exe => exe.header.noffMagic = noffMagic ∧ bm.free.length < exe.header.numPages

/-- The page table has an entry for every page, in the frames that the load has taken. -/
def AddrSpace.Built (space : AddrSpace) (bm : Bitmap) (exe : Executable) : Prop :=
  space.numPages = exe.header.numPages ∧
    ∃ table, space.pageTable = some table ∧ List.ofFn table = entriesFor 0 (takenFrames bm exe)

/--
A process whose load fails does not run: `Machine::Run` is entered only with a page table that the
load has built, and when the constructor gives up the thread just ends, with the bitmap and the main
memory as they were.
-/
structure FailureContained (junk : Junk) (bm : Bitmap) (executable : Option Executable) : Prop where
  complete : ∀ space regs, startProcess2 junk bm executable = .entered space regs →
    ∃ exe, executable = some exe ∧ space.Built bm exe
  contained : GivesUp bm executable → ∀ mainMemory,
    (startProcess2 junk bm executable).effect mainMemory = .terminated ∧
      (AddrSpace.ofFile bm executable).bitmap = bm ∧ (AddrSpace.ofFile bm executable).stores = []

/-! ## What happens -/

section Effects

variable {junk : Junk} {bm : Bitmap} {exe : Executable} {executable : Option Executable}

theorem firstInstruction_ne_terminated (space : AddrSpace) (regs : Registers)
    (mainMemory : Bytes memorySize) : firstInstruction space regs mainMemory ≠ .terminated := by
  unfold firstInstruction
  split
  · simp
  · next which _ => cases which <;> simp [exceptionHandler]
  · simp

/-- The test of the pointer does not stop a process whose load was given up. -/
theorem startProcess2_of_givesUp (junk : Junk) (h : GivesUp bm executable) :
    ∃ space regs, startProcess2 junk bm executable = .entered space regs := by
  have hstatus : (AddrSpace.ofFile bm executable).status ≠ .aborted := by
    cases executable with
    | none => simp [AddrSpace.ofFile, loadProgram, LoadOutcome.nothing]
    | some exe =>
      obtain ⟨hmagic, hlt⟩ := h
      rcases loadExecutable_eq bm hmagic with ⟨-, heq⟩ | ⟨hle, -⟩
      · simp [AddrSpace.ofFile, loadProgram, heq, LoadOutcome.nothing]
      · exact absurd hle (not_le.mpr hlt)
  exact ⟨_, _, if_neg hstatus⟩

/-- A load that is refused ends everything: the first fetch finds a page table of size 0. -/
theorem effect_of_refused (hmagic : exe.header.noffMagic = noffMagic)
    (hlt : bm.free.length < exe.header.numPages) (mainMemory : Bytes memorySize) :
    (startProcess2 junk bm (some exe)).effect mainMemory
      = if junk.pageTable.isSome then .halted else .aborted := by
  rcases loadExecutable_eq bm hmagic with ⟨-, heq⟩ | ⟨hle, -⟩
  · have hs : startProcess2 junk bm (some exe)
        = .entered { numPages := 0, pageTable := junk.pageTable.map fun p i => p i }
          (.initRegisters 0) := by
      simp [startProcess2, AddrSpace.ofFile, loadProgram, heq, LoadOutcome.nothing,
        AddrSpace.fields, operatorNew]
    rw [hs, Started.effect, firstInstruction, Registers.initRegisters_pcReg]
    cases hjunk : junk.pageTable with
    | none => rfl
    | some p => rfl
  · exact absurd hle (not_le.mpr hlt)

/-- Otherwise the page table is complete, or an assertion has failed before. -/
theorem built_of_entered (h : ¬ GivesUp bm executable) {space : AddrSpace} {regs : Registers}
    (hs : startProcess2 junk bm executable = .entered space regs) :
    ∃ exe, executable = some exe ∧ space.Built bm exe := by
  cases executable with
  | none => exact absurd trivial h
  | some exe =>
    refine ⟨exe, rfl, ?_⟩
    have hmagic : exe.header.noffMagic = noffMagic := by
      by_contra hne
      simp [startProcess2, AddrSpace.ofFile, loadProgram, loadExecutable, hne,
        LoadOutcome.nothing] at hs
    rcases loadExecutable_eq bm hmagic with ⟨hlt, -⟩ | ⟨hle, bm', heq, -⟩
    · exact absurd ⟨hmagic, hlt⟩ h
    · -- every page has got a frame, and the copy loops decide whether the process is entered
      have hlen : (takenFrames bm exe).length = exe.header.numPages := by
        rw [takenFrames, List.length_take, min_eq_left hle]
      cases hcopies : (copySegments exe (entriesFor 0 (takenFrames bm exe))).2 with
      | false => simp [startProcess2, AddrSpace.ofFile, loadProgram, heq, hcopies] at hs
      | true =>
        simp only [startProcess2, AddrSpace.ofFile, loadProgram, heq, hcopies, if_true,
          AddrSpace.fields, operatorNew, reduceCtorEq, if_false] at hs
        cases hs
        have htable : (loadExecutable bm exe).pageTable = entriesFor 0 (takenFrames bm exe) := by
          rw [heq]
        refine ⟨?_, _, rfl, ?_⟩
        · show (loadExecutable bm exe).pageTable.length = exe.header.numPages
          rw [htable, length_entriesFor, hlen]
        · rw [List.ofFn_get]
          exact htable

end Effects

/--
The code does what is expected exactly when the constructor does not give up: the file opens, and
if it is a NOFF file, there are enough clear frames.
-/
theorem failed_load_contained_iff (junk : Junk) (bm : Bitmap) (executable : Option Executable) :
    FailureContained junk bm executable ↔ ¬ GivesUp bm executable := by
  constructor
  · intro h hgives
    obtain ⟨space, regs, hs⟩ := startProcess2_of_givesUp junk hgives
    obtain ⟨heffect, -⟩ := h.contained hgives fun _ => 0
    rw [hs] at heffect
    exact firstInstruction_ne_terminated space regs _ heffect
  · intro h
    exact ⟨fun space regs hs => built_of_entered h hs, fun hgives => absurd hgives h⟩

/-- A program with 32768 bytes of uninitialised data. It needs 265 pages. -/
def hugeProgram : Executable where
  bytes := [0xad, 0xdf, 0xba, 0, 0, 0, 0, 0, 52, 0, 0, 0, 4, 0, 0, 0] ++ List.replicate 24 0 ++
    [128, 0, 0, 0, 0, 0, 0, 0, 0, 0x80, 0, 0] ++ [1, 2, 3, 4]
  header_le := by decide

/-- The load of the program is refused, and its first fetch halts the machine for everybody. -/
theorem refused_load_halts :
    ∃ junk mainMemory, ¬ FailureContained junk gPhysPageBitMap (some hugeProgram) ∧
      (startProcess2 junk gPhysPageBitMap (some hugeProgram)).effect mainMemory = .halted := by
  have hmagic : hugeProgram.header.noffMagic = noffMagic := by decide
  have hlt : gPhysPageBitMap.free.length < hugeProgram.header.numPages := by
    rw [free_gPhysPageBitMap, List.length_range]
    decide
  let junk : Junk := { numPages := 0, pageTable := some fun i => newEntry i 0 }
  have hhalted : (startProcess2 junk gPhysPageBitMap (some hugeProgram)).effect (fun _ => 0)
      = .halted := effect_of_refused hmagic hlt _
  refine ⟨junk, fun _ => 0, fun h => ?_, hhalted⟩
  obtain ⟨hterm, -⟩ := h.contained ⟨hmagic, hlt⟩ fun _ => 0
  rw [hhalted] at hterm
  cases hterm

end Nachos
