import Nachos.Base.Run
import Nachos.Userprog.Exception

/-!
# The registers over a whole run (`machine/mipssim.cc`, `threads/thread.cc`)

`DelayedLoad` writes to the register whose number is in `LoadReg`, without a look at it. That number
is set by the loads, and it goes through the registers that the threads save: `Scheduler::Run` saves
those of a thread with an address space and gives them back when the thread runs again.

* `UserRegisters.step` — whatever the kernel and the interpreter do with the registers
* `UserRegisters.step_inRange` — each of these keeps `LoadReg` in range
* `run_registers_inRange` — whole runs
-/

namespace Nachos

open Base

/-- `Machine::Machine`. -/
def machineRegisters : Registers := fun _ => 0

/-- The registers of the machine, and those that the threads have saved. -/
structure UserRegisters (ι : Type) where
  registers : Registers
  userRegisters : ι → Option Registers

/--
What happens to the registers. An instruction has any memory and any page table, and an interrupt,
a trap or a context switch can come at any time.
-/
inductive RegisterEvent (ι : Type) where
  | oneInstruction {n : Nat} (m : Machine n)
  | raiseException {n : Nat} (m : Machine n) (which : Trap) (badVAddr : BitVec 32)
  /-- `CheckIfDue` calls `DelayedLoad(0, 0)`. -/
  | delayedLoad
  | saveUserState (t : ι)
  | restoreUserState (t : ι)
  | modifyReturnPoint
  /-- `ExceptionHandler` writes a result. -/
  | writeResult (result : BitVec 32)
  | initRegisters (numPages : Nat)

/-- The registers of an instruction that does not end the kernel. -/
def Instructed.registers? {n : Nat} : Instructed n → Option Registers
  | .finished regs _ | .trapped _ regs _ => some regs
  | .aborted | .hostFault => none

namespace UserRegisters

variable {ι : Type} [DecidableEq ι]

/-- The start of the kernel: no thread has saved anything. -/
def initial (regs : Registers) : UserRegisters ι := ⟨regs, fun _ => none⟩

/-- `none`: the event ends the kernel, or there is nothing to restore. -/
def step (s : UserRegisters ι) : RegisterEvent ι → Option (UserRegisters ι)
  | .oneInstruction m =>
    (Nachos.oneInstruction s.registers m).registers?.map fun regs => { s with registers := regs }
  | .raiseException m which badVAddr =>
    (Nachos.raiseException which badVAddr s.registers m).registers?.map fun regs =>
      { s with registers := regs }
  | .delayedLoad =>
    (s.registers.delayedLoad 0 0).map fun regs => { s with registers := regs }
  | .saveUserState t =>
    some { s with userRegisters := Function.update s.userRegisters t (some s.registers) }
  | .restoreUserState t => (s.userRegisters t).map fun regs => { s with registers := regs }
  | .modifyReturnPoint => some { s with registers := s.registers.modifyReturnPoint }
  | .writeResult result => some { s with registers := s.registers.setGp 2 result }
  | .initRegisters numPages => some { s with registers := .initRegisters numPages }

end UserRegisters

/-- The registers with which an event calls `DelayedLoad`. -/
def RegisterEvent.loads {ι : Type} (regs : Registers) : RegisterEvent ι → List Registers
  | .oneInstruction m =>
    match m.readMem (regs pcReg) 4 with
    | .done (m, raw) =>
      match (Instruction.decode raw).execute regs m with
      | .next regs _ _ _ _ => [regs]
      | .raised _ badVAddr regs _ => [regs.writeRegister badVAddrReg badVAddr]
      | .defaultCase | .aborted | .hostFault => []
    | .raised _ => [regs.writeRegister badVAddrReg (regs pcReg)]
    | .aborted => []
  | .raiseException _ _ badVAddr => [regs.writeRegister badVAddrReg badVAddr]
  | .delayedLoad => [regs]
  | .saveUserState _ | .restoreUserState _ | .modifyReturnPoint | .writeResult _
  | .initRegisters _ => []

/-! ## What is kept -/

/-- `LoadReg` holds the number of a general register. -/
def Registers.LoadInRange (regs : Registers) : Prop :=
  0 ≤ (regs loadReg).toInt ∧ (regs loadReg).toInt ≤ 31

/-- Register 0 holds 0, and `LoadReg` the number of a general register. -/
structure Registers.InRange (regs : Registers) : Prop where
  zero : regs 0 = 0
  load : regs.LoadInRange

/-- The registers of the machine are in range, and so are all that are saved. -/
structure UserRegisters.InRange {ι : Type} (s : UserRegisters ι) : Prop where
  registers : s.registers.InRange
  saved : ∀ t regs, s.userRegisters t = some regs → regs.InRange

/-- `DelayedLoad` finds the register, and it is none of those behind the general ones. -/
def Registers.LoadsGeneral (regs : Registers) : Prop :=
  regs.LoadInRange ∧ ∀ nextReg nextValue, ∃ regs',
    regs.delayedLoad nextReg nextValue = some regs' ∧
      ∀ k : Fin numTotalRegs, 32 ≤ k.val → k ≠ loadReg → k ≠ loadValueReg → regs' k = regs k

namespace Registers

variable {regs : Registers}

theorem loadInRange_iff : regs.LoadInRange ↔ ∃ r : BitVec 5, regs loadReg = r.setWidth 32 := by
  unfold LoadInRange
  constructor
  · rintro ⟨hlo, hhi⟩
    have hlt : (regs loadReg).toNat < 2 ^ 5 := by
      rw [BitVec.toInt_eq_toNat_cond] at hlo hhi
      split at hlo <;> omega
    refine ⟨BitVec.ofNatLT _ hlt, BitVec.eq_of_toNat_eq ?_⟩
    rw [BitVec.toNat_setWidth_of_le (by decide), BitVec.toNat_ofNatLT]
  · rintro ⟨r, hr⟩
    have hlt := r.isLt
    rw [hr, BitVec.toInt_eq_toNat_cond, BitVec.toNat_setWidth_of_le (by decide), if_pos (by omega)]
    omega

theorem inRange_iff_valid : regs.InRange ↔ regs.Valid :=
  ⟨fun h => ⟨loadInRange_iff.mp h.load, h.zero⟩, fun h => ⟨h.zero, loadInRange_iff.mpr h.load⟩⟩

theorem LoadInRange.loadsGeneral (h : regs.LoadInRange) : regs.LoadsGeneral := by
  obtain ⟨r, hr⟩ := loadInRange_iff.mp h
  exact ⟨h, fun nextReg nextValue => ⟨_, delayedLoad_eq hr, fun k => delayed_of_le⟩⟩

theorem LoadInRange.congr {regs' : Registers} (h : regs.LoadInRange)
    (heq : regs' loadReg = regs loadReg) : regs'.LoadInRange := by
  unfold LoadInRange
  rw [heq]
  exact h

theorem LoadInRange.writeRegister (h : regs.LoadInRange) {k : Fin numTotalRegs} (hk : loadReg ≠ k)
    (x : BitVec 32) : (regs.writeRegister k x).LoadInRange :=
  h.congr (Function.update_of_ne hk _ _)

theorem InRange.modifyReturnPoint (h : regs.InRange) : regs.modifyReturnPoint.InRange :=
  ⟨(modifyReturnPoint_gp regs 0).trans h.zero, h.load.congr rfl⟩

theorem InRange.setGp_two (h : regs.InRange) (x : BitVec 32) : (regs.setGp 2 x).InRange := by
  refine ⟨?_, h.load.congr (setGp_of_le (by decide))⟩
  have hgp : (regs.setGp 2 x).gp 0 = _ := gp_setGp
  exact hgp.trans h.zero

theorem inRange_initRegisters (numPages : Nat) : (initRegisters numPages).InRange :=
  inRange_iff_valid.mpr (valid_initRegisters numPages)

theorem inRange_machineRegisters : machineRegisters.InRange := ⟨rfl, by decide, by decide⟩

end Registers

/-! ## One event -/

namespace UserRegisters

variable {ι : Type} {s t : UserRegisters ι}

theorem inRange_initial {regs : Registers} (h : regs.InRange) :
    (initial regs : UserRegisters ι).InRange :=
  ⟨h, nofun⟩

theorem InRange.write (h : s.InRange) {regs : Registers} (hregs : regs.InRange) :
    ({ s with registers := regs } : UserRegisters ι).InRange :=
  ⟨hregs, h.saved⟩

/-- An instruction that finishes, or that traps. -/
theorem inRange_oneInstruction {n : Nat} {m : Machine n} {regs regs' : Registers}
    (h : regs.InRange) (hone : (oneInstruction regs m).registers? = some regs') :
    regs'.InRange := by
  have hvalid := Registers.inRange_iff_valid.mp h
  refine Registers.inRange_iff_valid.mpr ?_
  cases hout : oneInstruction regs m with
  | finished regs₁ m₁ =>
    rw [hout] at hone
    obtain rfl := Option.some.inj hone
    exact valid_of_finished hvalid.load hout
  | trapped which regs₁ m₁ =>
    rw [hout] at hone
    obtain rfl := Option.some.inj hone
    exact (precise_of_trapped hvalid hout).2
  | aborted | hostFault =>
    rw [hout] at hone
    cases hone

theorem inRange_raiseException {n : Nat} {m : Machine n} {regs regs' : Registers}
    (h : regs.InRange) {which : Trap} {badVAddr : BitVec 32}
    (hraise : (raiseException which badVAddr regs m).registers? = some regs') :
    regs'.InRange := by
  obtain ⟨regs₁, heq, -, hvalid⟩ :=
    raiseException_precise (m := m) (Registers.inRange_iff_valid.mp h) rfl which badVAddr
  rw [heq] at hraise
  obtain rfl := Option.some.inj hraise
  exact Registers.inRange_iff_valid.mpr hvalid

/-- Every event keeps the registers in range. -/
theorem step_inRange [DecidableEq ι] (h : s.InRange) {e : RegisterEvent ι}
    (hstep : s.step e = some t) : t.InRange := by
  cases e with
  | oneInstruction m =>
    obtain ⟨regs, hregs, rfl⟩ := Option.map_eq_some_iff.mp hstep
    exact h.write (inRange_oneInstruction h.registers hregs)
  | raiseException m which badVAddr =>
    obtain ⟨regs, hregs, rfl⟩ := Option.map_eq_some_iff.mp hstep
    exact h.write (inRange_raiseException h.registers hregs)
  | delayedLoad =>
    obtain ⟨regs, hregs, rfl⟩ := Option.map_eq_some_iff.mp hstep
    obtain ⟨r, hr⟩ := Registers.loadInRange_iff.mp h.registers.load
    rw [Registers.delayedLoad_eq hr] at hregs
    obtain rfl := Option.some.inj hregs
    exact h.write (Registers.inRange_iff_valid.mpr (Registers.valid_delayed _ r 0 0))
  | saveUserState i =>
    obtain rfl := Option.some.inj hstep
    refine ⟨h.registers, fun j regs hj => ?_⟩
    dsimp only at hj
    rcases eq_or_ne j i with rfl | hne
    · rw [Function.update_self] at hj
      obtain rfl := Option.some.inj hj
      exact h.registers
    · rw [Function.update_of_ne hne] at hj
      exact h.saved j regs hj
  | restoreUserState i =>
    obtain ⟨regs, hregs, rfl⟩ := Option.map_eq_some_iff.mp hstep
    exact h.write (h.saved i regs hregs)
  | modifyReturnPoint =>
    obtain rfl := Option.some.inj hstep
    exact h.write h.registers.modifyReturnPoint
  | writeResult result =>
    obtain rfl := Option.some.inj hstep
    exact h.write (h.registers.setGp_two result)
  | initRegisters numPages =>
    obtain rfl := Option.some.inj hstep
    exact h.write (Registers.inRange_initRegisters numPages)

end UserRegisters

/-- A case of the `switch` has not changed `LoadReg` when it is left. -/
theorem RegisterEvent.loads_inRange {ι : Type} {regs : Registers} (h : regs.InRange)
    (e : RegisterEvent ι) : ∀ regs' ∈ e.loads regs, regs'.LoadInRange := by
  have hraised : ∀ x, (regs.writeRegister badVAddrReg x).LoadInRange :=
    fun x => h.load.writeRegister (by decide) x
  cases e with
  | oneInstruction m =>
    unfold loads
    dsimp only
    split
    next m₁ raw _ =>
      have hchecked := (Instruction.decode raw).execute_checked regs m₁
      cases hexec : (Instruction.decode raw).execute regs m₁ with
      | next regs₁ m₂ pcAfter nextLoadReg nextLoadValue =>
        rw [hexec] at hchecked
        exact List.forall_mem_singleton.mpr (h.load.congr (hchecked loadReg (by decide)))
      | raised which badVAddr regs₁ m₂ =>
        rw [hexec] at hchecked
        obtain ⟨rfl, -⟩ := hchecked
        exact List.forall_mem_singleton.mpr (hraised badVAddr)
      | defaultCase | aborted | hostFault => exact nofun
    next => exact List.forall_mem_singleton.mpr (hraised _)
    next => exact nofun
  | raiseException m which badVAddr => exact List.forall_mem_singleton.mpr (hraised badVAddr)
  | delayedLoad => exact List.forall_mem_singleton.mpr h.load
  | saveUserState t | restoreUserState t | modifyReturnPoint | writeResult result
  | initRegisters numPages => exact nofun

/-! ## Whole runs -/

/-- In the run, the registers stay in range and `DelayedLoad` writes to general registers only. -/
def UserRegisters.RunInRange {ι : Type} [DecidableEq ι] (s : UserRegisters ι)
    (es : List (RegisterEvent ι)) : Prop :=
  AllStates step UserRegisters.InRange s es ∧
    AllSteps step (fun s e => ∀ regs ∈ e.loads s.registers, regs.LoadsGeneral) s es

theorem UserRegisters.InRange.run {ι : Type} [DecidableEq ι] {s : UserRegisters ι} (h : s.InRange)
    (es : List (RegisterEvent ι)) : s.RunInRange es := by
  refine (allStates_and_allSteps_iff (fun s e hs _ => ⟨fun regs hregs => ?_, fun t ht => ?_⟩)
    (fun _ _ _ _ => trivial) h es).mpr (allSteps_of_forall fun _ _ => trivial)
  · exact (e.loads_inRange hs.registers regs hregs).loadsGeneral
  · exact step_inRange hs ht

/--
**The registers stay in range.**

Whatever programs run, and however they are interrupted and switched: register 0 holds 0 and
`LoadReg` the number of a general register, from `Machine::Machine` and from `InitRegisters` on, and
`DelayedLoad` writes to no other.
-/
theorem run_registers_inRange {ι : Type} [DecidableEq ι] (es : List (RegisterEvent ι)) :
    (UserRegisters.initial machineRegisters).RunInRange es ∧
      ∀ numPages, (UserRegisters.initial (.initRegisters numPages)).RunInRange es :=
  ⟨(UserRegisters.inRange_initial Registers.inRange_machineRegisters).run es, fun numPages =>
    (UserRegisters.inRange_initial (Registers.inRange_initRegisters numPages)).run es⟩

end Nachos
