import Nachos.Machine.OneInstruction

/-!
# Exceptions are precise

When `ExceptionHandler` is entered, the machine is as it was before the instruction, except that the
load of the instruction before is finished. Some sixty cases of the `switch` have to see to that:
each must raise its exception before it writes anything. The branches that link write early, but
they raise nothing; `SWL` and `SWR` access memory twice, but the first access only reads.

* `Registers.Valid` — what the interpreter keeps of the registers between two instructions
* `Instruction.execute_checked` — a case that raises an exception has not written yet
* `oneInstruction_precise` — the state in which `ExceptionHandler` is entered
-/

namespace Nachos

open Base

/-- `LoadReg` holds the number of a general register, and register 0 holds 0. -/
structure Registers.Valid (regs : Registers) : Prop where
  load : ∃ r : BitVec 5, regs loadReg = r.setWidth 32
  zero : regs.gp 0 = 0

theorem Registers.valid_initRegisters (numPages : Nat) : (initRegisters numPages).Valid :=
  ⟨⟨0, rfl⟩, rfl⟩

theorem Registers.valid_delayed (regs : Registers) (r nextReg : BitVec 5) (nextValue : BitVec 32) :
    (regs.delayed r (nextReg.setWidth 32) nextValue).Valid :=
  ⟨⟨nextReg, delayed_loadReg⟩, by rw [delayed_gp, if_pos rfl]⟩

/-! ## Memory accesses -/

section Memory

variable {n : Nat} {m m' : Machine n} {addr value : BitVec 32} {size : Nat}

theorem Machine.mainMemory_of_translate {writing : Bool} {pa : PhysAddr size}
    (h : m.translate addr size writing = .done (m', pa)) : m'.mainMemory = m.mainMemory := by
  unfold translate at h
  dsimp only at h
  split at h
  · cases h
  · split at h
    · -- The page table.
      split_ifs at h
      obtain ⟨_, _, heq⟩ := Access.map_eq_done.mp h
      exact congrArg (fun p => p.1.mainMemory) heq.symm
    · -- The TLB.
      split at h
      · cases h
      · obtain ⟨_, _, heq⟩ := Access.map_eq_done.mp h
        exact congrArg (fun p => p.1.mainMemory) heq.symm
    · cases h
    · cases h

/-- `ReadMem` changes the bits of an entry, but no byte. -/
theorem Machine.mainMemory_of_readMem (h : m.readMem addr size = .done (m', value)) :
    m'.mainMemory = m.mainMemory := by
  obtain ⟨⟨m₁, pa⟩, htranslate, heq⟩ := Access.bind_eq_done.mp h
  have hm : m₁.mainMemory = m.mainMemory := mainMemory_of_translate htranslate
  dsimp only at heq
  split at heq
  · cases heq
    exact hm
  · cases heq
    exact hm
  · cases heq
    exact hm
  · cases heq

end Memory

/-! ## The cases of the `switch` -/

/--
A case has written to general registers, `Hi` and `Lo` at most, and to none when it raises an
exception.
-/
def Executed.Checked {n : Nat} (regs : Registers) (m : Machine n) : Executed n → Prop
  | .next regs' _ _ _ _ => ∀ k : Fin numTotalRegs, 34 ≤ k.val → regs' k = regs k
  | .raised _ _ regs' m' => regs' = regs ∧ m'.mainMemory = m.mainMemory
  | .defaultCase | .aborted | .hostFault => True

namespace Executed

variable {n : Nat} (regs : Registers) (m : Machine n) {pc v : BitVec 32} {r : BitVec 5}

theorem checked_setGp (q : BitVec 5) (x : BitVec 32) :
    Checked regs m (.next (regs.setGp q x) m pc r v) :=
  fun _ hk => Registers.setGp_of_le (by omega)

theorem checked_setHiLo (hi lo : BitVec 32) :
    Checked regs m (.next (regs.setHiLo hi lo) m pc r v) :=
  fun _ hk => Registers.setHiLo_of_le hk

theorem checked_writeRegister {k : Fin numTotalRegs} (hk : k.val < 34) (x : BitVec 32) :
    Checked regs m (.next (regs.writeRegister k x) m pc r v) := by
  intro k' hk'
  have hne : k' ≠ k := fun h => absurd hk' (h ▸ Nat.not_le.mpr hk)
  exact Function.update_of_ne hne _ _

theorem checked_load (rt : BitVec 5) (addr : BitVec 32) (size : Nat) (f : BitVec 32 → BitVec 32) :
    Checked regs m (load regs m rt addr size f) := by
  unfold load
  split
  · exact fun _ _ => rfl
  · exact ⟨rfl, rfl⟩
  · trivial

theorem checked_loadAligned (rt : BitVec 5) (addr : BitVec 32) (size : Nat) (mask : BitVec 32)
    (f : BitVec 32 → BitVec 32) : Checked regs m (loadAligned regs m rt addr size mask f) := by
  unfold loadAligned
  split
  · exact ⟨rfl, rfl⟩
  · exact checked_load regs m rt addr size f

theorem checked_store {m₁ : Machine n} (hm : m₁.mainMemory = m.mainMemory) (addr : BitVec 32)
    (size : Nat) (value : BitVec 32) : Checked regs m (store regs m₁ addr size value) := by
  unfold store
  split
  · exact fun _ _ => rfl
  · exact ⟨rfl, hm⟩
  · trivial

/-- When the store of `SWL` or `SWR` faults, only the load has been done. -/
theorem checked_storePart (addr : BitVec 32) (f : BitVec 32 → BitVec 32 → BitVec 32) :
    Checked regs m (storePart regs m addr f) := by
  unfold storePart
  dsimp only
  split
  next hread => exact checked_store regs m (Machine.mainMemory_of_readMem hread) _ _ _
  next => exact ⟨rfl, rfl⟩
  next => trivial

variable {regs m}

theorem checked_ite {c : Prop} [Decidable c] {a b : Executed n} (ha : Checked regs m a)
    (hb : Checked regs m b) : Checked regs m (if c then a else b) := by
  split
  · exact ha
  · exact hb

end Executed

open Executed in
/-- No case writes anything before it raises an exception. -/
theorem Instruction.execute_checked {n : Nat} (instr : Instruction) (regs : Registers)
    (m : Machine n) : Executed.Checked regs m (instr.execute regs m) := by
  obtain ⟨opCode, rs, rt, rd, extra⟩ := instr
  cases opCode with
  | add | addi | sub => exact checked_ite ⟨rfl, rfl⟩ (checked_setGp regs m _ _)
  | div =>
    exact checked_ite (checked_setHiLo regs m _ _)
      (checked_ite trivial (checked_setHiLo regs m _ _))
  | divu => exact checked_ite (checked_setHiLo regs m _ _) (checked_setHiLo regs m _ _)
  | mult | multu => exact checked_setHiLo regs m _ _
  | mthi | mtlo => exact checked_writeRegister regs m (by decide) _
  | lb | lbu | lwl | lwr => exact checked_load regs m _ _ _ _
  | lh | lhu | lw => exact checked_loadAligned regs m _ _ _ _ _
  | sb | sh | sw => exact checked_store regs m rfl _ _ _
  | swl | swr => exact checked_storePart regs m _ _
  | syscall | res | unimp => exact ⟨rfl, rfl⟩
  | rfe | special | bcond => trivial
  | beq | bgez | bgtz | blez | bltz | bne | j | jr => exact fun _ _ => rfl
  | _ => exact checked_setGp regs m _ _

theorem Executed.load_ne_defaultCase {n : Nat} (regs : Registers) (m : Machine n) (rt : BitVec 5)
    (addr : BitVec 32) (size : Nat) (f : BitVec 32 → BitVec 32) :
    load regs m rt addr size f ≠ .defaultCase := by
  unfold load
  split <;> exact nofun

theorem Executed.store_ne_defaultCase {n : Nat} (regs : Registers) (m : Machine n)
    (addr : BitVec 32) (size : Nat) (value : BitVec 32) :
    store regs m addr size value ≠ .defaultCase := by
  unfold store
  split <;> exact nofun

open Executed in
/-- The `switch` reaches its `default` for the operations without a case only. -/
theorem Instruction.execute_ne_defaultCase {n : Nat} {instr : Instruction}
    (h : executable instr.opCode = true) (regs : Registers) (m : Machine n) :
    instr.execute regs m ≠ .defaultCase := by
  obtain ⟨opCode, rs, rt, rd, extra⟩ := instr
  have hite : ∀ {c : Prop} [Decidable c] {a b : Executed n}, a ≠ .defaultCase →
      b ≠ .defaultCase → (if c then a else b) ≠ .defaultCase := by
    intro c _ a b ha hb
    split
    · exact ha
    · exact hb
  cases opCode with
  | add | addi | sub | divu => exact hite nofun nofun
  | div => exact hite nofun (hite nofun nofun)
  | lb | lbu | lwl | lwr => exact load_ne_defaultCase _ _ _ _ _ _
  | lh | lhu | lw => exact hite nofun (load_ne_defaultCase _ _ _ _ _ _)
  | sb | sh | sw => exact store_ne_defaultCase _ _ _ _ _
  | swl | swr =>
    unfold execute storePart
    dsimp only
    split
    · exact store_ne_defaultCase _ _ _ _ _
    · exact nofun
    · exact nofun
  | rfe | special | bcond => cases h
  | _ => exact nofun

/-! ## The state at the entry of `ExceptionHandler` -/

/--
The machine is as before the instruction, with the pending load finished: `regs` and `m` are before
the instruction, `regs'` and `m'` at the entry of `ExceptionHandler`.
-/
structure Precise {n : Nat} (regs : Registers) (m : Machine n) (regs' : Registers)
    (m' : Machine n) : Prop where
  pc : regs' pcReg = regs pcReg
  nextPC : regs' nextPCReg = regs nextPCReg
  prevPC : regs' prevPCReg = regs prevPCReg
  hi : regs' hiReg = regs hiReg
  lo : regs' loReg = regs loReg
  mainMemory : m'.mainMemory = m.mainMemory
  gp : ∀ r, regs'.gp r =
    if r ≠ 0 ∧ regs loadReg = r.setWidth 32 then regs loadValueReg else regs.gp r
  loadReg : regs' loadReg = 0

section Exceptions

variable {n : Nat} {regs regs' : Registers} {m m' : Machine n}

/-- `RaiseException` enters `ExceptionHandler` with a precise state. -/
theorem raiseException_precise (hvalid : regs.Valid) {m₁ : Machine n}
    (hm : m₁.mainMemory = m.mainMemory) (which : Trap) (badVAddr : BitVec 32) :
    ∃ regs', raiseException which badVAddr regs m₁ = .trapped which regs' m₁ ∧
      Precise regs m regs' m₁ ∧ regs'.Valid := by
  obtain ⟨r, hr⟩ := hvalid.load
  have hne : ∀ k : Fin numTotalRegs, k ≠ badVAddrReg →
      regs.writeRegister badVAddrReg badVAddr k = regs k :=
    fun k hk => Function.update_of_ne hk _ _
  have hgp : ∀ q, (regs.writeRegister badVAddrReg badVAddr).gp q = regs.gp q :=
    fun q => hne _ (gpReg_ne (by decide) q).symm
  have hkeep : ∀ k : Fin numTotalRegs, 32 ≤ k.val → k.val < 37 →
      (regs.writeRegister badVAddrReg badVAddr).delayed r 0 0 k = regs k := by
    intro k hk hk'
    have hload : k ≠ loadReg := fun h => absurd hk' (h ▸ by decide)
    have hvalue : k ≠ loadValueReg := fun h => absurd hk' (h ▸ by decide)
    have hbad : k ≠ badVAddrReg := fun h => absurd hk' (h ▸ by decide)
    rw [Registers.delayed_of_le hk hload hvalue, hne k hbad]
  refine ⟨(regs.writeRegister badVAddrReg badVAddr).delayed r 0 0, ?_, ?_, ?_⟩
  · unfold raiseException
    rw [Registers.delayedLoad_eq ((hne loadReg (by decide)).trans hr)]
  · refine ⟨hkeep _ (by decide) (by decide), hkeep _ (by decide) (by decide),
      hkeep _ (by decide) (by decide), hkeep _ (by decide) (by decide),
      hkeep _ (by decide) (by decide), hm, ?_, Registers.delayed_loadReg⟩
    intro q
    rw [Registers.delayed_gp, hgp, hne loadValueReg (by decide), hr]
    by_cases hq : q = 0
    · subst hq
      rw [if_pos rfl, if_neg (fun h => h.1 rfl), hvalid.zero]
    · simp only [hq, if_false, ne_eq, not_false_eq_true, true_and, setWidth_inj, @eq_comm _ q r]
  · exact Registers.valid_delayed _ r 0 0

/-- An instruction that finishes leaves valid registers. -/
theorem valid_of_finished (hload : ∃ r : BitVec 5, regs loadReg = r.setWidth 32)
    (h : oneInstruction regs m = .finished regs' m') : regs'.Valid := by
  unfold oneInstruction at h
  split at h
  next m₁ raw _ =>
    have hchecked := (Instruction.decode raw).execute_checked regs m₁
    cases hexec : (Instruction.decode raw).execute regs m₁ with
    | next regs₁ m₂ pcAfter nextLoadReg nextLoadValue =>
      rw [hexec] at h hchecked
      obtain ⟨r, hr⟩ := hload
      have hr₁ : regs₁ loadReg = r.setWidth 32 := (hchecked loadReg (by decide)).trans hr
      simp only [Executed.finish, Registers.delayedLoad_eq hr₁, Instructed.finished.injEq] at h
      obtain ⟨rfl, _⟩ := h
      refine ⟨⟨nextLoadReg, rfl⟩, ?_⟩
      rw [Registers.advance_gp, Registers.delayed_gp, if_pos rfl]
    | raised which badVAddr regs₁ m₂ =>
      rw [hexec] at h
      simp only [Executed.finish, raiseException] at h
      split at h <;> cases h
    | defaultCase | aborted | hostFault =>
      rw [hexec] at h
      cases h
  next =>
    unfold raiseException at h
    split at h <;> cases h
  next => cases h

/-- An instruction that traps. -/
theorem precise_of_trapped (hvalid : regs.Valid) {which : Trap}
    (h : oneInstruction regs m = .trapped which regs' m') :
    Precise regs m regs' m' ∧ regs'.Valid := by
  have hraise : ∀ {m₁ : Machine n} {cause badVAddr}, m₁.mainMemory = m.mainMemory →
      raiseException cause badVAddr regs m₁ = .trapped which regs' m' →
      Precise regs m regs' m' ∧ regs'.Valid := by
    intro m₁ cause badVAddr hm hraised
    obtain ⟨regs₁, heq, hprecise⟩ := raiseException_precise hvalid hm cause badVAddr
    rw [heq] at hraised
    cases hraised
    exact hprecise
  unfold oneInstruction at h
  split at h
  next m₁ raw hread =>
    have hm : m₁.mainMemory = m.mainMemory := Machine.mainMemory_of_readMem hread
    have hchecked := (Instruction.decode raw).execute_checked regs m₁
    cases hexec : (Instruction.decode raw).execute regs m₁ with
    | next regs₁ m₂ pcAfter nextLoadReg nextLoadValue =>
      rw [hexec] at h
      simp only [Executed.finish] at h
      split at h <;> cases h
    | raised cause badVAddr regs₁ m₂ =>
      rw [hexec] at h hchecked
      obtain ⟨rfl, hm₂⟩ := hchecked
      exact hraise (hm₂.trans hm) h
    | defaultCase | aborted | hostFault =>
      rw [hexec] at h
      cases h
  next => exact hraise rfl h
  next => cases h

/--
Whenever an instruction ends in `ExceptionHandler`, the program counters, `Hi`, `Lo` and main memory
are as before it, the general registers are so up to the load that was pending, and no load is
pending any more. The `default` of the `switch` is not reached by any word.
-/
theorem oneInstruction_precise (hvalid : regs.Valid) :
    (∀ which regs' m', oneInstruction regs m = .trapped which regs' m' →
      Precise regs m regs' m' ∧ regs'.Valid) ∧
    ∀ word : BitVec 32, (Instruction.decode word).execute regs m ≠ .defaultCase :=
  ⟨fun _ _ _ h => precise_of_trapped hvalid h, fun word =>
    Instruction.execute_ne_defaultCase (Instruction.executable_decode word) regs m⟩

end Exceptions

/-- One page that begins with these words. -/
def programPage (words : List (BitVec 32)) : Machine 1 where
  mainMemory := fun i => byteOf (words.getD (i.val / 4) 0) (i.val % 4)
  tlb := none
  pageTable := some fun _ =>
    { virtualPage := 0
      physicalPage := 0
      valid := true
      readOnly := false
      use := false
      dirty := false }

/-- A `SYSCALL`. -/
def syscallPage : Machine 1 := programPage [0x0000000c]

/-- Register 2 waits for the 7 that was loaded by the instruction before. -/
def pendingSeven : Registers :=
  ((Registers.initRegisters 1).writeRegister loadReg 2).writeRegister loadValueReg 7

theorem oneInstruction_precise_syscall :
    ∃ regs' m', oneInstruction pendingSeven syscallPage = .trapped .syscallException regs' m' ∧
      Precise pendingSeven syscallPage regs' m' ∧ regs'.gp 2 = 7 := by
  have hvalid : pendingSeven.Valid := ⟨⟨2, rfl⟩, rfl⟩
  refine ⟨_, _, rfl, ((oneInstruction_precise hvalid).1 _ _ _ rfl).1, rfl⟩

end Nachos
