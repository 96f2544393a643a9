import Nachos.Machine.PreciseExceptions

/-!
# Interrupts and the load delay (`machine/mipssim.cc`, `machine/interrupt.cc`)

The value that a load reads arrives after the next instruction, unless an interrupt comes in
between: `CheckIfDue` calls `DelayedLoad(0, 0)` before it calls the handlers. A program sees the
difference when an instruction right behind a load reads the target of the load, or writes it. One
that does neither cannot tell where it was interrupted.

The run with the interrupts is ahead of the one without them by at most one load, and `Ahead` says
by which. An instruction of a program without hazards keeps the two together, case by case of the
`switch`.

* `Instruction.reads`, `Instruction.writes` — the general registers that an instruction uses
* `Ahead` — the registers of the two runs
* `Instruction.execute_ahead` — what an instruction does in both
* `runInstructions_interrupted` — whole runs
-/

namespace Nachos

open Base

/-! ## Hazards -/

namespace Instruction

variable {n : Nat}

/--
The general registers that the instruction reads, other than the one that `LWL` and `LWR` merge
into. A division by zero reads the divisor only; `SWL` and `SWR` read `rt` when they have got the
word from memory.
-/
def reads (instr : Instruction) (regs : Registers) (m : Machine n) : List (BitVec 5) :=
  match instr.opCode with
  | .add | .addu | .and | .beq | .bne | .divu | .mult | .multu | .nor | .or | .sb | .sh | .sllv
  | .slt | .sltu | .srav | .srlv | .sub | .subu | .sw | .xor => [instr.rs, instr.rt]
  | .addi | .addiu | .andi | .bgez | .bgezal | .bgtz | .blez | .bltz | .bltzal | .jalr | .jr
  | .lb | .lbu | .lh | .lhu | .lw | .lwl | .lwr | .mthi | .mtlo | .ori | .slti | .sltiu
  | .xori => [instr.rs]
  | .sll | .sra | .srl => [instr.rt]
  | .div => if regs.gp instr.rt = 0 then [instr.rt] else [instr.rt, instr.rs]
  | .swl | .swr =>
    match m.readMem (instr.address regs - (instr.address regs &&& 0x3)) 4 with
    | .done _ => [instr.rs, instr.rt]
    | _ => [instr.rs]
  | .j | .jal | .lui | .mfhi | .mflo | .syscall | .res | .unimp | .rfe | .special | .bcond => []

/-- The general register that an instruction other than a load is for. -/
def target (instr : Instruction) : Option (BitVec 5) :=
  match instr.opCode with
  | .add | .addu | .and | .jalr | .mfhi | .mflo | .nor | .or | .sll | .sllv | .slt | .sltu | .sra
  | .srav | .srl | .srlv | .sub | .subu | .xor => some instr.rd
  | .addi | .addiu | .andi | .lui | .ori | .slti | .sltiu | .xori => some instr.rt
  | .bgezal | .bltzal | .jal => some 31
  | _ => none

/-- The general register that the instruction writes, other than by a load. -/
def writes (instr : Instruction) (regs : Registers) (m : Machine n) : Option (BitVec 5) :=
  match instr.execute regs m with
  | .next .. => instr.target
  | _ => none

/-- The instruction leaves the target of the pending load alone. -/
def NoHazard (instr : Instruction) (regs : Registers) (m : Machine n) : Prop :=
  ∀ r : BitVec 5, r ≠ 0 → regs loadReg = r.setWidth 32 →
    r ∉ instr.reads regs m ∧ instr.writes regs m ≠ some r

end Instruction

/-- The instruction at the program counter, if it can be fetched, is without hazard. -/
def NextNoHazard {n : Nat} (regs : Registers) (m : Machine n) : Prop :=
  match m.readMem (regs pcReg) 4 with
  | .done (m, raw) => (Instruction.decode raw).NoHazard regs m
  | _ => True

/-- No hazard in the next `k` instructions of a run without interrupts. -/
def HazardFree {n : Nat} : Nat → Registers → Machine n → Prop
  | 0, _, _ => True
  | k + 1, regs, m =>
    NextNoHazard regs m ∧
    match oneInstruction regs m with
    | .finished regs m => HazardFree k regs m
    | _ => True

/-! ## Runs -/

/-- `k` times the `DelayedLoad(0, 0)` of `CheckIfDue`. -/
def Registers.interrupted : Nat → Registers → Option Registers
  | 0, regs => some regs
  | k + 1, regs => (regs.delayedLoad 0 0).bind (interrupted k)

/-- What comes after an instruction that finishes. -/
def Instructed.andThen {n : Nat} (out : Instructed n)
    (f : Registers → Machine n → Instructed n) : Instructed n :=
  match out with
  | .finished regs m => f regs m
  | out => out

/--
As many instructions as the list is long, up to the first that traps. The numbers say how often
`DelayedLoad(0, 0)` comes in between, behind each instruction.
-/
def runInstructions {n : Nat} : List Nat → Registers → Machine n → Instructed n
  | [], regs, m => .finished regs m
  | k :: ks, regs, m => (oneInstruction regs m).andThen fun regs m =>
    match regs.interrupted k with
    | none => .aborted
    | some regs => runInstructions ks regs m

/-- The last pending load is finished. -/
def Instructed.settled {n : Nat} : Instructed n → Instructed n
  | .finished regs m =>
    match regs.delayedLoad 0 0 with
    | none => .aborted
    | some regs => .finished regs m
  | out => out

/-! ## One run ahead of the other -/

/--
The load of `r` that is pending in `regs` has been done in `regs'`, and nothing else is different.
With `r = 0` no load is pending in either.
-/
structure Ahead (r : BitVec 5) (regs regs' : Registers) : Prop where
  pending : regs loadReg = r.setWidth 32
  done : regs' loadReg = 0
  value : r ≠ 0 → regs'.gp r = regs loadValueReg
  gp : ∀ q, q ≠ r ∨ r = 0 → regs'.gp q = regs.gp q
  rest : ∀ k : Fin numTotalRegs, 32 ≤ k.val → k ≠ loadReg → k ≠ loadValueReg → regs' k = regs k

namespace Ahead

variable {r q : BitVec 5} {regs regs' : Registers} {x nextReg nextValue nextValue' : BitVec 32}

theorem setGp (h : Ahead r regs regs') (hq : r ≠ 0 → r ≠ q) (x : BitVec 32) :
    Ahead r (regs.setGp q x) (regs'.setGp q x) where
  pending := (Registers.setGp_of_le (by decide)).trans h.pending
  done := (Registers.setGp_of_le (by decide)).trans h.done
  value := by
    intro hr
    rw [Registers.gp_setGp, if_neg (hq hr), h.value hr, Registers.setGp_of_le (by decide)]
  gp := by
    intro p hp
    rw [Registers.gp_setGp, Registers.gp_setGp]
    split
    · rfl
    · exact h.gp p hp
  rest := by
    intro k hk hload hvalue
    rw [Registers.setGp_of_le hk, Registers.setGp_of_le hk, h.rest k hk hload hvalue]

theorem writeRegister (h : Ahead r regs regs') {k : Fin numTotalRegs} (hk : 32 ≤ k.val)
    (hload : loadReg ≠ k) (hvalue : loadValueReg ≠ k) (x : BitVec 32) :
    Ahead r (regs.writeRegister k x) (regs'.writeRegister k x) where
  pending := (Function.update_of_ne hload _ _).trans h.pending
  done := (Function.update_of_ne hload _ _).trans h.done
  value := by
    intro hr
    have hne : gpReg r ≠ k := (gpReg_ne hk r).symm
    have hgp : (regs'.writeRegister k x).gp r = regs'.gp r := Function.update_of_ne hne _ _
    rw [hgp, h.value hr]
    exact (Function.update_of_ne hvalue _ _).symm
  gp := by
    intro p hp
    have hne : gpReg p ≠ k := (gpReg_ne hk p).symm
    have hgp : ∀ regs : Registers, (regs.writeRegister k x).gp p = regs.gp p :=
      fun _ => Function.update_of_ne hne _ _
    rw [hgp, hgp, h.gp p hp]
  rest := by
    intro l hl hload' hvalue'
    unfold Registers.writeRegister
    rw [Function.update_apply, Function.update_apply, h.rest l hl hload' hvalue']

theorem pc (h : Ahead r regs regs') : regs' pcReg = regs pcReg :=
  h.rest _ (by decide) (by decide) (by decide)

theorem nextPC (h : Ahead r regs regs') : regs' nextPCReg = regs nextPCReg :=
  h.rest _ (by decide) (by decide) (by decide)

theorem writeBadVAddr (h : Ahead r regs regs') (x : BitVec 32) :
    Ahead r (regs.writeRegister badVAddrReg x) (regs'.writeRegister badVAddrReg x) :=
  h.writeRegister (by decide) (by decide) (by decide) x

theorem setHiLo (h : Ahead r regs regs') (hi lo : BitVec 32) :
    Ahead r (regs.setHiLo hi lo) (regs'.setHiLo hi lo) :=
  (h.writeRegister (by decide) (by decide) (by decide) lo).writeRegister (by decide) (by decide)
    (by decide) hi

theorem advance (h : Ahead r regs regs') (pcAfter : BitVec 32) :
    Ahead r (regs.advance pcAfter) (regs'.advance pcAfter) := by
  have hprev := h.writeRegister (k := prevPCReg) (by decide) (by decide) (by decide) (regs pcReg)
  have hpc := hprev.writeRegister (k := pcReg) (by decide) (by decide) (by decide) (regs nextPCReg)
  have hnext := hpc.writeRegister (k := nextPCReg) (by decide) (by decide) (by decide) pcAfter
  rw [Registers.advance_eq, Registers.advance_eq, h.pc, h.nextPC]
  exact hnext

/-- What the instruction does not read is what the two runs may differ in. -/
theorem gp_eq (h : Ahead r regs regs') {l : List (BitVec 5)} (hl : r ≠ 0 → r ∉ l) (hq : q ∈ l) :
    regs'.gp q = regs.gp q := by
  by_cases hr : r = 0
  · exact h.gp q (.inr hr)
  · exact h.gp q (.inl fun heq => hl hr (heq ▸ hq))

/-- `DelayedLoad` in both runs brings them together again. -/
theorem delayed (h : Ahead r regs regs') {k : Fin numTotalRegs} (hk : k ≠ loadValueReg) :
    regs'.delayed 0 nextReg nextValue' k = regs.delayed r nextReg nextValue k := by
  rcases gpReg_or_le k with ⟨q, rfl⟩ | hle
  · have hgp : (regs'.delayed 0 nextReg nextValue').gp q =
        (regs.delayed r nextReg nextValue).gp q := by
      rw [Registers.delayed_gp, Registers.delayed_gp]
      by_cases hq : q = 0
      · rw [if_pos hq, if_pos hq]
      · rw [if_neg hq, if_neg hq, if_neg hq]
        by_cases hqr : q = r
        · subst hqr
          rw [if_pos rfl, h.value hq]
        · rw [if_neg hqr, h.gp q (.inl hqr)]
    exact hgp
  · by_cases hload : k = loadReg
    · rw [hload, Registers.delayed_loadReg, Registers.delayed_loadReg]
    · rw [Registers.delayed_of_le hle hload hk, Registers.delayed_of_le hle hload hk,
        h.rest k hle hload hk]

/-- With the same load behind it, the runs are the same. -/
theorem delayed_eq (h : Ahead r regs regs') (nextReg nextValue : BitVec 32) :
    regs'.delayed 0 nextReg nextValue = regs.delayed r nextReg nextValue := by
  funext k
  by_cases hk : k = loadValueReg
  · rw [hk, Registers.delayed_loadValueReg, Registers.delayed_loadValueReg]
  · exact h.delayed hk

theorem delayedLoad_eq (h : Ahead r regs regs') (nextReg nextValue : BitVec 32) :
    regs'.delayedLoad nextReg nextValue = regs.delayedLoad nextReg nextValue := by
  rw [Registers.delayedLoad_eq h.pending, Registers.delayedLoad_eq (r := 0) h.done, h.delayed_eq]

end Ahead

/-! ## One instruction in both runs -/

/-- The two runs come to the same, up to a load that is not for a register. -/
def Executed.Together {n : Nat} (r : BitVec 5) : Executed n → Executed n → Prop
  | .next regs m pcAfter nextLoadReg nextLoadValue,
      .next regs' m' pcAfter' nextLoadReg' nextLoadValue' =>
    Ahead r regs regs' ∧ m' = m ∧ pcAfter' = pcAfter ∧ nextLoadReg' = nextLoadReg ∧
      (nextLoadReg ≠ 0 → nextLoadValue' = nextLoadValue)
  | .raised which badVAddr regs m, .raised which' badVAddr' regs' m' =>
    Ahead r regs regs' ∧ which' = which ∧ badVAddr' = badVAddr ∧ m' = m
  | .defaultCase, .defaultCase | .aborted, .aborted | .hostFault, .hostFault => True
  | _, _ => False

namespace Executed

variable {n : Nat} {r : BitVec 5} {regs regs' : Registers}

theorem together_load (h : Ahead r regs regs') (m : Machine n) (rt : BitVec 5) (addr : BitVec 32)
    (size : Nat) {f f' : BitVec 32 → BitVec 32} (hf : rt ≠ 0 → f' = f) :
    Together r (load regs m rt addr size f) (load regs' m rt addr size f') := by
  have hpc : regs' nextPCReg = regs nextPCReg := h.nextPC
  unfold load
  cases m.readMem addr size with
  | done p => exact ⟨h, rfl, by rw [hpc], rfl, fun hrt => by rw [hf hrt]⟩
  | raised e => exact ⟨h, rfl, rfl, rfl⟩
  | aborted => trivial

theorem together_loadAligned (h : Ahead r regs regs') (m : Machine n) (rt : BitVec 5)
    (addr : BitVec 32) (size : Nat) (mask : BitVec 32) (f : BitVec 32 → BitVec 32) :
    Together r (loadAligned regs m rt addr size mask f)
      (loadAligned regs' m rt addr size mask f) := by
  unfold loadAligned
  split
  · exact ⟨h, rfl, rfl, rfl⟩
  · exact together_load h m rt addr size fun _ => rfl

theorem together_store (h : Ahead r regs regs') (m : Machine n) (addr : BitVec 32) (size : Nat)
    (value : BitVec 32) :
    Together r (store regs m addr size value) (store regs' m addr size value) := by
  have hpc : regs' nextPCReg = regs nextPCReg := h.nextPC
  unfold store
  cases m.writeMem addr size value with
  | done p => exact ⟨h, rfl, by rw [hpc], rfl, fun _ => rfl⟩
  | raised e => exact ⟨h, rfl, rfl, rfl⟩
  | aborted => trivial

/-- The new word need only be the same when there is an old one. -/
theorem together_storePart (h : Ahead r regs regs') (m : Machine n) (addr : BitVec 32)
    {f f' : BitVec 32 → BitVec 32 → BitVec 32}
    (hf : ∀ p, m.readMem (addr - (addr &&& 0x3)) 4 = .done p → f' = f) :
    Together r (storePart regs m addr f) (storePart regs' m addr f') := by
  unfold storePart
  dsimp only
  cases hread : m.readMem (addr - (addr &&& 0x3)) 4 with
  | done p =>
    rw [hf p hread]
    exact together_store h p.1 _ _ _
  | raised e => exact ⟨h, rfl, rfl, rfl⟩
  | aborted => trivial

theorem together_ite {c : Prop} [Decidable c] {a b a' b' : Executed n} (ha : c → Together r a a')
    (hb : ¬c → Together r b b') : Together r (if c then a else b) (if c then a' else b') := by
  split
  next hc => exact ha hc
  next hc => exact hb hc

end Executed

namespace Instruction

open Executed

variable {n : Nat} {r : BitVec 5} {regs regs' : Registers} {m : Machine n} {instr : Instruction}

/-- `LWL` and `LWR` take the value of the pending load, or find it in the register. -/
theorem merged_eq (h : Ahead r regs regs') (hrt : instr.rt ≠ 0) :
    instr.merged regs' = instr.merged regs := by
  have hzero : ¬ (0 : BitVec 32) = instr.rt.setWidth 32 := fun h0 =>
    hrt (setWidth_inj.mp (h0.symm.trans rfl : instr.rt.setWidth 32 = (0 : BitVec 5).setWidth 32))
  unfold merged
  rw [h.done, h.pending, if_neg hzero]
  by_cases hr : r = instr.rt
  · subst hr
    rw [if_pos rfl, h.value hrt]
  · rw [if_neg (mt setWidth_inj.mp hr), h.gp _ (.inl (Ne.symm hr))]

/-- Every case does the same in both runs. -/
theorem execute_ahead (h : Ahead r regs regs') (hread : r ≠ 0 → r ∉ instr.reads regs m)
    (hwrite : r ≠ 0 → instr.writes regs m ≠ some r) :
    Together r (instr.execute regs m) (instr.execute regs' m) := by
  obtain ⟨opCode, rs, rt, rd, extra⟩ := instr
  have hpc : regs' nextPCReg = regs nextPCReg := h.nextPC
  have hhi : regs' hiReg = regs hiReg := h.rest _ (by decide) (by decide) (by decide)
  have hlo : regs' loReg = regs loReg := h.rest _ (by decide) (by decide) (by decide)
  have hne : ∀ {q : BitVec 5}, (r ≠ 0 → some q ≠ some r) → r ≠ 0 → r ≠ q :=
    fun hq hr heq => hq hr (heq ▸ rfl)
  cases opCode with
  | addu | and | nor | or | sllv | slt | sltu | srav | srlv | subu | xor =>
    have hrs := h.gp_eq hread List.mem_cons_self
    have hrt := h.gp_eq hread (List.mem_cons_of_mem _ List.mem_cons_self)
    simp only [execute, hrs, hrt, hpc]
    exact ⟨h.setGp (hne hwrite) _, rfl, rfl, rfl, fun _ => rfl⟩
  | addiu | andi | ori | slti | sltiu | xori =>
    have hrs := h.gp_eq hread List.mem_cons_self
    simp only [execute, hrs, hpc]
    exact ⟨h.setGp (hne hwrite) _, rfl, rfl, rfl, fun _ => rfl⟩
  | sll | sra | srl =>
    have hrt := h.gp_eq hread List.mem_cons_self
    simp only [execute, hrt, hpc]
    exact ⟨h.setGp (hne hwrite) _, rfl, rfl, rfl, fun _ => rfl⟩
  | lui | mfhi | mflo =>
    simp only [execute, hpc, hhi, hlo]
    exact ⟨h.setGp (hne hwrite) _, rfl, rfl, rfl, fun _ => rfl⟩
  | add | sub =>
    have hrs := h.gp_eq hread List.mem_cons_self
    have hrt := h.gp_eq hread (List.mem_cons_of_mem _ List.mem_cons_self)
    simp only [execute, hrs, hrt, hpc]
    refine together_ite (fun _ => ⟨h, rfl, rfl, rfl⟩) fun hc => ?_
    simp only [writes, execute, if_neg hc] at hwrite
    exact ⟨h.setGp (hne hwrite) _, rfl, rfl, rfl, fun _ => rfl⟩
  | addi =>
    have hrs := h.gp_eq hread List.mem_cons_self
    simp only [execute, hrs, hpc]
    refine together_ite (fun _ => ⟨h, rfl, rfl, rfl⟩) fun hc => ?_
    simp only [writes, execute, if_neg hc] at hwrite
    exact ⟨h.setGp (hne hwrite) _, rfl, rfl, rfl, fun _ => rfl⟩
  | beq | bne =>
    have hrs := h.gp_eq hread List.mem_cons_self
    have hrt := h.gp_eq hread (List.mem_cons_of_mem _ List.mem_cons_self)
    simp only [execute, branchTo, hrs, hrt, hpc]
    exact ⟨h, rfl, rfl, rfl, fun _ => rfl⟩
  | bgez | bgtz | blez | bltz | jr =>
    have hrs := h.gp_eq hread List.mem_cons_self
    simp only [execute, branchTo, hrs, hpc]
    exact ⟨h, rfl, rfl, rfl, fun _ => rfl⟩
  | j =>
    simp only [execute, hpc]
    exact ⟨h, rfl, rfl, rfl, fun _ => rfl⟩
  | jal =>
    simp only [execute, hpc]
    exact ⟨h.setGp (hne hwrite) _, rfl, rfl, rfl, fun _ => rfl⟩
  | bgezal | bltzal | jalr =>
    -- The operand is read after the link has been written.
    have hrs := h.gp_eq hread List.mem_cons_self
    have hnext : ∀ (q : BitVec 5) (regs : Registers) (x : BitVec 32),
        regs.setGp q x nextPCReg = regs nextPCReg :=
      fun _ _ _ => Registers.setGp_of_le (by decide)
    simp only [execute, branchTo, hnext, Registers.gp_setGp, hrs, hpc]
    exact ⟨h.setGp (hne hwrite) _, rfl, rfl, rfl, fun _ => rfl⟩
  | mult | multu =>
    have hrs := h.gp_eq hread List.mem_cons_self
    have hrt := h.gp_eq hread (List.mem_cons_of_mem _ List.mem_cons_self)
    simp only [execute, hrs, hrt, hpc]
    exact ⟨h.setHiLo _ _, rfl, rfl, rfl, fun _ => rfl⟩
  | mthi | mtlo =>
    have hrs := h.gp_eq hread List.mem_cons_self
    simp only [execute, hrs, hpc]
    exact ⟨h.writeRegister (by decide) (by decide) (by decide) _, rfl, rfl, rfl, fun _ => rfl⟩
  | divu =>
    have hrs := h.gp_eq hread List.mem_cons_self
    have hrt := h.gp_eq hread (List.mem_cons_of_mem _ List.mem_cons_self)
    simp only [execute, hrs, hrt, hpc]
    exact together_ite (fun _ => ⟨h.setHiLo _ _, rfl, rfl, rfl, fun _ => rfl⟩)
      fun _ => ⟨h.setHiLo _ _, rfl, rfl, rfl, fun _ => rfl⟩
  | div =>
    have hrt : regs'.gp rt = regs.gp rt := by
      simp only [reads] at hread
      split at hread
      · exact h.gp_eq hread List.mem_cons_self
      · exact h.gp_eq hread List.mem_cons_self
    simp only [execute, hrt, hpc]
    refine together_ite (fun _ => ⟨h.setHiLo _ _, rfl, rfl, rfl, fun _ => rfl⟩) fun hzero => ?_
    have hrs : regs'.gp rs = regs.gp rs := by
      simp only [reads, if_neg hzero] at hread
      exact h.gp_eq hread (List.mem_cons_of_mem _ List.mem_cons_self)
    rw [hrs]
    exact together_ite (fun _ => trivial) fun _ => ⟨h.setHiLo _ _, rfl, rfl, rfl, fun _ => rfl⟩
  | lb | lbu =>
    have hrs := h.gp_eq hread List.mem_cons_self
    simp only [execute, address, hrs]
    exact together_load h m _ _ _ fun _ => rfl
  | lh | lhu | lw =>
    have hrs := h.gp_eq hread List.mem_cons_self
    simp only [execute, address, hrs]
    exact together_loadAligned h m _ _ _ _ _
  | lwl | lwr =>
    have hrs := h.gp_eq hread List.mem_cons_self
    simp only [execute, address, hrs]
    exact together_load h m _ _ _ fun hrt => by rw [merged_eq h hrt]
  | sb | sh | sw =>
    have hrs := h.gp_eq hread List.mem_cons_self
    have hrt := h.gp_eq hread (List.mem_cons_of_mem _ List.mem_cons_self)
    simp only [execute, address, hrs, hrt]
    exact together_store h m _ _ _
  | swl | swr =>
    have hrs : regs'.gp rs = regs.gp rs := by
      simp only [reads] at hread
      split at hread
      · exact h.gp_eq hread List.mem_cons_self
      · exact h.gp_eq hread List.mem_cons_self
    simp only [execute, address, hrs]
    refine together_storePart h m _ fun p hp => ?_
    have hrt : regs'.gp rt = regs.gp rt := by
      simp only [reads, address, hp] at hread
      exact h.gp_eq hread (List.mem_cons_of_mem _ List.mem_cons_self)
    rw [hrt]
  | syscall | res | unimp => exact ⟨h, rfl, rfl, rfl⟩
  | rfe | special | bcond => trivial

end Instruction

/-! ## Whole runs -/

/-- The run with interrupts is where the other one is, or ahead of it. -/
def Behind (regs regs' : Registers) : Prop := regs' = regs ∨ ∃ r, Ahead r regs regs'

/-- The outcomes are the same, up to the registers of an instruction that finishes. -/
def Instructed.Together {n : Nat} (out out' : Instructed n) : Prop :=
  out' = out ∨ ∃ regs regs' m, out = .finished regs m ∧ out' = .finished regs' m ∧
    Behind regs regs'

section Runs

variable {n : Nat} {r : BitVec 5} {regs regs' : Registers} {m : Machine n}

/-- No load is pending in either run after an instruction that is none. -/
theorem Ahead.delayed_ahead (h : Ahead r regs regs') (v v' : BitVec 32) :
    Ahead 0 (regs.delayed r 0 v) (regs'.delayed 0 0 v') where
  pending := rfl
  done := rfl
  value hr := absurd rfl hr
  gp _ _ := h.delayed (gpReg_ne (by decide) _).symm
  rest _ _ _ hvalue := h.delayed hvalue

theorem Executed.Together.finish {out out' : Executed n} (h : Executed.Together r out out') :
    Instructed.Together out.finish out'.finish := by
  cases out with
  | next regs m pcAfter nextLoadReg nextLoadValue =>
    cases out' with
    | next regs' m' pcAfter' nextLoadReg' nextLoadValue' =>
      obtain ⟨hahead, rfl, rfl, rfl, hvalue⟩ := h
      simp only [Executed.finish, Registers.delayedLoad_eq hahead.pending,
        Registers.delayedLoad_eq (r := 0) hahead.done]
      refine .inr ⟨_, _, _, rfl, rfl, ?_⟩
      by_cases hzero : nextLoadReg' = 0
      · subst hzero
        exact .inr ⟨0, (hahead.delayed_ahead _ _).advance _⟩
      · rw [hvalue hzero, hahead.delayed_eq]
        exact .inl rfl
    | _ => exact absurd h id
  | raised which badVAddr regs m =>
    cases out' with
    | raised which' badVAddr' regs' m' =>
      obtain ⟨hahead, rfl, rfl, rfl⟩ := h
      left
      unfold Executed.finish raiseException
      dsimp only
      rw [(hahead.writeBadVAddr badVAddr').delayedLoad_eq]
    | _ => exact absurd h id
  | defaultCase | aborted | hostFault =>
    cases out' with
    | defaultCase | aborted | hostFault => first | exact .inl rfl | exact absurd h id
    | _ => exact absurd h id

/-- One instruction without a hazard, in both runs. -/
theorem oneInstruction_ahead (h : Ahead r regs regs') (hfree : NextNoHazard regs m) :
    Instructed.Together (oneInstruction regs m) (oneInstruction regs' m) := by
  unfold oneInstruction
  unfold NextNoHazard at hfree
  rw [h.pc]
  cases hread : m.readMem (regs pcReg) 4 with
  | done p =>
    rw [hread] at hfree
    have hhazard := fun hr => hfree r hr h.pending
    exact (Instruction.execute_ahead h (fun hr => (hhazard hr).1)
      (fun hr => (hhazard hr).2)).finish
  | raised e =>
    left
    unfold raiseException
    rw [(h.writeBadVAddr _).delayedLoad_eq]
  | aborted => exact .inl rfl

/-- An interrupt puts the run ahead by the pending load. -/
theorem Behind.delayedLoad (h : Behind regs regs') (hvalid : regs.Valid) :
    ∃ regs₁, regs'.delayedLoad 0 0 = some regs₁ ∧ Behind regs regs₁ := by
  rcases h with rfl | ⟨r, h⟩
  · obtain ⟨r, hr⟩ := hvalid.load
    refine ⟨_, Registers.delayedLoad_eq hr, .inr ⟨r, hr, rfl, ?_, ?_, ?_⟩⟩
    · intro hzero
      rw [Registers.delayed_gp, if_neg hzero, if_pos rfl]
    · intro q hq
      rw [Registers.delayed_gp]
      by_cases hzero : q = 0
      · rw [if_pos hzero, hzero, hvalid.zero]
      · have hqr : q ≠ r := by
          rcases hq with hq | rfl
          · exact hq
          · exact hzero
        rw [if_neg hzero, if_neg hqr]
    · exact fun k hk hload hvalue => Registers.delayed_of_le hk hload hvalue
  · refine ⟨_, Registers.delayedLoad_eq (r := 0) h.done, .inr ⟨r, h.pending, rfl, ?_, ?_, ?_⟩⟩
    · intro hr
      rw [Registers.delayed_gp, if_neg hr, if_neg hr, h.value hr]
    · intro q hq
      rw [Registers.delayed_gp]
      by_cases hzero : q = 0
      · rw [if_pos hzero, hzero, hvalid.zero]
      · rw [if_neg hzero, if_neg hzero, h.gp q hq]
    · intro k hk hload hvalue
      rw [Registers.delayed_of_le hk hload hvalue, h.rest k hk hload hvalue]

theorem Behind.interrupted (h : Behind regs regs') (hvalid : regs.Valid) (k : Nat) :
    ∃ regs₁, regs'.interrupted k = some regs₁ ∧ Behind regs regs₁ := by
  induction k generalizing regs' with
  | zero => exact ⟨regs', rfl, h⟩
  | succ k ih =>
    obtain ⟨regs₁, hregs₁, h₁⟩ := h.delayedLoad hvalid
    obtain ⟨regs₂, hregs₂, h₂⟩ := ih h₁
    exact ⟨regs₂, by rw [Registers.interrupted, hregs₁, Option.bind_some, hregs₂], h₂⟩

theorem Behind.oneInstruction (h : Behind regs regs') (hfree : NextNoHazard regs m) :
    Instructed.Together (oneInstruction regs m) (oneInstruction regs' m) := by
  rcases h with rfl | ⟨r, h⟩
  · exact .inl rfl
  · exact oneInstruction_ahead h hfree

theorem Instructed.Together.andThen {out out' : Instructed n} (h : Instructed.Together out out')
    {f f' : Registers → Machine n → Instructed n}
    (hf : ∀ regs regs' m, out = .finished regs m → Behind regs regs' →
      Instructed.Together (f regs m) (f' regs' m)) :
    Instructed.Together (out.andThen f) (out'.andThen f') := by
  rcases h with rfl | ⟨regs, regs', m, rfl, rfl, hbehind⟩
  · cases out' with
    | finished regs m => exact hf regs regs m rfl (.inl rfl)
    | _ => exact .inl rfl
  · exact hf regs regs' m rfl hbehind

/-- The two runs stay together. -/
theorem Behind.runInstructions (h : Behind regs regs')
    (hload : ∃ r : BitVec 5, regs loadReg = r.setWidth 32) (ks : List Nat)
    (hfree : HazardFree ks.length regs m) :
    Instructed.Together (runInstructions (List.replicate ks.length 0) regs m)
      (runInstructions ks regs' m) := by
  induction ks generalizing regs regs' m with
  | nil => exact .inr ⟨regs, regs', m, rfl, rfl, h⟩
  | cons k ks ih =>
    obtain ⟨hnow, hlater⟩ := hfree
    refine (h.oneInstruction hnow).andThen fun regs₁ regs₁' m₁ hone hbehind => ?_
    have hvalid : regs₁.Valid := valid_of_finished hload hone
    obtain ⟨regs₂, hregs₂, h₂⟩ := hbehind.interrupted hvalid k
    rw [hone] at hlater
    simp only [Registers.interrupted, hregs₂]
    exact ih h₂ hvalid.load hlater

theorem Instructed.Together.settled {out out' : Instructed n} (h : Instructed.Together out out') :
    out'.settled = out.settled := by
  rcases h with rfl | ⟨regs, regs', m, rfl, rfl, rfl | ⟨r, h⟩⟩
  · rfl
  · rfl
  · unfold Instructed.settled
    dsimp only
    rw [h.delayedLoad_eq]

/--
A run without hazards that begins with no load pending comes to the same, up to its first trap,
however often it is interrupted: the same exception, the same memory and the same registers, once
the last load is finished.
-/
theorem runInstructions_interrupted (hload : regs loadReg = 0) (ks : List Nat)
    (hfree : HazardFree ks.length regs m) :
    (runInstructions ks regs m).settled =
      (runInstructions (List.replicate ks.length 0) regs m).settled :=
  (Behind.runInstructions (.inl rfl) ⟨0, hload⟩ ks hfree).settled

end Runs

/-- `LW r2, 8(r0)`, a `NOP` and a `SYSCALL`, whose word is the one that is loaded. -/
def loadPage : Machine 1 := programPage [0x8c020008, 0x00000000, 0x0000000c]

theorem noHazard_of_zero {n : Nat} {regs : Registers} {m : Machine n} (h : regs loadReg = 0) :
    NextNoHazard regs m := by
  unfold NextNoHazard
  split
  · intro r hr hload
    have hzero : r.setWidth 32 = (0 : BitVec 5).setWidth 32 := hload.symm.trans h
    exact absurd (setWidth_inj.mp hzero) hr
  · trivial

/-- Interrupted behind the load, behind the `NOP` twice, and not at all. -/
theorem runInstructions_interrupted_load :
    (runInstructions [1, 2, 0] (.initRegisters 1) loadPage).settled =
      (runInstructions [0, 0, 0] (.initRegisters 1) loadPage).settled := by
  refine runInstructions_interrupted rfl [1, 2, 0] ⟨noHazard_of_zero rfl, ?_, noHazard_of_zero rfl,
    trivial⟩
  intro r _ hload
  have hr : r = 2 := (setWidth_inj.mp (hload : (2 : BitVec 5).setWidth 32 = r.setWidth 32)).symm
  subst hr
  decide

end Nachos
