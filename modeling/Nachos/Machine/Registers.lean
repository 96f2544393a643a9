import Nachos.Machine.Translate

/-!
# The registers of the machine (`machine/machine.h`, `machine/machine.cc`, `machine/mipssim.cc`)

The CPU has `NumTotalRegs` registers: those of the MIPS, the two program counters, and the ones
that a delayed load needs. `DelayedLoad` finishes the load in progress; it is called with `(0, 0)`
before an exception and before the interrupt handlers.

* `initRegisters` — `AddrSpace::InitRegisters`
* `delayedLoad` — `Machine::DelayedLoad`
* `delayedLoad_eq` — what it does while `LoadReg` holds the number of a general register
-/

namespace Nachos

/-- `NumTotalRegs`. -/
abbrev numTotalRegs : Nat := 40

instance : NeZero numTotalRegs := ⟨by decide⟩

/-- `Machine::registers`. -/
abbrev Registers := Fin numTotalRegs → BitVec 32

/-- `StackReg`. -/
def stackReg : Fin numTotalRegs := 29

/-- `HiReg`. -/
def hiReg : Fin numTotalRegs := 32

/-- `LoReg`. -/
def loReg : Fin numTotalRegs := 33

/-- `PCReg`. -/
def pcReg : Fin numTotalRegs := 34

/-- `NextPCReg`. -/
def nextPCReg : Fin numTotalRegs := 35

/-- `PrevPCReg`. -/
def prevPCReg : Fin numTotalRegs := 36

/-- `LoadReg`. -/
def loadReg : Fin numTotalRegs := 37

/-- `LoadValueReg`. -/
def loadValueReg : Fin numTotalRegs := 38

/-- `BadVAddrReg`. -/
def badVAddrReg : Fin numTotalRegs := 39

/-- The general register with this number. -/
def gpReg (r : BitVec 5) : Fin numTotalRegs :=
  ⟨r.toNat, Nat.lt_of_lt_of_le r.isLt (Nat.le_of_ble_eq_true rfl)⟩

namespace Registers

/-- `Machine::WriteRegister`. -/
def writeRegister (regs : Registers) (num : Fin numTotalRegs) (value : BitVec 32) : Registers :=
  Function.update regs num value

/-- `AddrSpace::InitRegisters` of an address space with `numPages` pages. -/
def initRegisters (numPages : Nat) : Registers :=
  let regs : Registers := fun _ => 0
  let regs := regs.writeRegister pcReg 0
  let regs := regs.writeRegister nextPCReg 4
  regs.writeRegister stackReg (BitVec.ofNat 32 (numPages * pageSize) - 16)

/-- `Machine::DelayedLoad`. `none`: the number in `LoadReg` is not the one of a register. -/
def delayedLoad (regs : Registers) (nextReg nextValue : BitVec 32) : Option Registers :=
  if h : (regs loadReg).toNat < numTotalRegs then
    let regs := regs.writeRegister ⟨(regs loadReg).toNat, h⟩ (regs loadValueReg)
    let regs := regs.writeRegister loadReg nextReg
    let regs := regs.writeRegister loadValueReg nextValue
    some (regs.writeRegister 0 0)
  else none

/-- `registers[r]` of a general register. -/
def gp (regs : Registers) (r : BitVec 5) : BitVec 32 := regs (gpReg r)

/-- `registers[r] = value` of a general register. -/
def setGp (regs : Registers) (r : BitVec 5) (value : BitVec 32) : Registers :=
  regs.writeRegister (gpReg r) value

/-- `registers[HiReg] = hi` and `registers[LoReg] = lo`. -/
def setHiLo (regs : Registers) (hi lo : BitVec 32) : Registers :=
  (regs.writeRegister loReg lo).writeRegister hiReg hi

/-- The program counters at the end of `OneInstruction`. -/
def advance (regs : Registers) (pcAfter : BitVec 32) : Registers :=
  let regs := regs.writeRegister prevPCReg (regs pcReg)
  let regs := regs.writeRegister pcReg (regs nextPCReg)
  regs.writeRegister nextPCReg pcAfter

/-- What `DelayedLoad` leaves behind when `r` is the target of the pending load. -/
def delayed (regs : Registers) (r : BitVec 5) (nextReg nextValue : BitVec 32) : Registers :=
  let regs := regs.setGp r (regs loadValueReg)
  let regs := regs.writeRegister loadReg nextReg
  let regs := regs.writeRegister loadValueReg nextValue
  regs.writeRegister 0 0

@[simp] theorem initRegisters_pcReg (numPages : Nat) : initRegisters numPages pcReg = 0 := rfl

end Registers

/-! ## Reading registers -/

/-- The registers from `PCReg` on are not general ones, and neither are `HiReg` and `LoReg`. -/
theorem gpReg_ne {k : Fin numTotalRegs} (hk : 32 ≤ k.val) (r : BitVec 5) : k ≠ gpReg r := by
  rintro rfl
  exact absurd r.isLt (Nat.not_lt.mpr hk)

theorem gpReg_inj {r q : BitVec 5} : gpReg r = gpReg q ↔ r = q := by
  rw [gpReg, gpReg, Fin.mk.injEq, BitVec.toNat_inj]

/-- A register is a general one, or comes after them. -/
theorem gpReg_or_le (k : Fin numTotalRegs) : (∃ r, k = gpReg r) ∨ 32 ≤ k.val := by
  by_cases hk : k.val < 2 ^ 5
  · exact .inl ⟨BitVec.ofNatLT k.val hk, rfl⟩
  · exact .inr (Nat.not_lt.mp hk)

theorem setWidth_inj {r q : BitVec 5} : r.setWidth 32 = q.setWidth 32 ↔ r = q := by
  constructor
  · intro h
    have hnat := congrArg BitVec.toNat h
    rw [BitVec.toNat_setWidth_of_le (by decide), BitVec.toNat_setWidth_of_le (by decide)] at hnat
    exact BitVec.eq_of_toNat_eq hnat
  · rintro rfl
    rfl

namespace Registers

variable {regs : Registers} {r q : BitVec 5} {k : Fin numTotalRegs}
  {v nextReg nextValue : BitVec 32}

theorem gp_setGp : (regs.setGp r v).gp q = if q = r then v else regs.gp q := by
  unfold gp setGp writeRegister
  rw [Function.update_apply]
  simp only [gpReg_inj]

theorem setGp_of_le (hk : 32 ≤ k.val) : regs.setGp r v k = regs k :=
  Function.update_of_ne (gpReg_ne hk r) _ _

theorem setHiLo_of_le {hi lo : BitVec 32} (hk : 34 ≤ k.val) : regs.setHiLo hi lo k = regs k := by
  have hhi : k ≠ hiReg := fun h => absurd hk (h ▸ by decide)
  have hlo : k ≠ loReg := fun h => absurd hk (h ▸ by decide)
  unfold setHiLo writeRegister
  rw [Function.update_of_ne hhi, Function.update_of_ne hlo]

theorem setHiLo_hiReg {hi lo : BitVec 32} : regs.setHiLo hi lo hiReg = hi := rfl

theorem setHiLo_loReg {hi lo : BitVec 32} : regs.setHiLo hi lo loReg = lo := rfl

/-! ### `DelayedLoad` -/

theorem delayedLoad_eq (h : regs loadReg = r.setWidth 32) :
    regs.delayedLoad nextReg nextValue = some (regs.delayed r nextReg nextValue) := by
  have hnat : (regs loadReg).toNat = r.toNat := by
    rw [h, BitVec.toNat_setWidth_of_le (by decide)]
  have hlt : (regs loadReg).toNat < numTotalRegs := hnat ▸ (gpReg r).isLt
  have hreg : (⟨(regs loadReg).toNat, hlt⟩ : Fin numTotalRegs) = gpReg r := Fin.ext hnat
  unfold delayedLoad
  rw [dif_pos hlt, hreg]
  rfl

theorem delayed_gp : (regs.delayed r nextReg nextValue).gp q =
    if q = 0 then 0 else if q = r then regs loadValueReg else regs.gp q := by
  have hzero : gpReg q = 0 ↔ q = 0 := gpReg_inj (q := 0)
  have hload : gpReg q ≠ loadReg := (gpReg_ne (by decide) q).symm
  have hvalue : gpReg q ≠ loadValueReg := (gpReg_ne (by decide) q).symm
  have hset : regs.setGp r (regs loadValueReg) (gpReg q) = _ := gp_setGp
  unfold delayed gp writeRegister
  rw [Function.update_apply, Function.update_of_ne hvalue, Function.update_of_ne hload, hset]
  simp only [hzero]
  rfl

theorem delayed_of_le (hk : 32 ≤ k.val) (hload : k ≠ loadReg) (hvalue : k ≠ loadValueReg) :
    regs.delayed r nextReg nextValue k = regs k := by
  have hzero : k ≠ 0 := gpReg_ne hk 0
  unfold delayed writeRegister
  rw [Function.update_of_ne hzero, Function.update_of_ne hvalue, Function.update_of_ne hload,
    setGp_of_le hk]

theorem advance_eq (regs : Registers) (pcAfter : BitVec 32) :
    regs.advance pcAfter =
      ((regs.writeRegister prevPCReg (regs pcReg)).writeRegister pcReg
        (regs nextPCReg)).writeRegister nextPCReg pcAfter := rfl

theorem advance_gp : (regs.advance v).gp q = regs.gp q := by
  have hne : ∀ {k : Fin numTotalRegs}, 32 ≤ k.val → gpReg q ≠ k := fun hk => (gpReg_ne hk q).symm
  unfold advance gp writeRegister
  rw [Function.update_of_ne (hne (by decide)), Function.update_of_ne (hne (by decide)),
    Function.update_of_ne (hne (by decide))]

theorem delayed_loadReg : regs.delayed r nextReg nextValue loadReg = nextReg := rfl

theorem delayed_loadValueReg : regs.delayed r nextReg nextValue loadValueReg = nextValue := rfl

end Registers

end Nachos
