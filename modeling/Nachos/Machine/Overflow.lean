import Nachos.Machine.Arithmetic

/-!
# Additions and subtractions (`machine/mipssim.cc`)

`ADD`, `ADDI` and `SUB` look at the sign bits of the operands and of the result, and raise
`OverflowException` if those do not fit together. Each compares another pair of signs.

* `SumOp.overflows_eq` — the three tests are the range condition
* `SumOp.sum_exact` — what the six instructions do
-/

namespace Nachos

open Base

/-- The number is an `int`. -/
def IsInt (v : Int) : Prop := -2 ^ 31 ≤ v ∧ v ≤ 2 ^ 31 - 1

instance (v : Int) : Decidable (IsInt v) := inferInstanceAs (Decidable (_ ∧ _))

/-- The instructions that add or subtract. -/
inductive SumOp where
  | add
  | addi
  | addiu
  | addu
  | sub
  | subu
deriving DecidableEq

namespace SumOp

def opCode : SumOp → OpCode
  | add => .add
  | addi => .addi
  | addiu => .addiu
  | addu => .addu
  | sub => .sub
  | subu => .subu

/-- The instruction can raise `OverflowException`. -/
def traps : SumOp → Bool
  | add | addi | sub => true
  | addiu | addu | subu => false

/-- The second operand is in the instruction. -/
def immediate : SumOp → Bool
  | addi | addiu => true
  | add | addu | sub | subu => false

/-- The destination register. -/
def target (op : SumOp) (instr : Instruction) : BitVec 5 :=
  if op.immediate then instr.rt else instr.rd

/-- The second operand: the low half of the instruction word as a signed number, or a register. -/
def second (op : SumOp) (raw : BitVec 32) (regs : Registers) : BitVec 32 :=
  if op.immediate then (raw.extractLsb' 0 16).signExtend 32
  else regs.gp (Instruction.decode raw).rt

/-- The sum or difference of two numbers. -/
def exact (op : SumOp) (x y : BitVec 32) : Int :=
  match op with
  | add | addi | addiu | addu => x.toInt + y.toInt
  | sub | subu => x.toInt - y.toInt

/-- What the machine computes. -/
def result (op : SumOp) (x y : BitVec 32) : BitVec 32 :=
  match op with
  | add | addi | addiu | addu => x + y
  | sub | subu => x - y

/-- The test of the source. -/
def overflows (op : SumOp) (x y : BitVec 32) : Bool :=
  match op with
  | add => !signBit (x ^^^ y) && signBit (x ^^^ (x + y))
  | addi => !signBit (x ^^^ y) && signBit (y ^^^ (x + y))
  | sub => signBit (x ^^^ y) && signBit (x ^^^ (x - y))
  | addiu | addu | subu => false

/-! ## The tests -/

theorem not_isInt_add (x y : BitVec 32) :
    (!decide (IsInt (x.toInt + y.toInt))) = BitVec.saddOverflow x y := by
  rw [Bool.eq_iff_iff, Bool.not_eq_true', decide_eq_false_iff_not]
  unfold IsInt BitVec.saddOverflow
  rw [Bool.or_eq_true, decide_eq_true_eq, decide_eq_true_eq]
  omega

theorem not_isInt_sub (x y : BitVec 32) :
    (!decide (IsInt (x.toInt - y.toInt))) = BitVec.ssubOverflow x y := by
  rw [Bool.eq_iff_iff, Bool.not_eq_true', decide_eq_false_iff_not]
  unfold IsInt BitVec.ssubOverflow
  rw [Bool.or_eq_true, decide_eq_true_eq, decide_eq_true_eq]
  omega

theorem signBit_xor (x y : BitVec 32) : signBit (x ^^^ y) = (x.msb ^^ y.msb) := by
  rw [signBit_eq_msb, BitVec.msb_xor]

/-- The tests find out whether the exact result is an `int`. -/
theorem overflows_eq (op : SumOp) (x y : BitVec 32) :
    op.overflows x y = (op.traps && !decide (IsInt (op.exact x y))) := by
  cases op with
  | add =>
    show (!signBit (x ^^^ y) && signBit (x ^^^ (x + y))) = !decide (IsInt (x.toInt + y.toInt))
    rw [not_isInt_add, BitVec.saddOverflow_eq, signBit_xor, signBit_xor]
    cases x.msb <;> cases y.msb <;> cases (x + y).msb <;> rfl
  | addi =>
    show (!signBit (x ^^^ y) && signBit (y ^^^ (x + y))) = !decide (IsInt (x.toInt + y.toInt))
    rw [not_isInt_add, BitVec.saddOverflow_eq, signBit_xor, signBit_xor]
    cases x.msb <;> cases y.msb <;> cases (x + y).msb <;> rfl
  | sub =>
    show (signBit (x ^^^ y) && signBit (x ^^^ (x - y))) = !decide (IsInt (x.toInt - y.toInt))
    rw [not_isInt_sub, BitVec.ssubOverflow_eq, signBit_xor, signBit_xor]
    cases x.msb <;> cases y.msb <;> cases (x - y).msb <;> rfl
  | addiu | addu | subu => rfl

theorem overflows_iff (op : SumOp) (x y : BitVec 32) :
    op.overflows x y = true ↔ op.traps = true ∧ ¬ IsInt (op.exact x y) := by
  rw [overflows_eq, Bool.and_eq_true, Bool.not_eq_true', decide_eq_false_iff_not]

theorem result_eq_ofInt (op : SumOp) (x y : BitVec 32) :
    op.result x y = BitVec.ofInt 32 (op.exact x y) := by
  cases op with
  | add | addi | addiu | addu =>
    simp only [result, exact, BitVec.ofInt_add, BitVec.ofInt_toInt]
  | sub | subu =>
    simp only [result, exact, Int.sub_eq_add_neg, BitVec.ofInt_add, BitVec.ofInt_neg,
      BitVec.ofInt_toInt, BitVec.sub_eq_add_neg]

theorem toInt_result {op : SumOp} {x y : BitVec 32} (h : IsInt (op.exact x y)) :
    (op.result x y).toInt = op.exact x y := by
  rw [result_eq_ofInt]
  obtain ⟨hlo, hhi⟩ := h
  rw [BitVec.toInt_ofInt]
  exact Int.bmod_eq_of_le (by omega) (by omega)

/-! ## Decoding -/

theorem decodeExtra_iFmt (raw : BitVec 32) :
    Instruction.decodeExtra raw .iFmt = (raw.extractLsb' 0 16).signExtend 32 := by
  have hlow : (0xffff : BitVec 32) = (BitVec.allOnes 16).setWidth 32 := rfl
  have hhigh : (0xffff0000 : BitVec 32) = ~~~(BitVec.allOnes 16).setWidth 32 := rfl
  have hbit : (raw &&& 0xffff &&& 0x8000 ≠ 0) ↔ raw.getLsbD 15 = true := by
    have htwo : (0x8000 : BitVec 32) = BitVec.twoPow 32 15 := rfl
    rw [htwo, BitVec.and_twoPow, BitVec.getLsbD_and]
    cases raw.getLsbD 15 <;> decide
  have hmsb : (raw.extractLsb' 0 16).msb = raw.getLsbD 15 := by
    rw [BitVec.msb_eq_getLsbD_last, BitVec.getLsbD_extractLsb']
    rfl
  unfold Instruction.decodeExtra
  simp only [hbit]
  refine BitVec.eq_of_getLsbD_eq fun i hi => ?_
  rw [hlow, hhigh, BitVec.getLsbD_signExtend, hmsb, BitVec.getLsbD_extractLsb', Nat.zero_add]
  by_cases h : i < 16 <;> cases raw.getLsbD 15 <;>
    simp only [Bool.false_eq_true, if_true, if_false, BitVec.getLsbD_or, BitVec.getLsbD_and,
      BitVec.getLsbD_not, BitVec.getLsbD_setWidth, BitVec.getLsbD_allOnes, hi, h, decide_true,
      decide_false, Bool.true_and, Bool.and_true, Bool.and_false, Bool.not_true, Bool.not_false,
      Bool.or_true, Bool.or_false]

theorem no_immediate_decodeBcond (value : BitVec 32) :
    Instruction.decodeBcond value ≠ .addi ∧ Instruction.decodeBcond value ≠ .addiu := by
  unfold Instruction.decodeBcond
  dsimp only
  split_ifs <;> decide

/-- The word of an instruction with an immediate is decoded in the format `IFMT`. -/
theorem extra_of_immediate {op : SumOp} (himm : op.immediate = true) {raw : BitVec 32}
    (hop : (Instruction.decode raw).opCode = op.opCode) :
    (Instruction.decode raw).extra = Instruction.decodeExtra raw .iFmt := by
  have hcode : op.opCode = .addi ∨ op.opCode = .addiu := by
    cases op with
    | addi => exact .inl rfl
    | addiu => exact .inr rfl
    | add | addu | sub | subu => cases himm
  rw [← hop] at hcode
  unfold Instruction.decode at hcode
  dsimp only at hcode
  split at hcode
  · have h := Instruction.no_immediate_specialTable (raw.extractLsb' 0 6).toFin
    exact absurd hcode (not_or.mpr h)
  · exact absurd hcode (not_or.mpr (no_immediate_decodeBcond raw))
  next => rw [← Instruction.iFmt_of_opTable _ hcode, Instruction.decode]

/-! ## Executing -/

/-- The second operand, as the interpreter has it. -/
def operand (op : SumOp) (instr : Instruction) (regs : Registers) : BitVec 32 :=
  if op.immediate then instr.extra else regs.gp instr.rt

theorem operand_decode {op : SumOp} {raw : BitVec 32}
    (hop : (Instruction.decode raw).opCode = op.opCode) (regs : Registers) :
    op.operand (Instruction.decode raw) regs = op.second raw regs := by
  unfold operand second
  split
  next himm =>
    rw [← decodeExtra_iFmt, extra_of_immediate himm hop]
  next => rfl

theorem execute_sum {n : Nat} {op : SumOp} {instr : Instruction} (hop : instr.opCode = op.opCode)
    (regs : Registers) (m : Machine n) : instr.execute regs m =
      if op.overflows (regs.gp instr.rs) (op.operand instr regs) then
        .raised .overflowException 0 regs m
      else
        .next (regs.setGp (op.target instr) (op.result (regs.gp instr.rs) (op.operand instr regs)))
          m (regs nextPCReg + 4) 0 0 := by
  obtain ⟨opCode, rs, rt, rd, extra⟩ := instr
  obtain rfl : opCode = op.opCode := hop
  cases op <;> rfl

/-- With no load pending, the sum is written, or the exception raised and nothing written. -/
theorem oneInstruction_sum {n : Nat} {op : SumOp} {raw : BitVec 32} {regs : Registers}
    {m m₁ : Machine n} (hfetch : m.readMem (regs pcReg) 4 = .done (m₁, raw))
    (hop : (Instruction.decode raw).opCode = op.opCode) (hload : regs loadReg = 0) :
    let instr := Instruction.decode raw
    let x := regs.gp instr.rs
    let y := op.second raw regs
    if op.overflows x y then
      ∃ regs', oneInstruction regs m = .trapped .overflowException regs' m₁ ∧
        ∀ r, regs'.gp r = if r = 0 then 0 else regs.gp r
    else
      ∃ regs', oneInstruction regs m = .finished regs' m₁ ∧
        ∀ r, regs'.gp r =
          if r = 0 then 0 else if r = op.target instr then op.result x y else regs.gp r := by
  have hexecute := execute_sum hop regs m₁
  rw [operand_decode hop] at hexecute
  dsimp only
  unfold oneInstruction
  rw [hfetch]
  dsimp only
  rw [hexecute]
  split
  next => exact Executed.finish_raised hload m₁ _ _
  next => exact Executed.finish_wrote hload m₁ _ _ _

/--
The exception is raised if and only if the instruction can raise it and the exact result is no
`int`; the registers are then as they were. Otherwise the target has the exact result, modulo
`2^32`.
-/
theorem sum_exact {n : Nat} {op : SumOp} {raw : BitVec 32} {regs : Registers}
    {m m₁ : Machine n} (hfetch : m.readMem (regs pcReg) 4 = .done (m₁, raw))
    (hop : (Instruction.decode raw).opCode = op.opCode)
    (htarget : op.target (Instruction.decode raw) ≠ 0) (hload : regs loadReg = 0) :
    let instr := Instruction.decode raw
    let exact := op.exact (regs.gp instr.rs) (op.second raw regs)
    if op.traps ∧ ¬ IsInt exact then
      ∃ regs', oneInstruction regs m = .trapped .overflowException regs' m₁ ∧
        ∀ r, regs'.gp r = if r = 0 then 0 else regs.gp r
    else
      ∃ regs', oneInstruction regs m = .finished regs' m₁ ∧
        regs'.gp (op.target instr) = BitVec.ofInt 32 exact ∧
        (op.traps → (regs'.gp (op.target instr)).toInt = exact) ∧
        ∀ r, r ≠ op.target instr → regs'.gp r = if r = 0 then 0 else regs.gp r := by
  intro instr exact
  have hrun := oneInstruction_sum hfetch hop hload
  dsimp only at hrun
  by_cases hover : op.traps ∧ ¬ IsInt exact
  · rw [if_pos ((overflows_iff op _ _).mpr hover)] at hrun
    rw [if_pos hover]
    exact hrun
  · rw [if_neg (mt (overflows_iff op _ _).mp hover)] at hrun
    rw [if_neg hover]
    obtain ⟨regs', hfinished, hgp⟩ := hrun
    have hresult : regs'.gp (op.target instr) =
        op.result (regs.gp instr.rs) (op.second raw regs) := by
      rw [hgp, if_neg htarget, if_pos rfl]
    refine ⟨regs', hfinished, ?_, ?_, ?_⟩
    · rw [hresult]
      exact result_eq_ofInt op _ _
    · intro htraps
      rw [hresult]
      exact toInt_result (not_not.mp (not_and.mp hover htraps))
    · intro r hr
      rw [hgp, if_neg hr]

/-- `ADDI` of register 1 and -1 into register 3. -/
def addiPage : Machine 1 := programPage [0x2023ffff]

theorem sum_exact_addi :
    ∃ regs' m', oneInstruction (operands (BitVec.intMin 32) 0) addiPage =
      .trapped .overflowException regs' m' ∧ regs'.gp 3 = 0 := by
  have hfetch : addiPage.readMem (operands (BitVec.intMin 32) 0 pcReg) 4 =
      .done (_, 0x2023ffff) := rfl
  have hop : (Instruction.decode 0x2023ffff).opCode = addi.opCode := rfl
  obtain ⟨regs', hrun, hgp⟩ := sum_exact hfetch hop (by decide) rfl
  exact ⟨regs', _, hrun, hgp 3⟩

end SumOp

end Nachos
