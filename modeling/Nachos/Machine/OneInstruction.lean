import Nachos.Machine.Instruction
import Nachos.Machine.Registers

/-!
# The interpreter (`machine/mipssim.cc`, `machine/machine.cc`)

`OneInstruction` fetches a word through `ReadMem`, decodes it and executes it by a `switch` over the
operation. A case leaves early through `RaiseException`, or goes on behind the `switch`, where the
load of the instruction before is finished, the instruction's own load is left pending, and the
program counters advance. `RaiseException` finishes the pending load, too, and enters
`ExceptionHandler`; that handler is not part of this file.

The cases write into the registers before they know that they will get to the end, so the registers
at the call of `RaiseException` are part of what a case comes to. The preprocessor symbol `SIM_FIX`
is set.

* `Instruction.execute` — the `switch`
* `oneInstruction` — `Machine::OneInstruction` up to its end or to `ExceptionHandler`
-/

namespace Nachos

open Base

/-! ## Arithmetic -/

/-- `x & SIGN_BIT`. -/
def signBit (x : BitVec 32) : Bool := x &&& 0x80000000 != 0

/-- `IndexToAddr`. -/
def indexToAddr (x : BitVec 32) : BitVec 32 := x <<< 2

/-- A comparison of the C++ code, as a number. -/
def truth (b : Bool) : BitVec 32 := if b then 1 else 0

/-- The variables of the loop of `Mult`. -/
structure Product where
  a : BitVec 32
  bHi : BitVec 32
  bLo : BitVec 32
  hi : BitVec 32
  lo : BitVec 32

/-- The loop of `Mult`, for `fuel` more passes. -/
def Product.loop : Nat → Product → Product
  | 0, p => p
  | fuel + 1, p =>
    let lo := p.lo + p.bLo
    let p := if p.a &&& 1 ≠ 0 then
        { p with
          lo := lo
          hi := (if lo < p.bLo then p.hi + 1 else p.hi) + p.bHi }
      else p
    if p.a &&& 1 ≠ 0 ∧ p.a &&& 0xfffffffe = 0 then p
    else Product.loop fuel
      { p with
        bHi := if signBit p.bLo then p.bHi <<< 1 ||| 1 else p.bHi <<< 1
        bLo := p.bLo <<< 1
        a := p.a.sshiftRight 1 }

/-- `Mult`: the two words of the product, the high one first. -/
def mult (a b : BitVec 32) (signedArith : Bool) : BitVec 32 × BitVec 32 :=
  if a = 0 ∨ b = 0 then (0, 0)
  else
    let negative := signedArith && (a.slt 0 != b.slt 0)
    let a := if signedArith && a.slt 0 then -a else a
    let b := if signedArith && b.slt 0 then -b else b
    let p := Product.loop 32 ⟨a, 0, b, 0, 0⟩
    if negative then (if ~~~p.lo + 1 = 0 then ~~~p.hi + 1 else ~~~p.hi, ~~~p.lo + 1)
    else (p.hi, p.lo)

/-- What `LWL` makes of the register's old value and the aligned word, by `3 - byte`. -/
def mergeLeft (old value : BitVec 32) (byte : BitVec 32) : BitVec 32 :=
  match 3 - byte.toNat with
  | 0 => value
  | 1 => (old &&& 0xff) ||| (value <<< 8)
  | 2 => (old &&& 0xffff) ||| (value <<< 16)
  | _ => (old &&& 0xffffff) ||| (value <<< 24)

/-- The same for `LWR`. -/
def mergeRight (old value : BitVec 32) (byte : BitVec 32) : BitVec 32 :=
  match 3 - byte.toNat with
  | 0 => (old &&& 0xffffff00) ||| ((value.sshiftRight 24) &&& 0xff)
  | 1 => (old &&& 0xffff0000) ||| ((value.sshiftRight 16) &&& 0xffff)
  | 2 => (old &&& 0xff000000) ||| ((value.sshiftRight 8) &&& 0xffffff)
  | _ => value

/-- What `SWL` makes of the aligned word and the register. -/
def storeLeft (value rt : BitVec 32) (byte : BitVec 32) : BitVec 32 :=
  match 3 - byte.toNat with
  | 0 => rt
  | 1 => (value &&& 0xff000000) ||| ((rt.sshiftRight 8) &&& 0xffffff)
  | 2 => (value &&& 0xffff0000) ||| ((rt.sshiftRight 16) &&& 0xffff)
  | _ => (value &&& 0xffffff00) ||| ((rt.sshiftRight 24) &&& 0xff)

/-- The same for `SWR`. -/
def storeRight (value rt : BitVec 32) (byte : BitVec 32) : BitVec 32 :=
  match 3 - byte.toNat with
  | 0 => (value &&& 0xffffff) ||| (rt <<< 24)
  | 1 => (value &&& 0xffff) ||| (rt <<< 16)
  | 2 => (value &&& 0xff) ||| (rt <<< 8)
  | _ => rt

/-! ## Outcomes -/

/-- The exceptions of `ExceptionType` that are raised. -/
inductive Trap where
  | memory (e : ExceptionType)
  | syscallException
  | overflowException
  | illegalInstrException
deriving DecidableEq

/-- What a case of the `switch` comes to. -/
inductive Executed (n : Nat) where
  /-- It goes on behind the `switch`. -/
  | next (regs : Registers) (m : Machine n) (pcAfter : BitVec 32) (nextLoadReg : BitVec 5)
      (nextLoadValue : BitVec 32)
  /-- It calls `RaiseException` and returns. -/
  | raised (which : Trap) (badVAddr : BitVec 32) (regs : Registers) (m : Machine n)
  /-- `default: ASSERT(FALSE)`. -/
  | defaultCase
  /-- An assertion of `Translate` fails. -/
  | aborted
  /-- A division of the host faults. -/
  | hostFault

/-- What a call of `OneInstruction` comes to. -/
inductive Instructed (n : Nat) where
  | finished (regs : Registers) (m : Machine n)
  /-- `ExceptionHandler` is entered. -/
  | trapped (which : Trap) (regs : Registers) (m : Machine n)
  | aborted
  | hostFault

namespace Executed

variable {n : Nat}

/-- A load: what is read goes into `rt`, after `f`. -/
def load (regs : Registers) (m : Machine n) (rt : BitVec 5) (addr : BitVec 32) (size : Nat)
    (f : BitVec 32 → BitVec 32) : Executed n :=
  match m.readMem addr size with
  | .done (m, value) => .next regs m (regs nextPCReg + 4) rt (f value)
  | .raised e => .raised (.memory e) addr regs m
  | .aborted => .aborted

/-- A load that checks its address first. -/
def loadAligned (regs : Registers) (m : Machine n) (rt : BitVec 5) (addr : BitVec 32) (size : Nat)
    (mask : BitVec 32) (f : BitVec 32 → BitVec 32) : Executed n :=
  if addr &&& mask ≠ 0 then .raised (.memory .addressErrorException) addr regs m
  else load regs m rt addr size f

def store (regs : Registers) (m : Machine n) (addr : BitVec 32) (size : Nat) (value : BitVec 32) :
    Executed n :=
  match m.writeMem addr size value with
  | .done m => .next regs m (regs nextPCReg + 4) 0 0
  | .raised e => .raised (.memory e) addr regs m
  | .aborted => .aborted

/-- `SWL` and `SWR`: the aligned word is read, changed by `f` and written back. -/
def storePart (regs : Registers) (m : Machine n) (addr : BitVec 32)
    (f : BitVec 32 → BitVec 32 → BitVec 32) : Executed n :=
  let byte := addr &&& 0x3
  match m.readMem (addr - byte) 4 with
  | .done (m, value) => store regs m (addr - byte) 4 (f value byte)
  | .raised e => .raised (.memory e) (addr - byte) regs m
  | .aborted => .aborted

end Executed

/-! ## The interpreter -/

namespace Instruction

variable {n : Nat}

/-- The address of a load or a store, `tmp` in the source. -/
def address (instr : Instruction) (regs : Registers) : BitVec 32 :=
  regs.gp instr.rs + instr.extra

/-- `pcAfter` of a branch. -/
def branchTo (instr : Instruction) (regs : Registers) (taken : Bool) : BitVec 32 :=
  if taken then regs nextPCReg + indexToAddr instr.extra else regs nextPCReg + 4

/-- The old value that `LWL` and `LWR` merge into: of the pending load, when it has their target. -/
def merged (instr : Instruction) (regs : Registers) : BitVec 32 :=
  if regs loadReg = instr.rt.setWidth 32 then regs loadValueReg else regs.gp instr.rt

/-- The `switch` of `OneInstruction`. -/
def execute (instr : Instruction) (regs : Registers) (m : Machine n) : Executed n :=
  let rs := instr.rs
  let rt := instr.rt
  let rd := instr.rd
  let extra := instr.extra
  let pcAfter := regs nextPCReg + 4
  let wrote (regs : Registers) : Executed n := .next regs m pcAfter 0 0
  let jumped (regs : Registers) (pcAfter : BitVec 32) : Executed n := .next regs m pcAfter 0 0
  let tmp := instr.address regs
  match instr.opCode with
  | .add =>
    let sum := regs.gp rs + regs.gp rt
    if !signBit (regs.gp rs ^^^ regs.gp rt) && signBit (regs.gp rs ^^^ sum) then
      .raised .overflowException 0 regs m
    else wrote (regs.setGp rd sum)
  | .addi =>
    let sum := regs.gp rs + extra
    if !signBit (regs.gp rs ^^^ extra) && signBit (extra ^^^ sum) then
      .raised .overflowException 0 regs m
    else wrote (regs.setGp rt sum)
  | .addiu => wrote (regs.setGp rt (regs.gp rs + extra))
  | .addu => wrote (regs.setGp rd (regs.gp rs + regs.gp rt))
  | .and => wrote (regs.setGp rd (regs.gp rs &&& regs.gp rt))
  | .andi => wrote (regs.setGp rt (regs.gp rs &&& (extra &&& 0xffff)))
  | .beq => jumped regs (instr.branchTo regs (regs.gp rs == regs.gp rt))
  | .bgezal =>
    let regs := regs.setGp 31 (regs nextPCReg + 4)
    jumped regs (instr.branchTo regs (!signBit (regs.gp rs)))
  | .bgez => jumped regs (instr.branchTo regs (!signBit (regs.gp rs)))
  | .bgtz => jumped regs (instr.branchTo regs (BitVec.slt 0 (regs.gp rs)))
  | .blez => jumped regs (instr.branchTo regs ((regs.gp rs).sle 0))
  | .bltzal =>
    let regs := regs.setGp 31 (regs nextPCReg + 4)
    jumped regs (instr.branchTo regs (signBit (regs.gp rs)))
  | .bltz => jumped regs (instr.branchTo regs (signBit (regs.gp rs)))
  | .bne => jumped regs (instr.branchTo regs (regs.gp rs != regs.gp rt))
  | .div =>
    if regs.gp rt = 0 then wrote (regs.setHiLo 0 0)
    -- The quotient is no `int`.
    else if regs.gp rs = BitVec.intMin 32 ∧ regs.gp rt = -1 then .hostFault
    else wrote (regs.setHiLo ((regs.gp rs).srem (regs.gp rt)) ((regs.gp rs).sdiv (regs.gp rt)))
  | .divu =>
    if regs.gp rt = 0 then wrote (regs.setHiLo 0 0)
    else wrote (regs.setHiLo (regs.gp rs % regs.gp rt) (regs.gp rs / regs.gp rt))
  | .jal =>
    jumped (regs.setGp 31 (regs nextPCReg + 4)) ((pcAfter &&& 0xf0000000) ||| indexToAddr extra)
  | .j => jumped regs ((pcAfter &&& 0xf0000000) ||| indexToAddr extra)
  | .jalr =>
    let regs := regs.setGp rd (regs nextPCReg + 4)
    jumped regs (regs.gp rs)
  | .jr => jumped regs (regs.gp rs)
  | .lb => .load regs m rt tmp 1 fun value =>
      if value &&& 0x80 ≠ 0 then value ||| 0xffffff00 else value &&& 0xff
  | .lbu => .load regs m rt tmp 1 fun value => value &&& 0xff
  | .lh => .loadAligned regs m rt tmp 2 0x1 fun value =>
      if value &&& 0x8000 ≠ 0 then value ||| 0xffff0000 else value &&& 0xffff
  | .lhu => .loadAligned regs m rt tmp 2 0x1 fun value => value &&& 0xffff
  | .lui => wrote (regs.setGp rt (extra <<< 16))
  | .lw => .loadAligned regs m rt tmp 4 0x3 fun value => value
  | .lwl => .load regs m rt (tmp - (tmp &&& 0x3)) 4 fun value =>
      mergeLeft (instr.merged regs) value (tmp &&& 0x3)
  | .lwr => .load regs m rt (tmp - (tmp &&& 0x3)) 4 fun value =>
      mergeRight (instr.merged regs) value (tmp &&& 0x3)
  | .mfhi => wrote (regs.setGp rd (regs hiReg))
  | .mflo => wrote (regs.setGp rd (regs loReg))
  | .mthi => wrote (regs.writeRegister hiReg (regs.gp rs))
  | .mtlo => wrote (regs.writeRegister loReg (regs.gp rs))
  | .mult =>
    let product := Nachos.mult (regs.gp rs) (regs.gp rt) true
    wrote (regs.setHiLo product.1 product.2)
  | .multu =>
    let product := Nachos.mult (regs.gp rs) (regs.gp rt) false
    wrote (regs.setHiLo product.1 product.2)
  | .nor => wrote (regs.setGp rd (~~~(regs.gp rs ||| regs.gp rt)))
  | .or => wrote (regs.setGp rd (regs.gp rs ||| regs.gp rt))
  | .ori => wrote (regs.setGp rt (regs.gp rs ||| (extra &&& 0xffff)))
  | .sb => .store regs m tmp 1 (regs.gp rt)
  | .sh => .store regs m tmp 2 (regs.gp rt)
  | .sll => wrote (regs.setGp rd (regs.gp rt <<< extra))
  | .sllv => wrote (regs.setGp rd (regs.gp rt <<< (regs.gp rs &&& 0x1f)))
  | .slt => wrote (regs.setGp rd (truth ((regs.gp rs).slt (regs.gp rt))))
  | .slti => wrote (regs.setGp rt (truth ((regs.gp rs).slt extra)))
  | .sltiu => wrote (regs.setGp rt (truth ((regs.gp rs).ult extra)))
  | .sltu => wrote (regs.setGp rd (truth ((regs.gp rs).ult (regs.gp rt))))
  | .sra => wrote (regs.setGp rd ((regs.gp rt).sshiftRight extra.toNat))
  | .srav => wrote (regs.setGp rd ((regs.gp rt).sshiftRight (regs.gp rs &&& 0x1f).toNat))
  -- `tmp` is an `int`, so these two shift the sign in, as `SRA` does.
  | .srl => wrote (regs.setGp rd ((regs.gp rt).sshiftRight extra.toNat))
  | .srlv => wrote (regs.setGp rd ((regs.gp rt).sshiftRight (regs.gp rs &&& 0x1f).toNat))
  | .sub =>
    let diff := regs.gp rs - regs.gp rt
    if signBit (regs.gp rs ^^^ regs.gp rt) && signBit (regs.gp rs ^^^ diff) then
      .raised .overflowException 0 regs m
    else wrote (regs.setGp rd diff)
  | .subu => wrote (regs.setGp rd (regs.gp rs - regs.gp rt))
  | .sw => .store regs m tmp 4 (regs.gp rt)
  | .swl => .storePart regs m tmp fun value byte => storeLeft value (regs.gp rt) byte
  | .swr => .storePart regs m tmp fun value byte => storeRight value (regs.gp rt) byte
  | .syscall => .raised .syscallException 0 regs m
  | .xor => wrote (regs.setGp rd (regs.gp rs ^^^ regs.gp rt))
  | .xori => wrote (regs.setGp rt (regs.gp rs ^^^ (extra &&& 0xffff)))
  | .res | .unimp => .raised .illegalInstrException 0 regs m
  | .rfe | .special | .bcond => .defaultCase

end Instruction

section OneInstruction

variable {n : Nat}

/-- `Machine::RaiseException` up to `ExceptionHandler`. -/
def raiseException (which : Trap) (badVAddr : BitVec 32) (regs : Registers) (m : Machine n) :
    Instructed n :=
  match (regs.writeRegister badVAddrReg badVAddr).delayedLoad 0 0 with
  | none => .aborted
  | some regs => .trapped which regs m

/-- The end of `OneInstruction`. -/
def Executed.finish : Executed n → Instructed n
  | .next regs m pcAfter nextLoadReg nextLoadValue =>
    match regs.delayedLoad (nextLoadReg.setWidth 32) nextLoadValue with
    | none => .aborted
    | some regs => .finished (regs.advance pcAfter) m
  | .raised which badVAddr regs m => raiseException which badVAddr regs m
  | .defaultCase | .aborted => .aborted
  | .hostFault => .hostFault

/-- `Machine::OneInstruction`. -/
def oneInstruction (regs : Registers) (m : Machine n) : Instructed n :=
  match m.readMem (regs pcReg) 4 with
  | .done (m, raw) => ((Instruction.decode raw).execute regs m).finish
  | .raised e => raiseException (.memory e) (regs pcReg) regs m
  | .aborted => .aborted

end OneInstruction

end Nachos
