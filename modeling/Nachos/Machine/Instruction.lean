import Mathlib.Data.BitVec

/-!
# Instructions (`machine/mipssim.h`, `machine/mipssim.cc`)

A word is decoded through two tables: `opTable` for bits 31 to 26, and `specialTable` for the
`funct` field of the instructions whose entry there is `SPECIAL`.

* `Instruction.decode` — `Instruction::Decode`
* `Instruction.executable_decode` — the cases of `OneInstruction` cover what comes out of it
-/

namespace Nachos

/-- The `OP_` numbers, and the two values of `opTable` that call for further decoding. -/
inductive OpCode where
  | add | addi | addiu | addu | and | andi
  | beq | bgez | bgezal | bgtz | blez | bltz | bltzal | bne
  | div | divu | j | jal | jalr | jr
  | lb | lbu | lh | lhu | lui | lw | lwl | lwr
  | mfhi | mflo | mthi | mtlo | mult | multu | nor | or | ori
  /-- No word is decoded to `OP_RFE`. -/
  | rfe
  | sb | sh | sll | sllv | slt | slti | sltiu | sltu | sra | srav | srl | srlv | sub | subu
  | sw | swl | swr | xor | xori | syscall
  /-- Legal, but not implemented. -/
  | unimp
  /-- Reserved. -/
  | res
  | special
  | bcond
deriving DecidableEq

/-- `IFMT`, `JFMT` and `RFMT`. -/
inductive Format where
  | iFmt
  | jFmt
  | rFmt
deriving DecidableEq

structure OpInfo where
  opCode : OpCode
  format : Format
deriving DecidableEq

def opTable : Vector OpInfo 64 := #v[
  ⟨.special, .rFmt⟩, ⟨.bcond, .iFmt⟩, ⟨.j, .jFmt⟩, ⟨.jal, .jFmt⟩,
  ⟨.beq, .iFmt⟩, ⟨.bne, .iFmt⟩, ⟨.blez, .iFmt⟩, ⟨.bgtz, .iFmt⟩,
  ⟨.addi, .iFmt⟩, ⟨.addiu, .iFmt⟩, ⟨.slti, .iFmt⟩, ⟨.sltiu, .iFmt⟩,
  ⟨.andi, .iFmt⟩, ⟨.ori, .iFmt⟩, ⟨.xori, .iFmt⟩, ⟨.lui, .iFmt⟩,
  ⟨.unimp, .iFmt⟩, ⟨.unimp, .iFmt⟩, ⟨.unimp, .iFmt⟩, ⟨.unimp, .iFmt⟩,
  ⟨.res, .iFmt⟩, ⟨.res, .iFmt⟩, ⟨.res, .iFmt⟩, ⟨.res, .iFmt⟩,
  ⟨.res, .iFmt⟩, ⟨.res, .iFmt⟩, ⟨.res, .iFmt⟩, ⟨.res, .iFmt⟩,
  ⟨.res, .iFmt⟩, ⟨.res, .iFmt⟩, ⟨.res, .iFmt⟩, ⟨.res, .iFmt⟩,
  ⟨.lb, .iFmt⟩, ⟨.lh, .iFmt⟩, ⟨.lwl, .iFmt⟩, ⟨.lw, .iFmt⟩,
  ⟨.lbu, .iFmt⟩, ⟨.lhu, .iFmt⟩, ⟨.lwr, .iFmt⟩, ⟨.res, .iFmt⟩,
  ⟨.sb, .iFmt⟩, ⟨.sh, .iFmt⟩, ⟨.swl, .iFmt⟩, ⟨.sw, .iFmt⟩,
  ⟨.res, .iFmt⟩, ⟨.res, .iFmt⟩, ⟨.swr, .iFmt⟩, ⟨.res, .iFmt⟩,
  ⟨.unimp, .iFmt⟩, ⟨.unimp, .iFmt⟩, ⟨.unimp, .iFmt⟩, ⟨.unimp, .iFmt⟩,
  ⟨.res, .iFmt⟩, ⟨.res, .iFmt⟩, ⟨.res, .iFmt⟩, ⟨.res, .iFmt⟩,
  ⟨.unimp, .iFmt⟩, ⟨.unimp, .iFmt⟩, ⟨.unimp, .iFmt⟩, ⟨.unimp, .iFmt⟩,
  ⟨.res, .iFmt⟩, ⟨.res, .iFmt⟩, ⟨.res, .iFmt⟩, ⟨.res, .iFmt⟩]

def specialTable : Vector OpCode 64 := #v[
  .sll, .res, .srl, .sra, .sllv, .res, .srlv, .srav,
  .jr, .jalr, .res, .res, .syscall, .unimp, .res, .res,
  .mfhi, .mthi, .mflo, .mtlo, .res, .res, .res, .res,
  .mult, .multu, .div, .divu, .res, .res, .res, .res,
  .add, .addu, .sub, .subu, .and, .or, .xor, .nor,
  .res, .res, .slt, .sltu, .res, .res, .res, .res,
  .res, .res, .res, .res, .res, .res, .res, .res,
  .res, .res, .res, .res, .res, .res, .res, .res]

/-- The class `Instruction`, decoded. -/
structure Instruction where
  opCode : OpCode
  rs : BitVec 5
  rt : BitVec 5
  rd : BitVec 5
  /-- Immediate, target or shift amount. -/
  extra : BitVec 32
deriving DecidableEq

namespace Instruction

/-- The operation of a `BCOND` word, whose `rt` field is `i >> 16`. -/
def decodeBcond (value : BitVec 32) : OpCode :=
  let i := value &&& 0x1f0000
  if i = 0 then .bltz
  else if i = 0x10000 then .bgez
  else if i = 0x100000 then .bltzal
  else if i = 0x110000 then .bgezal
  else .unimp

/-- The field `extra`. -/
def decodeExtra (value : BitVec 32) : Format → BitVec 32
  | .iFmt =>
    let extra := value &&& 0xffff
    if extra &&& 0x8000 ≠ 0 then extra ||| 0xffff0000 else extra
  | .rFmt => (value >>> 6) &&& 0x1f
  | .jFmt => value &&& 0x3ffffff

/-- `Instruction::Decode`. -/
def decode (value : BitVec 32) : Instruction :=
  let op := opTable[(value.extractLsb' 26 6).toFin]
  { opCode :=
      match op.opCode with
      | .special => specialTable[(value.extractLsb' 0 6).toFin]
      | .bcond => decodeBcond value
      | opCode => opCode
    rs := value.extractLsb' 21 5
    rt := value.extractLsb' 16 5
    rd := value.extractLsb' 11 5
    extra := decodeExtra value op.format }

/-- The `switch` of `OneInstruction` has a case for the operation. -/
def executable : OpCode → Bool
  | .rfe | .special | .bcond => false
  | _ => true

theorem executable_opTable (i : Fin 64) (hspecial : opTable[i].opCode ≠ .special)
    (hbcond : opTable[i].opCode ≠ .bcond) : executable opTable[i].opCode = true := by
  revert i
  decide

theorem executable_specialTable (i : Fin 64) : executable specialTable[i] = true := by
  revert i
  decide

theorem iFmt_of_opTable (i : Fin 64)
    (h : opTable[i].opCode = .addi ∨ opTable[i].opCode = .addiu) : opTable[i].format = .iFmt := by
  revert i
  decide

theorem no_immediate_specialTable (i : Fin 64) :
    specialTable[i] ≠ .addi ∧ specialTable[i] ≠ .addiu := by
  revert i
  decide

theorem executable_decodeBcond (value : BitVec 32) : executable (decodeBcond value) = true := by
  unfold decodeBcond
  dsimp only
  split_ifs <;> rfl

/-- Every word is decoded to an operation with a case of its own. -/
theorem executable_decode (value : BitVec 32) : executable (decode value).opCode = true := by
  unfold decode
  dsimp only
  split
  · exact executable_specialTable _
  · exact executable_decodeBcond value
  next hspecial hbcond => exact executable_opTable _ hspecial hbcond

end Instruction

end Nachos
