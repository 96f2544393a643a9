import Nachos.Machine.PreciseExceptions
import Mathlib.Data.Nat.ModEq
import Mathlib.Algebra.Order.Ring.Int

/-!
# Multiplication, division and shifts (`machine/mipssim.cc`)

`Mult` is a loop that adds a shifted operand for every bit of the other one. The division and the
shifts are those of the host, on `int` or on `unsigned`, so what they compute depends on the types
of the variables around them.

* `mult_exact` — the product, of signed and of unsigned operands
* `divides_iff` — the divisions that the host can do
* `shift_iff` — the shifts that are as the MIPS defines them
-/

namespace Nachos

open Base

/-! ## Words and numbers -/

/-- The double word with the high word `hi`. -/
def doubleWord (hi lo : BitVec 32) : Nat := hi.toNat * 2 ^ 32 + lo.toNat

theorem doubleWord_lt (hi lo : BitVec 32) : doubleWord hi lo < 2 ^ 64 := by
  have hhi := hi.isLt
  have hlo := lo.isLt
  unfold doubleWord
  omega

theorem toNat_append_words (hi lo : BitVec 32) : (hi ++ lo).toNat = doubleWord hi lo := by
  rw [BitVec.toNat_append, doubleWord, Nat.shiftLeft_eq, mul_comm,
    Nat.two_pow_add_eq_or_of_lt lo.isLt]

theorem signBit_eq_msb (x : BitVec 32) : signBit x = x.msb := by
  have htwo : (0x80000000 : BitVec 32) = BitVec.twoPow 32 31 := rfl
  unfold signBit
  rw [htwo, BitVec.and_twoPow, BitVec.msb_eq_getLsbD_last]
  cases x.getLsbD 31 <;> rfl

theorem msb_eq_true_iff (x : BitVec 32) : x.msb = true ↔ 2 ^ 31 ≤ x.toNat := by
  rw [BitVec.msb_eq_decide, decide_eq_true_eq]

theorem slt_zero_eq_msb (x : BitVec 32) : x.slt 0 = x.msb := BitVec.slt_zero_eq_msb

theorem and_one_eq_zero_iff (x : BitVec 32) : x &&& 1 = 0 ↔ x.toNat % 2 = 0 := by
  rw [← BitVec.toNat_inj, BitVec.toNat_and]
  exact iff_of_eq (congrArg (· = 0) (Nat.and_one_is_mod x.toNat))

/-- No bit but the lowest one is left. -/
theorem half_eq_zero {x : BitVec 32} (h : x &&& 0xfffffffe = 0) : x.toNat / 2 = 0 := by
  have hall : (1 ||| 0xfffffffe : BitVec 32) = BitVec.allOnes 32 := rfl
  have hx : x &&& 1 = x := by
    calc x &&& 1 = (x &&& 1) ||| (x &&& 0xfffffffe) := by rw [h]; exact BitVec.or_zero.symm
      _ = x := by rw [← BitVec.and_or_distrib_left, hall, BitVec.and_allOnes]
  have hnat : x.toNat % 2 = x.toNat := by
    rw [← Nat.and_one_is_mod]
    exact congrArg BitVec.toNat hx
  omega

/-- The magnitude of a number, as a word; that of `-2^31` is `2^31`. -/
theorem toNat_abs (x : BitVec 32) : (if x.msb then -x else x).toNat = x.toInt.natAbs := by
  have hlt := x.isLt
  rw [BitVec.toInt_eq_msb_cond]
  split
  next hneg =>
    have := (msb_eq_true_iff x).mp hneg
    rw [BitVec.toNat_neg]
    omega
  next => rfl

theorem natAbs_toInt_le (x : BitVec 32) : x.toInt.natAbs ≤ 2 ^ 31 := by
  have hlt := x.isLt
  rw [BitVec.toInt_eq_toNat_cond]
  split <;> omega

/-- The two's complement of a double word, word by word. -/
theorem append_neg (hi lo : BitVec 32) :
    ((if ~~~lo + 1 = 0 then ~~~hi + 1 else ~~~hi) ++ (~~~lo + 1)) = -(hi ++ lo) := by
  have hone : (1 : BitVec 32).toNat = 1 := rfl
  have hhi := hi.isLt
  have hlo := lo.isLt
  have hzero : ~~~lo + 1 = 0 ↔ lo.toNat = 0 := by
    rw [← BitVec.toNat_inj, BitVec.toNat_add, BitVec.toNat_not, hone]
    show _ = 0 ↔ _
    omega
  refine BitVec.eq_of_toNat_eq ?_
  rw [toNat_append_words, BitVec.toNat_neg, toNat_append_words]
  unfold doubleWord
  simp only [hzero]
  split
  · simp only [BitVec.toNat_add, BitVec.toNat_not, hone]
    omega
  · simp only [BitVec.toNat_add, BitVec.toNat_not, hone]
    omega

/-! ## The loop of `Mult` -/

namespace Product

/-- The sum so far. -/
def value (p : Product) : Nat := doubleWord p.hi p.lo

/-- What the next bit of `a` stands for. -/
def addend (p : Product) : Nat := doubleWord p.bHi p.bLo

/-- The part of a pass for a bit that is set. -/
def add (p : Product) : Product :=
  { p with
    lo := p.lo + p.bLo
    hi := (if p.lo + p.bLo < p.bLo then p.hi + 1 else p.hi) + p.bHi }

/-- The rest of a pass. -/
def shift (p : Product) : Product :=
  { p with
    bHi := if signBit p.bLo then p.bHi <<< 1 ||| 1 else p.bHi <<< 1
    bLo := p.bLo <<< 1
    a := p.a.sshiftRight 1 }

theorem loop_succ (fuel : Nat) (p : Product) :
    loop (fuel + 1) p =
      if p.a &&& 1 ≠ 0 then
        if p.a &&& 0xfffffffe = 0 then p.add else loop fuel p.add.shift
      else loop fuel p.shift := by
  rw [loop]
  by_cases h : p.a &&& 1 ≠ 0
  · simp only [if_pos h]
    by_cases h' : p.a &&& 0xfffffffe = 0
    · rw [if_pos h', if_pos ⟨h, h'⟩]
      rfl
    · rw [if_neg h', if_neg (fun hc => h' hc.2)]
      rfl
  · simp only [if_neg h]
    rw [if_neg (fun hc => h hc.1)]
    rfl

theorem value_lt (p : Product) : p.value < 2 ^ 64 := doubleWord_lt p.hi p.lo

/-- The carry of the low word is added to the high one. -/
theorem value_add (p : Product) : p.add.value ≡ p.value + p.addend [MOD 2 ^ 64] := by
  have hone : (1 : BitVec 32).toNat = 1 := rfl
  have hlo := p.lo.isLt
  have hbLo := p.bLo.isLt
  unfold value addend add doubleWord Nat.ModEq
  dsimp only
  split
  next hcarry =>
    rw [BitVec.lt_def, BitVec.toNat_add] at hcarry
    simp only [BitVec.toNat_add, hone]
    omega
  next hcarry =>
    rw [BitVec.lt_def, BitVec.toNat_add] at hcarry
    simp only [BitVec.toNat_add]
    omega

theorem addend_shift (p : Product) : p.shift.addend ≡ 2 * p.addend [MOD 2 ^ 64] := by
  have htop : signBit p.bLo = true ↔ 2 ^ 31 ≤ p.bLo.toNat := by
    rw [signBit_eq_msb, msb_eq_true_iff]
  have hbLo := p.bLo.isLt
  have hbHi := p.bHi.isLt
  unfold addend shift doubleWord Nat.ModEq
  dsimp only
  rw [BitVec.toNat_shiftLeft, Nat.shiftLeft_eq]
  split
  next hsign =>
    have hge := htop.mp hsign
    have hbit : (p.bHi <<< 1 ||| 1).toNat = p.bHi.toNat * 2 % 2 ^ 32 + 1 := by
      have hone : (1 : BitVec 32).toNat = 1 := rfl
      have heven : p.bHi.toNat * 2 % 2 ^ 32 = 2 ^ 1 * (p.bHi.toNat % 2 ^ 31) := by omega
      rw [BitVec.toNat_or, BitVec.toNat_shiftLeft, Nat.shiftLeft_eq, hone, pow_one, heven,
        Nat.two_pow_add_eq_or_of_lt (by decide : 1 < 2 ^ 1)]
    rw [hbit]
    omega
  next hsign =>
    have hlt := mt htop.mpr hsign
    rw [BitVec.toNat_shiftLeft, Nat.shiftLeft_eq]
    omega

/-- The copies of the sign that are shifted into `a` are not reached. -/
theorem shift_a_mod {fuel : Nat} (h : fuel ≤ 31) (p : Product) :
    p.shift.a.toNat % 2 ^ fuel = p.a.toNat / 2 % 2 ^ fuel := by
  have hpow : 2 ^ 31 = 2 ^ fuel * 2 ^ (31 - fuel) := by
    rw [← pow_add, Nat.add_sub_cancel' h]
  have hlt := p.a.isLt
  unfold shift
  dsimp only
  rw [BitVec.toNat_sshiftRight]
  split
  next hmsb =>
    have hge := (msb_eq_true_iff p.a).mp hmsb
    have hsum : 2 ^ 32 - 1 - (2 ^ 32 - 1 - p.a.toNat) >>> 1 = p.a.toNat / 2 + 2 ^ 31 := by
      rw [Nat.shiftRight_eq_div_pow]
      omega
    rw [hsum, hpow, Nat.add_mul_mod_self_left]
  next => rw [Nat.shiftRight_eq_div_pow, pow_one]

/-- The loop adds the product with the low bits of `a`, one for each pass. -/
theorem value_loop {fuel : Nat} (h : fuel ≤ 32) (p : Product) :
    (loop fuel p).value ≡ p.value + p.addend * (p.a.toNat % 2 ^ fuel) [MOD 2 ^ 64] := by
  induction fuel generalizing p with
  | zero =>
    rw [pow_zero, Nat.mod_one, mul_zero, add_zero]
    rfl
  | succ fuel ih =>
    have hbits : p.a.toNat % 2 ^ (fuel + 1) =
        p.a.toNat % 2 + 2 * (p.shift.a.toNat % 2 ^ fuel) := by
      rw [shift_a_mod (by omega), pow_succ', Nat.mod_mul]
    have hrest : ∀ q : Product, q.a = p.a → q.addend = p.addend → (loop fuel q.shift).value ≡
        q.value + 2 * p.addend * (p.shift.a.toNat % 2 ^ fuel) [MOD 2 ^ 64] := by
      intro q ha hb
      have hq : q.shift.a = p.shift.a := congrArg (BitVec.sshiftRight · 1) ha
      refine (ih (by omega) q.shift).trans ?_
      rw [hq, ← hb]
      exact Nat.ModEq.add_left _ ((addend_shift q).mul_right _)
    rw [loop_succ, hbits, Nat.mul_add, ← add_assoc, ← mul_assoc, mul_comm _ 2]
    split
    next hodd =>
      have hone : p.a.toNat % 2 = 1 := by
        have := mt (and_one_eq_zero_iff p.a).mpr hodd
        omega
      rw [hone, mul_one]
      split
      next hlast =>
        rw [shift_a_mod (by omega), half_eq_zero hlast, Nat.zero_mod, mul_zero, add_zero]
        exact value_add p
      next =>
        refine (hrest p.add rfl rfl).trans ?_
        exact (value_add p).add_right _
    next heven =>
      have hzero : p.a.toNat % 2 = 0 := (and_one_eq_zero_iff p.a).mp (not_not.mp heven)
      rw [hzero, mul_zero, add_zero]
      exact hrest p rfl rfl

/-- The whole loop multiplies. -/
theorem value_start (a b : BitVec 32) :
    (loop 32 ⟨a, 0, b, 0, 0⟩).value = a.toNat * b.toNat := by
  have hmod := value_loop (le_refl 32) ⟨a, 0, b, 0, 0⟩
  have hstart : value ⟨a, 0, b, 0, 0⟩ = 0 := by simp [value, doubleWord]
  have haddend : addend ⟨a, 0, b, 0, 0⟩ = b.toNat := by simp [addend, doubleWord]
  have hlt : b.toNat * a.toNat < 2 ^ 64 := by
    calc b.toNat * a.toNat < 2 ^ 32 * 2 ^ 32 := Nat.mul_lt_mul'' b.isLt a.isLt
      _ = 2 ^ 64 := rfl
  rw [hstart, haddend, Nat.mod_eq_of_lt a.isLt, zero_add] at hmod
  rw [mul_comm a.toNat]
  exact hmod.eq_of_lt_of_lt (value_lt _) hlt

end Product

theorem mult_unsigned (a b : BitVec 32) :
    ((mult a b false).1 ++ (mult a b false).2).toNat = a.toNat * b.toNat := by
  unfold mult
  split
  next hzero => rcases hzero with rfl | rfl <;> simp
  next =>
    simp only [Bool.false_and, Bool.false_eq_true, if_false]
    rw [toNat_append_words]
    exact Product.value_start a b

/-- The magnitudes are multiplied, and the sign of the product is put right afterwards. -/
theorem mult_signed (a b : BitVec 32) :
    ((mult a b true).1 ++ (mult a b true).2).toInt = a.toInt * b.toInt := by
  unfold mult
  split
  next hzero => rcases hzero with rfl | rfl <;> simp
  next =>
    simp only [Bool.true_and, slt_zero_eq_msb]
    generalize hp : Product.loop 32 _ = p
    have hvalue : (p.hi ++ p.lo).toNat = (a.toInt * b.toInt).natAbs := by
      rw [toNat_append_words, Int.natAbs_mul, ← toNat_abs, ← toNat_abs, ← hp]
      exact Product.value_start _ _
    have hle : (a.toInt * b.toInt).natAbs ≤ 2 ^ 62 := by
      rw [Int.natAbs_mul]
      calc a.toInt.natAbs * b.toInt.natAbs ≤ 2 ^ 31 * 2 ^ 31 :=
            Nat.mul_le_mul (natAbs_toInt_le a) (natAbs_toInt_le b)
        _ = 2 ^ 62 := rfl
    have hmsb : (p.hi ++ p.lo).msb = false := by
      rw [BitVec.msb_eq_decide, decide_eq_false_iff_not, hvalue]
      omega
    have hpos : (p.hi ++ p.lo).toInt = (a.toInt * b.toInt).natAbs := by
      rw [BitVec.toInt_eq_toNat_of_msb hmsb, hvalue]
    rw [BitVec.msb_eq_toInt, BitVec.msb_eq_toInt]
    split
    next hsigns =>
      have hprod : a.toInt * b.toInt ≤ 0 := by
        rcases lt_or_ge a.toInt 0 with ha | ha <;> rcases lt_or_ge b.toInt 0 with hb | hb
        · simp [ha, hb] at hsigns
        · exact mul_nonpos_of_nonpos_of_nonneg ha.le hb
        · exact mul_nonpos_of_nonneg_of_nonpos ha hb.le
        · simp [not_lt.mpr ha, not_lt.mpr hb] at hsigns
      rw [append_neg, BitVec.toInt_neg_eq_of_msb hmsb, hpos]
      omega
    next hsigns =>
      have hprod : 0 ≤ a.toInt * b.toInt := by
        rcases lt_or_ge a.toInt 0 with ha | ha <;> rcases lt_or_ge b.toInt 0 with hb | hb
        · exact mul_nonneg_of_nonpos_of_nonpos ha.le hb.le
        · simp [ha, not_lt.mpr hb] at hsigns
        · simp [hb, not_lt.mpr ha] at hsigns
        · exact mul_nonneg ha hb
      rw [hpos]
      omega

/-- `Mult` leaves the product of the signed, or of the unsigned, operands in `hi` and `lo`. -/
theorem mult_exact (a b : BitVec 32) :
    ((mult a b true).1 ++ (mult a b true).2).toInt = a.toInt * b.toInt ∧
      ((mult a b false).1 ++ (mult a b false).2).toNat = a.toNat * b.toNat :=
  ⟨mult_signed a b, mult_unsigned a b⟩

/-! ## Division -/

section Division

variable {n : Nat}

/-- `lo` and `hi` are the quotient of `rs` and `rt`, rounded towards 0, and its remainder. -/
structure SignedQuotient (rs rt lo hi : BitVec 32) : Prop where
  sum : rs = lo * rt + hi
  small : hi.toInt.natAbs < rt.toInt.natAbs
  nonneg : 0 ≤ rs.toInt → 0 ≤ hi.toInt
  nonpos : rs.toInt ≤ 0 → hi.toInt ≤ 0

/-- The same for unsigned numbers. -/
structure UnsignedQuotient (rs rt lo hi : BitVec 32) : Prop where
  quotient : lo.toNat = rs.toNat / rt.toNat
  remainder : hi.toNat = rs.toNat % rt.toNat

/-- `DIV` (`signed`) or `DIVU` goes on behind the `switch`, with the quotient if there is one. -/
def Executed.Divides (signed : Bool) (rs rt : BitVec 32) : Executed n → Prop
  | .next regs _ _ _ _ => rt ≠ 0 →
    if signed then SignedQuotient rs rt (regs loReg) (regs hiReg)
    else UnsignedQuotient rs rt (regs loReg) (regs hiReg)
  | _ => False

/-- The division of the host on two `int`s. -/
theorem signedQuotient_sdiv {rs rt : BitVec 32} (hrt : rt ≠ 0)
    (h : ¬ (rs = BitVec.intMin 32 ∧ rt = -1)) :
    SignedQuotient rs rt (rs.sdiv rt) (rs.srem rt) := by
  have hne : rt.toInt ≠ 0 := fun h0 => hrt (BitVec.eq_of_toInt_eq h0)
  have hdiv : (rs.sdiv rt).toInt = rs.toInt.tdiv rt.toInt :=
    BitVec.toInt_sdiv_of_ne_or_ne rs rt (not_and_or.mp h)
  have hmod : (rs.srem rt).toInt = rs.toInt.tmod rt.toInt := BitVec.toInt_srem rs rt
  constructor
  · calc rs = BitVec.ofInt 32 rs.toInt := BitVec.ofInt_toInt.symm
      _ = BitVec.ofInt 32 (rs.toInt.tdiv rt.toInt * rt.toInt + rs.toInt.tmod rt.toInt) := by
          rw [Int.tdiv_mul_add_tmod]
      _ = rs.sdiv rt * rt + rs.srem rt := by
          rw [BitVec.ofInt_add, BitVec.ofInt_mul, ← hdiv, ← hmod, BitVec.ofInt_toInt,
            BitVec.ofInt_toInt, BitVec.ofInt_toInt]
  · rw [hmod, Int.natAbs_tmod]
    exact Nat.mod_lt _ (Int.natAbs_pos.mpr hne)
  · intro hrs
    rw [hmod]
    exact Int.tmod_nonneg _ hrs
  · intro hrs
    have hneg : 0 ≤ (-rs.toInt).tmod rt.toInt := Int.tmod_nonneg _ (Int.neg_nonneg.mpr hrs)
    rw [Int.neg_tmod] at hneg
    rw [hmod]
    exact Int.neg_nonneg.mp hneg

theorem unsignedQuotient_div (rs rt : BitVec 32) : UnsignedQuotient rs rt (rs / rt) (rs % rt) :=
  ⟨BitVec.toNat_udiv, BitVec.toNat_umod⟩

theorem Instruction.execute_div {instr : Instruction} (h : instr.opCode = .div) (regs : Registers)
    (m : Machine n) : instr.execute regs m =
      if regs.gp instr.rt = 0 then .next (regs.setHiLo 0 0) m (regs nextPCReg + 4) 0 0
      else if regs.gp instr.rs = BitVec.intMin 32 ∧ regs.gp instr.rt = -1 then .hostFault
      else .next (regs.setHiLo ((regs.gp instr.rs).srem (regs.gp instr.rt))
        ((regs.gp instr.rs).sdiv (regs.gp instr.rt))) m (regs nextPCReg + 4) 0 0 := by
  obtain ⟨opCode, rs, rt, rd, extra⟩ := instr
  obtain rfl : opCode = .div := h
  rfl

theorem Instruction.execute_divu {instr : Instruction} (h : instr.opCode = .divu)
    (regs : Registers) (m : Machine n) : instr.execute regs m =
      if regs.gp instr.rt = 0 then .next (regs.setHiLo 0 0) m (regs nextPCReg + 4) 0 0
      else .next (regs.setHiLo (regs.gp instr.rs % regs.gp instr.rt)
        (regs.gp instr.rs / regs.gp instr.rt)) m (regs nextPCReg + 4) 0 0 := by
  obtain ⟨opCode, rs, rt, rd, extra⟩ := instr
  obtain rfl : opCode = .divu := h
  rfl

theorem divides_div {instr : Instruction} (hop : instr.opCode = .div) (regs : Registers)
    (m : Machine n) :
    (instr.execute regs m).Divides true (regs.gp instr.rs) (regs.gp instr.rt) ↔
      ¬ (regs.gp instr.rs = BitVec.intMin 32 ∧ regs.gp instr.rt = -1) := by
  rw [Instruction.execute_div hop]
  split
  next hzero =>
    refine iff_of_true (fun hne => absurd hzero hne) ?_
    rintro ⟨_, hone⟩
    rw [hzero] at hone
    cases hone
  next hne =>
    split
    next hfault => exact iff_of_false (fun h => h) (not_not.mpr hfault)
    next hquotient =>
      refine iff_of_true (fun _ => ?_) hquotient
      rw [if_pos rfl, Registers.setHiLo_loReg, Registers.setHiLo_hiReg]
      exact signedQuotient_sdiv hne hquotient

theorem divides_divu {instr : Instruction} (hop : instr.opCode = .divu) (regs : Registers)
    (m : Machine n) :
    (instr.execute regs m).Divides false (regs.gp instr.rs) (regs.gp instr.rt) := by
  rw [Instruction.execute_divu hop]
  split
  next hzero => exact fun hne => absurd hzero hne
  next =>
    intro _
    rw [if_neg Bool.false_ne_true, Registers.setHiLo_loReg, Registers.setHiLo_hiReg]
    exact unsignedQuotient_div _ _

/--
`DIV` and `DIVU` complete, with quotient and remainder, except when `DIV` divides the least `int`
by -1. There the quotient of the host is no `int`.
-/
theorem divides_iff {instr : Instruction} {signed : Bool}
    (hop : instr.opCode = if signed then .div else .divu) (regs : Registers) (m : Machine n) :
    (instr.execute regs m).Divides signed (regs.gp instr.rs) (regs.gp instr.rt) ↔
      ¬ (signed = true ∧ regs.gp instr.rs = BitVec.intMin 32 ∧ regs.gp instr.rt = -1) := by
  cases signed with
  | false => exact iff_of_true (divides_divu hop regs m) (fun h => Bool.false_ne_true h.1)
  | true =>
    rw [divides_div hop]
    simp

end Division

/-- Registers 1 and 2 are the operands. -/
def operands (rs rt : BitVec 32) : Registers :=
  ((Registers.initRegisters 1).writeRegister 1 rs).writeRegister 2 rt

/-- `DIV` of registers 1 and 2. -/
def divPage : Machine 1 := programPage [0x0022001a]

theorem divides_iff_seven :
    ((Instruction.decode 0x0022001a).execute (operands 7 (-2)) divPage).Divides true 7 (-2) := by
  have hop : (Instruction.decode 0x0022001a).opCode = if true then .div else .divu := by decide
  exact (divides_iff hop (operands 7 (-2)) divPage).mpr (by decide)

/-- The host faults on the quotient of the least `int` and -1. -/
theorem least_int_not_divided :
    oneInstruction (operands (BitVec.intMin 32) (-1)) divPage = .hostFault ∧
      ¬ ((Instruction.decode 0x0022001a).execute (operands (BitVec.intMin 32) (-1))
        divPage).Divides true (BitVec.intMin 32) (-1) :=
  ⟨rfl, fun h => h⟩

/-! ## Writing a register -/

/-- With no load pending, an instruction that writes a register changes no other one. -/
theorem Executed.finish_wrote {n : Nat} {regs : Registers} (hload : regs loadReg = 0)
    (m : Machine n) (r : BitVec 5) (v pcAfter : BitVec 32) :
    ∃ regs', (Executed.next (regs.setGp r v) m pcAfter 0 0).finish = .finished regs' m ∧
      ∀ q, regs'.gp q = if q = 0 then 0 else if q = r then v else regs.gp q := by
  have hnone : regs.setGp r v loadReg = (0 : BitVec 5).setWidth 32 := by
    rw [Registers.setGp_of_le (by decide), hload]
    rfl
  refine ⟨((regs.setGp r v).delayed 0 0 0).advance pcAfter, ?_, ?_⟩
  · unfold Executed.finish
    dsimp only
    rw [Registers.delayedLoad_eq hnone]
    rfl
  · intro q
    rw [Registers.advance_gp, Registers.delayed_gp, Registers.gp_setGp]
    by_cases hq : q = 0
    · rw [if_pos hq, if_pos hq]
    · rw [if_neg hq, if_neg hq, if_neg hq]

/-- An instruction that raises an exception changes none. -/
theorem Executed.finish_raised {n : Nat} {regs : Registers} (hload : regs loadReg = 0)
    (m : Machine n) (which : Trap) (badVAddr : BitVec 32) :
    ∃ regs', (Executed.raised which badVAddr regs m).finish = .trapped which regs' m ∧
      ∀ q, regs'.gp q = if q = 0 then 0 else regs.gp q := by
  have hnone : regs.writeRegister badVAddrReg badVAddr loadReg = (0 : BitVec 5).setWidth 32 := by
    unfold Registers.writeRegister
    rw [Function.update_of_ne (by decide), hload]
    rfl
  refine ⟨(regs.writeRegister badVAddrReg badVAddr).delayed 0 0 0, ?_, ?_⟩
  · unfold Executed.finish raiseException
    dsimp only
    rw [Registers.delayedLoad_eq hnone]
  · intro q
    have hgp : (regs.writeRegister badVAddrReg badVAddr).gp q = regs.gp q :=
      Function.update_of_ne (gpReg_ne (by decide) q).symm _ _
    rw [Registers.delayed_gp, hgp]
    by_cases hq : q = 0
    · rw [if_pos hq, if_pos hq]
    · rw [if_neg hq, if_neg hq, if_neg hq]

/-! ## Shifts -/

/-- The shift instructions. -/
inductive ShiftOp where
  | sll
  | sllv
  | srl
  | srlv
  | sra
  | srav
deriving DecidableEq

namespace ShiftOp

/-- The `funct` field. -/
def funct : ShiftOp → BitVec 6
  | sll => 0
  | srl => 2
  | sra => 3
  | sllv => 4
  | srlv => 6
  | srav => 7

def opCode : ShiftOp → OpCode
  | sll => .sll
  | sllv => .sllv
  | srl => .srl
  | srlv => .srlv
  | sra => .sra
  | srav => .srav

/-- The instruction word. -/
def word (op : ShiftOp) (rs rt rd shamt : BitVec 5) : BitVec 32 :=
  0#6 ++ rs ++ rt ++ rd ++ shamt ++ op.funct

/-- The shift amount: of the instruction, or the five low bits of a register. -/
def amount (op : ShiftOp) (shamt : BitVec 5) (rs : BitVec 32) : Nat :=
  match op with
  | sll | srl | sra => shamt.toNat
  | sllv | srlv | srav => rs.toNat % 32

/-- What the MIPS makes of `rt` shifted by `s`. -/
def Meets (op : ShiftOp) (rt : BitVec 32) (s : Nat) (result : BitVec 32) : Prop :=
  match op with
  | sll | sllv => result.toNat = rt.toNat * 2 ^ s % 2 ^ 32
  | srl | srlv => result.toNat = rt.toNat / 2 ^ s
  | sra | srav => result.toInt = rt.toInt.fdiv (2 ^ s)

instance (op : ShiftOp) (rt : BitVec 32) (s : Nat) (result : BitVec 32) :
    Decidable (op.Meets rt s result) :=
  match op with
  | sll | sllv | srl | srlv => inferInstanceAs (Decidable (_ = (_ : Nat)))
  | sra | srav => inferInstanceAs (Decidable (_ = (_ : Int)))

/-- What the host makes of it. -/
def shifted (op : ShiftOp) (rt : BitVec 32) (s : Nat) : BitVec 32 :=
  match op with
  | sll | sllv => rt <<< s
  | srl | srlv | sra | srav => rt.sshiftRight s

def logicalRight : ShiftOp → Bool
  | srl | srlv => true
  | _ => false

theorem shamt_eq (value : BitVec 32) :
    (value >>> 6) &&& 0x1f = (value.extractLsb' 6 5).setWidth 32 := by
  refine BitVec.eq_of_toNat_eq ?_
  have hmask : (0x1f : BitVec 32).toNat = 2 ^ 5 - 1 := rfl
  rw [BitVec.toNat_and, hmask, Nat.and_two_pow_sub_one_eq_mod, BitVec.toNat_ushiftRight,
    BitVec.toNat_setWidth_of_le (by decide), BitVec.extractLsb'_toNat]

/-- Each field of the word is where it was put. -/
theorem fields (op : ShiftOp) (rs rt rd shamt : BitVec 5) :
    (op.word rs rt rd shamt).extractLsb' 26 6 = 0 ∧
      (op.word rs rt rd shamt).extractLsb' 21 5 = rs ∧
      (op.word rs rt rd shamt).extractLsb' 16 5 = rt ∧
      (op.word rs rt rd shamt).extractLsb' 11 5 = rd ∧
      (op.word rs rt rd shamt).extractLsb' 6 5 = shamt ∧
      (op.word rs rt rd shamt).extractLsb' 0 6 = op.funct := by
  simp (disch := decide) only [word, extractLsb'_append_of_le, extractLsb'_append_of_add_le]
  refine ⟨?_, ?_, ?_, ?_, ?_, ?_⟩
  all_goals exact BitVec.extractLsb'_eq_self

theorem decode_word (op : ShiftOp) (rs rt rd shamt : BitVec 5) :
    Instruction.decode (op.word rs rt rd shamt) =
      ⟨op.opCode, rs, rt, rd, shamt.setWidth 32⟩ := by
  obtain ⟨hop, hrs, hrt, hrd, hshamt, hfunct⟩ := op.fields rs rt rd shamt
  unfold Instruction.decode
  simp only [hop, hrs, hrt, hrd, hfunct]
  have hspecial : opTable[(0 : BitVec 6).toFin] = ⟨.special, .rFmt⟩ := rfl
  rw [hspecial]
  simp only [Instruction.decodeExtra, shamt_eq, hshamt, Instruction.mk.injEq, and_true]
  cases op <;> rfl

theorem execute_shift {n : Nat} (op : ShiftOp) (rs rt rd shamt : BitVec 5) (regs : Registers)
    (m : Machine n) :
    (Instruction.mk op.opCode rs rt rd (shamt.setWidth 32)).execute regs m =
      .next (regs.setGp rd (op.shifted (regs.gp rt) (op.amount shamt (regs.gp rs)))) m
        (regs nextPCReg + 4) 0 0 := by
  have hshamt : (shamt.setWidth 32).toNat = shamt.toNat :=
    BitVec.toNat_setWidth_of_le (by decide)
  have hrs : (regs.gp rs &&& 0x1f).toNat = (regs.gp rs).toNat % 32 := by
    have hmask : (0x1f : BitVec 32).toNat = 2 ^ 5 - 1 := rfl
    rw [BitVec.toNat_and, hmask, Nat.and_two_pow_sub_one_eq_mod]
  cases op with
  | sll | srl | sra =>
    unfold amount
    dsimp only
    rw [← hshamt]
    rfl
  | sllv | srlv | srav =>
    unfold amount
    dsimp only
    rw [← hrs]
    rfl

/-- A logical shift is done as an arithmetic one. -/
theorem meets_shifted_iff (op : ShiftOp) (rt : BitVec 32) (s : Nat) :
    op.Meets rt s (op.shifted rt s) ↔ (op.logicalRight = true → rt.msb = false ∨ s = 0) := by
  cases op with
  | sll | sllv =>
    refine iff_of_true ?_ (fun h => by cases h)
    show (rt <<< s).toNat = _
    rw [BitVec.toNat_shiftLeft, Nat.shiftLeft_eq]
  | sra | srav =>
    refine iff_of_true ?_ (fun h => by cases h)
    show (rt.sshiftRight s).toInt = _
    rw [BitVec.toInt_sshiftRight, Int.shiftRight_eq_div_pow,
      Int.fdiv_eq_ediv_of_nonneg _ (pow_nonneg (by decide) s), Nat.cast_pow]
    rfl
  | srl | srlv =>
    show (rt.sshiftRight s).toNat = rt.toNat / 2 ^ s ↔ _
    simp only [logicalRight, forall_const]
    cases hmsb : rt.msb with
    | false =>
      refine iff_of_true ?_ (.inl rfl)
      rw [BitVec.toNat_sshiftRight_of_msb_false hmsb, Nat.shiftRight_eq_div_pow]
    | true =>
      by_cases hs : s = 0
      · subst hs
        simp
      · -- The sign is still there, but the quotient has become smaller.
        refine iff_of_false ?_ (by simp [hs])
        have hge : 2 ^ 31 ≤ (rt.sshiftRight s).toNat := by
          rw [← msb_eq_true_iff, BitVec.msb_sshiftRight, hmsb]
        have hlt : rt.toNat / 2 ^ s < 2 ^ 31 := by
          have htwo : 2 ≤ 2 ^ s := Nat.le_self_pow hs 2
          calc rt.toNat / 2 ^ s ≤ rt.toNat / 2 := Nat.div_le_div_left htwo (by decide)
            _ < 2 ^ 31 := by
              have := rt.isLt
              omega
        omega

/-- The registers behind a shift instruction. -/
theorem oneInstruction_shift {n : Nat} (op : ShiftOp) {rs rt rd shamt : BitVec 5}
    {regs : Registers} {m m₁ : Machine n}
    (hfetch : m.readMem (regs pcReg) 4 = .done (m₁, op.word rs rt rd shamt))
    (hload : regs loadReg = 0) :
    ∃ regs', oneInstruction regs m = .finished regs' m₁ ∧ ∀ r, regs'.gp r =
      if r = 0 then 0
      else if r = rd then op.shifted (regs.gp rt) (op.amount shamt (regs.gp rs))
      else regs.gp r := by
  unfold oneInstruction
  rw [hfetch]
  dsimp only
  rw [decode_word, execute_shift]
  exact Executed.finish_wrote hload _ _ _ _

/--
A shift instruction does what the MIPS defines, unless it shifts a negative number to the right
without its sign.
-/
theorem shift_iff {n : Nat} (op : ShiftOp) {rs rt rd shamt : BitVec 5} {regs : Registers}
    {m m₁ : Machine n}
    (hfetch : m.readMem (regs pcReg) 4 = .done (m₁, op.word rs rt rd shamt)) (hrd : rd ≠ 0)
    (hload : regs loadReg = 0) :
    (∃ regs', oneInstruction regs m = .finished regs' m₁ ∧
      op.Meets (regs.gp rt) (op.amount shamt (regs.gp rs)) (regs'.gp rd) ∧
      ∀ r, r ≠ rd → regs'.gp r = if r = 0 then 0 else regs.gp r) ↔
    (op.logicalRight = true → (regs.gp rt).msb = false ∨ op.amount shamt (regs.gp rs) = 0) := by
  obtain ⟨regs₁, hrun, hgp⟩ := oneInstruction_shift op hfetch hload
  have hresult : regs₁.gp rd = op.shifted (regs.gp rt) (op.amount shamt (regs.gp rs)) := by
    rw [hgp, if_neg hrd, if_pos rfl]
  rw [← meets_shifted_iff, ← hresult]
  constructor
  · rintro ⟨regs', hrun', hmeets, _⟩
    rw [hrun] at hrun'
    cases hrun'
    exact hmeets
  · intro hmeets
    refine ⟨regs₁, hrun, hmeets, ?_⟩
    intro r hr
    rw [hgp, if_neg hr]

/-- A page with the shift of register 2 into register 3 by one. -/
def page (op : ShiftOp) : Machine 1 := programPage [op.word 0 2 3 1]

theorem shift_iff_sra :
    ∃ regs' m', oneInstruction (operands 0 0x80000000) (page .sra) = .finished regs' m' ∧
      ShiftOp.sra.Meets 0x80000000 1 (regs'.gp 3) := by
  have hfetch : (page .sra).readMem (operands 0 0x80000000 pcReg) 4 =
      .done (_, ShiftOp.sra.word 0 2 3 1) := rfl
  obtain ⟨regs', hrun, hmeets, _⟩ :=
    (shift_iff .sra hfetch (by decide) (by decide)).mpr (by decide)
  exact ⟨regs', _, hrun, hmeets⟩

/-- `SRL` of `0x80000000` by 1 is `0xc0000000`. -/
theorem srl_keeps_sign :
    ¬ ∃ regs' m', oneInstruction (operands 0 0x80000000) (page .srl) = .finished regs' m' ∧
      ShiftOp.srl.Meets 0x80000000 1 (regs'.gp 3) := by
  rintro ⟨regs', m', hrun, hmeets⟩
  have hresult : regs'.gp 3 = 0xc0000000 := by
    cases hrun
    rfl
  rw [hresult] at hmeets
  exact absurd hmeets (by decide)

end ShiftOp

end Nachos
