import Nachos.Base.Decimal
import Nachos.Machine.Arithmetic
import Nachos.Userprog.FileCalls

/-!
# Numbers on the console (`userprog/ksyscall.h`)

`SysReadNum` parses a line as a decimal integer while it reads it, and `SysPrintNum` prints one.
Both compute with `int`s that wrap.

* `readNum_exact` — what `SysReadNum` makes of a line
* `printNum_exact_iff` — the numbers that `SysPrintNum` prints
-/

namespace Nachos

open Base

/-! ## ReadNum -/

/-- The first loop: the first character that is no newline. `none`: it waits for one. -/
def skipNewlines : List (BitVec 8) → Option (BitVec 8 × List (BitVec 8))
  | [] => none
  | c :: input => if c = 10 then skipNewlines input else some (c, input)

/-- The second loop: `result` at the end of the line, and the characters behind it. -/
def readDigits (result : BitVec 32) (valid : Bool) :
    List (BitVec 8) → Option (BitVec 32 × List (BitVec 8))
  | [] => none
  | c :: input =>
    if isDigit c && valid then readDigits (result * 10 + c.signExtend 32 - 48) valid input
    else if c ≠ 10 then readDigits 0 false input
    else some (result, input)

/-- `SysReadNum`, with the characters that the console delivers: the number, and what is left. -/
def sysReadNum (input : List (BitVec 8)) : Option (BitVec 32 × List (BitVec 8)) :=
  (skipNewlines input).bind fun (c, input) =>
    let negative := c == 45
    let result : BitVec 32 := if negative then 0 else if isDigit c then c.signExtend 32 - 48 else 0
    let valid := negative || isDigit c
    (readDigits result valid input).map fun (result, input) =>
      (if negative then result * -1 else result, input)

theorem isDigit_newline : isDigit 10 = false := by decide

/-- Newlines in front of a line do not matter. -/
theorem sysReadNum_newlines (k : Nat) (input : List (BitVec 8)) :
    sysReadNum (List.replicate k 10 ++ input) = sysReadNum input := by
  induction k with
  | zero => rfl
  | succ k ih =>
    rw [← ih]
    unfold sysReadNum
    rw [List.replicate_succ, List.cons_append, skipNewlines, if_pos rfl]

/-- After a character that is not valid the rest of the line does not matter. -/
theorem readDigits_invalid {w : List (BitVec 8)} (hw : 10 ∉ w) (rest : List (BitVec 8)) :
    readDigits 0 false (w ++ 10 :: rest) = some (0, rest) := by
  induction w with
  | nil => rfl
  | cons c w ih =>
    obtain ⟨hc, hw⟩ := not_or.mp (mt List.mem_cons.mpr hw)
    rw [List.cons_append, readDigits, Bool.and_false, if_neg Bool.false_ne_true,
      if_pos (Ne.symm hc), ih hw]

theorem ofInt_digit (v : Int) (c : BitVec 8) :
    BitVec.ofInt 32 v * 10 + c.signExtend 32 - 48 = BitVec.ofInt 32 (v * 10 + digitValue c) := by
  have hten : (10 : BitVec 32) = BitVec.ofInt 32 10 := rfl
  have hminus : -(48 : BitVec 32) = BitVec.ofInt 32 (-48) := rfl
  have hsign : c.signExtend 32 = BitVec.ofInt 32 c.toInt := rfl
  unfold digitValue
  rw [BitVec.sub_eq_add_neg, hten, hminus, hsign, ← BitVec.ofInt_mul, ← BitVec.ofInt_add,
    ← BitVec.ofInt_add, Int.sub_eq_add_neg, Int.add_assoc]

/-- The loop computes the number while it comes across digits only. -/
theorem readDigits_valid {w : List (BitVec 8)} (hw : 10 ∉ w) (v : Int) (rest : List (BitVec 8)) :
    readDigits (BitVec.ofInt 32 v) true (w ++ 10 :: rest) =
      some (if w.all isDigit then BitVec.ofInt 32 (decimalFrom v w) else 0, rest) := by
  induction w generalizing v with
  | nil => rfl
  | cons c w ih =>
    obtain ⟨hc, hw⟩ := not_or.mp (mt List.mem_cons.mpr hw)
    rw [List.cons_append, readDigits, Bool.and_true, List.all_cons]
    cases hdigit : isDigit c with
    | true =>
      rw [if_pos rfl, ofInt_digit, ih hw, Bool.true_and]
      rfl
    | false =>
      rw [if_neg Bool.false_ne_true, if_pos (Ne.symm hc), readDigits_invalid hw, Bool.false_and]
      rfl

theorem sysReadNum_line {w : List (BitVec 8)} (hne : w ≠ []) (hw : 10 ∉ w)
    (rest : List (BitVec 8)) :
    sysReadNum (w ++ 10 :: rest) = some (BitVec.ofInt 32 ((numeralValue w).getD 0), rest) := by
  obtain ⟨c, ds, rfl⟩ := List.exists_cons_of_ne_nil hne
  obtain ⟨hc, hds⟩ := not_or.mp (mt List.mem_cons.mpr hw)
  unfold sysReadNum
  rw [List.cons_append, skipNewlines, if_neg (Ne.symm hc), Option.bind_some]
  dsimp only
  by_cases hminus : c = 45
  · subst hminus
    have hneg : ∀ v : Int, BitVec.ofInt 32 v * -1 = BitVec.ofInt 32 (-v) := by
      intro v
      have hone : (-1 : BitVec 32) = BitVec.ofInt 32 (-1) := rfl
      rw [hone, ← BitVec.ofInt_mul, Int.mul_neg_one]
    have hbeq : ((45 : BitVec 8) == 45) = true := rfl
    have hread : readDigits 0 true (ds ++ 10 :: rest) = _ := readDigits_valid hds 0 rest
    rw [hbeq, if_pos rfl, Bool.true_or, numeralValue, if_pos rfl, hread, Option.map_some]
    cases ds.all isDigit with
    | true =>
      rw [if_pos rfl, if_pos rfl, hneg]
      rfl
    | false =>
      have hzero : (0 : BitVec 32) * -1 = BitVec.ofInt 32 0 := by decide
      rw [if_neg Bool.false_ne_true, if_neg Bool.false_ne_true, hzero]
      rfl
  · have hbeq : (c == 45) = false := beq_eq_false_iff_ne.mpr hminus
    rw [hbeq, Bool.false_or, if_neg Bool.false_ne_true, numeralValue, if_neg hminus, List.all_cons]
    cases hdigit : isDigit c with
    | true =>
      have hfirst : c.signExtend 32 - 48 = BitVec.ofInt 32 (0 * 10 + digitValue c) := by
        have hzero : BitVec.ofInt 32 0 * 10 = 0#32 := rfl
        rw [← ofInt_digit, hzero, BitVec.zero_add]
      rw [if_pos rfl, hfirst, readDigits_valid hds, Bool.true_and, Option.map_some]
      cases ds.all isDigit with
      | true => rfl
      | false => rfl
    | false =>
      rw [if_neg Bool.false_ne_true, readDigits_invalid hds, Bool.false_and,
        if_neg Bool.false_ne_true]
      rfl

/--
`ReadNum` skips the empty lines, takes the next one and leaves the rest. The line is taken for the
number that it stands for, modulo `2^32`, and for 0 if it is no numeral.
-/
theorem readNum_exact (k : Nat) {w : List (BitVec 8)} (hne : w ≠ []) (hw : 10 ∉ w)
    (rest : List (BitVec 8)) :
    sysReadNum (List.replicate k 10 ++ (w ++ 10 :: rest)) =
      some (BitVec.ofInt 32 ((numeralValue w).getD 0), rest) := by
  rw [sysReadNum_newlines, sysReadNum_line hne hw]

/-- `-12` behind an empty line. -/
theorem readNum_exact_minus_twelve :
    sysReadNum [10, 45, 49, 50, 10, 98] = some (BitVec.ofInt 32 (-12), [98]) := by
  have hw : (10 : BitVec 8) ∉ [45, 49, 50] := by decide
  exact readNum_exact 1 (List.cons_ne_nil _ _) hw [98]

/-! ## PrintNum -/

/--
The loop of `SysPrintNum`: the digits in the order in which they go into `arr`, which has room for
`k` more. `none`: there are more digits.
-/
def separate (number : BitVec 32) : Nat → Option (List (BitVec 8))
  | 0 => none
  | k + 1 =>
    let digit := number.srem 10
    let number := number.sdiv 10
    let c := (digit + 48).setWidth 8
    if number = 0 then some [c] else (separate number k).map fun arr => c :: arr

/-- `SysPrintNum`: the characters that it sends to the console. -/
def sysPrintNum (number : BitVec 32) : Option (List (BitVec 8)) :=
  let negative := number.slt 0
  let number := if negative then -number else number
  (separate number maxLength).bind fun arr =>
    if !negative then some arr.reverse
    else if arr.length < maxLength then some (arr ++ [45]).reverse
    else none

theorem msb_ofNat {v : Nat} (h : v < 2 ^ 31) : (BitVec.ofNat 32 v).msb = false := by
  rw [BitVec.msb_eq_decide, decide_eq_false_iff_not, BitVec.toNat_ofNat]
  omega

theorem msb_ten : (10 : BitVec 32).msb = false := rfl

theorem srem_ten {v : Nat} (h : v < 2 ^ 31) :
    (BitVec.ofNat 32 v).srem 10 = BitVec.ofNat 32 (v % 10) := by
  have hnat : (10 : BitVec 32).toNat = 10 := rfl
  rw [BitVec.srem_eq, msb_ofNat h, msb_ten]
  refine BitVec.eq_of_toNat_eq ?_
  rw [BitVec.toNat_umod, BitVec.toNat_ofNat, BitVec.toNat_ofNat, hnat]
  omega

theorem sdiv_ten {v : Nat} (h : v < 2 ^ 31) :
    (BitVec.ofNat 32 v).sdiv 10 = BitVec.ofNat 32 (v / 10) := by
  have hnat : (10 : BitVec 32).toNat = 10 := rfl
  rw [BitVec.sdiv_eq, msb_ofNat h, msb_ten]
  refine BitVec.eq_of_toNat_eq ?_
  rw [BitVec.udiv_eq, BitVec.toNat_udiv, BitVec.toNat_ofNat, BitVec.toNat_ofNat, hnat]
  omega

theorem digit_char (d : Nat) : (BitVec.ofNat 32 d + 48).setWidth 8 = digit d := by
  have hnat : (48 : BitVec 32).toNat = 48 := rfl
  unfold digit
  refine BitVec.eq_of_toNat_eq ?_
  rw [BitVec.toNat_setWidth, BitVec.toNat_add, BitVec.toNat_ofNat, BitVec.toNat_ofNat, hnat]
  omega

theorem ofNat_eq_zero_iff {v : Nat} (h : v < 2 ^ 31) : BitVec.ofNat 32 v = 0 ↔ v = 0 := by
  have hnat : (0 : BitVec 32).toNat = 0 := rfl
  rw [← BitVec.toNat_inj, BitVec.toNat_ofNat, hnat]
  omega

/-- The loop takes the digits off the numeral, from its end. -/
theorem separate_eq {k v : Nat} (hv : v < 2 ^ 31) (hk : v < 10 ^ (k + 1)) :
    separate (BitVec.ofNat 32 v) (k + 1) = some (numeral v).reverse := by
  induction k generalizing v with
  | zero =>
    have hlt : v < 10 := by omega
    have hdiv : v / 10 = 0 := by omega
    unfold separate
    dsimp only
    rw [srem_ten hv, sdiv_ten hv, digit_char, if_pos ((ofNat_eq_zero_iff (by omega)).mpr hdiv),
      numeral_of_lt hlt, Nat.mod_eq_of_lt hlt, List.reverse_singleton]
  | succ k ih =>
    unfold separate
    dsimp only
    rw [srem_ten hv, sdiv_ten hv, digit_char]
    rcases Nat.lt_or_ge v 10 with hlt | hge
    · have hdiv : v / 10 = 0 := by omega
      rw [if_pos ((ofNat_eq_zero_iff (by omega)).mpr hdiv), numeral_of_lt hlt,
        Nat.mod_eq_of_lt hlt, List.reverse_singleton]
    · have hdiv : v / 10 < 10 ^ (k + 1) := by
        rw [pow_succ] at hk
        omega
      rw [if_neg (mt (ofNat_eq_zero_iff (by omega)).mp (by omega)), ih (by omega) hdiv,
        numeral_of_le hge, List.reverse_append, List.reverse_singleton]
      rfl

/-- An `int` has ten digits at most. -/
theorem separate_of_le {k v : Nat} (hv : v < 2 ^ 31) (hk : 10 ≤ k) :
    separate (BitVec.ofNat 32 v) k = some (numeral v).reverse := by
  obtain ⟨l, rfl⟩ := Nat.exists_eq_add_of_le' hk
  have hpow : 10 ^ 10 ≤ 10 ^ (l + 9 + 1) := Nat.pow_le_pow_right (by omega) (by omega)
  exact separate_eq hv (by omega)

/-- `SysPrintNum` on the numbers that it prints. -/
theorem sysPrintNum_eq {number : BitVec 32} (h : number ≠ BitVec.intMin 32) :
    sysPrintNum number = some (intNumeral number.toInt) := by
  have hlt : number.toInt.natAbs < 2 ^ 31 := by
    have hle := natAbs_toInt_le number
    have hne : number.toInt ≠ -2 ^ 31 := fun heq => h (BitVec.eq_of_toInt_eq heq)
    have hmax := BitVec.toInt_lt (x := number)
    omega
  have hmagnitude : (if number.slt 0 then -number else number) =
      BitVec.ofNat 32 number.toInt.natAbs := by
    rw [slt_zero_eq_msb, ← toNat_abs, BitVec.ofNat_toNat, BitVec.setWidth_eq]
  have hlength : (numeral number.toInt.natAbs).reverse.length < maxLength := by
    have hle : (numeral number.toInt.natAbs).length ≤ 9 + 1 := length_numeral_le (by omega)
    rw [List.length_reverse]
    exact Nat.lt_of_le_of_lt hle (by decide)
  unfold sysPrintNum
  dsimp only
  rw [hmagnitude, separate_of_le hlt (by decide), Option.bind_some, slt_zero_eq_msb,
    BitVec.msb_eq_toInt]
  unfold intNumeral
  by_cases hneg : number.toInt < 0
  · rw [decide_eq_true hneg, if_neg (by decide), if_pos hlength, if_pos hneg, List.reverse_append,
      List.reverse_reverse]
    rfl
  · rw [decide_eq_false hneg, if_pos (by decide), if_neg hneg, List.reverse_reverse]

theorem intNumeral_ne_nil (v : Int) : intNumeral v ≠ [] := by
  unfold intNumeral
  split
  next => exact List.cons_ne_nil _ _
  next => exact numeral_ne_nil _

theorem newline_notMem_intNumeral (v : Int) : 10 ∉ intNumeral v := by
  have hnot : 10 ∉ numeral v.natAbs := by
    intro hmem
    have hdigit := isDigit_of_mem_numeral hmem
    rw [isDigit_newline] at hdigit
    cases hdigit
  unfold intNumeral
  split
  next =>
    rw [List.mem_cons]
    exact not_or.mpr ⟨by decide, hnot⟩
  next => exact hnot

/-- The digits of the least `int` are negative. -/
theorem sysPrintNum_intMin :
    sysPrintNum (BitVec.intMin 32) ≠ some (intNumeral (BitVec.intMin 32).toInt) := by
  decide

/--
`PrintNum` prints the canonical numeral of a number, which `ReadNum` reads back, for all numbers but
the least `int`: its negation overflows.
-/
theorem printNum_exact_iff (number : BitVec 32) :
    (sysPrintNum number = some (intNumeral number.toInt) ∧
      ∀ output, sysPrintNum number = some output → ∀ rest,
        sysReadNum (output ++ 10 :: rest) = some (number, rest)) ↔
    number ≠ BitVec.intMin 32 := by
  constructor
  · rintro ⟨hprint, _⟩ rfl
    exact sysPrintNum_intMin hprint
  · intro hne
    have hprint := sysPrintNum_eq hne
    refine ⟨hprint, fun output houtput rest => ?_⟩
    rw [hprint] at houtput
    cases houtput
    rw [sysReadNum_line (intNumeral_ne_nil _) (newline_notMem_intNumeral _),
      numeralValue_intNumeral, Option.getD_some, BitVec.ofInt_toInt]

/-- For the least `int` it prints `-./,),(-*,(`. -/
theorem printNum_least_int :
    sysPrintNum (BitVec.intMin 32) = some [45, 46, 47, 44, 41, 44, 40, 45, 42, 44, 40] ∧
      sysPrintNum (BitVec.intMin 32) ≠ some (intNumeral (BitVec.intMin 32).toInt) := by
  decide

end Nachos
