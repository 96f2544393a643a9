import Mathlib.Data.BitVec
import Mathlib.Data.Nat.Digits.Defs

/-!
# Decimal numerals

A numeral is a string of digits, with a `-` in front if the number is negative. A `char` is signed,
so the bytes from 128 on are below the digits.

* `numeralValue` — the number that a string stands for
* `numeral`, `intNumeral` — the canonical numeral of a number, without leading zeros
* `numeralValue_intNumeral` — it stands for the number
-/

namespace Base

/-! ## Values -/

def isDigit (c : BitVec 8) : Bool := decide (48 ≤ c.toInt ∧ c.toInt ≤ 57)

def digitValue (c : BitVec 8) : Int := c.toInt - 48

/-- The value of the digits `ds` when `v` is that of the digits in front of them. -/
def decimalFrom (v : Int) (ds : List (BitVec 8)) : Int :=
  ds.foldl (fun v c => v * 10 + digitValue c) v

/-- An optional `-` and digits behind it. -/
def numeralValue : List (BitVec 8) → Option Int
  | [] => none
  | c :: ds =>
    if c = 45 then if ds.all isDigit then some (-decimalFrom 0 ds) else none
    else if (c :: ds).all isDigit then some (decimalFrom 0 (c :: ds)) else none

/-! ## Canonical numerals -/

/-- The character of a digit. -/
def digit (d : Nat) : BitVec 8 := BitVec.ofNat 8 (48 + d)

def numeral (n : Nat) : List (BitVec 8) :=
  if n = 0 then [digit 0] else ((Nat.digits 10 n).map digit).reverse

def intNumeral (v : Int) : List (BitVec 8) :=
  if v < 0 then 45 :: numeral v.natAbs else numeral v.natAbs

theorem toInt_digit {d : Nat} (h : d < 10) : (digit d).toInt = 48 + d := by
  have hnat : (digit d).toNat = 48 + d := by
    unfold digit
    rw [BitVec.toNat_ofNat]
    omega
  rw [BitVec.toInt_eq_toNat_of_lt (by omega), hnat]
  omega

theorem isDigit_digit {d : Nat} (h : d < 10) : isDigit (digit d) = true := by
  unfold isDigit
  rw [toInt_digit h, decide_eq_true_eq]
  omega

theorem digitValue_digit {d : Nat} (h : d < 10) : digitValue (digit d) = d := by
  unfold digitValue
  rw [toInt_digit h]
  omega

theorem numeral_ne_nil (n : Nat) : numeral n ≠ [] := by
  unfold numeral
  split
  next => exact List.cons_ne_nil _ _
  next h =>
    rw [ne_eq, List.reverse_eq_nil_iff, List.map_eq_nil_iff]
    exact Nat.digits_ne_nil_iff_ne_zero.mpr h

theorem numeral_of_lt {n : Nat} (h : n < 10) : numeral n = [digit n] := by
  unfold numeral
  split
  next hzero => rw [hzero]
  next hne => rw [Nat.digits_of_lt 10 n hne h, List.map_singleton, List.reverse_singleton]

theorem numeral_of_le {n : Nat} (h : 10 ≤ n) :
    numeral n = numeral (n / 10) ++ [digit (n % 10)] := by
  unfold numeral
  rw [if_neg (by omega), if_neg (by omega), Nat.digits_def' (by omega) (by omega), List.map_cons,
    List.reverse_cons]

theorem length_numeral_le {k n : Nat} (h : n < 10 ^ (k + 1)) : (numeral n).length ≤ k + 1 := by
  induction k generalizing n with
  | zero =>
    rw [numeral_of_lt (by omega), List.length_singleton]
  | succ k ih =>
    rcases Nat.lt_or_ge n 10 with hlt | hge
    · rw [numeral_of_lt hlt, List.length_singleton]
      omega
    · have hdiv : n / 10 < 10 ^ (k + 1) := by
        rw [pow_succ] at h
        omega
      rw [numeral_of_le hge, List.length_append, List.length_singleton]
      exact Nat.succ_le_succ (ih hdiv)

theorem isDigit_of_mem_numeral {n : Nat} {c : BitVec 8} (h : c ∈ numeral n) : isDigit c = true := by
  unfold numeral at h
  split at h
  next =>
    rw [List.mem_singleton.mp h]
    exact isDigit_digit (by omega)
  next =>
    obtain ⟨d, hd, rfl⟩ := List.mem_map.mp (List.mem_reverse.mp h)
    exact isDigit_digit (Nat.digits_lt_base (by omega) hd)

/-- The digits, the least significant one first, make up the number. -/
theorem decimalFrom_reverse {ds : List Nat} (h : ∀ d ∈ ds, d < 10) :
    decimalFrom 0 (ds.map digit).reverse = (Nat.ofDigits 10 ds : Nat) := by
  unfold decimalFrom
  induction ds with
  | nil => rfl
  | cons d ds ih =>
    have hd := digitValue_digit (h d List.mem_cons_self)
    rw [List.map_cons, List.reverse_cons, List.foldl_append,
      ih fun e he => h e (List.mem_cons_of_mem d he), Nat.ofDigits_cons, List.foldl_cons,
      List.foldl_nil, hd]
    omega

theorem decimalFrom_numeral (n : Nat) : decimalFrom 0 (numeral n) = n := by
  unfold numeral
  split
  next h =>
    subst h
    rfl
  next => rw [decimalFrom_reverse fun d hd => Nat.digits_lt_base (by omega) hd, Nat.ofDigits_digits]

/-- The numeral of a number stands for it. -/
theorem numeralValue_intNumeral (v : Int) : numeralValue (intNumeral v) = some v := by
  have hall : (numeral v.natAbs).all isDigit = true :=
    List.all_eq_true.mpr fun c hc => isDigit_of_mem_numeral hc
  unfold intNumeral
  split
  next hneg =>
    rw [numeralValue, if_pos rfl, if_pos hall, decimalFrom_numeral]
    congr 1
    omega
  next hpos =>
    obtain ⟨c, ds, hcons⟩ := List.exists_cons_of_ne_nil (numeral_ne_nil v.natAbs)
    have hc : ¬ c = 45 := by
      rintro rfl
      have hdigit : isDigit (45 : BitVec 8) = true :=
        isDigit_of_mem_numeral (hcons ▸ List.mem_cons_self)
      exact absurd hdigit (by decide)
    rw [hcons] at hall ⊢
    rw [numeralValue, if_neg hc, if_pos hall, ← hcons, decimalFrom_numeral]
    congr 1
    omega

end Base
