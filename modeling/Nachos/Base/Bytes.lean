import Mathlib.Logic.Function.Basic
import Mathlib.Data.BitVec

/-!
# Little-endian accesses to an array of bytes

`load` reads `k` bytes as a number and `store` writes the `k` low bytes of a word, both with the
least significant byte first. The lemmas say what a store does to one byte, and what is left of
a store when the array is looked at through a renaming of its indices.

* `extractLsb'_append_of_le`, `extractLsb'_append_of_add_le` — one of several fields
* `byteOf_spliceUp`, `byteOf_spliceDown` — the low or the high bytes of one word put into another
* `signExtend_inj` — a byte and its sign extension
* `store_apply` — one byte after a store
* `byteOf_load` — one byte of what a load reads
* `store_comp`, `store_comp_of_forall_ne` — a store seen through a renaming
-/

namespace Base

/-- An array of `n` bytes. -/
abbrev Bytes (n : Nat) := Fin n → BitVec 8

/-- Byte `k` of a word, counted from the least significant one. -/
def byteOf {w : Nat} (x : BitVec w) (k : Nat) : BitVec 8 := (x >>> (8 * k)).setWidth 8

/-- The four bytes of a word of 32 bits, as they stand in memory. -/
def bytesOf (x : BitVec 32) : List (BitVec 8) := (List.range 4).map (byteOf x)

/-! ## Fields of a word -/

/-- The upper part of two bit fields. -/
theorem extractLsb'_append_of_le {m n s k : Nat} (x : BitVec n) (y : BitVec m) (h : m ≤ s) :
    (x ++ y).extractLsb' s k = x.extractLsb' (s - m) k := by
  refine BitVec.eq_of_getLsbD_eq ?_
  intro i hi
  have hsub : s + i - m = s - m + i := by omega
  rw [BitVec.getLsbD_extractLsb', BitVec.getLsbD_extractLsb', BitVec.getLsbD_append,
    if_neg (by omega), hsub]

/-- The lower part. -/
theorem extractLsb'_append_of_add_le {m n s k : Nat} (x : BitVec n) (y : BitVec m)
    (h : s + k ≤ m) : (x ++ y).extractLsb' s k = y.extractLsb' s k := by
  refine BitVec.eq_of_getLsbD_eq ?_
  intro i hi
  rw [BitVec.getLsbD_extractLsb', BitVec.getLsbD_extractLsb', BitVec.getLsbD_append,
    if_pos (by omega)]

/-! ## The bytes of a word -/

theorem getLsbD_byteOf {w : Nat} (x : BitVec w) (k : Nat) {i : Nat} (hi : i < 8) :
    (byteOf x k).getLsbD i = x.getLsbD (8 * k + i) := by
  simp only [byteOf, BitVec.getLsbD_setWidth, BitVec.getLsbD_ushiftRight, hi, decide_true,
    Bool.true_and]

theorem byteOf_or {w : Nat} (x y : BitVec w) (k : Nat) :
    byteOf (x ||| y) k = byteOf x k ||| byteOf y k := by
  refine BitVec.eq_of_getLsbD_eq ?_
  intro i hi
  simp only [BitVec.getLsbD_or, getLsbD_byteOf _ _ hi]

/-- A shift by whole bytes to the left. -/
theorem byteOf_shiftLeft {w : Nat} (x : BitVec w) (s : Nat) {k : Nat} (h : 8 * (k + 1) ≤ w) :
    byteOf (x <<< (8 * s)) k = if s ≤ k then byteOf x (k - s) else 0 := by
  refine BitVec.eq_of_getLsbD_eq ?_
  intro i hi
  rw [getLsbD_byteOf _ _ hi, BitVec.getLsbD_shiftLeft]
  have hlt : 8 * k + i < w := by omega
  split
  next hs =>
    have hge : ¬ 8 * k + i < 8 * s := by omega
    have hsub : 8 * k + i - 8 * s = 8 * (k - s) + i := by omega
    simp only [hlt, hge, decide_true, decide_false, Bool.not_false, Bool.true_and, hsub,
      getLsbD_byteOf _ _ hi]
  next hs =>
    have hlt' : 8 * k + i < 8 * s := by omega
    simp only [hlt', decide_true, Bool.not_true, Bool.and_false, Bool.false_and]
    exact BitVec.getLsbD_zero.symm

/-- A shift by whole bytes to the right, below the copies of the sign. -/
theorem byteOf_sshiftRight {w : Nat} (x : BitVec w) (s : Nat) {k : Nat} (h : 8 * (k + s + 1) ≤ w) :
    byteOf (x.sshiftRight (8 * s)) k = byteOf x (k + s) := by
  refine BitVec.eq_of_getLsbD_eq ?_
  intro i hi
  have hle : ¬ w ≤ 8 * k + i := by omega
  have hlt : 8 * s + (8 * k + i) < w := by omega
  have hadd : 8 * s + (8 * k + i) = 8 * (k + s) + i := by omega
  rw [getLsbD_byteOf _ _ hi, getLsbD_byteOf _ _ hi, BitVec.getLsbD_sshiftRight, if_pos hlt, hadd]
  simp only [hle, decide_false, Bool.not_false, Bool.true_and]

/-- The bytes under a mask of the low bytes. -/
theorem byteOf_and_low {w s k : Nat} (x : BitVec w) {mask : BitVec w}
    (hmask : mask.toNat = 2 ^ (8 * s) - 1) :
    byteOf (x &&& mask) k = if k < s then byteOf x k else 0 := by
  refine BitVec.eq_of_getLsbD_eq ?_
  intro i hi
  have hbit : mask.getLsbD (8 * k + i) = decide (8 * k + i < 8 * s) := by
    rw [← BitVec.testBit_toNat, hmask, Nat.testBit_two_pow_sub_one]
  rw [getLsbD_byteOf _ _ hi, BitVec.getLsbD_and, hbit]
  split
  next hk =>
    rw [decide_eq_true (by omega), Bool.and_true, getLsbD_byteOf _ _ hi]
  next hk =>
    rw [decide_eq_false (by omega), Bool.and_false]
    exact BitVec.getLsbD_zero.symm

/-- The bytes under a mask of the others. -/
theorem byteOf_and_high {w s k : Nat} (x : BitVec w) {mask : BitVec w}
    (hmask : (~~~mask).toNat = 2 ^ (8 * s) - 1) (h : 8 * (k + 1) ≤ w) :
    byteOf (x &&& mask) k = if k < s then 0 else byteOf x k := by
  refine BitVec.eq_of_getLsbD_eq ?_
  intro i hi
  have hbit : mask.getLsbD (8 * k + i) = !decide (8 * k + i < 8 * s) := by
    have hnot : (~~~mask).getLsbD (8 * k + i) = decide (8 * k + i < 8 * s) := by
      rw [← BitVec.testBit_toNat, hmask, Nat.testBit_two_pow_sub_one]
    have hlt : 8 * k + i < w := by omega
    rw [BitVec.getLsbD_not, decide_eq_true hlt, Bool.true_and] at hnot
    rw [← hnot, Bool.not_not]
  rw [getLsbD_byteOf _ _ hi, BitVec.getLsbD_and, hbit]
  split
  next hk =>
    rw [decide_eq_true (by omega), Bool.not_true, Bool.and_false]
    exact BitVec.getLsbD_zero.symm
  next hk =>
    rw [decide_eq_false (by omega), Bool.not_false, Bool.and_true, getLsbD_byteOf _ _ hi]

/-- The low bytes of `y` put above the `s` lowest bytes of `x`. -/
theorem byteOf_spliceUp {w s k : Nat} (x y : BitVec w) {mask : BitVec w}
    (hmask : mask.toNat = 2 ^ (8 * s) - 1) (h : 8 * (k + 1) ≤ w) :
    byteOf ((x &&& mask) ||| (y <<< (8 * s))) k =
      if s ≤ k then byteOf y (k - s) else byteOf x k := by
  rw [byteOf_or, byteOf_and_low x hmask, byteOf_shiftLeft y s h]
  by_cases hk : s ≤ k
  · rw [if_neg (Nat.not_lt.mpr hk), if_pos hk, if_pos hk]
    exact BitVec.zero_or
  · rw [if_pos (Nat.lt_of_not_le hk), if_neg hk, if_neg hk]
    exact BitVec.or_zero

/-- The high bytes of `y` put below the bytes of `x`. -/
theorem byteOf_spliceDown {s r k : Nat} (x y : BitVec (8 * (s + r)))
    {mask keep : BitVec (8 * (s + r))}
    (hmask : mask.toNat = 2 ^ (8 * r) - 1) (hkeep : (~~~keep).toNat = 2 ^ (8 * r) - 1)
    (h : k < s + r) :
    byteOf ((x &&& keep) ||| (y.sshiftRight (8 * s) &&& mask)) k =
      if k + s < s + r then byteOf y (k + s) else byteOf x k := by
  rw [byteOf_or, byteOf_and_high x hkeep (by omega), byteOf_and_low _ hmask]
  by_cases hk : k < r
  · rw [if_pos hk, if_pos hk, if_pos (by omega), byteOf_sshiftRight y s (by omega)]
    exact BitVec.zero_or
  · rw [if_neg hk, if_neg hk, if_neg (by omega)]
    exact BitVec.or_zero

theorem toNat_byteOf {w : Nat} (x : BitVec w) (k : Nat) :
    (byteOf x k).toNat = x.toNat / 256 ^ k % 256 := by
  rw [byteOf, BitVec.toNat_setWidth, BitVec.toNat_ushiftRight, Nat.shiftRight_eq_div_pow,
    Nat.pow_mul]

/-- A word is known by its bytes. -/
theorem eq_of_byteOf {k : Nat} {x y : BitVec (8 * k)} (h : ∀ j < k, byteOf x j = byteOf y j) :
    x = y := by
  refine BitVec.eq_of_getLsbD_eq ?_
  intro i hi
  have hbit : (byteOf x (i / 8)).getLsbD (i % 8) = (byteOf y (i / 8)).getLsbD (i % 8) := by
    rw [h (i / 8) (by omega)]
  rw [getLsbD_byteOf _ _ (by omega), getLsbD_byteOf _ _ (by omega), Nat.div_add_mod] at hbit
  exact hbit

/-! ## A byte as a word -/

theorem setWidth_signExtend (b : BitVec 8) : (b.signExtend 32).setWidth 8 = b := by
  refine BitVec.eq_of_getLsbD_eq ?_
  intro i hi
  have hi' : i < 32 := by omega
  rw [BitVec.getLsbD_setWidth, BitVec.getLsbD_signExtend]
  simp only [hi, hi', decide_true, Bool.true_and, if_true]

theorem signExtend_inj {b c : BitVec 8} : b.signExtend 32 = c.signExtend 32 ↔ b = c := by
  constructor
  · intro h
    rw [← setWidth_signExtend b, h, setWidth_signExtend]
  · rintro rfl
    rfl

theorem signExtend_eq_zero {b : BitVec 8} : b.signExtend 32 = 0 ↔ b = 0 := by
  have hzero : (0 : BitVec 8).signExtend 32 = 0 := by decide
  rw [← hzero, signExtend_inj]

namespace Bytes

variable {m n w : Nat}

/-- The number in the `k` bytes from index `i` on. -/
def load (a : Bytes n) (i : Nat) : (k : Nat) → i + k ≤ n → Nat
  | 0, _ => 0
  | k + 1, h => load a i k (by omega) + (a ⟨i + k, by omega⟩).toNat * 256 ^ k

/-- The array after the `k` low bytes of `x` were written from index `i` on. -/
def store (a : Bytes n) (i : Nat) (x : BitVec w) : (k : Nat) → i + k ≤ n → Bytes n
  | 0, _ => a
  | k + 1, h => Function.update (store a i x k (by omega)) ⟨i + k, by omega⟩ (byteOf x k)

theorem load_congr {a : Bytes m} {b : Bytes n} {i j k : Nat} (hi : i + k ≤ m) (hj : j + k ≤ n)
    (h : ∀ l (hl : l < k), a ⟨i + l, by omega⟩ = b ⟨j + l, by omega⟩) :
    load a i k hi = load b j k hj := by
  induction k with
  | zero => rfl
  | succ k ih =>
    unfold load
    rw [h k (by omega), ih (by omega) (by omega) fun l hl => h l (by omega)]

theorem store_congr {a : Bytes n} {i k : Nat} {x y : BitVec w} (hi : i + k ≤ n)
    (h : ∀ l < k, byteOf x l = byteOf y l) : store a i x k hi = store a i y k hi := by
  induction k with
  | zero => rfl
  | succ k ih =>
    unfold store
    rw [h k (by omega), ih (by omega) fun l hl => h l (by omega)]

/-- A store changes the bytes it covers, and no others. -/
theorem store_apply {a : Bytes n} {i k : Nat} {x : BitVec w} (hi : i + k ≤ n) (j : Fin n) :
    store a i x k hi j = if i ≤ j ∧ j < i + k then byteOf x (j - i) else a j := by
  induction k with
  | zero =>
    rw [if_neg (by omega)]
    rfl
  | succ k ih =>
    unfold store
    by_cases hj : j = ⟨i + k, by omega⟩
    · subst hj
      rw [Function.update_self, if_pos (by simp only; omega)]
      simp
    · have hne : (j : Nat) ≠ i + k := fun he => hj (Fin.ext he)
      rw [Function.update_of_ne hj, ih]
      by_cases hc : i ≤ (j : Nat) ∧ (j : Nat) < i + k
      · rw [if_pos hc, if_pos (by omega)]
      · rw [if_neg hc, if_neg (by omega)]

/-- Behind an injective renaming that keeps the bytes of the store together, it is a store. -/
theorem store_comp {a : Bytes m} {f : Fin n → Fin m} (hf : Function.Injective f) {i j k : Nat}
    {x : BitVec w} (hi : i + k ≤ m) (hj : j + k ≤ n)
    (h : ∀ l (hl : l < k), f ⟨j + l, by omega⟩ = ⟨i + l, by omega⟩) :
    store a i x k hi ∘ f = store (a ∘ f) j x k hj := by
  induction k with
  | zero => rfl
  | succ k ih =>
    unfold store
    rw [← h k (by omega), ← ih (by omega) (by omega) fun l hl => h l (by omega)]
    exact Function.update_comp_eq_of_injective _ hf _ _

/-- Behind a renaming that never meets the bytes of the store, there is nothing to see. -/
theorem store_comp_of_forall_ne {a : Bytes m} {f : Fin n → Fin m} {i k : Nat} {x : BitVec w}
    (hi : i + k ≤ m) (h : ∀ l (hl : l < k) v, f v ≠ ⟨i + l, by omega⟩) :
    store a i x k hi ∘ f = a ∘ f := by
  funext v
  show store a i x k hi (f v) = a (f v)
  rw [store_apply, if_neg]
  rintro ⟨hlo, hhi⟩
  refine h ((f v : Nat) - i) (by omega) v (Fin.ext ?_)
  simp only
  omega

/-! ### The bytes of a number that was read -/

theorem load_lt (a : Bytes n) (i k : Nat) (h : i + k ≤ n) : a.load i k h < 256 ^ k := by
  induction k with
  | zero => exact Nat.one_pos
  | succ k ih =>
    have hbyte : (a ⟨i + k, by omega⟩).toNat ≤ 255 := Nat.le_of_lt_succ (a ⟨i + k, by omega⟩).isLt
    have hlow := ih (by omega)
    unfold load
    calc a.load i k _ + (a ⟨i + k, by omega⟩).toNat * 256 ^ k
        < 256 ^ k + 255 * 256 ^ k :=
          Nat.add_lt_add_of_lt_of_le hlow (Nat.mul_le_mul_right _ hbyte)
      _ = 256 ^ (k + 1) := by rw [Nat.pow_succ]; omega

theorem load_div (a : Bytes n) {i k : Nat} (h : i + k ≤ n) {j : Nat} (hj : j < k) :
    a.load i k h / 256 ^ j % 256 = (a ⟨i + j, by omega⟩).toNat := by
  induction k with
  | zero => omega
  | succ k ih =>
    unfold load
    by_cases hjk : j = k
    · subst hjk
      rw [Nat.add_mul_div_right _ _ (Nat.pow_pos (by decide)),
        Nat.div_eq_of_lt (load_lt a i j (by omega)), Nat.zero_add]
      exact Nat.mod_eq_of_lt (a ⟨i + j, by omega⟩).isLt
    · have hlt : j < k := by omega
      have hpow : 256 ^ k = 256 * 256 ^ (k - j - 1) * 256 ^ j := by
        rw [← Nat.pow_succ', ← Nat.pow_add]
        congr 1
        omega
      rw [hpow, ← Nat.mul_assoc, Nat.add_mul_div_right _ _ (Nat.pow_pos (by decide)),
        Nat.mul_left_comm, Nat.add_mul_mod_self_left]
      exact ih (by omega) hlt

/-- The bytes of a number that was read. -/
theorem byteOf_load (a : Bytes n) {i k : Nat} (h : i + k ≤ n) (hw : 8 * k ≤ w) {j : Nat}
    (hj : j < k) : byteOf (BitVec.ofNat w (a.load i k h)) j = a ⟨i + j, by omega⟩ := by
  have hlt : a.load i k h < 2 ^ w := by
    calc a.load i k h < 256 ^ k := load_lt a i k h
      _ = 2 ^ (8 * k) := (Nat.pow_mul 2 8 k).symm
      _ ≤ 2 ^ w := Nat.pow_le_pow_right (by decide) hw
  refine BitVec.eq_of_toNat_eq ?_
  rw [toNat_byteOf, BitVec.toNat_ofNat, Nat.mod_eq_of_lt hlt, load_div a h hj]

end Bytes

end Base
