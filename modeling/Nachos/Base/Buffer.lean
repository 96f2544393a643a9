import Nachos.Base.Bytes

/-!
# Buffers of bytes

A buffer is the memory from some address on, so it has no length of its own. `bcopy` copies bytes
from one to another; a word of 32 bits takes four of them, the least significant byte first.

* `wordAt`, `putWord` — a word in a buffer
* `bcopy` — bytes of one buffer in another
* `Bytes.view`, `Bytes.ofBuffer` — an array of bytes as a buffer, and back
-/

namespace Base

/-- The bytes from some address on. -/
abbrev Buffer := Nat → BitVec 8

/-! ## Words -/

/-- The word at index `i`. -/
def wordAt (b : Buffer) (i : Nat) : BitVec 32 := b (i + 3) ++ b (i + 2) ++ b (i + 1) ++ b i

/-- The buffer after the word `x` was written at index `i`. -/
def putWord (b : Buffer) (i : Nat) (x : BitVec 32) : Buffer := fun k =>
  if i ≤ k ∧ k < i + 4 then byteOf x (k - i) else b k

theorem byteOf_wordAt (b : Buffer) (i : Nat) {j : Nat} (hj : j < 4) :
    byteOf (wordAt b i) j = b (i + j) := by
  refine BitVec.eq_of_getLsbD_eq ?_
  intro k hk
  rw [getLsbD_byteOf _ _ hk]
  simp only [wordAt, BitVec.getLsbD_append]
  rcases (by omega : j = 0 ∨ j = 1 ∨ j = 2 ∨ j = 3) with rfl | rfl | rfl | rfl
  · rw [if_pos (by omega), Nat.mul_zero, Nat.zero_add]
    rfl
  · rw [if_neg (by omega), if_pos (by omega), show 8 * 1 + k - 8 = k by omega]
  · rw [if_neg (by omega), if_neg (by omega), if_pos (by omega),
      show 8 * 2 + k - 8 - 8 = k by omega]
  · rw [if_neg (by omega), if_neg (by omega), if_neg (by omega),
      show 8 * 3 + k - 8 - 8 - 8 = k by omega]

/-- A word is known by its bytes in the buffer. -/
theorem wordAt_eq {b : Buffer} {i : Nat} {x : BitVec 32} (h : ∀ j < 4, b (i + j) = byteOf x j) :
    wordAt b i = x := by
  refine eq_of_byteOf (k := 4) fun j hj => ?_
  exact (byteOf_wordAt b i hj).trans (h j hj)

theorem wordAt_congr {b c : Buffer} {i l : Nat} (h : ∀ j < 4, b (i + j) = c (l + j)) :
    wordAt b i = wordAt c l :=
  wordAt_eq fun j hj => (h j hj).trans (byteOf_wordAt c l hj).symm

theorem wordAt_putWord (b : Buffer) (i : Nat) (x : BitVec 32) : wordAt (putWord b i x) i = x := by
  refine wordAt_eq fun j hj => ?_
  unfold putWord
  rw [if_pos (by omega), Nat.add_sub_cancel_left]

theorem putWord_of_lt {b : Buffer} {i k : Nat} {x : BitVec 32} (h : k < i) :
    putWord b i x k = b k := by
  unfold putWord
  rw [if_neg (by omega)]

theorem putWord_of_le {b : Buffer} {i k : Nat} {x : BitVec 32} (h : i + 4 ≤ k) :
    putWord b i x k = b k := by
  unfold putWord
  rw [if_neg (by omega)]

/-! ## Copies -/

/-- The buffer `dst` after `n` bytes of `src` from index `i` on were copied to index `j`. -/
def bcopy (src : Buffer) (i : Nat) (dst : Buffer) (j n : Nat) : Buffer := fun k =>
  if j ≤ k ∧ k < j + n then src (i + (k - j)) else dst k

theorem bcopy_add {src dst : Buffer} {i j n k : Nat} (h : k < n) :
    bcopy src i dst j n (j + k) = src (i + k) := by
  unfold bcopy
  rw [if_pos (by omega), Nat.add_sub_cancel_left]

/-- A copy to the start of a buffer. -/
theorem bcopy_zero {src dst : Buffer} {i n k : Nat} (h : k < n) :
    bcopy src i dst 0 n k = src (i + k) := by
  unfold bcopy
  rw [if_pos (by omega), Nat.sub_zero]

theorem bcopy_of_lt {src dst : Buffer} {i j n k : Nat} (h : k < j) :
    bcopy src i dst j n k = dst k := by
  unfold bcopy
  rw [if_neg (by omega)]

theorem bcopy_of_le {src dst : Buffer} {i j n k : Nat} (h : j + n ≤ k) :
    bcopy src i dst j n k = dst k := by
  unfold bcopy
  rw [if_neg (by omega)]

/-! ## Objects in memory -/

/-- An object of `n` bytes, seen through a pointer to it. -/
def Bytes.view {n : Nat} (a : Bytes n) : Buffer := fun k => if h : k < n then a ⟨k, h⟩ else 0

/-- The object at index `i`. -/
def Bytes.ofBuffer {n : Nat} (b : Buffer) (i : Nat) : Bytes n := fun k => b (i + k)

theorem Bytes.view_of_lt {n k : Nat} (a : Bytes n) (h : k < n) : a.view k = a ⟨k, h⟩ := dif_pos h

theorem Bytes.view_ofBuffer {n : Nat} {b : Buffer} {i k : Nat} (h : k < n) :
    (Bytes.ofBuffer b i : Bytes n).view k = b (i + k) := dif_pos h

theorem Bytes.ofBuffer_eq {n : Nat} {a : Bytes n} {b : Buffer} {i : Nat}
    (h : ∀ k < n, b (i + k) = a.view k) : Bytes.ofBuffer b i = a := by
  funext k
  exact (h k.val k.isLt).trans (a.view_of_lt k.isLt)

end Base
