import Mathlib.Data.Finset.Card
import Mathlib.Data.List.Nodup
import Mathlib.Data.List.Sort
import Mathlib.Tactic.Ring

/-!
# Bitmap (`lib/bitmap.cc`)

An array of bits kept as an array of 32-bit words. A failed `ASSERT` aborts the kernel;
here it is `none`.

The rest of the development does not look at the words. It sees a bitmap as

* `bits` — the set of indices whose bit is set
* `free` — the indices whose bit is clear, in ascending order

and `findAndSet` as taking the head of `free`.
-/

namespace Nachos

/-- `divRoundUp` of `lib/utility.h`. -/
def divRoundUp (n s : Nat) : Nat := n / s + if 0 < n % s then 1 else 0

/-- `BitsInWord`: `sizeof(unsigned int) * BitsInByte`. -/
def bitsInWord : Nat := 32

/--
The class `Bitmap`.

The constructor's assertion, the range of the `int` field `numBits` and the length of `map` are
carried along.
-/
structure Bitmap where
  numBits : Nat
  map : List (BitVec 32)
  numBits_range : 0 < numBits ∧ numBits < 2 ^ 31
  map_length : map.length = divRoundUp numBits bitsInWord
deriving DecidableEq

namespace Bitmap

/-! ## The operations -/

/-- The word that holds bit `i`. -/
def word (b : Bitmap) (i : Nat) : BitVec 32 := b.map.getD (i / bitsInWord) 0

/-- The mask `1 << (which % BitsInWord)`. -/
def mask (i : Nat) : BitVec 32 := 1#32 <<< (i % bitsInWord)

/-- `map[which / BitsInWord] = w`. -/
def setWord (b : Bitmap) (i : Nat) (w : BitVec 32) : Bitmap where
  numBits := b.numBits
  map := b.map.set (i / bitsInWord) w
  numBits_range := b.numBits_range
  map_length := by rw [List.length_set]; exact b.map_length

/-- What `Test` computes for an index in range. -/
def bit (b : Bitmap) (i : Nat) : Bool := b.word i &&& mask i != 0

/-- `ASSERT(which >= 0 && which < numBits)`. -/
def InRange (b : Bitmap) (which : Int) : Prop := 0 ≤ which ∧ which < b.numBits

instance (b : Bitmap) (which : Int) : Decidable (b.InRange which) :=
  inferInstanceAs (Decidable (_ ∧ _))

/-- `Bitmap::Test`. -/
def test (b : Bitmap) (which : Int) : Option Bool :=
  if b.InRange which then some (b.bit which.toNat) else none

/-- `Bitmap::Mark`, with the assertion at its end. -/
def mark (b : Bitmap) (which : Int) : Option Bitmap :=
  if b.InRange which then
    let i := which.toNat
    let b' := b.setWord i (b.word i ||| mask i)
    if b'.test which = some true then some b' else none
  else none

/-- `Bitmap::Clear`, with the assertion at its end. -/
def clear (b : Bitmap) (which : Int) : Option Bitmap :=
  if b.InRange which then
    let i := which.toNat
    let b' := b.setWord i (b.word i &&& ~~~ mask i)
    if b'.test which = some false then some b' else none
  else none

/-- The loop of `FindAndSet`, over the indices still to be looked at. -/
def findAndSetLoop (b : Bitmap) : List Nat → Option (Bitmap × Int)
  | [] => some (b, -1)
  | i :: is => do
    if ← b.test i then b.findAndSetLoop is
    else
      let b' ← b.mark i
      return (b', i)

/-- `Bitmap::FindAndSet`. -/
def findAndSet (b : Bitmap) : Option (Bitmap × Int) := b.findAndSetLoop (List.range b.numBits)

/-- The loop of `NumClear`. -/
def numClearLoop (b : Bitmap) (count : Int) : List Nat → Option Int
  | [] => some count
  | i :: is => do
    if ← b.test i then b.numClearLoop count is else b.numClearLoop (count + 1) is

/-- `Bitmap::NumClear`. -/
def numClear (b : Bitmap) : Option Int := b.numClearLoop 0 (List.range b.numBits)

/-- The words of a new bitmap, all zero. -/
def zero (numItems : Nat) (h : 0 < numItems ∧ numItems < 2 ^ 31) : Bitmap where
  numBits := numItems
  map := List.replicate (divRoundUp numItems bitsInWord) 0
  numBits_range := h
  map_length := List.length_replicate

/-- `Bitmap::Bitmap`: all words are zeroed, and then every bit is cleared once more. -/
def new (numItems : Nat) (h : 0 < numItems ∧ numItems < 2 ^ 31) : Option Bitmap :=
  (List.range numItems).foldlM (fun (b : Bitmap) (i : Nat) => b.clear i) (zero numItems h)

/-! ## The abstract view -/

/-- The indices whose bit is set. -/
def bits (b : Bitmap) : Finset Nat := (Finset.range b.numBits).filter fun i => b.bit i = true

/-- The indices whose bit is clear, in ascending order. -/
def free (b : Bitmap) : List Nat := (List.range b.numBits).filter fun i => !b.bit i

/-! ## Words and bits -/

theorem mod_bitsInWord_lt (i : Nat) : i % bitsInWord < 32 := Nat.mod_lt i (by decide)

theorem mask_eq_twoPow (i : Nat) : mask i = BitVec.twoPow 32 (i % bitsInWord) := by
  rw [mask, BitVec.twoPow]

theorem bit_eq_getLsbD (b : Bitmap) (i : Nat) :
    b.bit i = (b.word i).getLsbD (i % bitsInWord) := by
  have hlt : i % bitsInWord < 32 := mod_bitsInWord_lt i
  unfold bit
  rw [mask_eq_twoPow, BitVec.and_twoPow]
  cases h : (b.word i).getLsbD (i % bitsInWord) with
  | true =>
    have hne : BitVec.twoPow 32 (i % bitsInWord) ≠ 0 := by
      intro h0
      have := congrArg (fun w => w.getLsbD (i % bitsInWord)) h0
      simp [hlt] at this
    simpa using hne
  | false => simp

theorem word_index_lt {b : Bitmap} {i : Nat} (h : i < b.numBits) :
    i / bitsInWord < b.map.length := by
  rw [b.map_length]
  unfold divRoundUp bitsInWord
  split <;> omega

/-- Writing one word changes the bits of that word only. -/
theorem bit_setWord {b : Bitmap} {i : Nat} (h : i < b.numBits) (w : BitVec 32) (j : Nat) :
    (b.setWord i w).bit j
      = if j / bitsInWord = i / bitsInWord then w.getLsbD (j % bitsInWord) else b.bit j := by
  have hlt := word_index_lt h
  rw [bit_eq_getLsbD, bit_eq_getLsbD]
  by_cases hj : j / bitsInWord = i / bitsInWord
  · rw [if_pos hj]
    simp [word, setWord, hj, List.getD_eq_getElem?_getD, hlt]
  · rw [if_neg hj]
    simp [word, setWord, List.getD_eq_getElem?_getD, List.getElem?_set_ne (Ne.symm hj)]

theorem getLsbD_mask (i j : Nat) (hj : j / bitsInWord = i / bitsInWord) :
    (mask i).getLsbD (j % bitsInWord) = decide (j = i) := by
  have hlt : i % bitsInWord < 32 := mod_bitsInWord_lt i
  have hiff : i % bitsInWord = j % bitsInWord ↔ j = i := by
    have hj' := Nat.div_add_mod j bitsInWord
    have hi' := Nat.div_add_mod i bitsInWord
    rw [hj] at hj'
    constructor <;> intro h <;> omega
  rw [mask_eq_twoPow, BitVec.getLsbD_twoPow]
  simp [hlt, hiff]

/-! ## What each operation does to the bits -/

theorem inRange_natCast {b : Bitmap} {i : Nat} : b.InRange i ↔ i < b.numBits := by
  unfold InRange
  omega

theorem test_natCast {b : Bitmap} {i : Nat} (h : i < b.numBits) : b.test i = some (b.bit i) := by
  rw [test, if_pos (inRange_natCast.mpr h), Int.toNat_natCast]

theorem test_eq_some {b : Bitmap} {k : Int} {v : Bool} (h : b.test k = some v) :
    0 ≤ k ∧ k < b.numBits ∧ b.bit k.toNat = v := by
  unfold test at h
  split at h
  · next hr => exact ⟨hr.1, hr.2, Option.some.inj h⟩
  · simp at h

/-- `Mark` never fails its assertions in range, and sets exactly the bit it is asked to set. -/
theorem mark_natCast {b : Bitmap} {i : Nat} (h : i < b.numBits) :
    ∃ b', b.mark i = some b' ∧ b'.numBits = b.numBits ∧
      ∀ j, b'.bit j = (decide (j = i) || b.bit j) := by
  have hbit : ∀ j, (b.setWord i (b.word i ||| mask i)).bit j = (decide (j = i) || b.bit j) := by
    intro j
    rw [bit_setWord h]
    by_cases hj : j / bitsInWord = i / bitsInWord
    · rw [if_pos hj, BitVec.getLsbD_or, getLsbD_mask i j hj, bit_eq_getLsbD b j, Bool.or_comm]
      simp [word, hj]
    · rw [if_neg hj]
      have hji : j ≠ i := fun he => hj (by rw [he])
      simp [hji]
  refine ⟨b.setWord i (b.word i ||| mask i), ?_, rfl, hbit⟩
  have htest : (b.setWord i (b.word i ||| mask i)).test i = some true := by
    rw [test_natCast (show i < (b.setWord i (b.word i ||| mask i)).numBits from h), hbit]
    simp
  rw [mark, if_pos (inRange_natCast.mpr h)]
  simp only [Int.toNat_natCast]
  rw [if_pos htest]

/-- `Clear` never fails its assertions in range, and clears exactly the bit it is asked to. -/
theorem clear_natCast {b : Bitmap} {i : Nat} (h : i < b.numBits) :
    ∃ b', b.clear i = some b' ∧ b'.numBits = b.numBits ∧
      ∀ j, b'.bit j = (!decide (j = i) && b.bit j) := by
  have hbit : ∀ j, (b.setWord i (b.word i &&& ~~~ mask i)).bit j
      = (!decide (j = i) && b.bit j) := by
    intro j
    have hlt : j % bitsInWord < 32 := mod_bitsInWord_lt j
    rw [bit_setWord h]
    by_cases hj : j / bitsInWord = i / bitsInWord
    · rw [if_pos hj, BitVec.getLsbD_and, BitVec.getLsbD_not, getLsbD_mask i j hj,
        bit_eq_getLsbD b j, Bool.and_comm]
      simp [word, hj, hlt]
    · rw [if_neg hj]
      have hji : j ≠ i := fun he => hj (by rw [he])
      simp [hji]
  refine ⟨b.setWord i (b.word i &&& ~~~ mask i), ?_, rfl, hbit⟩
  have htest : (b.setWord i (b.word i &&& ~~~ mask i)).test i = some false := by
    rw [test_natCast (show i < (b.setWord i (b.word i &&& ~~~ mask i)).numBits from h), hbit]
    simp
  rw [clear, if_pos (inRange_natCast.mpr h)]
  simp only [Int.toNat_natCast]
  rw [if_pos htest]

/-! ## bits and free -/

theorem mem_bits {b : Bitmap} {i : Nat} : i ∈ b.bits ↔ i < b.numBits ∧ b.bit i = true := by
  simp [bits]

theorem mem_free {b : Bitmap} {i : Nat} : i ∈ b.free ↔ i < b.numBits ∧ b.bit i = false := by
  simp [free]

theorem mem_free_iff_notMem_bits {b : Bitmap} {i : Nat} :
    i ∈ b.free ↔ i < b.numBits ∧ i ∉ b.bits := by
  rw [mem_free, mem_bits]
  constructor
  · rintro ⟨hi, hb⟩
    exact ⟨hi, fun h => by rw [hb] at h; simp at h⟩
  · rintro ⟨hi, hb⟩
    exact ⟨hi, by simpa [hi] using hb⟩

theorem free_sorted (b : Bitmap) : b.free.Pairwise (· < ·) :=
  List.Pairwise.filter _ List.pairwise_lt_range

theorem free_nodup (b : Bitmap) : b.free.Nodup := (List.nodup_range).filter _

/-! ## The constructor -/

theorem bit_zero (n : Nat) (h : 0 < n ∧ n < 2 ^ 31) (i : Nat) : (zero n h).bit i = false := by
  rw [bit_eq_getLsbD]
  simp [word, zero, List.getD_eq_getElem?_getD, List.getElem?_replicate]
  split <;> simp

theorem clear_zero {n : Nat} (h : 0 < n ∧ n < 2 ^ 31) {i : Nat} (hi : i < n) :
    (zero n h).clear i = some (zero n h) := by
  have hword : (zero n h).word i = 0 := by
    simp [word, zero, List.getD_eq_getElem?_getD, List.getElem?_replicate]
    split <;> rfl
  have hset : (zero n h).setWord i ((zero n h).word i &&& ~~~ mask i) = zero n h := by
    rw [hword]
    simp [setWord, zero]
  have htest : (zero n h).test i = some false := by
    rw [test_natCast (show i < (zero n h).numBits from hi), bit_zero]
  rw [clear, if_pos (inRange_natCast.mpr hi)]
  simp only [Int.toNat_natCast]
  rw [hset, if_pos htest]

/-- The second loop of the constructor has nothing left to do. -/
theorem new_eq (n : Nat) (h : 0 < n ∧ n < 2 ^ 31) : new n h = some (zero n h) := by
  have hloop : ∀ is : List Nat, (∀ i ∈ is, i < n) →
      is.foldlM (fun (b : Bitmap) (i : Nat) => b.clear i) (zero n h) = some (zero n h) := by
    intro is
    induction is with
    | nil => intro _; rfl
    | cons i is ih =>
      intro hlt
      rw [List.foldlM_cons, clear_zero h (hlt i (by simp))]
      exact ih fun j hj => hlt j (by simp [hj])
  exact hloop _ fun i hi => List.mem_range.mp hi

theorem free_zero (n : Nat) (h : 0 < n ∧ n < 2 ^ 31) : (zero n h).free = List.range n := by
  unfold free
  refine List.filter_eq_self.mpr ?_
  intro i _
  rw [bit_zero]
  rfl

theorem bits_zero (n : Nat) (h : 0 < n ∧ n < 2 ^ 31) : (zero n h).bits = ∅ := by
  ext i
  rw [mem_bits, bit_zero]
  simp

/-- `Clear` on the set of marked indices. -/
theorem clear_bits {b : Bitmap} {i : Nat} (h : i < b.numBits) :
    ∃ b', b.clear i = some b' ∧ b'.numBits = b.numBits ∧ b'.bits = b.bits.erase i := by
  obtain ⟨b', hclear, hnum, hbit⟩ := clear_natCast h
  refine ⟨b', hclear, hnum, ?_⟩
  ext j
  rw [Finset.mem_erase, mem_bits, mem_bits, hnum, hbit]
  by_cases hj : j = i <;> simp [hj]

/-! ## FindAndSet and NumClear -/

theorem numClearLoop_eq {b : Bitmap} : ∀ (is : List Nat) (count : Int),
    (∀ i ∈ is, i < b.numBits) →
    b.numClearLoop count is = some (count + (is.filter fun i => !b.bit i).length)
  | [], count, _ => by simp [numClearLoop]
  | i :: is, count, h => by
    have hi : i < b.numBits := h i (by simp)
    have his : ∀ j ∈ is, j < b.numBits := fun j hj => h j (by simp [hj])
    rw [numClearLoop, test_natCast hi]
    cases hb : b.bit i with
    | true =>
      simp only [Option.bind_eq_bind, Option.bind_some, if_true]
      rw [numClearLoop_eq is count his]
      simp [hb]
    | false =>
      simp only [Option.bind_eq_bind, Option.bind_some, Bool.false_eq_true, if_false]
      rw [numClearLoop_eq is (count + 1) his]
      simp [hb]
      omega

/-- `NumClear` counts the free indices. -/
theorem numClear_eq (b : Bitmap) : b.numClear = some (b.free.length : Int) := by
  rw [numClear, numClearLoop_eq _ _ fun i hi => List.mem_range.mp hi, free, Int.zero_add]

/-- The loop of `FindAndSet` stops at the first clear bit of the indices left. -/
theorem findAndSetLoop_eq {b : Bitmap} : ∀ (is : List Nat), (∀ i ∈ is, i < b.numBits) →
    b.findAndSetLoop is = match is.filter fun i => !b.bit i with
      | [] => some (b, -1)
      | i :: _ => (b.mark i).map fun b' => (b', (i : Int))
  | [], _ => by simp [findAndSetLoop]
  | i :: is, h => by
    have hi : i < b.numBits := h i (by simp)
    have his : ∀ j ∈ is, j < b.numBits := fun j hj => h j (by simp [hj])
    rw [findAndSetLoop, test_natCast hi]
    cases hb : b.bit i with
    | true =>
      simp only [Option.bind_eq_bind, Option.bind_some, if_true]
      rw [findAndSetLoop_eq is his]
      simp [hb]
    | false =>
      simp only [Option.bind_eq_bind, Option.bind_some, Bool.false_eq_true, if_false]
      simp only [List.filter_cons, hb, Bool.not_false, if_true]
      cases b.mark i <;> rfl

/-- On a full bitmap `FindAndSet` answers -1 and changes nothing. -/
theorem findAndSet_of_free_nil {b : Bitmap} (h : b.free = []) : b.findAndSet = some (b, -1) := by
  rw [findAndSet, findAndSetLoop_eq _ fun i hi => List.mem_range.mp hi]
  unfold free at h
  rw [h]

/-- Otherwise it takes the head of `free`, that is the least clear index. -/
theorem findAndSet_of_free_cons {b : Bitmap} {i : Nat} {rest : List Nat}
    (h : b.free = i :: rest) :
    ∃ b', b.findAndSet = some (b', (i : Int)) ∧ b'.numBits = b.numBits ∧
      b'.bits = insert i b.bits ∧ b'.free = rest := by
  have hi : i < b.numBits ∧ b.bit i = false := mem_free.mp (by rw [h]; simp)
  obtain ⟨b', hmark, hnum, hbit⟩ := mark_natCast hi.1
  refine ⟨b', ?_, hnum, ?_, ?_⟩
  · rw [findAndSet, findAndSetLoop_eq _ fun i hi => List.mem_range.mp hi]
    unfold free at h
    rw [h]
    simp [hmark]
  · ext j
    rw [Finset.mem_insert, mem_bits, mem_bits, hnum, hbit]
    by_cases hj : j = i
    · simp [hj, hi.1]
    · simp [hj]
  · -- what is free afterwards is what was free before, without `i`
    have hfilter : b'.free = b.free.filter fun j => decide (j ≠ i) := by
      unfold free
      rw [hnum, List.filter_filter]
      refine List.filter_congr ?_
      intro j _
      rw [hbit]
      by_cases hj : j = i <;> simp [hj]
    have hnd : (i :: rest).Nodup := by rw [← h]; exact b.free_nodup
    have hnot : i ∉ rest := (List.nodup_cons.mp hnd).1
    rw [hfilter, h, List.filter_cons]
    simp only [ne_eq, not_true_eq_false, decide_false, Bool.false_eq_true, if_false]
    refine List.filter_eq_self.mpr ?_
    intro j hj
    have : j ≠ i := fun he => hnot (he ▸ hj)
    simp [this]

end Bitmap

end Nachos
