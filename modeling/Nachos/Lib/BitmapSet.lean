import Nachos.Base.Run
import Nachos.Lib.Bitmap
import Mathlib.Data.Finset.Max

/-!
# A bitmap as a finite set (`lib/bitmap.cc`)

Any sequence of calls on a new bitmap, compared with the same calls on a set of numbers below
`numItems`. The set knows nothing of words and of loops: `FindAndSet` takes the least number that
is missing, and `NumClear` counts.

* `MarkedSet.step` — the calls on the set
* `Bitmap.step_refines` — one call
* `bitmap_refines` — any sequence of calls
-/

namespace Nachos

open Base

/-- A call of a method of `Bitmap`. -/
inductive BitmapOp where
  | mark (which : Int)
  | clear (which : Int)
  | test (which : Int)
  | findAndSet
  | numClear
deriving DecidableEq

/-- What a call returns. -/
inductive BitmapAnswer where
  | nothing
  | bool (b : Bool)
  | int (n : Int)
deriving DecidableEq

/-- The argument is the number of one of `numItems` bits. -/
def BitmapOp.InRange (numItems : Nat) : BitmapOp → Prop
  | .mark which | .clear which | .test which => 0 ≤ which ∧ which < numItems
  | .findAndSet | .numClear => True

instance (numItems : Nat) (op : BitmapOp) : Decidable (op.InRange numItems) := by
  cases op <;> unfold BitmapOp.InRange <;> infer_instance

/-- A call on a bitmap. `none`: an assertion fails. -/
def Bitmap.step (b : Bitmap) : BitmapOp → Option (Bitmap × BitmapAnswer)
  | .mark which => (b.mark which).map fun b => (b, .nothing)
  | .clear which => (b.clear which).map fun b => (b, .nothing)
  | .test which => (b.test which).map fun v => (b, .bool v)
  | .findAndSet => b.findAndSet.map fun r => (r.1, .int r.2)
  | .numClear => b.numClear.map fun n => (b, .int n)

/--
The indices with which a call goes into `map`. `FindAndSet` and `NumClear` go through the bits from
the first one on.
-/
def Bitmap.wordIndices (b : Bitmap) : BitmapOp → List Nat
  | .mark which | .clear which | .test which =>
    if b.InRange which then [which.toNat / bitsInWord] else []
  | .findAndSet | .numClear => (List.range b.numBits).map fun i => i / bitsInWord

/-! ## The set -/

/-- The numbers that are marked. -/
abbrev MarkedSet := Finset Nat

namespace MarkedSet

/-- The least number below `numItems` that is not marked. -/
def least (numItems : Nat) (marked : MarkedSet) : Option Nat :=
  if h : (Finset.range numItems \ marked).Nonempty then some (Finset.min' _ h) else none

/-- A call on the set. -/
def step (numItems : Nat) (marked : MarkedSet) : BitmapOp → MarkedSet × BitmapAnswer
  | .mark which => (insert which.toNat marked, .nothing)
  | .clear which => (marked.erase which.toNat, .nothing)
  | .test which => (marked, .bool (decide (which.toNat ∈ marked)))
  | .findAndSet =>
    match least numItems marked with
    | none => (marked, .int (-1))
    | some i => (insert i marked, .int i)
  | .numClear => (marked, .int (numItems - marked.card))

theorem least_eq_none {numItems : Nat} {marked : MarkedSet}
    (h : ∀ i < numItems, i ∈ marked) : least numItems marked = none := by
  refine dif_neg ?_
  rintro ⟨i, hi⟩
  obtain ⟨hlt, hnot⟩ := Finset.mem_sdiff.mp hi
  exact hnot (h i (Finset.mem_range.mp hlt))

theorem least_eq_some {numItems i : Nat} {marked : MarkedSet} (hi : i < numItems)
    (hnot : i ∉ marked) (hleast : ∀ j < i, j ∈ marked) : least numItems marked = some i := by
  have hmem : i ∈ Finset.range numItems \ marked :=
    Finset.mem_sdiff.mpr ⟨Finset.mem_range.mpr hi, hnot⟩
  refine (dif_pos ⟨i, hmem⟩).trans (congrArg some ?_)
  refine le_antisymm (Finset.min'_le _ i hmem) (Finset.le_min' _ _ i fun j hj => ?_)
  by_contra hlt
  exact (Finset.mem_sdiff.mp hj).2 (hleast j (Nat.lt_of_not_le hlt))

end MarkedSet

/-! ## One call -/

namespace Bitmap

variable {b : Bitmap}

theorem bits_subset (b : Bitmap) : b.bits ⊆ Finset.range b.numBits := Finset.filter_subset _ _

theorem mark_bits {i : Nat} (h : i < b.numBits) :
    ∃ b', b.mark i = some b' ∧ b'.numBits = b.numBits ∧ b'.bits = insert i b.bits := by
  obtain ⟨b', hmark, hnum, hbit⟩ := mark_natCast h
  refine ⟨b', hmark, hnum, ?_⟩
  ext j
  rw [Finset.mem_insert, mem_bits, mem_bits, hnum, hbit]
  by_cases hj : j = i
  · simp [hj, h]
  · simp [hj]

theorem bit_eq_decide {i : Nat} (h : i < b.numBits) : b.bit i = decide (i ∈ b.bits) := by
  rw [Bool.eq_iff_iff, decide_eq_true_iff, mem_bits]
  exact (and_iff_right h).symm

theorem length_free (b : Bitmap) : (b.free.length : Int) = b.numBits - b.bits.card := by
  have hsplit := List.length_eq_length_filter_add (l := List.range b.numBits) fun i => b.bit i
  rw [List.length_range] at hsplit
  have hbits : b.bits.card = ((List.range b.numBits).filter fun i => b.bit i).length := by
    rw [← List.toFinset_card_of_nodup (List.nodup_range.filter _)]
    congr 1
    ext i
    simp [mem_bits]
  unfold free
  omega

theorem least_bits_of_free_nil (h : b.free = []) : MarkedSet.least b.numBits b.bits = none := by
  refine MarkedSet.least_eq_none fun i hi => ?_
  by_contra hnot
  have hmem : i ∈ b.free := mem_free_iff_notMem_bits.mpr ⟨hi, hnot⟩
  rw [h] at hmem
  cases hmem

theorem least_bits_of_free_cons {i : Nat} {rest : List Nat} (h : b.free = i :: rest) :
    MarkedSet.least b.numBits b.bits = some i := by
  have hi : i ∈ b.free := h ▸ List.mem_cons_self
  obtain ⟨hlt, hnot⟩ := mem_free_iff_notMem_bits.mp hi
  refine MarkedSet.least_eq_some hlt hnot fun j hj => ?_
  by_contra hjnot
  -- a smaller number that is free stands in front of the head of a sorted list
  have hmem : j ∈ b.free := mem_free_iff_notMem_bits.mpr ⟨hj.trans hlt, hjnot⟩
  have hsorted := b.free_sorted
  rw [h, List.pairwise_cons] at hsorted
  rw [h, List.mem_cons] at hmem
  rcases hmem with rfl | hmem
  · exact Nat.lt_irrefl j hj
  · exact Nat.lt_asymm hj (hsorted.1 j hmem)

/-- A call with an argument in range passes its assertions and does what it does on the set. -/
theorem step_refines {op : BitmapOp} (hop : op.InRange b.numBits) :
    ∃ b', b.step op = some (b', (MarkedSet.step b.numBits b.bits op).2) ∧
      b'.numBits = b.numBits ∧ b'.bits = (MarkedSet.step b.numBits b.bits op).1 := by
  cases op with
  | mark which =>
    obtain ⟨i, rfl⟩ := Int.eq_ofNat_of_zero_le hop.1
    obtain ⟨b', hmark, hnum, hbits⟩ := mark_bits (Int.ofNat_lt.mp hop.2)
    exact ⟨b', by simp only [step, hmark, Option.map_some, MarkedSet.step], hnum, hbits⟩
  | clear which =>
    obtain ⟨i, rfl⟩ := Int.eq_ofNat_of_zero_le hop.1
    obtain ⟨b', hclear, hnum, hbits⟩ := clear_bits (Int.ofNat_lt.mp hop.2)
    exact ⟨b', by simp only [step, hclear, Option.map_some, MarkedSet.step], hnum, hbits⟩
  | test which =>
    obtain ⟨i, rfl⟩ := Int.eq_ofNat_of_zero_le hop.1
    have hi : i < b.numBits := Int.ofNat_lt.mp hop.2
    refine ⟨b, ?_, rfl, rfl⟩
    simp only [step, test_natCast hi, Option.map_some, MarkedSet.step, Int.toNat_natCast,
      bit_eq_decide hi]
  | findAndSet =>
    cases hfree : b.free with
    | nil =>
      refine ⟨b, ?_, rfl, ?_⟩
      · simp only [step, findAndSet_of_free_nil hfree, Option.map_some, MarkedSet.step,
          least_bits_of_free_nil hfree]
      · simp only [MarkedSet.step, least_bits_of_free_nil hfree]
    | cons i rest =>
      obtain ⟨b', hfind, hnum, hbits, -⟩ := findAndSet_of_free_cons hfree
      refine ⟨b', ?_, hnum, ?_⟩
      · simp only [step, hfind, Option.map_some, MarkedSet.step, least_bits_of_free_cons hfree]
      · simp only [MarkedSet.step, least_bits_of_free_cons hfree, hbits]
  | numClear =>
    refine ⟨b, ?_, rfl, rfl⟩
    simp only [step, numClear_eq, Option.map_some, MarkedSet.step, length_free]

theorem wordIndices_lt (b : Bitmap) (op : BitmapOp) : ∀ k ∈ b.wordIndices op, k < b.map.length := by
  have harg : ∀ which : Int, ∀ k ∈ (if b.InRange which then [which.toNat / bitsInWord] else []),
      k < b.map.length := by
    intro which k hk
    split at hk
    next hr =>
      rw [List.mem_singleton] at hk
      rw [hk]
      obtain ⟨h0, hlt⟩ := hr
      exact word_index_lt (by omega)
    next => cases hk
  have hall : ∀ k ∈ (List.range b.numBits).map fun i => i / bitsInWord, k < b.map.length := by
    intro k hk
    obtain ⟨i, hi, rfl⟩ := List.mem_map.mp hk
    exact word_index_lt (List.mem_range.mp hi)
  cases op with
  | mark which => exact harg which
  | clear which => exact harg which
  | test which => exact harg which
  | findAndSet => exact hall
  | numClear => exact hall

/-- From any bitmap. -/
theorem run_refines (b : Bitmap) {ops : List BitmapOp} (hops : ∀ op ∈ ops, op.InRange b.numBits) :
    ∃ b', runReplies step b ops =
        some (b', (runAnswers (MarkedSet.step b.numBits) b.bits ops).2) ∧
      b'.numBits = b.numBits ∧
      b'.bits = (runAnswers (MarkedSet.step b.numBits) b.bits ops).1 := by
  have hgo : ∀ (c : Bitmap) op, c.numBits = b.numBits → op.InRange b.numBits → True →
      ∃ c', c.step op = some (c', (MarkedSet.step b.numBits c.bits op).2) ∧
        c'.numBits = b.numBits ∧ c'.bits = (MarkedSet.step b.numBits c.bits op).1 := by
    intro c op hnum hop _
    rw [← hnum] at hop ⊢
    exact step_refines hop
  have hsim := @runReplies_simulation _ _ _ _ step (MarkedSet.step b.numBits)
    (fun c => c.numBits = b.numBits) bits (fun _ op => op.InRange b.numBits) (fun _ _ => True)
    hgo (fun _ _ _ _ hnot => absurd trivial hnot) b rfl ops (allSteps_of_forall hops)
  exact hsim.1 (allSteps_of_forall fun _ _ => trivial)

end Bitmap

/--
**A bitmap is a set.**

Any sequence of calls with arguments in range, on a new bitmap of any size: no assertion fails, the
answers and the marked bits are those of the set, and no call goes outside the array of words.
-/
theorem bitmap_refines {numItems : Nat} (h : 0 < numItems ∧ numItems < 2 ^ 31)
    {ops : List BitmapOp} (hops : ∀ op ∈ ops, op.InRange numItems) :
    ∃ b b', Bitmap.new numItems h = some b ∧
      runReplies Bitmap.step b ops =
        some (b', (runAnswers (MarkedSet.step numItems) ∅ ops).2) ∧
      b'.numBits = numItems ∧ b'.bits = (runAnswers (MarkedSet.step numItems) ∅ ops).1 ∧
      b'.bits ⊆ Finset.range numItems ∧ ∀ op, ∀ k ∈ b'.wordIndices op, k < b'.map.length := by
  obtain ⟨b', hrun, hnum, hbits⟩ := (Bitmap.zero numItems h).run_refines hops
  have hsubset := b'.bits_subset
  rw [hnum] at hsubset
  rw [Bitmap.bits_zero] at hrun hbits
  exact ⟨_, b', Bitmap.new_eq numItems h, hrun, hnum, hbits, hsubset, b'.wordIndices_lt⟩

/-- 33 bits, so two words: bit 31, bit 32 in the other word, and then the first free one. -/
theorem bitmap_refines_two_words :
    ∃ b b', Bitmap.new 33 (by decide) = some b ∧
      runReplies Bitmap.step b
        [.mark 31, .mark 32, .clear 31, .test 32, .findAndSet, .numClear] =
        some (b', [.nothing, .nothing, .nothing, .bool true, .int 0, .int 31]) ∧
      b'.bits = {0, 32} := by
  have hops : ∀ op ∈ [.mark 31, .mark 32, .clear 31, .test 32, .findAndSet, .numClear],
      BitmapOp.InRange 33 op := by decide
  obtain ⟨b, b', hnew, hrun, -, hbits, -, -⟩ := bitmap_refines (by decide) hops
  refine ⟨b, b', hnew, hrun.trans ?_, hbits.trans ?_⟩
  · exact congrArg (fun answers => some (b', answers)) (by decide +kernel)
  · decide +kernel

end Nachos
