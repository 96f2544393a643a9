import Nachos.Userprog.Addrspace
import Mathlib.Tactic.Ring

/-!
# What a load writes

The copy loop of a segment goes through all pages of the program, whatever the size of the segment.
It reads page `i` of the file, counted from the beginning of the segment, and puts it at
`virtualAddr` behind the start of frame `i`; `virtualAddr` is not translated. A loop stops where the
file ends, and Nachos stops where a file position is negative.

* `CopiesPage` — how far the loops get
* `mem_copyAll` — the stores of the loops, one by one
* `written_copyAll` — what they leave at an address, when they get to their end
-/

namespace Nachos

open Base

/-- The segments that are copied, in the order of the loops. -/
def Executable.segments (exe : Executable) : List Segment :=
  [exe.header.code, exe.header.initData, exe.header.readonlyData]

/-- Main memory after the stores. A store outside does not change it. -/
def memoryAfter (mem : Bytes memorySize) (stores : List Store) : Bytes memorySize :=
  writeAll (fun k => ((k : Nat) : Int)) mem stores

/-- The copy loops of a list of segments. -/
def copyAll (exe : Executable) (pageTable : List TranslationEntry) :
    List Segment → List Store × Bool
  | [] => ([], true)
  | seg :: segs => thenCopy (copySegment exe pageTable seg) (copyAll exe pageTable segs)

theorem copySegments_eq (exe : Executable) (pageTable : List TranslationEntry) :
    copySegments exe pageTable = copyAll exe pageTable exe.segments := by
  have hlast : ∀ a : List Store × Bool, thenCopy a ([], true) = a := by
    rintro ⟨stores, ok⟩
    cases ok <;> simp [thenCopy]
  simp only [copySegments, copyAll, Executable.segments, hlast]

/-! ## How far the loops get -/

/-- The copy loop of the segment gets through `n` pages. It does nothing if the size is 0. -/
def Segment.Readable (seg : Segment) (n : Nat) : Prop :=
  0 < seg.size.toInt → ∀ i < n, 0 ≤ (seg.position i).toInt

/-- Page `i` of segment `seg` is copied when the loops of `segs` are run over `n` pages. -/
def CopiesPage (n : Nat) : List Segment → Segment → Nat → Prop
  | [], _, _ => False
  | first :: segs, seg, i =>
    (seg = first ∧ 0 < seg.size.toInt ∧ ∀ l ≤ i, 0 ≤ (seg.position l).toInt) ∨
      (first.Readable n ∧ CopiesPage n segs seg i)

theorem readAt_of_nonneg {exe : Executable} {n : Nat} {position : BitVec 32}
    (h : 0 ≤ position.toInt) :
    exe.readAt n position = some ((exe.bytes.drop position.toNat).take n) := by
  rw [Executable.readAt, if_neg (not_lt.mpr h)]

theorem readAt_of_neg {exe : Executable} {n : Nat} {position : BitVec 32}
    (h : position.toInt < 0) : exe.readAt n position = none := by
  rw [Executable.readAt, if_pos h]

/-- The loop gets to its end when all positions are good. -/
theorem copyLoop_ok_iff {exe : Executable} {seg : Segment} {i : Nat} {frames : List Nat} :
    (copyLoop exe seg i (entriesFor i frames)).2 = true ↔
      ∀ j < frames.length, 0 ≤ (seg.position (i + j)).toInt := by
  induction frames generalizing i with
  | nil => simp [entriesFor, copyLoop]
  | cons f frames ih =>
    rw [entriesFor, copyLoop]
    by_cases hpos : 0 ≤ (seg.position i).toInt
    · rw [readAt_of_nonneg hpos]
      simp only [ih, List.length_cons]
      constructor
      · intro h j hj
        cases j with
        | zero => exact hpos
        | succ j =>
          rw [show i + (j + 1) = i + 1 + j by omega]
          exact h j (by omega)
      · intro h j hj
        rw [show i + 1 + j = i + (j + 1) by omega]
        exact h (j + 1) (by omega)
    · rw [readAt_of_neg (not_le.mp hpos)]
      refine iff_of_false (by simp) fun h => hpos (h 0 (by simp))

theorem copySegment_ok_iff (exe : Executable) {seg : Segment} {frames : List Nat} :
    (copySegment exe (entriesFor 0 frames) seg).2 = true ↔ seg.Readable frames.length := by
  unfold copySegment Segment.Readable
  by_cases hsize : 0 < seg.size.toInt
  · rw [if_pos hsize, copyLoop_ok_iff]
    simp [hsize]
  · rw [if_neg hsize]
    exact iff_of_true rfl fun h => absurd h hsize

theorem copyAll_ok_iff (exe : Executable) {segs : List Segment} {frames : List Nat} :
    (copyAll exe (entriesFor 0 frames) segs).2 = true ↔
      ∀ seg ∈ segs, seg.Readable frames.length := by
  induction segs with
  | nil => simp [copyAll]
  | cons seg segs ih =>
    rw [copyAll, thenCopy, List.forall_mem_cons, ← copySegment_ok_iff exe, ← ih]
    cases hok : (copySegment exe (entriesFor 0 frames) seg).2 <;> simp [hok]

/-! ## The stores one by one -/

/-- The bytes of page `i` that are copied. -/
theorem getElem?_page {bytes : List (BitVec 8)} {p r : Nat} {b : BitVec 8} :
    ((bytes.drop p).take pageSize)[r]? = some b ↔ r < pageSize ∧ bytes[p + r]? = some b := by
  rw [List.getElem?_take, List.getElem?_drop]
  by_cases hr : r < pageSize <;> simp [hr]

theorem mem_copyLoop {exe : Executable} {seg : Segment} {i : Nat} {frames : List Nat}
    {w : Store} :
    w ∈ (copyLoop exe seg i (entriesFor i frames)).1 ↔
      ∃ (j f r : Nat) (b : BitVec 8), frames[j]? = some f ∧
        (∀ l ≤ j, 0 ≤ (seg.position (i + l)).toInt) ∧
        r < pageSize ∧ exe.bytes[(seg.position (i + j)).toNat + r]? = some b ∧
        w = { addr := seg.virtualAddr.toInt + f * pageSize + r, value := b } := by
  induction frames generalizing i with
  | nil => simp [entriesFor, copyLoop]
  | cons f frames ih =>
    rw [entriesFor, copyLoop]
    by_cases hpos : 0 ≤ (seg.position i).toInt
    · rw [readAt_of_nonneg hpos]
      simp only [List.mem_append, ih, mem_writeFrom, getElem?_page]
      constructor
      · rintro (⟨r, b, ⟨hr, hb⟩, rfl⟩ | ⟨j, g, r, b, hg, hall, hr, hb, rfl⟩)
        · refine ⟨0, f, r, b, rfl, fun l hl => ?_, hr, hb, rfl⟩
          rw [Nat.le_zero.mp hl]
          exact hpos
        · refine ⟨j + 1, g, r, b, hg, fun l hl => ?_, hr, ?_, rfl⟩
          · cases l with
            | zero => exact hpos
            | succ l =>
              rw [show i + (l + 1) = i + 1 + l by omega]
              exact hall l (by omega)
          · rw [show i + (j + 1) = i + 1 + j by omega]
            exact hb
      · rintro ⟨j, g, r, b, hg, hall, hr, hb, rfl⟩
        cases j with
        | zero =>
          obtain rfl := Option.some.inj hg
          exact Or.inl ⟨r, b, ⟨hr, hb⟩, rfl⟩
        | succ j =>
          refine Or.inr ⟨j, g, r, b, hg, fun l hl => ?_, hr, ?_, rfl⟩
          · rw [show i + 1 + l = i + (l + 1) by omega]
            exact hall (l + 1) (by omega)
          · rw [show i + 1 + j = i + (j + 1) by omega]
            exact hb
    · rw [readAt_of_neg (not_le.mp hpos)]
      refine iff_of_false (by simp) ?_
      rintro ⟨j, g, r, b, -, hall, -⟩
      exact hpos (hall 0 (Nat.zero_le j))

theorem mem_copySegment {exe : Executable} {seg : Segment} {frames : List Nat} {w : Store} :
    w ∈ (copySegment exe (entriesFor 0 frames) seg).1 ↔
      ∃ (i f r : Nat) (b : BitVec 8),
        (0 < seg.size.toInt ∧ ∀ l ≤ i, 0 ≤ (seg.position l).toInt) ∧
        frames[i]? = some f ∧ r < pageSize ∧
        exe.bytes[(seg.position i).toNat + r]? = some b ∧
        w = { addr := seg.virtualAddr.toInt + f * pageSize + r, value := b } := by
  unfold copySegment
  by_cases hsize : 0 < seg.size.toInt
  · rw [if_pos hsize, mem_copyLoop]
    simp only [Nat.zero_add, hsize, true_and]
    constructor
    · rintro ⟨i, f, r, b, hf, hall, hrest⟩
      exact ⟨i, f, r, b, hall, hf, hrest⟩
    · rintro ⟨i, f, r, b, hall, hf, hrest⟩
      exact ⟨i, f, r, b, hf, hall, hrest⟩
  · rw [if_neg hsize]
    simp [hsize]

/-- The stores of the copy loops. -/
theorem mem_copyAll {exe : Executable} {segs : List Segment} {frames : List Nat} {w : Store} :
    w ∈ (copyAll exe (entriesFor 0 frames) segs).1 ↔
      ∃ (seg : Segment) (i f r : Nat) (b : BitVec 8), CopiesPage frames.length segs seg i ∧
        frames[i]? = some f ∧ r < pageSize ∧ exe.bytes[(seg.position i).toNat + r]? = some b ∧
        w = { addr := seg.virtualAddr.toInt + f * pageSize + r, value := b } := by
  induction segs with
  | nil => simp [copyAll, CopiesPage]
  | cons first segs ih =>
    have hfirst : w ∈ (copyAll exe (entriesFor 0 frames) (first :: segs)).1 ↔
        w ∈ (copySegment exe (entriesFor 0 frames) first).1 ∨
          (first.Readable frames.length ∧ w ∈ (copyAll exe (entriesFor 0 frames) segs).1) := by
      rw [copyAll, thenCopy, ← copySegment_ok_iff exe]
      cases (copySegment exe (entriesFor 0 frames) first).2 <;> simp
    rw [hfirst, ih, mem_copySegment]
    constructor
    · rintro (⟨i, f, r, b, hcopied, hrest⟩ | ⟨hread, seg, i, f, r, b, hcopied, hrest⟩)
      · exact ⟨first, i, f, r, b, Or.inl ⟨rfl, hcopied⟩, hrest⟩
      · exact ⟨seg, i, f, r, b, Or.inr ⟨hread, hcopied⟩, hrest⟩
    · rintro ⟨seg, i, f, r, b, ⟨rfl, hcopied⟩ | ⟨hread, hcopied⟩, hrest⟩
      · exact Or.inl ⟨i, f, r, b, hcopied, hrest⟩
      · exact Or.inr ⟨hread, seg, i, f, r, b, hcopied, hrest⟩

theorem mem_zeroPages {i : Nat} {frames : List Nat} {w : Store} :
    w ∈ zeroPages (entriesFor i frames) ↔
      ∃ f ∈ frames, ∃ r < pageSize, w = { addr := f * pageSize + r, value := 0 } := by
  induction frames generalizing i with
  | nil => simp [zeroPages, entriesFor]
  | cons f frames ih =>
    have hcons : zeroPages (entriesFor i (f :: frames))
        = writeFrom (f * pageSize) (List.replicate pageSize 0) ++
          zeroPages (entriesFor (i + 1) frames) := rfl
    rw [hcons, List.mem_append, ih, mem_writeFrom, List.exists_mem_cons_iff]
    refine or_congr ⟨?_, ?_⟩ Iff.rfl
    · rintro ⟨r, b, hb, rfl⟩
      obtain ⟨hr, rfl⟩ := List.getElem?_eq_some_iff.mp hb
      rw [List.length_replicate] at hr
      exact ⟨r, hr, by simp⟩
    · rintro ⟨r, hr, rfl⟩
      exact ⟨r, 0, by simp [hr], rfl⟩

/-! ## What is left at an address -/

/-- The byte of the file that the copy loop of the segment puts at a physical address. -/
def Segment.reaches (exe : Executable) (frames : List Nat) (seg : Segment) (addr : Int) :
    Option (BitVec 8) :=
  if 0 < seg.size.toInt then
    let offset := addr - seg.virtualAddr.toInt
    (frames.findIdx? fun f : Nat => (f : Int) = offset / pageSize).bind fun i =>
      exe.bytes[(seg.position i).toNat + (offset % pageSize).toNat]?
  else none

/-- The byte that the last of the copy loops to get there puts at a physical address. -/
def lastReaches (exe : Executable) (frames : List Nat) : List Segment → Int → Option (BitVec 8)
  | [], _ => none
  | seg :: segs, addr => (lastReaches exe frames segs addr).or (seg.reaches exe frames addr)

/-- The page with the address on it is written by one turn of the loop. -/
theorem written_page {exe : Executable} {start : Int} {p : Nat} {a : Int} :
    written (writeFrom start ((exe.bytes.drop p).take pageSize)) a
      = if (a - start) / pageSize = 0 then exe.bytes[p + ((a - start) % pageSize).toNat]?
        else none := by
  rw [written_writeFrom, show pageSize = 128 from rfl]
  by_cases hin : (a - start) / (128 : Nat) = 0
  · rw [if_pos (by omega), if_pos hin, List.getElem?_take, List.getElem?_drop,
      if_pos (by omega)]
    congr 2
    omega
  · rw [if_neg hin]
    by_cases hle : start ≤ a
    · rw [if_pos hle, List.getElem?_take, if_neg (by omega)]
    · rw [if_neg hle]

theorem written_copyLoop {exe : Executable} {seg : Segment} {i : Nat} {frames : List Nat}
    (hnodup : frames.Nodup) (hread : ∀ j < frames.length, 0 ≤ (seg.position (i + j)).toInt)
    (a : Int) :
    written (copyLoop exe seg i (entriesFor i frames)).1 a
      = (frames.findIdx? fun f : Nat => (f : Int) = (a - seg.virtualAddr.toInt) / pageSize).bind
          fun j => exe.bytes[(seg.position (i + j)).toNat +
            ((a - seg.virtualAddr.toInt) % pageSize).toNat]? := by
  induction frames generalizing i with
  | nil => simp [entriesFor, copyLoop, written]
  | cons f frames ih =>
    have hpos : 0 ≤ (seg.position i).toInt := hread 0 (by simp)
    have hread' : ∀ j < frames.length, 0 ≤ (seg.position (i + 1 + j)).toInt := by
      intro j hj
      rw [show i + 1 + j = i + (j + 1) by omega]
      exact hread (j + 1) (by simpa using hj)
    have hrec := ih (List.nodup_cons.mp hnodup).2 hread'
    have htarget : a - seg.target (newEntry i f)
        = a - seg.virtualAddr.toInt + -(f : Int) * pageSize := by
      simp only [Segment.target, newEntry]
      ring
    have hpage : (a - seg.target (newEntry i f)) / pageSize
        = (a - seg.virtualAddr.toInt) / pageSize - f := by
      rw [htarget, Int.add_mul_ediv_right _ _ (by decide)]
      omega
    have hoffset : (a - seg.target (newEntry i f)) % pageSize
        = (a - seg.virtualAddr.toInt) % pageSize := by
      rw [htarget, Int.add_mul_emod_self_right]
    rw [entriesFor, copyLoop, readAt_of_nonneg hpos]
    simp only [written_append, hrec, written_page, hpage, hoffset]
    by_cases hf : (f : Int) = (a - seg.virtualAddr.toInt) / pageSize
    · -- no other page goes there
      have hnone :
          (frames.findIdx? fun g : Nat => (g : Int) = (a - seg.virtualAddr.toInt) / pageSize)
            = none := by
        rw [List.findIdx?_eq_none_iff]
        intro g hg
        have hne : g ≠ f := fun he => (List.nodup_cons.mp hnodup).1 (he ▸ hg)
        simp only [decide_eq_false_iff_not]
        omega
      rw [hnone, if_pos (by omega), List.findIdx?_cons, decide_eq_true hf]
      simp only [Option.bind_none, Option.none_or, if_true, Option.bind_some, Nat.add_zero]
    · rw [if_neg (by omega), List.findIdx?_cons, decide_eq_false hf, Option.or_none]
      simp only [Bool.false_eq_true, if_false, Option.bind_map]
      congr 1
      funext j
      simp only [Function.comp_apply]
      rw [show i + 1 + j = i + (j + 1) by omega]

/-- When the copy loops get to their end, the last one to reach an address decides. -/
theorem written_copyAll {exe : Executable} {segs : List Segment} {frames : List Nat}
    (hnodup : frames.Nodup) (hread : ∀ seg ∈ segs, seg.Readable frames.length) (a : Int) :
    written (copyAll exe (entriesFor 0 frames) segs).1 a = lastReaches exe frames segs a := by
  induction segs with
  | nil => rfl
  | cons seg segs ih =>
    rw [List.forall_mem_cons] at hread
    have hok := (copySegment_ok_iff exe).mpr hread.1
    have hseg : written (copySegment exe (entriesFor 0 frames) seg).1 a
        = seg.reaches exe frames a := by
      unfold copySegment Segment.reaches
      by_cases hsize : 0 < seg.size.toInt
      · rw [if_pos hsize, if_pos hsize, written_copyLoop hnodup (by simpa using hread.1 hsize)]
        simp only [Nat.zero_add]
      · rw [if_neg hsize, if_neg hsize]
        rfl
    rw [copyAll, thenCopy, if_pos hok, written_append, ih hread.2, hseg, lastReaches]

/--
A program with code at virtual address 0 and data at virtual address 128, four bytes each.

The file goes on behind the data.
-/
def dataProgram : Executable where
  bytes := [0xad, 0xdf, 0xba, 0, 0, 0, 0, 0, 52, 0, 0, 0, 4, 0, 0, 0,
      128, 0, 0, 0, 56, 0, 0, 0, 4, 0, 0, 0] ++ List.replicate 24 0 ++
    [1, 2, 3, 4, 5, 6, 7, 8] ++ List.replicate 1100 0xff
  header_le := by
    rw [List.length_append]
    exact Nat.le_add_right_of_le (by decide)

theorem dataProgram_code : dataProgram.header.code = ⟨0, 52, 4⟩ := by decide

theorem dataProgram_initData : dataProgram.header.initData = ⟨128, 56, 4⟩ := by decide

theorem dataProgram_numPages : dataProgram.header.numPages = 9 := by decide

end Nachos
