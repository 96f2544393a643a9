import Nachos.Userprog.LoadImage

/-!
# What a load must not touch

A load has the frames that it has just taken, and should write nowhere else: not into the frames of
the other address spaces, which are marked in the bitmap, and not outside main memory. The copy
loops do not look where they write. They stay inside exactly when every page that they copy begins
and ends in a frame of the load (`load_isolated_iff`), and a file with more bytes behind its last
segment is enough to make them leave (`trailing_bytes_overrun`).
-/

namespace Nachos

open Base

/-- The address is in the frame. -/
def InFrame (frame addr : Int) : Prop :=
  frame * pageSize ≤ addr ∧ addr < frame * pageSize + pageSize

/-- A load with outcome `r`, begun with the bitmap `bm`, has kept to itself. -/
structure Isolated (bm : Bitmap) (r : LoadOutcome) : Prop where
  own : ∀ w ∈ r.stores, ∃ entry ∈ r.pageTable, InFrame entry.physicalPage w.addr
  inside : ∀ w ∈ r.stores, 0 ≤ w.addr ∧ w.addr < memorySize
  others : ∀ w ∈ r.stores, ∀ f ∈ bm.bits, ¬ InFrame (f : Nat) w.addr
  unchanged : ∀ (mem : Bytes memorySize) (k : Fin memorySize),
    (∀ entry ∈ r.pageTable, ¬ InFrame entry.physicalPage (k : Nat)) →
      memoryAfter mem r.stores k = mem k

/-- How many bytes of the file the copy of page `i` has. -/
def Segment.numCopied (exe : Executable) (seg : Segment) (i : Nat) : Nat :=
  min pageSize (exe.bytes.length - (seg.position i).toNat)

/-- The frame of the address is one of the load's. -/
def OwnFrame (frames : List Nat) (addr : Int) : Prop := ∃ f ∈ frames, (f : Int) = addr / pageSize

/-- The frames are in main memory, and every page that is copied begins and ends in one of them. -/
def StaysInside (exe : Executable) (frames : List Nat) : Prop :=
  (∀ f ∈ frames, f < numPhysPages) ∧
    ∀ (seg : Segment) (i f : Nat), CopiesPage frames.length exe.segments seg i →
      frames[i]? = some f → 0 < seg.numCopied exe i →
        OwnFrame frames (seg.virtualAddr.toInt + f * pageSize) ∧
        OwnFrame frames (seg.virtualAddr.toInt + f * pageSize + (seg.numCopied exe i - 1 : Nat))

/-! ## Frames and addresses -/

theorem inFrame_iff {frame addr : Int} : InFrame frame addr ↔ frame = addr / pageSize := by
  simp only [InFrame, pageSize]
  omega

theorem ownFrame_iff {frames : List Nat} {addr : Int} :
    OwnFrame frames addr ↔ ∃ f ∈ frames, InFrame (f : Nat) addr := by
  simp only [OwnFrame, inFrame_iff]

/-- A piece of at most a page that begins and ends in own frames lies in own frames. -/
theorem OwnFrame.between {frames : List Nat} {first : Int} {n r : Nat} (hn : n < pageSize)
    (hr : r ≤ n) (hfirst : OwnFrame frames first) (hlast : OwnFrame frames (first + n)) :
    OwnFrame frames (first + r) := by
  have hframe : (first + r) / pageSize = first / pageSize ∨
      (first + r) / pageSize = (first + n) / pageSize := by
    simp only [pageSize] at *
    omega
  rcases hframe with h | h
  · rw [OwnFrame, h]
    exact hfirst
  · rw [OwnFrame, h]
    exact hlast

/-- The bytes of page `i` that the file has. -/
theorem lt_numCopied_iff {exe : Executable} {seg : Segment} {i r : Nat} :
    r < seg.numCopied exe i ↔
      r < pageSize ∧ ∃ b, exe.bytes[(seg.position i).toNat + r]? = some b := by
  have hsome : (∃ b, exe.bytes[(seg.position i).toNat + r]? = some b) ↔
      (seg.position i).toNat + r < exe.bytes.length := by
    rw [← Option.isSome_iff_exists, isSome_getElem?]
  rw [hsome, Segment.numCopied, Nat.lt_min]
  omega

/-! ## The condition is enough -/

/-- The last three parts of isolation come from the first. -/
theorem isolated_of_own {bm : Bitmap} {r : LoadOutcome} (frames : List Nat)
    (htable : r.pageTable = entriesFor 0 frames) (hrange : ∀ f ∈ frames, f < numPhysPages)
    (hfree : ∀ f ∈ frames, f ∉ bm.bits) (hown : ∀ w ∈ r.stores, OwnFrame frames w.addr) :
    Isolated bm r := by
  have hentry : ∀ w ∈ r.stores, ∃ entry ∈ r.pageTable, InFrame entry.physicalPage w.addr := by
    intro w hw
    rw [htable, exists_mem_entriesFor (P := fun k => InFrame k w.addr)]
    exact ownFrame_iff.mp (hown w hw)
  refine ⟨hentry, ?_, ?_, ?_⟩
  · intro w hw
    obtain ⟨f, hf, heq⟩ := hown w hw
    have hlt := hrange f hf
    simp only [memorySize, numPhysPages, pageSize] at *
    omega
  · intro w hw g hg hin
    obtain ⟨f, hf, heq⟩ := hown w hw
    rw [inFrame_iff, ← heq] at hin
    exact hfree f hf (by rw [← Nat.cast_injective hin]; exact hg)
  · intro mem k hout
    have hnone : written r.stores ((k : Nat) : Int) = none := by
      rw [written_eq_none_iff]
      intro w hw haddr
      obtain ⟨entry, hentry, hin⟩ := hentry w hw
      exact hout entry hentry (by rw [← haddr]; exact hin)
    rw [memoryAfter, writeAll_apply, hnone, Option.getD_none]

theorem StaysInside.own {exe : Executable} {frames : List Nat} (h : StaysInside exe frames)
    {w : Store}
    (hw : w ∈ zeroPages (entriesFor 0 frames) ++ (copySegments exe (entriesFor 0 frames)).1) :
    OwnFrame frames w.addr := by
  rw [copySegments_eq] at hw
  rcases List.mem_append.mp hw with hzero | hcopy
  · obtain ⟨f, hf, r, hr, rfl⟩ := mem_zeroPages.mp hzero
    refine ⟨f, hf, ?_⟩
    simp only [pageSize] at *
    omega
  · obtain ⟨seg, i, f, r, b, hcopied, hf, hr, hb, rfl⟩ := mem_copyAll.mp hcopy
    have hlt : r < seg.numCopied exe i := lt_numCopied_iff.mpr ⟨hr, b, hb⟩
    have hle : seg.numCopied exe i ≤ pageSize := Nat.min_le_left _ _
    obtain ⟨hfirst, hlast⟩ := h.2 seg i f hcopied hf (by omega)
    exact hfirst.between (by omega) (by omega) hlast

/-! ## The condition is needed -/

theorem staysInside_of_isolated {bm : Bitmap} {exe : Executable} {frames : List Nat}
    {r : LoadOutcome} (htable : r.pageTable = entriesFor 0 frames)
    (hstores : r.stores = zeroPages (entriesFor 0 frames) ++
      (copySegments exe (entriesFor 0 frames)).1)
    (h : Isolated bm r) : StaysInside exe frames := by
  have hown : ∀ w ∈ r.stores, OwnFrame frames w.addr := by
    intro w hw
    have hentry := h.own w hw
    rw [htable, exists_mem_entriesFor (P := fun k => InFrame k w.addr)] at hentry
    exact ownFrame_iff.mpr hentry
  constructor
  · -- the first byte of every frame is cleared
    intro f hf
    have hmem : ({ addr := f * pageSize + (0 : Nat), value := 0 } : Store) ∈ r.stores := by
      rw [hstores]
      exact List.mem_append_left _ (mem_zeroPages.mpr ⟨f, hf, 0, by decide, rfl⟩)
    have hlt := (h.inside _ hmem).2
    simp only [memorySize, numPhysPages, pageSize] at *
    omega
  · intro seg i f hcopied hf hpos
    -- every byte that the file has is written, so the first and the last are
    have hbyte : ∀ k < seg.numCopied exe i,
        OwnFrame frames (seg.virtualAddr.toInt + f * pageSize + k) := by
      intro k hk
      obtain ⟨hlt, b, hb⟩ := lt_numCopied_iff.mp hk
      have hmem : ({ addr := seg.virtualAddr.toInt + f * pageSize + k, value := b } : Store)
          ∈ r.stores := by
        rw [hstores, copySegments_eq]
        exact List.mem_append_right _
          (mem_copyAll.mpr ⟨seg, i, f, k, b, hcopied, hf, hlt, hb, rfl⟩)
      exact hown _ hmem
    refine ⟨?_, hbyte _ (by omega)⟩
    have hzero := hbyte 0 hpos
    rwa [Nat.cast_zero, Int.add_zero] at hzero

theorem isolated_nothing (bm : Bitmap) (status : LoadStatus) :
    Isolated bm (.nothing bm status) := by
  refine isolated_of_own [] rfl ?_ ?_ ?_ <;> simp [LoadOutcome.nothing]

theorem isolated_iff_of_admitted {bm : Bitmap} {exe : Executable}
    (hmagic : exe.header.noffMagic = noffMagic) (hle : exe.header.numPages ≤ bm.free.length) :
    Isolated bm (loadExecutable bm exe) ↔ StaysInside exe (takenFrames bm exe) := by
  rcases loadExecutable_eq bm hmagic with ⟨hlt, -⟩ | ⟨-, bm', heq, -⟩
  · omega
  · rw [heq]
    constructor
    · intro h
      refine staysInside_of_isolated ?_ ?_ h
      · simp only
      · simp only
    · intro hstays
      refine isolated_of_own (takenFrames bm exe) ?_ hstays.1 ?_ ?_
      · simp only
      · exact fun f hf => notMem_bits_of_mem_takenFrames hf
      · exact fun w hw => hstays.own hw

/--
Load isolation.

The constructor and `Load` keep to the frames they have just taken exactly when they are refused, or
the frames are in main memory and every page that is copied begins and ends in one of the frames.
-/
theorem load_isolated_iff {bm : Bitmap} {exe : Executable}
    (hmagic : exe.header.noffMagic = noffMagic) :
    (Isolated bm (AddrSpace.ofFile bm (some exe)) ∧
      Isolated bm (AddrSpace.load bm (some exe)).1) ↔
    (bm.free.length < exe.header.numPages ∨ StaysInside exe (takenFrames bm exe)) := by
  -- the two have the same body
  show (Isolated bm (loadExecutable bm exe) ∧ Isolated bm (loadExecutable bm exe)) ↔ _
  rw [and_self_iff]
  by_cases hle : exe.header.numPages ≤ bm.free.length
  · rw [isolated_iff_of_admitted hmagic hle, or_iff_right (not_lt.mpr hle)]
  · rcases loadExecutable_eq bm hmagic with ⟨hlt, heq⟩ | ⟨hle', -⟩
    · rw [heq]
      exact iff_of_true (isolated_nothing bm _) (Or.inl hlt)
    · exact absurd hle' hle

/-- A program that stays inside: its one segment is at virtual address 0. -/
theorem load_isolated_tiny :
    tinyProgram.header.noffMagic = noffMagic ∧
      Isolated gPhysPageBitMap (AddrSpace.ofFile gPhysPageBitMap (some tinyProgram)) := by
  have hmagic : tinyProgram.header.noffMagic = noffMagic := by decide
  have hfit : tinyProgram.header.numPages ≤ 256 := by decide
  refine ⟨hmagic, ((load_isolated_iff hmagic).mpr (Or.inr ?_)).1⟩
  rw [takenFrames_gPhysPageBitMap hfit]
  refine ⟨fun f hf => ?_, fun seg i f hcopied hf hpos => ?_⟩
  · exact (List.mem_range.mp hf).trans (by decide)
  · have hle : seg.numCopied tinyProgram i ≤ pageSize := Nat.min_le_left _ _
    have hmem : f ∈ List.range tinyProgram.header.numPages := List.mem_of_getElem? hf
    have hzero : seg.virtualAddr.toInt = 0 := by
      rcases hcopied with ⟨rfl, -⟩ | ⟨-, ⟨rfl, -⟩ | ⟨-, ⟨rfl, -⟩ | ⟨-, hnone⟩⟩⟩
      · decide
      · decide
      · decide
      · exact absurd hnone not_false
    refine ⟨⟨f, hmem, ?_⟩, ⟨f, hmem, ?_⟩⟩
    · simp only [hzero, pageSize] at *
      omega
    · simp only [hzero, pageSize] at *
      omega

/-- The copy of the data goes on behind the last frame of the program. -/
theorem trailing_bytes_overrun :
    dataProgram.header.noffMagic = noffMagic ∧
      dataProgram.header.numPages ≤ gPhysPageBitMap.free.length ∧
      ¬ (Isolated gPhysPageBitMap (AddrSpace.ofFile gPhysPageBitMap (some dataProgram)) ∧
        Isolated gPhysPageBitMap (AddrSpace.load gPhysPageBitMap (some dataProgram)).1) := by
  have hmagic : dataProgram.header.noffMagic = noffMagic := by decide
  have hfit : dataProgram.header.numPages ≤ 256 := by rw [dataProgram_numPages]; decide
  have hclear := numPages_le_free_gPhysPageBitMap hfit
  refine ⟨hmagic, hclear, ?_⟩
  rintro ⟨h, -⟩
  have hstays := (isolated_iff_of_admitted hmagic hclear).mp h
  rw [takenFrames_gPhysPageBitMap hfit, dataProgram_numPages] at hstays
  have hcopied : CopiesPage 9 dataProgram.segments dataProgram.header.initData 8 := by
    rw [Executable.segments, dataProgram_code, dataProgram_initData]
    refine Or.inr ⟨?_, Or.inl ⟨rfl, by decide, by decide⟩⟩
    unfold Segment.Readable
    decide
  have hlen : dataProgram.bytes.length = 1160 := by
    simp only [dataProgram, List.length_append, List.length_replicate]
    rfl
  have hpos : 0 < dataProgram.header.initData.numCopied dataProgram 8 := by
    rw [Segment.numCopied, hlen, dataProgram_initData]
    decide
  -- page 8 of the data begins in frame 9
  obtain ⟨⟨f, hf, heq⟩, -⟩ := hstays.2 _ 8 8 (by rwa [List.length_range]) (by decide) hpos
  have hlt := List.mem_range.mp hf
  have hva : dataProgram.header.initData.virtualAddr.toInt = 128 := by
    rw [dataProgram_initData]
    decide
  rw [hva] at heq
  simp only [pageSize] at heq
  omega

end Nachos
