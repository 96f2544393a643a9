import Nachos.Base.WriteLog
import Nachos.Lib.Bitmap
import Nachos.Machine.Translate
import Mathlib.Data.List.Nodup

/-!
# Loading a program (`userprog/addrspace.cc`, `userprog/noff.h`, `filesys/openfile.h`)

The constructor `AddrSpace(char *)` and `AddrSpace::Load` have the same body: they read the header
of the executable, compute the number of pages, take that many frames from the frame bitmap, clear
them, and copy the segments. The two differ in what they tell the caller.

`mainMemory` is a bare pointer. What the loader writes through it is kept as a list of `Store`s,
at indices that can lie anywhere; whether they are inside main memory is a question to be asked.

* `loadProgram` — the common body
* `mapPages_eq` — the allocation loop takes the first frames that are clear
-/

namespace Nachos

open Base

/-! ## NOFF files -/

/-- `NOFFMAGIC`. -/
def noffMagic : BitVec 32 := 0xbadfad

/-- `UserStackSize`. -/
def userStackSize : BitVec 32 := 1024

/-- `sizeof(NoffHeader)`. -/
def noffHeaderSize : Nat := 52

/-- The struct `Segment`. -/
structure Segment where
  virtualAddr : BitVec 32
  inFileAddr : BitVec 32
  size : BitVec 32
deriving DecidableEq

/-- The struct `NoffHeader`. -/
structure NoffHeader where
  noffMagic : BitVec 32
  code : Segment
  initData : Segment
  readonlyData : Segment
  uninitData : Segment
deriving DecidableEq

/-- An open file with room for the header that `ReadAt(&noffH, sizeof(noffH), 0)` reads. -/
structure Executable where
  bytes : List (BitVec 8)
  header_le : noffHeaderSize ≤ bytes.length

namespace Executable

/-- The little-endian `int` at offset `i`. -/
def wordAt (exe : Executable) (i : Nat) : BitVec 32 :=
  exe.bytes.getD (i + 3) 0 ++ exe.bytes.getD (i + 2) 0 ++ exe.bytes.getD (i + 1) 0 ++
    exe.bytes.getD i 0

def segmentAt (exe : Executable) (i : Nat) : Segment where
  virtualAddr := exe.wordAt i
  inFileAddr := exe.wordAt (i + 4)
  size := exe.wordAt (i + 8)

def header (exe : Executable) : NoffHeader where
  noffMagic := exe.wordAt 0
  code := exe.segmentAt 4
  initData := exe.segmentAt 16
  readonlyData := exe.segmentAt 28
  uninitData := exe.segmentAt 40

/--
`OpenFile::ReadAt`: as many of the `numBytes` bytes as the file has.

`none`: the position is negative and the assertion in `Lseek` fails.
-/
def readAt (exe : Executable) (numBytes : Nat) (position : BitVec 32) :
    Option (List (BitVec 8)) :=
  if position.toInt < 0 then none else some ((exe.bytes.drop position.toNat).take numBytes)

end Executable

/-- The number of pages of the program, with room for the stack. The sum is `unsigned int`. -/
def NoffHeader.numPages (noffH : NoffHeader) : Nat :=
  divRoundUp (noffH.code.size + noffH.readonlyData.size + noffH.initData.size +
    noffH.uninitData.size + userStackSize).toNat pageSize

/-! ## The page table -/

/-- What the loop stores in `pageTable[i]`. -/
def newEntry (i : Nat) (frame : Int) : TranslationEntry where
  virtualPage := i
  physicalPage := frame
  valid := true
  readOnly := false
  use := false
  dirty := false

/-- The allocation loop from page `i` on, with `n` pages to go. -/
def mapPages (bm : Bitmap) (i : Nat) : Nat → Option (Bitmap × List TranslationEntry)
  | 0 => some (bm, [])
  | n + 1 => do
    let (bm, frame) ← bm.findAndSet
    let (bm, rest) ← mapPages bm (i + 1) n
    return (bm, newEntry i frame :: rest)

/-! ## What is written to main memory -/

/-- A byte written to `mainMemory[addr]`. -/
abbrev Store := Write Int (BitVec 8)

/-- The `bzero` of the allocation loop. -/
def zeroPages (pageTable : List TranslationEntry) : List Store :=
  pageTable.flatMap fun entry =>
    writeFrom (entry.physicalPage * pageSize) (List.replicate pageSize 0)

/-- Where the copy loop of a segment puts page `entry`. -/
def Segment.target (seg : Segment) (entry : TranslationEntry) : Int :=
  seg.virtualAddr.toInt + entry.physicalPage * pageSize

/-- Where it reads page `i` in the file. -/
def Segment.position (seg : Segment) (i : Nat) : BitVec 32 :=
  seg.inFileAddr + BitVec.ofNat 32 (i * pageSize)

/-- The copy loop of a segment from page `i` on. `false`: an assertion has failed on the way. -/
def copyLoop (exe : Executable) (seg : Segment) (i : Nat) :
    List TranslationEntry → List Store × Bool
  | [] => ([], true)
  | entry :: rest =>
    match exe.readAt pageSize (seg.position i) with
    | none => ([], false)
    | some bytes =>
      let r := copyLoop exe seg (i + 1) rest
      (writeFrom (seg.target entry) bytes ++ r.1, r.2)

/-- The copy loop is run for segments of positive size only. -/
def copySegment (exe : Executable) (pageTable : List TranslationEntry) (seg : Segment) :
    List Store × Bool :=
  if 0 < seg.size.toInt then copyLoop exe seg 0 pageTable else ([], true)

/-- One piece of code after the other, unless an assertion fails in the first. -/
def thenCopy (a b : List Store × Bool) : List Store × Bool :=
  if a.2 then (a.1 ++ b.1, b.2) else a

/-- The three copy loops. -/
def copySegments (exe : Executable) (pageTable : List TranslationEntry) : List Store × Bool :=
  thenCopy (copySegment exe pageTable exe.header.code)
    (thenCopy (copySegment exe pageTable exe.header.initData)
      (copySegment exe pageTable exe.header.readonlyData))

/-! ## The body of the constructor and of Load -/

/-- How the body ended. -/
inductive LoadStatus where
  /-- The file could not be opened. -/
  | notFound
  /-- There are not enough clear frames. -/
  | refused
  /-- An assertion failed and Nachos stopped. -/
  | aborted
  | loaded
deriving DecidableEq

/-- `pageTable` holds the `numPages` entries; there are none when the load was not admitted. -/
structure LoadOutcome where
  bitmap : Bitmap
  pageTable : List TranslationEntry
  stores : List Store
  status : LoadStatus

/-- Nothing is allocated and nothing is written. -/
def LoadOutcome.nothing (bm : Bitmap) (status : LoadStatus) : LoadOutcome where
  bitmap := bm
  pageTable := []
  stores := []
  status := status

/-- The body, from the point where the file is open and the header is read. -/
def loadExecutable (bm : Bitmap) (exe : Executable) : LoadOutcome :=
  if exe.header.noffMagic ≠ noffMagic then .nothing bm .aborted
  else
    match bm.numClear with
    | none => .nothing bm .aborted
    | some numclear =>
      if numclear < exe.header.numPages then .nothing bm .refused
      else
        match mapPages bm 0 exe.header.numPages with
        | none => .nothing bm .aborted
        | some (bm, pageTable) =>
          let copies := copySegments exe pageTable
          { bitmap := bm
            pageTable := pageTable
            stores := zeroPages pageTable ++ copies.1
            status := if copies.2 then .loaded else .aborted }

/-- The body of the constructor and of `Load`. -/
def loadProgram (bm : Bitmap) : Option Executable → LoadOutcome
  | none => .nothing bm .notFound
  | some exe => loadExecutable bm exe

namespace AddrSpace

/-- `AddrSpace::AddrSpace(char *)`. -/
def ofFile (bm : Bitmap) (executable : Option Executable) : LoadOutcome := loadProgram bm executable

/-- `AddrSpace::Load`. -/
def load (bm : Bitmap) (executable : Option Executable) : LoadOutcome × Bool :=
  (loadProgram bm executable, (loadProgram bm executable).status == .loaded)

/-- `AddrSpace::~AddrSpace` frees the table and does not touch the bitmap. -/
def destroy (bm : Bitmap) (_pageTable : List TranslationEntry) : Bitmap := bm

/-- `AddrSpace::RestoreState`: the machine gets the table. It has no TLB without `USE_TLB`. -/
def restoreState (mem : Bytes memorySize) (pageTable : List TranslationEntry) :
    Machine pageTable.length where
  mainMemory := mem
  tlb := none
  pageTable := some pageTable.get

end AddrSpace

/-! ## What the allocation loop does -/

/-- The entries of a table whose page `i + j` is in frame `frames[j]`. -/
def entriesFor (i : Nat) : List Nat → List TranslationEntry
  | [] => []
  | frame :: frames => newEntry i frame :: entriesFor (i + 1) frames

/-- When there are enough clear frames, the loop takes the first ones of them. -/
theorem mapPages_eq {bm : Bitmap} {n : Nat} (h : n ≤ bm.free.length) (i : Nat) :
    ∃ bm', mapPages bm i n = some (bm', entriesFor i (bm.free.take n)) ∧
      bm'.numBits = bm.numBits ∧ bm'.bits = bm.bits ∪ (bm.free.take n).toFinset ∧
      bm'.free = bm.free.drop n := by
  induction n generalizing bm i with
  | zero => exact ⟨bm, rfl, rfl, by simp, rfl⟩
  | succ n ih =>
    cases hfree : bm.free with
    | nil => simp [hfree] at h
    | cons f rest =>
      obtain ⟨bm₁, hfind, hnum₁, hbits₁, hfree₁⟩ := Bitmap.findAndSet_of_free_cons hfree
      have hn : n ≤ bm₁.free.length := by
        rw [hfree₁]
        rw [hfree] at h
        simpa using h
      obtain ⟨bm', hmap, hnum, hbits, hfree'⟩ := ih hn (i + 1)
      refine ⟨bm', ?_, hnum.trans hnum₁, ?_, ?_⟩
      · simp [mapPages, hfind, hmap, hfree₁, entriesFor]
      · rw [hbits, hbits₁, hfree₁]
        ext j
        simp [or_comm]
      · rw [hfree', hfree₁]
        rfl

@[simp] theorem length_entriesFor (i : Nat) (frames : List Nat) :
    (entriesFor i frames).length = frames.length := by
  induction frames generalizing i with
  | nil => rfl
  | cons f frames ih => simp [entriesFor, ih]

@[simp] theorem map_physicalPage_entriesFor (i : Nat) (frames : List Nat) :
    (entriesFor i frames).map (·.physicalPage) = frames.map fun f : Nat => (f : Int) := by
  induction frames generalizing i with
  | nil => rfl
  | cons f frames ih => simp [entriesFor, newEntry, ih]

theorem exists_mem_entriesFor {i : Nat} {frames : List Nat} {P : Int → Prop} :
    (∃ entry ∈ entriesFor i frames, P entry.physicalPage) ↔ ∃ f ∈ frames, P (f : Nat) := by
  induction frames generalizing i with
  | nil => simp [entriesFor]
  | cons f frames ih => simp [entriesFor, newEntry, ih]

theorem forall_mem_entriesFor {i : Nat} {frames : List Nat} {P : Int → Prop} :
    (∀ entry ∈ entriesFor i frames, P entry.physicalPage) ↔ ∀ f ∈ frames, P (f : Nat) := by
  induction frames generalizing i with
  | nil => simp [entriesFor]
  | cons f frames ih => simp [entriesFor, newEntry, ih]

/-- The frames that the load of a program takes. -/
def takenFrames (bm : Bitmap) (exe : Executable) : List Nat := bm.free.take exe.header.numPages

/-- What comes out of a load of a NOFF file. -/
theorem loadExecutable_eq (bm : Bitmap) {exe : Executable}
    (hmagic : exe.header.noffMagic = noffMagic) :
    (bm.free.length < exe.header.numPages ∧ loadExecutable bm exe = .nothing bm .refused) ∨
    (exe.header.numPages ≤ bm.free.length ∧ ∃ bm',
      loadExecutable bm exe =
        { bitmap := bm'
          pageTable := entriesFor 0 (takenFrames bm exe)
          stores := zeroPages (entriesFor 0 (takenFrames bm exe)) ++
            (copySegments exe (entriesFor 0 (takenFrames bm exe))).1
          status := if (copySegments exe (entriesFor 0 (takenFrames bm exe))).2 then .loaded
            else .aborted } ∧
      bm'.numBits = bm.numBits ∧ bm'.bits = bm.bits ∪ (takenFrames bm exe).toFinset ∧
      bm'.free = bm.free.drop exe.header.numPages) := by
  unfold loadExecutable
  rw [if_neg (not_not.mpr hmagic), Bitmap.numClear_eq]
  by_cases h : bm.free.length < exe.header.numPages
  · have hlt : (bm.free.length : Int) < exe.header.numPages := by omega
    refine Or.inl ⟨h, ?_⟩
    simp only [if_pos hlt]
  · obtain ⟨bm', hmap, hrest⟩ := mapPages_eq (not_lt.mp h) 0
    refine Or.inr ⟨not_lt.mp h, bm', ?_, hrest⟩
    have hnot : ¬ ((bm.free.length : Int) < exe.header.numPages) := by omega
    simp only [if_neg hnot, hmap]
    rfl

/-- A load takes different frames that were clear. -/
theorem takenFrames_nodup (bm : Bitmap) (exe : Executable) : (takenFrames bm exe).Nodup :=
  bm.free_nodup.sublist (List.take_sublist _ _)

theorem notMem_bits_of_mem_takenFrames {bm : Bitmap} {exe : Executable} {f : Nat}
    (h : f ∈ takenFrames bm exe) : f ∉ bm.bits :=
  (Bitmap.mem_free_iff_notMem_bits.mp (List.mem_of_mem_take h)).2

theorem gPhysPageBitMap_range : 0 < 256 ∧ 256 < 2 ^ 31 := by decide

/-- The frame bitmap that `Kernel::Initialize` makes. -/
def gPhysPageBitMap : Bitmap := Bitmap.zero 256 gPhysPageBitMap_range

theorem free_gPhysPageBitMap : gPhysPageBitMap.free = List.range 256 := Bitmap.free_zero _ _

/-- With all frames clear, a load takes the frames from 0 on. -/
theorem takenFrames_gPhysPageBitMap {exe : Executable} (hfit : exe.header.numPages ≤ 256) :
    takenFrames gPhysPageBitMap exe = List.range exe.header.numPages := by
  rw [takenFrames, free_gPhysPageBitMap, List.take_range, min_eq_left hfit]

theorem numPages_le_free_gPhysPageBitMap {exe : Executable} (hfit : exe.header.numPages ≤ 256) :
    exe.header.numPages ≤ gPhysPageBitMap.free.length := by
  rw [free_gPhysPageBitMap, List.length_range]
  exact hfit

/-- A program with one instruction at virtual address 0 and nothing else. -/
def tinyProgram : Executable where
  bytes := [0xad, 0xdf, 0xba, 0, 0, 0, 0, 0, 52, 0, 0, 0, 4, 0, 0, 0] ++ List.replicate 36 0 ++
    [1, 2, 3, 4]
  header_le := by decide

example : tinyProgram.header.numPages = 9 := by decide

end Nachos
