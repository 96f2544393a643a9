import Nachos.Base.Buffer
import Nachos.Lib.Bitmap

/-!
# Disk sectors and file headers (`filesys/filehdr.cc`, `filesys/synchdisk.cc`, `machine/disk.h`)

A `FileHeader` is the memory of one sector: two `int`s and the table `dataSectors`. It is kept as
these bytes, so `FetchFrom` and `WriteBack` copy it as it is. `SynchDisk` reads back what was last
written.

A failed `ASSERT` aborts the kernel; here it is `none`.

* `FileHeader.allocate`, `FileHeader.deallocate` — the bitmap and `dataSectors`
* `allocateLoop_eq` — the first sectors that are free
* `deallocateLoop_eq` — all of them are given back
-/

namespace Nachos

open Base

/-- `SectorSize`. -/
def sectorSize : Nat := 128

/-- `NumSectors`. -/
def numDiskSectors : Nat := 1024

/-- The contents of a sector. -/
abbrev Sector := Bytes sectorSize

/-- The contents of the disk. -/
abbrev DiskImage := Nat → Sector

/-- The assertion of `ReadRequest` and of `WriteRequest`. -/
def OnDisk (sector : BitVec 32) : Prop := 0 ≤ sector.toInt ∧ sector.toInt < numDiskSectors

instance (sector : BitVec 32) : Decidable (OnDisk sector) := inferInstanceAs (Decidable (_ ∧ _))

/-- `SynchDisk::ReadSector`, to index `i` of a buffer. -/
def readSector (disk : DiskImage) (sector : BitVec 32) (data : Buffer) (i : Nat) : Option Buffer :=
  if OnDisk sector then some (bcopy (disk sector.toNat).view 0 data i sectorSize) else none

/-- `SynchDisk::WriteSector`, from index `i` of a buffer. -/
def writeSector (disk : DiskImage) (sector : BitVec 32) (data : Buffer) (i : Nat) :
    Option DiskImage :=
  if OnDisk sector then some (Function.update disk sector.toNat (Bytes.ofBuffer data i)) else none

theorem onDisk_iff {sector : BitVec 32} : OnDisk sector ↔ sector.toNat < numDiskSectors := by
  unfold OnDisk numDiskSectors
  rw [BitVec.toInt_eq_toNat_cond]
  split <;> omega

/-! ## File headers -/

/-- `NumDirect`. -/
def numDirect : Nat := 30

/-- The class `FileHeader`. -/
abbrev FileHeader := Sector

namespace FileHeader

/-- The `int` number `i` of the object. -/
def word (h : FileHeader) (i : Nat) : BitVec 32 := wordAt h.view (4 * i)

def setWord (h : FileHeader) (i : Nat) (x : BitVec 32) : FileHeader :=
  Bytes.ofBuffer (putWord h.view (4 * i) x) 0

def numBytes (h : FileHeader) : BitVec 32 := word h 0

def numSectors (h : FileHeader) : BitVec 32 := word h 1

/-- `dataSectors[i]`. -/
def dataSector (h : FileHeader) (i : Nat) : BitVec 32 := word h (2 + i)

/-- The first `n` of the `dataSectors`. -/
def dataSectors (h : FileHeader) (n : Nat) : List Nat :=
  (List.range n).map fun i => (dataSector h i).toNat

/-- The data sectors of the file. -/
def sectors (h : FileHeader) : List Nat := dataSectors h (numSectors h).toInt.toNat

/-- `divRoundUp`, on `int`s. -/
def divRoundUpInt (n s : Int) : Int := n.tdiv s + if 0 < n.tmod s then 1 else 0

/-- The loop of `Allocate`, `n` times. -/
def allocateLoop (freeMap : Bitmap) (h : FileHeader) : Nat → Option (Bitmap × FileHeader)
  | 0 => some (freeMap, h)
  | n + 1 => do
    let (freeMap, h) ← allocateLoop freeMap h n
    let (freeMap, sector) ← freeMap.findAndSet
    let h := setWord h (2 + n) (BitVec.ofInt 32 sector)
    if 0 ≤ (dataSector h n).toInt then some (freeMap, h) else none

/-- `FileHeader::Allocate`. -/
def allocate (h : FileHeader) (freeMap : Bitmap) (fileSize : BitVec 32) :
    Option (Bitmap × FileHeader × Bool) := do
  let h := setWord h 0 fileSize
  let h := setWord h 1 (BitVec.ofInt 32 (divRoundUpInt fileSize.toInt sectorSize))
  if (← freeMap.numClear) < (numSectors h).toInt then return (freeMap, h, false)
  else
    let (freeMap, h) ← allocateLoop freeMap h (numSectors h).toInt.toNat
    return (freeMap, h, true)

/-- The loop of `Deallocate`, `n` times. -/
def deallocateLoop (h : FileHeader) (freeMap : Bitmap) : Nat → Option Bitmap
  | 0 => some freeMap
  | n + 1 => do
    let freeMap ← deallocateLoop h freeMap n
    if ← freeMap.test (dataSector h n).toInt then freeMap.clear (dataSector h n).toInt else none

/-- `FileHeader::Deallocate`. -/
def deallocate (h : FileHeader) (freeMap : Bitmap) : Option Bitmap :=
  deallocateLoop h freeMap (numSectors h).toInt.toNat

/-- `FileHeader::FetchFrom`, which overwrites all of the object. -/
def fetchFrom (disk : DiskImage) (sector : BitVec 32) : Option FileHeader :=
  (readSector disk sector (fun _ => 0) 0).map fun data => Bytes.ofBuffer data 0

/-- `FileHeader::WriteBack`. -/
def writeBack (h : FileHeader) (disk : DiskImage) (sector : BitVec 32) : Option DiskImage :=
  writeSector disk sector h.view 0

/-- `FileHeader::ByteToSector`. -/
def byteToSector (h : FileHeader) (offset : Nat) : BitVec 32 := dataSector h (offset / sectorSize)

/-- `FileHeader::FileLength`. -/
def fileLength (h : FileHeader) : BitVec 32 := numBytes h

/-- All the bytes of the file lie in the sectors that the header names. -/
structure WellFormed (h : FileHeader) : Prop where
  direct : (numSectors h).toInt ≤ numDirect
  length : (fileLength h).toInt ≤ (numSectors h).toInt * sectorSize

/-! ## The words -/

theorem word_setWord {h : FileHeader} {i : Nat} {x : BitVec 32} (hi : i < 32) :
    word (setWord h i x) i = x := by
  refine wordAt_eq fun j hj => ?_
  have hlt : 4 * i + j < sectorSize := by
    unfold sectorSize
    omega
  rw [setWord, Bytes.view_ofBuffer hlt, Nat.zero_add, putWord, if_pos (by omega),
    Nat.add_sub_cancel_left]

theorem word_setWord_of_ne {h : FileHeader} {i j : Nat} {x : BitVec 32} (hj : j < 32)
    (hne : j ≠ i) : word (setWord h i x) j = word h j := by
  refine wordAt_congr fun k hk => ?_
  have hlt : 4 * j + k < sectorSize := by
    unfold sectorSize
    omega
  rw [setWord, Bytes.view_ofBuffer hlt, Nat.zero_add]
  rcases Nat.lt_or_gt_of_ne hne with hlt | hgt
  · exact putWord_of_lt (by omega)
  · exact putWord_of_le (by omega)

theorem fetchFrom_eq {disk : DiskImage} {sector : BitVec 32} (h : OnDisk sector) :
    fetchFrom disk sector = some (disk sector.toNat) := by
  unfold fetchFrom readSector
  rw [if_pos h]
  refine congrArg some (Bytes.ofBuffer_eq fun k hk => ?_)
  rw [Nat.zero_add, bcopy_zero hk, Nat.zero_add]

theorem writeBack_eq {disk : DiskImage} {sector : BitVec 32} (h : OnDisk sector)
    (hdr : FileHeader) :
    writeBack hdr disk sector = some (Function.update disk sector.toNat hdr) := by
  unfold writeBack writeSector
  rw [if_pos h, Bytes.ofBuffer_eq fun k hk => congrArg _ (Nat.zero_add k)]

/-! ## The sectors -/

/-- The sector of a byte is one of the file's. -/
theorem WellFormed.index_lt {h : FileHeader} (hwf : WellFormed h) {k : Nat}
    (hk : k < (fileLength h).toInt) : k / sectorSize < (numSectors h).toInt.toNat := by
  have := hwf.length
  unfold sectorSize at this ⊢
  omega

theorem mem_sectors {h : FileHeader} {i : Nat} (hi : i < (numSectors h).toInt.toNat) :
    (dataSector h i).toNat ∈ sectors h :=
  List.mem_map.mpr ⟨i, List.mem_range.mpr hi, rfl⟩

theorem dataSector_inj {h : FileHeader} (hnodup : (sectors h).Nodup) {i j : Nat}
    (hi : i < (numSectors h).toInt.toNat) (hj : j < (numSectors h).toInt.toNat)
    (heq : (dataSector h i).toNat = (dataSector h j).toNat) : i = j :=
  List.inj_on_of_nodup_map hnodup (List.mem_range.mpr hi) (List.mem_range.mpr hj) heq

/-! ## Allocate -/

theorem dataSectors_succ (h : FileHeader) (n : Nat) :
    dataSectors h (n + 1) = dataSectors h n ++ [(dataSector h n).toNat] := by
  unfold dataSectors
  rw [List.range_succ, List.map_append, List.map_singleton]

theorem dataSectors_congr {h h' : FileHeader} {n : Nat}
    (heq : ∀ i < n, dataSector h' i = dataSector h i) : dataSectors h' n = dataSectors h n :=
  List.map_congr_left fun i hi => congrArg BitVec.toNat (heq i (List.mem_range.mp hi))

/-- The number of a sector, as an `int`. -/
theorem toNat_ofInt_sector {i : Nat} (h : i < numDiskSectors) :
    (BitVec.ofInt 32 (i : Int)).toNat = i := by
  unfold numDiskSectors at h
  rw [BitVec.ofInt_natCast, BitVec.toNat_ofNat]
  exact Nat.mod_eq_of_lt (by omega)

/-- The number of a bit is an `int` that is not negative. -/
theorem ofInt_of_mem_free {freeMap : Bitmap} {i : Nat} (hi : i ∈ freeMap.free) :
    (BitVec.ofInt 32 (i : Int)).toNat = i ∧ (BitVec.ofInt 32 (i : Int)).toInt = i := by
  have hlt : i < 2 ^ 31 := (Bitmap.mem_free.mp hi).1.trans freeMap.numBits_range.2
  have hnat : (BitVec.ofInt 32 (i : Int)).toNat = i := by
    rw [BitVec.ofInt_natCast, BitVec.toNat_ofNat]
    exact Nat.mod_eq_of_lt (by omega)
  refine ⟨hnat, ?_⟩
  rw [BitVec.toInt_eq_toNat_of_lt (by omega), hnat]

/-- The loop takes the first sectors that are free. -/
theorem allocateLoop_eq (freeMap : Bitmap) (h : FileHeader) {n : Nat}
    (hfree : n ≤ freeMap.free.length) (hdirect : n ≤ numDirect) :
    ∃ freeMap' h', allocateLoop freeMap h n = some (freeMap', h') ∧
      freeMap'.numBits = freeMap.numBits ∧ freeMap'.free = freeMap.free.drop n ∧
      freeMap'.bits = freeMap.bits ∪ (freeMap.free.take n).toFinset ∧
      dataSectors h' n = freeMap.free.take n ∧ ∀ i < 2, word h' i = word h i := by
  induction n with
  | zero =>
    refine ⟨freeMap, h, rfl, rfl, rfl, ?_, rfl, fun _ _ => rfl⟩
    rw [List.take_zero, List.toFinset_nil, Finset.union_empty]
  | succ n ih =>
    unfold numDirect at hdirect ih
    obtain ⟨fm, hdr, hloop, hnum', hdrop, hbits, hdata, hwords⟩ := ih (by omega) (by omega)
    have hlt : n < freeMap.free.length := hfree
    rw [List.drop_eq_getElem_cons hlt] at hdrop
    obtain ⟨fm', hfind, hnum'', hbits', hrest⟩ := Bitmap.findAndSet_of_free_cons hdrop
    obtain ⟨hsector, hint⟩ := ofInt_of_mem_free (List.getElem_mem hlt)
    have hnew : dataSector (setWord hdr (2 + n) (BitVec.ofInt 32 (freeMap.free[n] : Int))) n =
        BitVec.ofInt 32 (freeMap.free[n] : Int) := word_setWord (by omega)
    have hassert : 0 ≤ (BitVec.ofInt 32 (freeMap.free[n] : Int)).toInt := by
      rw [hint]
      exact Int.natCast_nonneg _
    refine ⟨fm', setWord hdr (2 + n) (BitVec.ofInt 32 (freeMap.free[n] : Int)), ?_,
      hnum''.trans hnum', hrest, ?_, ?_, ?_⟩
    · rw [allocateLoop, hloop]
      dsimp only [Option.bind_eq_bind, Option.bind_some]
      rw [hfind]
      dsimp only [Option.bind_some]
      rw [hnew, if_pos hassert]
    · rw [hbits', hbits, List.take_succ_eq_append_getElem hlt, List.toFinset_append]
      ext j
      simp
    · have hold : dataSectors (setWord hdr (2 + n) (BitVec.ofInt 32 (freeMap.free[n] : Int))) n =
          dataSectors hdr n :=
        dataSectors_congr fun i hi => word_setWord_of_ne (by omega) (by omega)
      rw [dataSectors_succ, hnew, hsector, hold, hdata, List.take_succ_eq_append_getElem hlt]
    · intro i hi
      rw [word_setWord_of_ne (by omega) (by omega)]
      exact hwords i hi

/-! ### The whole of Allocate -/

theorem toInt_of_nonneg {x : BitVec 32} (h : 0 ≤ x.toInt) : x.toInt = x.toNat := by
  rw [BitVec.toInt_eq_toNat_cond] at h ⊢
  split
  next => rfl
  next hge =>
    rw [if_neg hge] at h
    omega

theorem divRoundUpInt_natCast (n s : Nat) : divRoundUpInt n s = (divRoundUp n s : Nat) := by
  unfold divRoundUpInt divRoundUp
  rw [← Int.ofNat_tdiv, ← Int.ofNat_tmod]
  by_cases h : 0 < n % s
  · rw [if_pos h, if_pos (by exact_mod_cast h)]
    exact (Int.natCast_add _ _).symm
  · rw [if_neg h, if_neg (by exact_mod_cast h)]
    exact (Int.natCast_add _ _).symm

/-- The number of sectors that a file of `fileSize` bytes needs. -/
def sectorsFor (fileSize : BitVec 32) : Nat := divRoundUp fileSize.toNat sectorSize

/-- The header in which `Allocate` has set the two sizes. -/
def sized (h : FileHeader) (fileSize : BitVec 32) : FileHeader :=
  setWord (setWord h 0 fileSize) 1 (BitVec.ofInt 32 (divRoundUpInt fileSize.toInt sectorSize))

theorem numBytes_sized (h : FileHeader) (fileSize : BitVec 32) :
    numBytes (sized h fileSize) = fileSize :=
  (word_setWord_of_ne (by decide) (by decide)).trans (word_setWord (by decide))

theorem numSectors_sized (h : FileHeader) {fileSize : BitVec 32} (hsize : 0 ≤ fileSize.toInt) :
    (numSectors (sized h fileSize)).toInt = sectorsFor fileSize := by
  have hword : numSectors (sized h fileSize) = BitVec.ofNat 32 (sectorsFor fileSize) := by
    refine (word_setWord (by decide)).trans ?_
    rw [toInt_of_nonneg hsize, divRoundUpInt_natCast, BitVec.ofInt_natCast]
    rfl
  have hlt : sectorsFor fileSize < 2 ^ 31 := by
    have := fileSize.isLt
    unfold sectorsFor divRoundUp sectorSize
    split <;> omega
  rw [hword, BitVec.toInt_ofNat']
  exact Int.bmod_eq_of_le (by omega) (by omega)

theorem allocate_of_lt {freeMap : Bitmap} (h : FileHeader) {fileSize : BitVec 32}
    (hsize : 0 ≤ fileSize.toInt) (hfull : freeMap.free.length < sectorsFor fileSize) :
    ∃ h', allocate h freeMap fileSize = some (freeMap, h', false) := by
  refine ⟨sized h fileSize, ?_⟩
  have hlt : (freeMap.free.length : Int) < (numSectors (sized h fileSize)).toInt := by
    rw [numSectors_sized h hsize]
    exact_mod_cast hfull
  unfold allocate
  rw [Bitmap.numClear_eq]
  exact if_pos hlt

/-- The header of a file for which there is room. -/
theorem allocate_of_le {freeMap : Bitmap} (hnum : freeMap.numBits = numDiskSectors)
    (h : FileHeader) {fileSize : BitVec 32} (hsize : 0 ≤ fileSize.toInt)
    (hfree : sectorsFor fileSize ≤ freeMap.free.length)
    (hdirect : sectorsFor fileSize ≤ numDirect) :
    ∃ freeMap' h', allocate h freeMap fileSize = some (freeMap', h', true) ∧
      freeMap'.numBits = numDiskSectors ∧
      freeMap'.bits = freeMap.bits ∪ (freeMap.free.take (sectorsFor fileSize)).toFinset ∧
      sectors h' = freeMap.free.take (sectorsFor fileSize) ∧ numBytes h' = fileSize ∧
      (numSectors h').toInt = sectorsFor fileSize := by
  have hcount := numSectors_sized h hsize
  have hge : ¬ (freeMap.free.length : Int) < (numSectors (sized h fileSize)).toInt := by
    rw [hcount]
    exact_mod_cast Nat.not_lt.mpr hfree
  obtain ⟨fm, hdr, hloop, hnum', -, hbits, hdata, hwords⟩ :=
    allocateLoop_eq freeMap (sized h fileSize) hfree hdirect
  have hsectors : (numSectors hdr).toInt = sectorsFor fileSize := by
    rw [← hcount]
    exact congrArg BitVec.toInt (hwords 1 (by decide))
  refine ⟨fm, hdr, ?_, hnum'.trans hnum, hbits, ?_,
    (hwords 0 (by decide)).trans (numBytes_sized h fileSize),
    hsectors⟩
  · rw [← Int.toNat_natCast (sectorsFor fileSize), ← hcount] at hloop
    unfold allocate
    rw [Bitmap.numClear_eq]
    refine (if_neg hge).trans ?_
    exact congrArg (fun r => Option.bind r fun p => some (p.1, p.2, true)) hloop
  · rw [sectors, hsectors, Int.toNat_natCast, hdata]

theorem WellFormed.of_sized {h : FileHeader} {fileSize : BitVec 32} (hsize : 0 ≤ fileSize.toInt)
    (hdirect : sectorsFor fileSize ≤ numDirect) (hbytes : numBytes h = fileSize)
    (hcount : (numSectors h).toInt = sectorsFor fileSize) : WellFormed h := by
  have hle : fileSize.toNat ≤ sectorsFor fileSize * sectorSize := by
    unfold sectorsFor divRoundUp sectorSize
    split <;> omega
  refine ⟨?_, ?_⟩
  · rw [hcount]
    exact_mod_cast hdirect
  · rw [fileLength, hbytes, hcount, toInt_of_nonneg hsize]
    exact_mod_cast hle

/-! ## Deallocate -/

/-- The loop gives all the sectors back, if they are marked and each is listed once. -/
theorem deallocateLoop_eq {freeMap : Bitmap} (hnum : freeMap.numBits = numDiskSectors)
    (h : FileHeader) {n : Nat} (hnodup : (dataSectors h n).Nodup)
    (hmarked : ∀ s ∈ dataSectors h n, s ∈ freeMap.bits) :
    ∃ freeMap', deallocateLoop h freeMap n = some freeMap' ∧ freeMap'.numBits = numDiskSectors ∧
      freeMap'.bits = freeMap.bits \ (dataSectors h n).toFinset := by
  induction n with
  | zero => exact ⟨freeMap, rfl, hnum, (Finset.sdiff_empty).symm⟩
  | succ n ih =>
    rw [dataSectors_succ] at hnodup hmarked ⊢
    obtain ⟨hnodup', -, hdisjoint⟩ := List.nodup_append.mp hnodup
    obtain ⟨fm, hloop, hnum', hbits⟩ :=
      ih hnodup' fun s hs => hmarked s (List.mem_append_left _ hs)
    -- the last sector is still marked, as it is none of those before it
    have hmem : (dataSector h n).toNat ∈ freeMap.bits :=
      hmarked _ (List.mem_append_right _ (List.mem_singleton_self _))
    have hstill : (dataSector h n).toNat ∈ fm.bits := by
      rw [hbits, Finset.mem_sdiff, List.mem_toFinset]
      exact ⟨hmem, fun hs => hdisjoint _ hs _ (List.mem_singleton_self _) rfl⟩
    obtain ⟨hlt, hbit⟩ := Bitmap.mem_bits.mp hstill
    have hint : (dataSector h n).toInt = ((dataSector h n).toNat : Int) := by
      refine toInt_of_nonneg (onDisk_iff.mpr ?_).1
      rw [← hnum']
      exact hlt
    obtain ⟨fm', hclear, hnum'', hbits'⟩ := Bitmap.clear_bits hlt
    refine ⟨fm', ?_, hnum''.trans hnum', ?_⟩
    · rw [deallocateLoop, hloop]
      dsimp only [Option.bind_eq_bind, Option.bind_some]
      rw [hint, Bitmap.test_natCast hlt, hbit]
      exact hclear
    · rw [hbits', hbits, List.toFinset_append]
      ext s
      simp only [Finset.mem_erase, Finset.mem_sdiff, Finset.mem_union, List.mem_toFinset,
        List.mem_singleton]
      tauto

theorem deallocate_eq {freeMap : Bitmap} (hnum : freeMap.numBits = numDiskSectors)
    (h : FileHeader) (hnodup : (sectors h).Nodup) (hmarked : ∀ s ∈ sectors h, s ∈ freeMap.bits) :
    ∃ freeMap', deallocate h freeMap = some freeMap' ∧ freeMap'.numBits = numDiskSectors ∧
      freeMap'.bits = freeMap.bits \ (sectors h).toFinset :=
  deallocateLoop_eq hnum h hnodup hmarked

end FileHeader

end Nachos
