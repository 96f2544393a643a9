import Nachos.Filesys.DiskFile

/-!
# Bitmaps in a file (`filesys/pbitmap.cc`)

The words of the bitmap lie in the file with the least significant byte first, so bit `i` of the
bitmap is bit `i % 8` of byte `i / 8`.

* `Bitmap.ofFile_eq` — the bits of the file are read
* `Bitmap.writeBack_eq` — the bits are in the file afterwards
-/

namespace Nachos

open Base

namespace Bitmap

/-- The array `map` as bytes. -/
def memory (b : Bitmap) : Buffer := fun k => byteOf (b.map.getD (k / 4) 0) (k % 4)

/-- The bitmap with other bytes in the array `map`. -/
def withMap (b : Bitmap) (buf : Buffer) : Bitmap where
  numBits := b.numBits
  map := (List.range b.map.length).map fun i => wordAt buf (4 * i)
  numBits_range := b.numBits_range
  map_length := by rw [List.length_map, List.length_range]; exact b.map_length

/-- `PersistentBitmap::FetchFrom`. -/
def fetchFrom (b : Bitmap) (file : DiskFile) (fresh : Buffer) (disk : DiskImage) :
    Option Bitmap := do
  let (buf, _) ← file.readAt fresh disk b.memory 0 (b.map.length * 4) 0
  return b.withMap buf

/-- `PersistentBitmap::PersistentBitmap`, from a file. -/
def ofFile (file : DiskFile) (fresh : Buffer) (disk : DiskImage) (numItems : Nat)
    (h : 0 < numItems ∧ numItems < 2 ^ 31) : Option Bitmap := do
  let b ← Bitmap.new numItems h
  b.fetchFrom file fresh disk

/-- `PersistentBitmap::WriteBack`. -/
def writeBack (b : Bitmap) (file : DiskFile) (fresh : Nat → Buffer) (disk : DiskImage) :
    Option DiskImage := do
  let (disk, _) ← file.writeAt fresh disk b.memory (b.map.length * 4) 0
  return disk

/-- Bit `i` in an array of bytes. -/
def bitIn (buf : Buffer) (i : Nat) : Bool := (buf (i / 8)).getLsbD (i % 8)

theorem bitIn_memory (b : Bitmap) (i : Nat) : bitIn b.memory i = b.bit i := by
  have hword : i / 8 / 4 = i / bitsInWord := by
    unfold bitsInWord
    omega
  have hbit : 8 * (i / 8 % 4) + i % 8 = i % bitsInWord := by
    unfold bitsInWord
    omega
  rw [bit_eq_getLsbD, bitIn, memory, getLsbD_byteOf _ _ (Nat.mod_lt _ (by decide)), hword, hbit]
  rfl

theorem bit_withMap {b : Bitmap} {buf : Buffer} {i : Nat} (hi : i < b.numBits) :
    (b.withMap buf).bit i = bitIn buf i := by
  have hlt := word_index_lt hi
  have hword : (b.withMap buf).word i = wordAt buf (4 * (i / bitsInWord)) := by
    rw [word, withMap, List.getD_eq_getElem _ _ (by rwa [List.length_map, List.length_range]),
      List.getElem_map, List.getElem_range]
  have hbyte : 4 * (i / bitsInWord) + i % bitsInWord / 8 = i / 8 := by
    unfold bitsInWord
    omega
  have hbit : 8 * (i % bitsInWord / 8) + i % 8 = i % bitsInWord := by
    unfold bitsInWord
    omega
  have hlow : i % bitsInWord / 8 < 4 := by
    unfold bitsInWord
    omega
  rw [bit_eq_getLsbD, hword, bitIn, ← hbyte, ← byteOf_wordAt buf _ hlow,
    getLsbD_byteOf _ _ (Nat.mod_lt _ (by decide)), hbit]

/-! ## The bitmap and its file -/

variable (file : DiskFile) (disk : DiskImage)

/-- The array `map` has a byte for each bit. -/
theorem div_lt_of_lt {b : Bitmap} {i : Nat} (hi : i < b.numBits) : i / 8 < b.map.length * 4 := by
  have := word_index_lt hi
  unfold bitsInWord at this
  omega

theorem map_length_pos (b : Bitmap) : 0 < b.map.length * 4 :=
  Nat.zero_lt_of_lt (div_lt_of_lt b.numBits_range.1)

/-- The bits of the file, if all of them are there. -/
theorem ofFile_eq (hwf : file.hdr.WellFormed) (hdisk : ∀ s ∈ file.hdr.sectors, s < numDiskSectors)
    (fresh : Buffer) {numItems : Nat} (h : 0 < numItems ∧ numItems < 2 ^ 31)
    (hlen : (divRoundUp numItems bitsInWord * 4 : Nat) ≤ file.hdr.fileLength.toInt) :
    ∃ b, ofFile file fresh disk numItems h = some b ∧ b.numBits = numItems ∧
      ∀ i < numItems, b.bit i = bitIn (DiskFile.fileByte file.hdr disk) i := by
  have hmap : (zero numItems h).map.length * 4 ≤ file.hdr.fileLength.toInt := by
    rw [(zero numItems h).map_length]
    exact_mod_cast hlen
  have hpos := map_length_pos (zero numItems h)
  obtain ⟨buf, hread, hbytes, -⟩ := DiskFile.readAt_eq disk hwf hdisk fresh
    (zero numItems h).memory 0 _ 0 hpos (by omega)
  rw [DiskFile.clipped_of_le (by omega)] at hread hbytes
  refine ⟨(zero numItems h).withMap buf, ?_, rfl, fun i hi => ?_⟩
  · unfold ofFile fetchFrom
    rw [new_eq]
    dsimp only [Option.bind_eq_bind, Option.bind_some]
    rw [hread]
    rfl
  · rw [bit_withMap hi, bitIn, bitIn]
    have hbyte := hbytes (i / 8) (div_lt_of_lt hi)
    rw [Nat.zero_add] at hbyte
    rw [hbyte]

/-- All the bits get into the file. -/
theorem writeBack_eq {b : Bitmap} (hwf : file.hdr.WellFormed)
    (hdisk : ∀ s ∈ file.hdr.sectors, s < numDiskSectors) (hnodup : file.hdr.sectors.Nodup)
    (fresh : Nat → Buffer) (hlen : (b.map.length * 4 : Nat) ≤ file.hdr.fileLength.toInt) :
    ∃ disk', b.writeBack file fresh disk = some disk' ∧
      (∀ i < b.numBits, bitIn (DiskFile.fileByte file.hdr disk') i = b.bit i) ∧
      ∀ s ∉ file.hdr.sectors, disk' s = disk s := by
  have hpos := map_length_pos b
  obtain ⟨disk', hwrite, hbytes, hframe⟩ := DiskFile.writeAt_eq disk hwf hdisk hnodup
    fresh b.memory _ 0 hpos (by omega)
  rw [DiskFile.clipped_of_le (by omega)] at hwrite hbytes
  refine ⟨disk', ?_, fun i hi => ?_, hframe⟩
  · unfold writeBack
    rw [hwrite]
    rfl
  · have hlt := div_lt_of_lt hi
    rw [← bitIn_memory, bitIn, bitIn, hbytes _ (by omega), if_pos (by omega), Nat.sub_zero]

end Bitmap

end Nachos
