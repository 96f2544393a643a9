import Nachos.Filesys.FileHeader
import Mathlib.Data.List.GetD

/-!
# Open files on the disk (`filesys/openfile.cc`)

The class `OpenFile` of the file system that is not a stub. `ReadAt` and `WriteAt` go through a
buffer of whole sectors; `WriteAt` first reads the sectors that it overwrites in part. Their
positions are never negative here. `seekPosition` and `type` are not kept: nothing below uses them.

* `DiskFile.readAt_eq` — the bytes of the file are copied
* `DiskFile.writeAt_eq` — the bytes are written, and no sector of another file is
-/

namespace Nachos

open Base

/-- The class `OpenFile`. -/
structure DiskFile where
  hdr : FileHeader

namespace DiskFile

/-- `OpenFile::OpenFile`. -/
def new (disk : DiskImage) (sector : BitVec 32) : Option DiskFile :=
  (FileHeader.fetchFrom disk sector).map DiskFile.mk

/-- The loop of `ReadAt`, over `n` sectors. -/
def readSectors (f : DiskFile) (disk : DiskImage) (buf : Buffer) (firstSector : Nat) :
    Nat → Option Buffer
  | 0 => some buf
  | n + 1 => do
    let buf ← readSectors f disk buf firstSector n
    readSector disk (f.hdr.byteToSector ((firstSector + n) * sectorSize)) buf (n * sectorSize)

/-- The loop of `WriteAt`, over `n` sectors. -/
def writeSectors (f : DiskFile) (disk : DiskImage) (buf : Buffer) (firstSector : Nat) :
    Nat → Option DiskImage
  | 0 => some disk
  | n + 1 => do
    let disk ← writeSectors f disk buf firstSector n
    writeSector disk (f.hdr.byteToSector ((firstSector + n) * sectorSize)) buf (n * sectorSize)

/-- How many of `numBytes` bytes from `position` on lie in the file. -/
def clipped (f : DiskFile) (numBytes position : Nat) : Nat :=
  if f.hdr.fileLength.toInt < position + numBytes then
    (f.hdr.fileLength.toInt - position).toNat
  else numBytes

/--
`OpenFile::ReadAt`, to index `i` of the buffer `into`.

`fresh` is the memory that `new` finds for `buf`.
-/
def readAt (f : DiskFile) (fresh : Buffer) (disk : DiskImage) (into : Buffer) (i : Nat)
    (numBytes position : Nat) : Option (Buffer × Nat) :=
  if numBytes = 0 ∨ f.hdr.fileLength.toInt ≤ position then some (into, 0)
  else do
    let numBytes := f.clipped numBytes position
    let firstSector := position / sectorSize
    let lastSector := (position + numBytes - 1) / sectorSize
    let buf ← f.readSectors disk fresh firstSector (1 + lastSector - firstSector)
    return (bcopy buf (position - firstSector * sectorSize) into i numBytes, numBytes)

/-- `WriteAt` reads the first sector, if it is to be partially modified. -/
def readFirst (f : DiskFile) (fresh : Nat → Buffer) (disk : DiskImage)
    (position firstSector : Nat) : Option Buffer :=
  let firstAligned := position = firstSector * sectorSize
  if firstAligned then some (fresh 0)
  else (f.readAt (fresh 1) disk (fresh 0) 0 sectorSize (firstSector * sectorSize)).map Prod.fst

/-- And the last one, if that is another or was not read. -/
def readLast (f : DiskFile) (fresh : Nat → Buffer) (disk : DiskImage) (buf : Buffer)
    (position numBytes firstSector lastSector : Nat) : Option Buffer :=
  let firstAligned := position = firstSector * sectorSize
  let lastAligned := position + numBytes = (lastSector + 1) * sectorSize
  if ¬ lastAligned ∧ (firstSector ≠ lastSector ∨ firstAligned) then
    (f.readAt (fresh 2) disk buf ((lastSector - firstSector) * sectorSize) sectorSize
      (lastSector * sectorSize)).map Prod.fst
  else some buf

/--
`OpenFile::WriteAt`, from the start of the buffer `data`.

`fresh` is the memory that it and the two calls of `ReadAt` get from `new`.
-/
def writeAt (f : DiskFile) (fresh : Nat → Buffer) (disk : DiskImage) (data : Buffer)
    (numBytes position : Nat) : Option (DiskImage × Nat) :=
  if numBytes = 0 ∨ f.hdr.fileLength.toInt ≤ position then some (disk, 0)
  else do
    let numBytes := f.clipped numBytes position
    let firstSector := position / sectorSize
    let lastSector := (position + numBytes - 1) / sectorSize
    let buf ← f.readFirst fresh disk position firstSector
    let buf ← f.readLast fresh disk buf position numBytes firstSector lastSector
    let buf := bcopy data 0 buf (position - firstSector * sectorSize) numBytes
    let disk ← f.writeSectors disk buf firstSector (1 + lastSector - firstSector)
    return (disk, numBytes)

/-! ## The bytes of a file -/

/-- Byte `k` of the file with the header `hdr`. -/
def fileByte (hdr : FileHeader) (disk : DiskImage) : Buffer := fun k =>
  (disk (hdr.dataSector (k / sectorSize)).toNat).view (k % sectorSize)

theorem fileByte_add (hdr : FileHeader) (disk : DiskImage) (i : Nat) {r : Nat}
    (hr : r < sectorSize) :
    fileByte hdr disk (i * sectorSize + r) = (disk (hdr.dataSector i).toNat).view r := by
  have hdiv : (i * sectorSize + r) / sectorSize = i := by
    unfold sectorSize at hr ⊢
    omega
  have hmod : (i * sectorSize + r) % sectorSize = r := by
    unfold sectorSize at hr ⊢
    omega
  unfold fileByte
  rw [hdiv, hmod]

theorem byteToSector_mul (hdr : FileHeader) (i : Nat) :
    hdr.byteToSector (i * sectorSize) = hdr.dataSector i := by
  unfold FileHeader.byteToSector
  rw [Nat.mul_div_cancel _ (by decide)]

theorem fileByte_congr {hdr : FileHeader} {disk disk' : DiskImage} (hwf : hdr.WellFormed)
    (h : ∀ s ∈ hdr.sectors, disk' s = disk s) {k : Nat} (hk : k < hdr.fileLength.toInt) :
    fileByte hdr disk' k = fileByte hdr disk k := by
  unfold fileByte
  rw [h _ (FileHeader.mem_sectors (hwf.index_lt hk))]

/-! ## The number of bytes -/

section

variable {f : DiskFile} {numBytes position : Nat}

theorem clipped_pos (hn : 0 < numBytes) (hp : position < f.hdr.fileLength.toInt) :
    0 < f.clipped numBytes position := by
  unfold clipped
  split <;> omega

theorem add_clipped_le (hp : position < f.hdr.fileLength.toInt) :
    (position + f.clipped numBytes position : Nat) ≤ f.hdr.fileLength.toInt := by
  unfold clipped
  split <;> omega

theorem lt_clipped_iff {k : Nat} :
    k < f.clipped numBytes position ↔
      k < numBytes ∧ (position + k : Nat) < f.hdr.fileLength.toInt := by
  unfold clipped
  split <;> omega

/-- A request that lies in the file is not cut off. -/
theorem clipped_of_le (h : position + numBytes ≤ f.hdr.fileLength.toInt) :
    f.clipped numBytes position = numBytes :=
  if_neg (by omega)

end

/-! ## ReadAt -/

section

variable {f : DiskFile} (disk : DiskImage)

theorem readSectors_eq (buf : Buffer) (first n : Nat)
    (hdisk : ∀ i < n, (f.hdr.dataSector (first + i)).toNat < numDiskSectors) :
    ∃ buf', f.readSectors disk buf first n = some buf' ∧
      ∀ k < n * sectorSize, buf' k = fileByte f.hdr disk (first * sectorSize + k) := by
  induction n with
  | zero => exact ⟨buf, rfl, fun k hk => absurd hk (by omega)⟩
  | succ n ih =>
    obtain ⟨buf', hloop, hbytes⟩ := ih fun i hi => hdisk i (by omega)
    refine ⟨bcopy (disk (f.hdr.dataSector (first + n)).toNat).view 0 buf' (n * sectorSize)
      sectorSize, ?_, fun k hk => ?_⟩
    · rw [readSectors, hloop]
      dsimp only [Option.bind_eq_bind, Option.bind_some]
      rw [byteToSector_mul, readSector, if_pos (onDisk_iff.mpr (hdisk n (by omega)))]
    · rcases Nat.lt_or_ge k (n * sectorSize) with hlt | hge
      · rw [bcopy_of_lt hlt]
        exact hbytes k hlt
      · obtain ⟨r, rfl⟩ := Nat.exists_eq_add_of_le hge
        have hr : r < sectorSize := by
          rw [Nat.succ_mul] at hk
          omega
        rw [bcopy_add hr, Nat.zero_add, ← Nat.add_assoc, ← Nat.add_mul, fileByte_add _ _ _ hr]

/-- `ReadAt` copies the bytes of the file, as far as it has any. -/
theorem readAt_eq (hwf : f.hdr.WellFormed) (hdisk : ∀ s ∈ f.hdr.sectors, s < numDiskSectors)
    (fresh into : Buffer) (i numBytes position : Nat) (hn : 0 < numBytes)
    (hp : position < f.hdr.fileLength.toInt) :
    ∃ into', f.readAt fresh disk into i numBytes position =
        some (into', f.clipped numBytes position) ∧
      (∀ k < f.clipped numBytes position, into' (i + k) = fileByte f.hdr disk (position + k)) ∧
      ∀ k, k < i ∨ i + f.clipped numBytes position ≤ k → into' k = into k := by
  have hpos := clipped_pos hn hp
  have hend : (position + f.clipped numBytes position : Nat) ≤ f.hdr.fileLength.toInt :=
    add_clipped_le hp
  unfold readAt
  rw [if_neg (by omega)]
  generalize f.clipped numBytes position = m at hpos hend ⊢
  have hsectors : ∀ i < 1 + (position + m - 1) / sectorSize - position / sectorSize,
      (f.hdr.dataSector (position / sectorSize + i)).toNat < numDiskSectors := by
    intro i hi
    refine hdisk _ (FileHeader.mem_sectors ?_)
    have hlt := hwf.index_lt (k := position + m - 1) (by omega)
    omega
  obtain ⟨buf, hread, hbytes⟩ := readSectors_eq disk fresh _ _ hsectors
  refine ⟨bcopy buf (position - position / sectorSize * sectorSize) into i m, ?_, ?_, ?_⟩
  · dsimp only
    rw [hread]
    rfl
  · intro k hk
    rw [bcopy_add hk, hbytes _ ?_]
    · congr 1
      unfold sectorSize
      omega
    · unfold sectorSize
      omega
  · rintro k (hlt | hge)
    · exact bcopy_of_lt hlt
    · exact bcopy_of_le hge

end

/-! ## WriteAt -/

section

variable {f : DiskFile} (disk : DiskImage)

/-- The loop writes each of its sectors once. -/
theorem writeSectors_eq (buf : Buffer) {first n : Nat}
    (hdisk : ∀ i < n, (f.hdr.dataSector (first + i)).toNat < numDiskSectors)
    (hinj : ∀ i < n, ∀ j < n,
      (f.hdr.dataSector (first + i)).toNat = (f.hdr.dataSector (first + j)).toNat → i = j) :
    ∃ disk', f.writeSectors disk buf first n = some disk' ∧
      (∀ i < n, disk' (f.hdr.dataSector (first + i)).toNat =
        Bytes.ofBuffer buf (i * sectorSize)) ∧
      ∀ s, (∀ i < n, s ≠ (f.hdr.dataSector (first + i)).toNat) → disk' s = disk s := by
  induction n with
  | zero => exact ⟨disk, rfl, fun i hi => absurd hi (by omega), fun s _ => rfl⟩
  | succ n ih =>
    obtain ⟨disk', hloop, hnew, hold⟩ := ih (fun i hi => hdisk i (by omega))
      fun i hi j hj => hinj i (by omega) j (by omega)
    refine ⟨Function.update disk' (f.hdr.dataSector (first + n)).toNat
      (Bytes.ofBuffer buf (n * sectorSize)), ?_, fun i hi => ?_, fun s hs => ?_⟩
    · rw [writeSectors, hloop]
      dsimp only [Option.bind_eq_bind, Option.bind_some]
      rw [byteToSector_mul, writeSector, if_pos (onDisk_iff.mpr (hdisk n (by omega)))]
    · rcases Nat.lt_succ_iff_lt_or_eq.mp hi with hlt | rfl
      · rw [Function.update_of_ne, hnew i hlt]
        intro heq
        have := hinj i hi n (by omega) heq
        omega
      · exact Function.update_self ..
    · rw [Function.update_of_ne (hs n (by omega))]
      exact hold s fun i hi => hs i (by omega)

/-- A sector of the file is read into the buffer, as far as it belongs to the file. -/
theorem readAt_sector (hwf : f.hdr.WellFormed) (hdisk : ∀ s ∈ f.hdr.sectors, s < numDiskSectors)
    (fresh into : Buffer) (i s : Nat) (hs : (s * sectorSize : Nat) < f.hdr.fileLength.toInt) :
    ∃ into', (f.readAt fresh disk into i sectorSize (s * sectorSize)).map Prod.fst = some into' ∧
      (∀ k < sectorSize, (s * sectorSize + k : Nat) < f.hdr.fileLength.toInt →
        into' (i + k) = fileByte f.hdr disk (s * sectorSize + k)) ∧
      ∀ k < i, into' k = into k := by
  obtain ⟨into', hread, hbytes, hrest⟩ :=
    readAt_eq disk hwf hdisk fresh into i sectorSize (s * sectorSize) (by decide) hs
  refine ⟨into', ?_, fun k hk hlt => ?_, fun k hk => hrest k (.inl hk)⟩
  · rw [hread]
    rfl
  · exact hbytes k (lt_clipped_iff.mpr ⟨hk, hlt⟩)

/-- The bytes of the first and of the last sector that stay as they are. -/
theorem edges_eq (hwf : f.hdr.WellFormed) (hdisk : ∀ s ∈ f.hdr.sectors, s < numDiskSectors)
    (fresh : Nat → Buffer) {position m first last : Nat}
    (hfirst : first * sectorSize ≤ position ∧ position < first * sectorSize + sectorSize)
    (hlast : last * sectorSize < position + m ∧ position + m ≤ last * sectorSize + sectorSize)
    (hend : (position + m : Nat) ≤ f.hdr.fileLength.toInt) (hle : first ≤ last) :
    ∃ buf0 buf1, f.readFirst fresh disk position first = some buf0 ∧
      f.readLast fresh disk buf0 position m first last = some buf1 ∧
      ∀ k, first * sectorSize ≤ k → k < (last + 1) * sectorSize → k < f.hdr.fileLength.toInt →
        k < position ∨ position + m ≤ k →
          buf1 (k - first * sectorSize) = fileByte f.hdr disk k := by
  have hmul := Nat.mul_le_mul_right sectorSize hle
  have hfl : (first * sectorSize : Nat) < f.hdr.fileLength.toInt := by omega
  obtain ⟨buf0, hbuf0, hhead⟩ : ∃ buf0, f.readFirst fresh disk position first = some buf0 ∧
      (position ≠ first * sectorSize → ∀ k < sectorSize,
        (first * sectorSize + k : Nat) < f.hdr.fileLength.toInt →
          buf0 k = fileByte f.hdr disk (first * sectorSize + k)) := by
    by_cases haligned : position = first * sectorSize
    · exact ⟨fresh 0, if_pos haligned, fun hne => absurd haligned hne⟩
    · obtain ⟨buf0, hread, hbytes, -⟩ :=
        readAt_sector disk hwf hdisk (fresh 1) (fresh 0) 0 first hfl
      refine ⟨buf0, (if_neg haligned).trans hread, fun _ k hk hlt => ?_⟩
      rw [← hbytes k hk hlt, Nat.zero_add]
  -- a byte of the first sector, where that was read
  have hhead' : ∀ k, position ≠ first * sectorSize → first * sectorSize ≤ k →
      k < first * sectorSize + sectorSize → k < f.hdr.fileLength.toInt →
        buf0 (k - first * sectorSize) = fileByte f.hdr disk k := by
    intro k hne hk hlt hlen
    obtain ⟨r, rfl⟩ := Nat.exists_eq_add_of_le hk
    rw [Nat.add_sub_cancel_left]
    exact hhead hne r (by omega) hlen
  by_cases hcond : ¬ position + m = (last + 1) * sectorSize ∧
      (first ≠ last ∨ position = first * sectorSize)
  · obtain ⟨buf1, hread, hbytes, hrest⟩ := readAt_sector disk hwf hdisk (fresh 2) buf0
      ((last - first) * sectorSize) last (by omega)
    refine ⟨buf0, buf1, hbuf0, (if_pos hcond).trans hread, fun k hk hlt hlen hout => ?_⟩
    rw [Nat.sub_mul] at hbytes hrest
    rw [Nat.succ_mul] at hlt
    rcases Nat.lt_or_ge k (last * sectorSize) with hbefore | hafter
    · -- it lies in front of the last sector, so in the first one and before the position
      rw [hrest _ (by omega)]
      exact hhead' k (by omega) hk (by omega) hlen
    · obtain ⟨r, rfl⟩ := Nat.exists_eq_add_of_le hafter
      rw [← hbytes r (by omega) hlen]
      congr 1
      omega
  · refine ⟨buf0, buf0, hbuf0, if_neg hcond, fun k hk hlt hlen hout => ?_⟩
    rw [Nat.succ_mul] at hcond hlt
    refine hhead' k ?_ hk ?_ hlen
    · rintro rfl
      omega
    · rcases Nat.lt_or_ge first last with hne | hge
      · have := Nat.mul_le_mul_right sectorSize (Nat.succ_le_of_lt hne)
        omega
      · obtain rfl := Nat.le_antisymm hle hge
        exact hlt

/-- `WriteAt` writes the bytes that lie in the file, and changes nothing else on the disk. -/
theorem writeAt_eq (hwf : f.hdr.WellFormed) (hdisk : ∀ s ∈ f.hdr.sectors, s < numDiskSectors)
    (hnodup : f.hdr.sectors.Nodup) (fresh : Nat → Buffer) (data : Buffer)
    (numBytes position : Nat) (hn : 0 < numBytes) (hp : position < f.hdr.fileLength.toInt) :
    ∃ disk', f.writeAt fresh disk data numBytes position =
        some (disk', f.clipped numBytes position) ∧
      (∀ k : Nat, k < f.hdr.fileLength.toInt → fileByte f.hdr disk' k =
        if position ≤ k ∧ k < position + f.clipped numBytes position then data (k - position)
        else fileByte f.hdr disk k) ∧
      ∀ s ∉ f.hdr.sectors, disk' s = disk s := by
  have hpos := clipped_pos hn hp
  have hend : (position + f.clipped numBytes position : Nat) ≤ f.hdr.fileLength.toInt :=
    add_clipped_le hp
  unfold writeAt
  rw [if_neg (by omega)]
  generalize f.clipped numBytes position = m at hpos hend ⊢
  dsimp only
  -- the sectors of the first and the last byte
  obtain ⟨first, hfirst⟩ : ∃ first, first = position / sectorSize := ⟨_, rfl⟩
  obtain ⟨last, hlast⟩ : ∃ last, last = (position + m - 1) / sectorSize := ⟨_, rfl⟩
  rw [← hfirst, ← hlast]
  have hinside : ∀ i < 1 + last - first, first + i < f.hdr.numSectors.toInt.toNat := by
    intro i hi
    have hlt := hwf.index_lt (k := position + m - 1) (by omega)
    omega
  have hfl : first * sectorSize ≤ position ∧ position < first * sectorSize + sectorSize := by
    unfold sectorSize at hfirst ⊢
    omega
  have hll : last * sectorSize < position + m ∧ position + m ≤ last * sectorSize + sectorSize := by
    unfold sectorSize at hlast ⊢
    omega
  have hle : first ≤ last := by
    unfold sectorSize at hfl hll
    omega
  obtain ⟨buf0, buf1, hbuf0, hbuf1, hedges⟩ :=
    edges_eq disk hwf hdisk fresh hfl hll hend hle
  obtain ⟨disk', hwrite, hnew, hold⟩ := writeSectors_eq disk
    (bcopy data 0 buf1 (position - first * sectorSize) m)
    (fun i hi => hdisk _ (FileHeader.mem_sectors (hinside i hi))) fun i hi j hj heq => by
      have := FileHeader.dataSector_inj hnodup (hinside i hi) (hinside j hj) heq
      omega
  refine ⟨disk', ?_, fun k hk => ?_, fun s hs => hold s fun i hi heq => hs ?_⟩
  · rw [hbuf0]
    dsimp only [Option.bind_eq_bind, Option.bind_some]
    rw [hbuf1]
    dsimp only [Option.bind_some]
    rw [hwrite]
    rfl
  · -- byte `k` is byte `r` of sector `s` of the file
    obtain ⟨s, r, hr, rfl⟩ : ∃ s r, r < sectorSize ∧ k = s * sectorSize + r :=
      ⟨k / sectorSize, k % sectorSize, Nat.mod_lt _ (by decide), (Nat.div_add_mod' k _).symm⟩
    have hs : s < f.hdr.numSectors.toInt.toNat := by
      have := hwf.index_lt hk
      unfold sectorSize at hr this
      omega
    by_cases hin : first ≤ s ∧ s ≤ last
    · obtain ⟨i, rfl⟩ := Nat.exists_eq_add_of_le hin.1
      rw [fileByte_add _ _ _ hr, hnew i (by omega), Bytes.view_ofBuffer hr]
      rw [Nat.add_mul] at hk ⊢
      split
      next hwritten =>
        obtain ⟨l, hl⟩ := Nat.exists_eq_add_of_le hwritten.1
        rw [show i * sectorSize + r = position - first * sectorSize + l by omega,
          bcopy_add (by omega), Nat.zero_add, hl, Nat.add_sub_cancel_left]
      next hkept =>
        have hlt : first * sectorSize + i * sectorSize + r < (last + 1) * sectorSize := by
          have := Nat.mul_le_mul_right sectorSize hin.2
          rw [Nat.add_mul] at this
          rw [Nat.succ_mul]
          omega
        have hedge := hedges (first * sectorSize + i * sectorSize + r) (by omega) hlt hk (by omega)
        rw [show first * sectorSize + i * sectorSize + r - first * sectorSize =
          i * sectorSize + r by omega] at hedge
        rcases (by omega : i * sectorSize + r < position - first * sectorSize ∨
          position - first * sectorSize + m ≤ i * sectorSize + r) with hlt | hge
        · rw [bcopy_of_lt hlt]
          exact hedge
        · rw [bcopy_of_le hge]
          exact hedge
    · have hout : ¬ (position ≤ s * sectorSize + r ∧ s * sectorSize + r < position + m) := by
        unfold sectorSize at hfl hll hr ⊢
        omega
      rw [if_neg hout, fileByte_add _ _ _ hr, fileByte_add _ _ _ hr, hold]
      intro i hi heq
      have := FileHeader.dataSector_inj hnodup hs (hinside i hi) heq
      omega
  · rw [heq]
    exact FileHeader.mem_sectors (hinside i hi)

end

end DiskFile

end Nachos
