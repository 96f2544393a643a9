import Nachos.Lib.BitmapSet
import Nachos.Filesys.DirectoryMap
import Nachos.Filesys.PersistentBitmap

/-!
# The file system on the disk (`filesys/filesys.cc`)

`Create` and `Remove` of the file system that is not a stub. The free map and the directory are
files themselves, whose headers lie in the sectors 0 and 1 and are kept open.

A disk is consistent if the free map marks exactly the sectors that the system's two files and the
files of the directory own, and none is owned twice.

* `Consistent` — the invariant
* `create_cases`, `remove_cases` — what the two calls do to a consistent disk, and when they fail
-/

namespace Nachos

open Base

/-- `FreeMapSector`. -/
def freeMapSector : Nat := 0

/-- `DirectorySector`. -/
def directorySector : Nat := 1

/-- `FreeMapFileSize`: `NumSectors / BitsInByte`. -/
def freeMapFileSize : Nat := numDiskSectors / 8

/-- `NumDirEntries`. -/
def numDirEntries : Nat := 10

/-- `DirectoryFileSize`. -/
def directoryFileSize : Nat := entrySize * numDirEntries

theorem numDiskSectors_range : 0 < numDiskSectors ∧ numDiskSectors < 2 ^ 31 := by
  unfold numDiskSectors
  omega

/-- The class `FileSystem`, with its two files. -/
structure DiskFileSystem where
  freeMapFile : DiskFile
  directoryFile : DiskFile

namespace DiskFileSystem

/--
`FileSystem::Create`: the disk and the answer.

`fresh` is the memory that the calls of `new` find.
-/
def create (fs : DiskFileSystem) (fresh : Nat → Buffer) (disk : DiskImage) (name : Buffer)
    (initialSize : BitVec 32) : Option (DiskImage × Bool) := do
  let directory ← (Directory.new (fresh 0) numDirEntries).fetchFrom fs.directoryFile (fresh 1) disk
  if directory.find name ≠ -1 then return (disk, false)
  else
    let freeMap ← Bitmap.ofFile fs.freeMapFile (fresh 2) disk numDiskSectors numDiskSectors_range
    let (freeMap, sector) ← freeMap.findAndSet
    if sector = -1 then return (disk, false)
    else
      let (directory, added) := directory.add name (BitVec.ofInt 32 sector)
      if !added then return (disk, false)
      else
        let (freeMap, hdr, allocated) ←
          FileHeader.allocate (Bytes.ofBuffer (fresh 3) 0) freeMap initialSize
        if !allocated then return (disk, false)
        else
          let disk ← FileHeader.writeBack hdr disk (BitVec.ofInt 32 sector)
          let disk ← directory.writeBack fs.directoryFile (fun i => fresh (4 + i)) disk
          let disk ← freeMap.writeBack fs.freeMapFile (fun i => fresh (7 + i)) disk
          return (disk, true)

/-- `FileSystem::Remove`. -/
def remove (fs : DiskFileSystem) (fresh : Nat → Buffer) (disk : DiskImage) (name : Buffer) :
    Option (DiskImage × Bool) := do
  let directory ← (Directory.new (fresh 0) numDirEntries).fetchFrom fs.directoryFile (fresh 1) disk
  let sector := directory.find name
  if sector = -1 then return (disk, false)
  else
    let fileHdr ← FileHeader.fetchFrom disk sector
    let freeMap ← Bitmap.ofFile fs.freeMapFile (fresh 2) disk numDiskSectors numDiskSectors_range
    let freeMap ← FileHeader.deallocate fileHdr freeMap
    let freeMap ← freeMap.clear sector.toInt
    let directory := (directory.remove name).1
    let disk ← freeMap.writeBack fs.freeMapFile (fun i => fresh (3 + i)) disk
    let disk ← directory.writeBack fs.directoryFile (fun i => fresh (6 + i)) disk
    return (disk, true)

/-! ### Up to the first write -/

/-- `Create` up to its first write. It answers `refused` before that, or goes on with `write`. -/
def createThen {α : Type} (fs : DiskFileSystem) (fresh : Nat → Buffer) (disk : DiskImage)
    (name : Buffer) (initialSize : BitVec 32) (refused : α)
    (write : FileHeader → BitVec 32 → Directory → Bitmap → Option α) : Option α := do
  let directory ← (Directory.new (fresh 0) numDirEntries).fetchFrom fs.directoryFile (fresh 1) disk
  if directory.find name ≠ -1 then return refused
  else
    let freeMap ← Bitmap.ofFile fs.freeMapFile (fresh 2) disk numDiskSectors numDiskSectors_range
    let (freeMap, sector) ← freeMap.findAndSet
    if sector = -1 then return refused
    else
      let (directory, added) := directory.add name (BitVec.ofInt 32 sector)
      if !added then return refused
      else
        let (freeMap, hdr, allocated) ←
          FileHeader.allocate (Bytes.ofBuffer (fresh 3) 0) freeMap initialSize
        if !allocated then return refused
        else write hdr (BitVec.ofInt 32 sector) directory freeMap

theorem create_eq_createThen (fs : DiskFileSystem) (fresh : Nat → Buffer) (disk : DiskImage)
    (name : Buffer) (initialSize : BitVec 32) :
    fs.create fresh disk name initialSize =
      fs.createThen fresh disk name initialSize (disk, false) fun hdr sector directory freeMap => do
        let disk ← FileHeader.writeBack hdr disk sector
        let disk ← directory.writeBack fs.directoryFile (fun i => fresh (4 + i)) disk
        let disk ← freeMap.writeBack fs.freeMapFile (fun i => fresh (7 + i)) disk
        return (disk, true) :=
  rfl

/-- `Remove` up to its first write. -/
def removeThen {α : Type} (fs : DiskFileSystem) (fresh : Nat → Buffer) (disk : DiskImage)
    (name : Buffer) (refused : α) (write : Bitmap → Directory → Option α) : Option α := do
  let directory ← (Directory.new (fresh 0) numDirEntries).fetchFrom fs.directoryFile (fresh 1) disk
  let sector := directory.find name
  if sector = -1 then return refused
  else
    let fileHdr ← FileHeader.fetchFrom disk sector
    let freeMap ← Bitmap.ofFile fs.freeMapFile (fresh 2) disk numDiskSectors numDiskSectors_range
    let freeMap ← FileHeader.deallocate fileHdr freeMap
    let freeMap ← freeMap.clear sector.toInt
    write freeMap (directory.remove name).1

theorem remove_eq_removeThen (fs : DiskFileSystem) (fresh : Nat → Buffer) (disk : DiskImage)
    (name : Buffer) :
    fs.remove fresh disk name =
      fs.removeThen fresh disk name (disk, false) fun freeMap directory => do
        let disk ← freeMap.writeBack fs.freeMapFile (fun i => fresh (3 + i)) disk
        let disk ← directory.writeBack fs.directoryFile (fun i => fresh (6 + i)) disk
        return (disk, true) :=
  rfl

/-! ## What the disk holds -/

/-- The bytes of the file whose header lies in sector `s`. -/
def contents (disk : DiskImage) (s : Nat) : Buffer := DiskFile.fileByte (disk s) disk

/-- The sector of a header and the sectors that it names. -/
def fileSectors (disk : DiskImage) (s : Nat) : List Nat := s :: FileHeader.sectors (disk s)

/-- The sectors of the free map and of the directory. -/
def systemSectors (disk : DiskImage) : List Nat :=
  fileSectors disk freeMapSector ++ fileSectors disk directorySector

/-- The directory in its file. -/
def directoryOf (disk : DiskImage) : Directory :=
  Directory.ofMemory (contents disk directorySector) numDirEntries

/-- The entries of the files. -/
def files (disk : DiskImage) : List DirectoryEntry := (directoryOf disk).files

/-- The sectors that the files in `entries` own. -/
def ownedBy (disk : DiskImage) (entries : List DirectoryEntry) : List Nat :=
  entries.flatMap fun e => fileSectors disk e.sector.toNat

/-- All the sectors that are owned. -/
def owned (disk : DiskImage) : List Nat := systemSectors disk ++ ownedBy disk (files disk)

/-- Sector `s` is marked in the free map. -/
def Marked (disk : DiskImage) (s : Nat) : Prop :=
  s < numDiskSectors ∧ Bitmap.bitIn (contents disk freeMapSector) s = true

/-- The files of the system have room for the free map and the directory. -/
structure SystemFiles (disk : DiskImage) : Prop where
  freeMap : FileHeader.WellFormed (disk freeMapSector)
  freeMap_length : freeMapFileSize ≤ (FileHeader.fileLength (disk freeMapSector)).toInt
  directory : FileHeader.WellFormed (disk directorySector)
  directory_length : directoryFileSize ≤ (FileHeader.fileLength (disk directorySector)).toInt

/-- The disk is consistent. -/
structure Consistent (disk : DiskImage) : Prop where
  system : SystemFiles disk
  headers : ∀ e ∈ files disk, FileHeader.WellFormed (disk e.sector.toNat)
  marked : ∀ s, Marked disk s ↔ s ∈ owned disk
  nodup : (owned disk).Nodup

/-- The two files that are kept open have the headers that are on the disk. -/
structure Opened (fs : DiskFileSystem) (disk : DiskImage) : Prop where
  freeMapFile : fs.freeMapFile.hdr = disk freeMapSector
  directoryFile : fs.directoryFile.hdr = disk directorySector

/-- The header and the bytes of the file with its header in sector `s` are what they were. -/
def FileUnchanged (disk disk' : DiskImage) (s : Nat) : Prop :=
  disk' s = disk s ∧
    ∀ k : Nat, k < (FileHeader.fileLength (disk s)).toInt → contents disk' s k = contents disk s k

/-- `Create` has made the file `e`. -/
structure Created (disk disk' : DiskImage) (name : Buffer) (initialSize : BitVec 32)
    (e : DirectoryEntry) : Prop where
  named : e.Named name
  files : (files disk').Perm (e :: files disk)
  length : FileHeader.fileLength (disk' e.sector.toNat) = initialSize
  others : ∀ f ∈ DiskFileSystem.files disk, FileUnchanged disk disk' f.sector.toNat

/-- The name is new, and there is room: in the directory, for the header and for the data. -/
structure Admits (disk : DiskImage) (name : Buffer) (initialSize : BitVec 32) : Prop where
  absent : nameKey name ∉ (directoryOf disk).bindings
  entry : (files disk).length < numDirEntries
  sectors : (owned disk).length + 1 + FileHeader.sectorsFor initialSize ≤ numDiskSectors

/-- `Remove` has removed the file `e`. -/
structure Removed (disk disk' : DiskImage) (name : Buffer) (e : DirectoryEntry) : Prop where
  named : e.Named name
  files : (files disk).Perm (e :: files disk')
  freed : ∀ s, Marked disk' s ↔ Marked disk s ∧ s ∉ fileSectors disk e.sector.toNat
  others : ∀ f ∈ DiskFileSystem.files disk', FileUnchanged disk disk' f.sector.toNat

/-! ## Sectors that are left alone -/

section

variable {disk disk' : DiskImage} {s : Nat}

theorem fileSectors_congr (h : disk' s = disk s) : fileSectors disk' s = fileSectors disk s := by
  unfold fileSectors
  rw [h]

theorem FileUnchanged.of_sectors (hwf : FileHeader.WellFormed (disk s))
    (h : ∀ t ∈ fileSectors disk s, disk' t = disk t) : FileUnchanged disk disk' s := by
  have hhdr : disk' s = disk s := h s List.mem_cons_self
  refine ⟨hhdr, fun k hk => ?_⟩
  unfold contents
  rw [hhdr]
  exact DiskFile.fileByte_congr hwf (fun t ht => h t (List.mem_cons_of_mem _ ht)) hk

theorem ownedBy_congr {entries : List DirectoryEntry}
    (h : ∀ e ∈ entries, disk' e.sector.toNat = disk e.sector.toNat) :
    ownedBy disk' entries = ownedBy disk entries :=
  List.flatMap_congr fun e he => fileSectors_congr (h e he)

theorem mem_ownedBy {entries : List DirectoryEntry} {e : DirectoryEntry} (he : e ∈ entries)
    {t : Nat} (ht : t ∈ fileSectors disk e.sector.toNat) : t ∈ ownedBy disk entries :=
  List.mem_flatMap.mpr ⟨e, he, ht⟩

end

/-! ## The two files of the system -/

/-- The two files of the system can be read and written. -/
structure Ready (fs : DiskFileSystem) (disk : DiskImage) : Prop where
  files : SystemFiles disk
  opened : Opened fs disk
  onDisk : ∀ s ∈ systemSectors disk, s < numDiskSectors
  nodup : (systemSectors disk).Nodup

section

variable {fs : DiskFileSystem} {disk disk' : DiskImage}

theorem Consistent.ready (h : Consistent disk) (hopened : Opened fs disk) : Ready fs disk where
  files := h.system
  opened := hopened
  onDisk := fun s hs => ((h.marked s).mpr (List.mem_append_left _ hs)).1
  nodup := (List.nodup_append.mp h.nodup).1

namespace Ready

/-- Only the headers of the two files matter. -/
theorem congr (h : Ready fs disk) (hmap : disk' freeMapSector = disk freeMapSector)
    (hdir : disk' directorySector = disk directorySector) : Ready fs disk' := by
  obtain ⟨⟨hwf0, hlen0, hwf1, hlen1⟩, ⟨hopen0, hopen1⟩, hondisk, hnodup⟩ := h
  have hsectors : systemSectors disk' = systemSectors disk := by
    unfold systemSectors
    rw [fileSectors_congr hmap, fileSectors_congr hdir]
  rw [← hmap] at hwf0 hlen0 hopen0
  rw [← hdir] at hwf1 hlen1 hopen1
  rw [← hsectors] at hondisk hnodup
  exact ⟨⟨hwf0, hlen0, hwf1, hlen1⟩, ⟨hopen0, hopen1⟩, hondisk, hnodup⟩

variable (h : Ready fs disk)
include h

/-- The sectors of one are not data sectors of the other. -/
theorem notMem_map {t : Nat} (ht : t ∈ fileSectors disk directorySector) :
    t ∉ FileHeader.sectors (disk freeMapSector) := fun hmem =>
  (List.nodup_append.mp h.nodup).2.2 t (List.mem_cons_of_mem _ hmem) t ht rfl

theorem notMem_directory {t : Nat} (ht : t ∈ fileSectors disk freeMapSector) :
    t ∉ FileHeader.sectors (disk directorySector) := fun hmem =>
  (List.nodup_append.mp h.nodup).2.2 t ht t (List.mem_cons_of_mem _ hmem) rfl

/-- And the headers are not data sectors. -/
theorem header_notMem_map : freeMapSector ∉ FileHeader.sectors (disk freeMapSector) :=
  (List.nodup_cons.mp (List.nodup_append.mp h.nodup).1).1

theorem header_notMem_directory : directorySector ∉ FileHeader.sectors (disk directorySector) :=
  (List.nodup_cons.mp (List.nodup_append.mp h.nodup).2.1).1

theorem marked_congr (heq : ∀ t ∈ fileSectors disk freeMapSector, disk' t = disk t) (s : Nat) :
    Marked disk' s ↔ Marked disk s := by
  refine and_congr_right fun hs => ?_
  have hbytes := (FileUnchanged.of_sectors h.files.freeMap heq).2 (s / 8)
  have hlen := h.files.freeMap_length
  unfold freeMapFileSize numDiskSectors at hlen
  unfold numDiskSectors at hs
  rw [Bitmap.bitIn, Bitmap.bitIn, hbytes (by omega)]

theorem directoryOf_congr (heq : ∀ t ∈ fileSectors disk directorySector, disk' t = disk t) :
    directoryOf disk' = directoryOf disk := by
  have hlen := h.files.directory_length
  refine Directory.ofMemory_congr fun k hk => ?_
  refine (FileUnchanged.of_sectors h.files.directory heq).2 k ?_
  unfold directoryFileSize at hlen
  rw [Nat.mul_comm] at hlen
  omega

/-! ### Reading them -/

theorem readDirectory (fresh fresh' : Buffer) :
    (Directory.new fresh numDirEntries).fetchFrom fs.directoryFile fresh' disk =
      some (directoryOf disk) := by
  have hlen := h.files.directory_length
  have hdisk : ∀ s ∈ FileHeader.sectors (disk directorySector), s < numDiskSectors := fun s hs =>
    h.onDisk s (List.mem_append_right _ (List.mem_cons_of_mem _ hs))
  have hfetch := Directory.fetchFrom_eq fs.directoryFile disk
    (Directory.new fresh numDirEntries)
  rw [h.opened.directoryFile, Directory.length_new] at hfetch
  refine hfetch h.files.directory hdisk fresh' (by decide) ?_
  rw [Nat.mul_comm]
  exact hlen

theorem readMap (fresh : Buffer) :
    ∃ b, Bitmap.ofFile fs.freeMapFile fresh disk numDiskSectors numDiskSectors_range = some b ∧
      b.numBits = numDiskSectors ∧ ∀ s, s ∈ b.bits ↔ Marked disk s := by
  have hlen := h.files.freeMap_length
  have hdisk : ∀ s ∈ FileHeader.sectors (disk freeMapSector), s < numDiskSectors := fun s hs =>
    h.onDisk s (List.mem_append_left _ (List.mem_cons_of_mem _ hs))
  have hread := @Bitmap.ofFile_eq fs.freeMapFile disk
  rw [h.opened.freeMapFile] at hread
  obtain ⟨b, hb, hnum, hbits⟩ :=
    hread h.files.freeMap hdisk fresh numDiskSectors_range (by exact_mod_cast hlen)
  refine ⟨b, hb, hnum, fun s => ?_⟩
  rw [Bitmap.mem_bits, hnum]
  refine and_congr_right fun hs => ?_
  rw [hbits s hs]
  rfl

/-! ### Writing them -/

theorem writeDirectory {d : Directory} (hd : d.table.length = numDirEntries)
    (fresh : Nat → Buffer) :
    ∃ disk', d.writeBack fs.directoryFile fresh disk = some disk' ∧ Ready fs disk' ∧
      directoryOf disk' = d ∧ (∀ s, Marked disk' s ↔ Marked disk s) ∧
      ∀ s ∉ FileHeader.sectors (disk directorySector), disk' s = disk s := by
  have hlen := h.files.directory_length
  have hdisk : ∀ s ∈ FileHeader.sectors (disk directorySector), s < numDiskSectors := fun s hs =>
    h.onDisk s (List.mem_append_right _ (List.mem_cons_of_mem _ hs))
  have hnodup : (FileHeader.sectors (disk directorySector)).Nodup :=
    (List.nodup_cons.mp (List.nodup_append.mp h.nodup).2.1).2
  have hwrite := Directory.writeBack_eq fs.directoryFile disk d
  rw [h.opened.directoryFile, hd] at hwrite
  obtain ⟨disk', hsome, hback, hframe⟩ := hwrite h.files.directory hdisk hnodup fresh (by decide)
    (by rw [Nat.mul_comm]; exact hlen)
  have hmap : ∀ t ∈ fileSectors disk freeMapSector, disk' t = disk t := fun t ht =>
    hframe t (h.notMem_directory ht)
  have hdir := hframe _ h.header_notMem_directory
  refine ⟨disk', hsome, h.congr (hmap _ List.mem_cons_self) hdir, ?_, h.marked_congr hmap, hframe⟩
  rw [directoryOf, contents, hdir]
  exact hback

theorem writeMap {b : Bitmap} (hb : b.numBits = numDiskSectors) (fresh : Nat → Buffer) :
    ∃ disk', b.writeBack fs.freeMapFile fresh disk = some disk' ∧ Ready fs disk' ∧
      directoryOf disk' = directoryOf disk ∧ (∀ s, Marked disk' s ↔ s ∈ b.bits) ∧
      ∀ s ∉ FileHeader.sectors (disk freeMapSector), disk' s = disk s := by
  have hlen := h.files.freeMap_length
  have hdisk : ∀ s ∈ FileHeader.sectors (disk freeMapSector), s < numDiskSectors := fun s hs =>
    h.onDisk s (List.mem_append_left _ (List.mem_cons_of_mem _ hs))
  have hnodup : (FileHeader.sectors (disk freeMapSector)).Nodup :=
    (List.nodup_cons.mp (List.nodup_append.mp h.nodup).1).2
  have hwrite := @Bitmap.writeBack_eq fs.freeMapFile disk b
  rw [h.opened.freeMapFile, b.map_length, hb] at hwrite
  obtain ⟨disk', hsome, hback, hframe⟩ :=
    hwrite h.files.freeMap hdisk hnodup fresh (by exact_mod_cast hlen)
  have hdir : ∀ t ∈ fileSectors disk directorySector, disk' t = disk t := fun t ht =>
    hframe t (h.notMem_map ht)
  have hmap := hframe _ h.header_notMem_map
  refine ⟨disk', hsome, h.congr hmap (hdir _ List.mem_cons_self), h.directoryOf_congr hdir,
    fun s => ?_, hframe⟩
  rw [Bitmap.mem_bits, hb, Marked, contents, hmap]
  refine and_congr_right fun hs => ?_
  rw [hback s hs]

end Ready

/-! ## What keeps a disk consistent -/

/-- The sectors of one file, out of those of all files. -/
theorem perm_owned {entries : List DirectoryEntry} {e : DirectoryEntry}
    (hperm : (files disk).Perm (e :: entries)) :
    (owned disk).Perm
      (fileSectors disk e.sector.toNat ++ (systemSectors disk ++ ownedBy disk entries)) := by
  have hfiles : (ownedBy disk (files disk)).Perm
      (fileSectors disk e.sector.toNat ++ ownedBy disk entries) := hperm.flatMap_right _
  exact (hfiles.append_left _).trans (List.perm_append_comm_assoc ..)

/-- The sectors that are owned after a file has been added. -/
theorem perm_owned_grow {e : DirectoryEntry} (hmap : disk' freeMapSector = disk freeMapSector)
    (hdir : disk' directorySector = disk directorySector)
    (hfiles : (files disk').Perm (e :: files disk))
    (hheaders : ∀ f ∈ files disk, disk' f.sector.toNat = disk f.sector.toNat) :
    (owned disk').Perm (fileSectors disk' e.sector.toNat ++ owned disk) := by
  have hsys : systemSectors disk' = systemSectors disk := by
    unfold systemSectors
    rw [fileSectors_congr hmap, fileSectors_congr hdir]
  refine (perm_owned hfiles).trans ?_
  rw [hsys, ownedBy_congr hheaders]
  exact List.Perm.refl _

/-- A new file whose sectors were not marked. -/
theorem Consistent.grow (h : Consistent disk) {e : DirectoryEntry}
    (hsystem : SystemFiles disk') (hmap : disk' freeMapSector = disk freeMapSector)
    (hdir : disk' directorySector = disk directorySector)
    (hfiles : (files disk').Perm (e :: files disk))
    (hheader : FileHeader.WellFormed (disk' e.sector.toNat))
    (hheaders : ∀ f ∈ files disk, disk' f.sector.toNat = disk f.sector.toNat)
    (hnew : (fileSectors disk' e.sector.toNat).Nodup)
    (hfree : ∀ s ∈ fileSectors disk' e.sector.toNat, ¬ Marked disk s)
    (hmarked : ∀ s, Marked disk' s ↔ s ∈ fileSectors disk' e.sector.toNat ∨ Marked disk s) :
    Consistent disk' := by
  have hperm := perm_owned_grow hmap hdir hfiles hheaders
  refine ⟨hsystem, fun f hf => ?_, fun s => ?_, ?_⟩
  · rcases List.mem_cons.mp (hfiles.mem_iff.mp hf) with rfl | hold
    · exact hheader
    · rw [hheaders f hold]
      exact h.headers f hold
  · rw [hmarked, hperm.mem_iff, List.mem_append, h.marked]
  · rw [hperm.nodup_iff]
    refine List.nodup_append.mpr ⟨hnew, h.nodup, ?_⟩
    rintro s hs t ht rfl
    exact hfree s hs ((h.marked s).mpr ht)

/-- A file whose sectors are marked no more. -/
theorem Consistent.shrink (h : Consistent disk) {e : DirectoryEntry}
    (hsystem : SystemFiles disk') (hmap : disk' freeMapSector = disk freeMapSector)
    (hdir : disk' directorySector = disk directorySector)
    (hfiles : (files disk).Perm (e :: files disk'))
    (hheaders : ∀ f ∈ files disk', disk' f.sector.toNat = disk f.sector.toNat)
    (hmarked : ∀ s, Marked disk' s ↔ Marked disk s ∧ s ∉ fileSectors disk e.sector.toNat) :
    Consistent disk' := by
  have hperm : (owned disk).Perm (fileSectors disk e.sector.toNat ++ owned disk') := by
    have hsys : systemSectors disk' = systemSectors disk := by
      unfold systemSectors
      rw [fileSectors_congr hmap, fileSectors_congr hdir]
    refine (perm_owned hfiles).trans ?_
    rw [owned, hsys, ownedBy_congr hheaders]
  obtain ⟨-, hnodup, hdisjoint⟩ := List.nodup_append.mp (hperm.nodup_iff.mp h.nodup)
  refine ⟨hsystem, fun f hf => ?_, fun s => ?_, hnodup⟩
  · rw [hheaders f hf]
    exact h.headers f (hfiles.mem_iff.mpr (List.mem_cons_of_mem _ hf))
  · rw [hmarked, h.marked, hperm.mem_iff, List.mem_append]
    constructor
    · rintro ⟨hin | hin, hout⟩
      · exact absurd hin hout
      · exact hin
    · intro hs
      exact ⟨.inr hs, fun hin => hdisjoint s hin s hs rfl⟩

/-! ## Create -/

/-- A file of the directory owns none of the sectors of the system. -/
theorem Consistent.notMem_system (h : Consistent disk) {f : DirectoryEntry} (hf : f ∈ files disk)
    {t : Nat} (ht : t ∈ fileSectors disk f.sector.toNat) : t ∉ systemSectors disk := by
  intro hsys
  exact (List.nodup_append.mp h.nodup).2.2 t hsys t (mem_ownedBy hf ht) rfl

theorem Consistent.marked_of_mem (h : Consistent disk) {f : DirectoryEntry} (hf : f ∈ files disk)
    {t : Nat} (ht : t ∈ fileSectors disk f.sector.toNat) : Marked disk t :=
  (h.marked t).mpr (List.mem_append_right _ (mem_ownedBy hf ht))

/-- The end of a `Create` for which there is room: the three writes. -/
theorem create_flush (h : Ready fs disk) {sector : Nat} (hsector : sector < numDiskSectors)
    (hfree : sector ∉ systemSectors disk) (hdr : FileHeader)
    {d : Directory} (hd : d.table.length = numDirEntries) {b : Bitmap}
    (hb : b.numBits = numDiskSectors) (fresh fresh' : Nat → Buffer) :
    ∃ disk₁ disk₂ disk₃,
      FileHeader.writeBack hdr disk (BitVec.ofInt 32 (sector : Int)) = some disk₁ ∧
      d.writeBack fs.directoryFile fresh disk₁ = some disk₂ ∧
      b.writeBack fs.freeMapFile fresh' disk₂ = some disk₃ ∧ Ready fs disk₃ ∧
      disk₃ sector = hdr ∧ directoryOf disk₃ = d ∧ (∀ s, Marked disk₃ s ↔ s ∈ b.bits) ∧
      ∀ t ≠ sector, t ∉ FileHeader.sectors (disk freeMapSector) →
        t ∉ FileHeader.sectors (disk directorySector) → disk₃ t = disk t := by
  have hnat := FileHeader.toNat_ofInt_sector hsector
  have hon : OnDisk (BitVec.ofInt 32 (sector : Int)) := onDisk_iff.mpr (by rwa [hnat])
  have hout0 : sector ∉ FileHeader.sectors (disk freeMapSector) := fun hs =>
    hfree (List.mem_append_left _ (List.mem_cons_of_mem _ hs))
  have hout1 : sector ∉ FileHeader.sectors (disk directorySector) := fun hs =>
    hfree (List.mem_append_right _ (List.mem_cons_of_mem _ hs))
  -- the header
  have hmap₁ : Function.update disk sector hdr freeMapSector = disk freeMapSector := by
    refine Function.update_of_ne ?_ _ _
    rintro rfl
    exact hfree (List.mem_append_left _ List.mem_cons_self)
  have hdir₁ : Function.update disk sector hdr directorySector = disk directorySector := by
    refine Function.update_of_ne ?_ _ _
    rintro rfl
    exact hfree (List.mem_append_right _ List.mem_cons_self)
  have hready₁ := h.congr hmap₁ hdir₁
  -- the directory and the map
  obtain ⟨disk₂, hwrite₂, hready₂, hdirectory, -, hframe₂⟩ := hready₁.writeDirectory hd fresh
  obtain ⟨disk₃, hwrite₃, hready₃, hsame, hmarked, hframe₃⟩ := hready₂.writeMap hb fresh'
  rw [hdir₁] at hframe₂
  have hmap₂ : disk₂ freeMapSector = disk freeMapSector :=
    (hframe₂ _ (h.notMem_directory List.mem_cons_self)).trans hmap₁
  rw [hmap₂] at hframe₃
  refine ⟨_, disk₂, disk₃, ?_, hwrite₂, hwrite₃, hready₃, ?_, hsame.trans hdirectory, hmarked,
    fun t ht ht0 ht1 => ?_⟩
  · rw [FileHeader.writeBack_eq hon, hnat]
  · rw [hframe₃ _ hout0, hframe₂ _ hout1, Function.update_self]
  · rw [hframe₃ t ht0, hframe₂ t ht1, Function.update_of_ne ht]

/-- Every sector is free or owned. -/
theorem Consistent.length_free (h : Consistent disk) {b : Bitmap}
    (hnum : b.numBits = numDiskSectors) (hbits : ∀ s, s ∈ b.bits ↔ Marked disk s) :
    b.free.length + (owned disk).length = numDiskSectors := by
  have howned : b.bits = (owned disk).toFinset := by
    ext s
    rw [hbits, h.marked, List.mem_toFinset]
  have hlength := b.length_free
  rw [howned, List.toFinset_card_of_nodup h.nodup, hnum] at hlength
  omega

/-- The header of a file lies on the disk. -/
theorem Consistent.sector_lt (h : Consistent disk) {e : DirectoryEntry} (he : e ∈ files disk) :
    e.sector.toNat < numDiskSectors :=
  (h.marked_of_mem he List.mem_cons_self).1

/-- `Find` answers -1 for a name that is not there. -/
theorem Consistent.find_eq_neg_one_iff (h : Consistent disk) {name : Buffer} :
    (directoryOf disk).find name = -1 ↔ nameKey name ∉ (directoryOf disk).bindings := by
  rw [← Directory.remove_snd]
  rcases (directoryOf disk).find_eq name with
    ⟨hfind, hremove⟩ | ⟨d, e, hfind, -, hremove, -, hperm⟩
  · rw [hremove]
    exact iff_of_true hfind Bool.false_ne_true
  · have hlt := h.sector_lt (e := e) (hperm.mem_iff.mpr List.mem_cons_self)
    rw [hremove, hfind]
    refine iff_of_false (fun hminus => ?_) fun hne => hne rfl
    rw [hminus] at hlt
    exact absurd hlt (by decide)

/-- What `Create` writes: the header, which goes to `sector`, the directory and the free map. -/
structure NewFile (disk : DiskImage) (name : Buffer) (initialSize : BitVec 32) (sector : Nat)
    (hdr : FileHeader) (d : Directory) (b : Bitmap) : Prop where
  header : FileHeader.WellFormed hdr
  length : FileHeader.fileLength hdr = initialSize
  numSectors : (FileHeader.numSectors hdr).toInt = FileHeader.sectorsFor initialSize
  nodup : (sector :: FileHeader.sectors hdr).Nodup
  free : ∀ s ∈ sector :: FileHeader.sectors hdr, s < numDiskSectors ∧ ¬ Marked disk s
  added : (directoryOf disk).add name (BitVec.ofInt 32 (sector : Int)) = (d, true)
  numBits : b.numBits = numDiskSectors
  bits : ∀ s, s ∈ b.bits ↔ s ∈ sector :: FileHeader.sectors hdr ∨ Marked disk s

/-- `Create` gets to its first write exactly if there is room. -/
theorem createThen_cases (h : Consistent disk) (hopened : Opened fs disk) (fresh : Nat → Buffer)
    (name : Buffer) {initialSize : BitVec 32} (hsize : 0 ≤ initialSize.toInt)
    (hdirect : FileHeader.sectorsFor initialSize ≤ numDirect) :
    (¬ Admits disk name initialSize ∧ ∀ {α : Type} (refused : α) write,
      fs.createThen fresh disk name initialSize refused write = some refused) ∨
    Admits disk name initialSize ∧ ∃ sector hdr d b,
      NewFile disk name initialSize sector hdr d b ∧ ∀ {α : Type} (refused : α) write,
        fs.createThen fresh disk name initialSize refused write =
          write hdr (BitVec.ofInt 32 (sector : Int)) d b := by
  have hready := h.ready hopened
  unfold createThen
  rw [hready.readDirectory]
  dsimp only [Option.bind_eq_bind, Option.bind_some]
  by_cases hfind : (directoryOf disk).find name ≠ -1
  · exact .inl ⟨fun hroom => hfind (h.find_eq_neg_one_iff.mpr hroom.absent),
      fun _ _ => if_pos hfind⟩
  simp only [if_neg hfind]
  obtain ⟨b, hread, hnum, hbits⟩ := hready.readMap (fresh 2)
  have hcount := h.length_free hnum hbits
  rw [hread]
  dsimp only [Option.bind_some]
  cases hfree : b.free with
  | nil =>
    rw [Bitmap.findAndSet_of_free_nil hfree]
    rw [hfree, List.length_nil] at hcount
    refine .inl ⟨fun hroom => ?_, fun _ _ => rfl⟩
    have hfits := hroom.sectors
    omega
  | cons sector rest =>
    rw [hfree, List.length_cons] at hcount
    obtain ⟨b₁, hset, hnum₁, hbits₁, hrest⟩ := Bitmap.findAndSet_of_free_cons hfree
    rw [hset]
    have hne : ¬ (sector : Int) = -1 := by omega
    dsimp only [Option.bind_some]
    simp only [if_neg hne]
    have hentry := @Directory.add_snd (directoryOf disk) name (BitVec.ofInt 32 (sector : Int))
    rw [directoryOf, Directory.length_ofMemory, ← directoryOf] at hentry
    rcases (directoryOf disk).add_eq name (BitVec.ofInt 32 (sector : Int)) with
      hadd | ⟨d, e, hadd, hsector, hnamed, hlen, hperm⟩
    · rw [hadd] at hentry ⊢
      exact .inl ⟨fun hroom => Bool.false_ne_true (hentry.mpr ⟨hroom.absent, hroom.entry⟩),
        fun _ _ => rfl⟩
    rw [hadd] at hentry
    simp only [hadd]
    obtain ⟨habsent, hroomd⟩ := hentry.mp rfl
    by_cases hroom : b₁.free.length < FileHeader.sectorsFor initialSize
    · obtain ⟨hdr, hfull⟩ :=
        FileHeader.allocate_of_lt (Bytes.ofBuffer (fresh 3) 0) hsize hroom
      rw [hfull]
      refine .inl ⟨fun hadmits => ?_, fun _ _ => rfl⟩
      have hfits := hadmits.sectors
      rw [hrest] at hroom
      omega
    obtain ⟨b₂, hdr, halloc, hnum₂, hbits₂, hsectors, hbytes, hnumSectors⟩ :=
      FileHeader.allocate_of_le (hnum₁.trans hnum) (Bytes.ofBuffer (fresh 3) 0) hsize
        (Nat.not_lt.mp hroom) hdirect
    rw [halloc]
    -- the sectors of the file were free
    rw [hrest] at hsectors hbits₂ hroom
    have hnodup := b.free_nodup
    rw [hfree] at hnodup
    have hunmarked : ∀ s ∈ sector :: rest, s < numDiskSectors ∧ ¬ Marked disk s := by
      intro s hs
      rw [← hfree] at hs
      have hs' := Bitmap.mem_free_iff_notMem_bits.mp hs
      rwa [hnum, hbits] at hs'
    refine .inr ⟨⟨habsent, hroomd, by omega⟩, sector, hdr, d, b₂,
      ⟨.of_sized hsize hdirect hbytes hnumSectors, hbytes, hnumSectors, ?_, ?_, hadd, hnum₂,
        fun s => ?_⟩, fun _ _ => rfl⟩
    · rw [hsectors]
      exact hnodup.sublist ((List.take_sublist _ _).cons_cons _)
    · rw [hsectors]
      exact fun s hs => hunmarked s (((List.take_sublist _ _).cons_cons _).subset hs)
    · rw [hbits₂, hbits₁, hsectors, Finset.mem_union, Finset.mem_insert, hbits,
        List.mem_toFinset, List.mem_cons]
      exact or_right_comm

namespace NewFile

variable {name : Buffer} {initialSize : BitVec 32} {sector : Nat} {hdr : FileHeader}
  {d : Directory} {b : Bitmap}

/-- The entry of a new file. -/
theorem entry (hnew : NewFile disk name initialSize sector hdr d b) :
    ∃ e, e.sector.toNat = sector ∧ e.Named name ∧ d.table.length = numDirEntries ∧
      d.files.Perm (e :: files disk) := by
  have hlt := (hnew.free sector List.mem_cons_self).1
  rcases (directoryOf disk).add_eq name (BitVec.ofInt 32 (sector : Int)) with
    hadd | ⟨d', e, hadd, hsector, hnamed, hlen, hperm⟩
  · exact absurd (Prod.ext_iff.mp (hadd.symm.trans hnew.added)).2 Bool.false_ne_true
  · obtain rfl := (Prod.ext_iff.mp (hadd.symm.trans hnew.added)).1
    refine ⟨e, ?_, hnamed, hlen.trans (Directory.length_ofMemory _ _), hperm⟩
    rw [hsector]
    exact FileHeader.toNat_ofInt_sector hlt

variable (hnew : NewFile disk name initialSize sector hdr d b) (h : Consistent disk)
include hnew h

theorem notMem_system : sector ∉ systemSectors disk := fun hs =>
  (hnew.free sector List.mem_cons_self).2 ((h.marked sector).mpr (List.mem_append_left _ hs))

variable (hframe : ∀ t ≠ sector, t ∉ FileHeader.sectors (disk freeMapSector) →
  t ∉ FileHeader.sectors (disk directorySector) → disk' t = disk t)
include hframe

/-- The other files are left alone. -/
theorem others_eq : ∀ f ∈ files disk, ∀ t ∈ fileSectors disk f.sector.toNat, disk' t = disk t := by
  intro f hf t ht
  have hout := h.notMem_system hf ht
  refine hframe t ?_ (fun hs => hout ?_) fun hs => hout ?_
  · rintro rfl
    exact (hnew.free t List.mem_cons_self).2 (h.marked_of_mem hf ht)
  · exact List.mem_append_left _ (List.mem_cons_of_mem _ hs)
  · exact List.mem_append_right _ (List.mem_cons_of_mem _ hs)

theorem unchanged : ∀ f ∈ files disk, FileUnchanged disk disk' f.sector.toNat := fun f hf =>
  .of_sectors (h.headers f hf) (hnew.others_eq h hframe f hf)

/-- And so are the headers of the system. -/
theorem ready (hopened : Opened fs disk) :
    Ready fs disk' ∧ disk' freeMapSector = disk freeMapSector ∧
      disk' directorySector = disk directorySector := by
  have hready := h.ready hopened
  have hmap : disk' freeMapSector = disk freeMapSector := by
    refine hframe _ ?_ hready.header_notMem_map (hready.notMem_directory List.mem_cons_self)
    rintro rfl
    exact hnew.notMem_system h (List.mem_append_left _ List.mem_cons_self)
  have hdir : disk' directorySector = disk directorySector := by
    refine hframe _ ?_ (hready.notMem_map List.mem_cons_self) hready.header_notMem_directory
    rintro rfl
    exact hnew.notMem_system h (List.mem_append_right _ List.mem_cons_self)
  exact ⟨hready.congr hmap hdir, hmap, hdir⟩

/-- Once everything is written, the disk is consistent. -/
theorem consistent (hopened : Opened fs disk) (hheader : disk' sector = hdr) {e : DirectoryEntry}
    (hsector : e.sector.toNat = sector) (hfiles : (files disk').Perm (e :: files disk))
    (hmarked : ∀ s, Marked disk' s ↔ s ∈ b.bits) : Consistent disk' := by
  obtain ⟨hready', hmap, hdir⟩ := hnew.ready h hframe hopened
  have hsectors : fileSectors disk' e.sector.toNat = sector :: FileHeader.sectors hdr := by
    rw [fileSectors, hsector, hheader]
  refine h.grow hready'.files hmap hdir hfiles ?_ (fun f hf => ?_) ?_ (fun s hs => ?_) fun s => ?_
  · rw [hsector, hheader]
    exact hnew.header
  · exact hnew.others_eq h hframe f hf _ List.mem_cons_self
  · rw [hsectors]
    exact hnew.nodup
  · rw [hsectors] at hs
    exact (hnew.free s hs).2
  · rw [hmarked, hnew.bits, hsectors]

end NewFile

/-- `Create` fails and writes nothing, or makes the file. It fails only if it has to. -/
theorem create_cases (h : Consistent disk) (hopened : Opened fs disk) (fresh : Nat → Buffer)
    (name : Buffer) {initialSize : BitVec 32} (hsize : 0 ≤ initialSize.toInt)
    (hdirect : FileHeader.sectorsFor initialSize ≤ numDirect) :
    (fs.create fresh disk name initialSize = some (disk, false) ∧
      ¬ Admits disk name initialSize) ∨
    Admits disk name initialSize ∧ ∃ disk' e,
      fs.create fresh disk name initialSize = some (disk', true) ∧ Consistent disk' ∧
        Opened fs disk' ∧ Created disk disk' name initialSize e ∧
        (FileHeader.numSectors (disk' e.sector.toNat)).toInt =
          FileHeader.sectorsFor initialSize := by
  rw [create_eq_createThen]
  rcases createThen_cases h hopened fresh name hsize hdirect with
    ⟨hno, hrefused⟩ | ⟨hadmits, sector, hdr, d, b, hnew, hgo⟩
  · exact .inl ⟨hrefused _ _, hno⟩
  obtain ⟨e, hsector, hnamed, hlen, hperm⟩ := hnew.entry
  obtain ⟨disk₁, disk₂, disk₃, hwrite₁, hwrite₂, hwrite₃, hready₃, hhdr, hdirectory, hmarked,
    hframe⟩ := create_flush (h.ready hopened) (hnew.free sector List.mem_cons_self).1
      (hnew.notMem_system h) hdr hlen hnew.numBits (fun i => fresh (4 + i)) fun i => fresh (7 + i)
  have hfiles : (files disk₃).Perm (e :: files disk) := by
    rw [files, hdirectory]
    exact hperm
  refine .inr ⟨hadmits, disk₃, e, ?_, ?_, hready₃.opened,
    ⟨hnamed, hfiles, ?_, hnew.unchanged h hframe⟩, ?_⟩
  · rw [hgo, hwrite₁]
    dsimp only [Option.bind_eq_bind, Option.bind_some]
    rw [hwrite₂]
    dsimp only [Option.bind_some]
    rw [hwrite₃]
    rfl
  · exact hnew.consistent h hframe hopened hhdr hsector hfiles hmarked
  · rw [hsector, hhdr]
    exact hnew.length
  · rw [hsector, hhdr]
    exact hnew.numSectors

/-- `Create` fails and writes nothing, or makes the file. -/
theorem create_eq (h : Consistent disk) (hopened : Opened fs disk) (fresh : Nat → Buffer)
    (name : Buffer) {initialSize : BitVec 32} (hsize : 0 ≤ initialSize.toInt)
    (hdirect : FileHeader.sectorsFor initialSize ≤ numDirect) :
    fs.create fresh disk name initialSize = some (disk, false) ∨
    ∃ disk' e, fs.create fresh disk name initialSize = some (disk', true) ∧ Consistent disk' ∧
      Opened fs disk' ∧ Created disk disk' name initialSize e := by
  rcases create_cases h hopened fresh name hsize hdirect with
    ⟨hfail, -⟩ | ⟨-, disk', e, hcreate, hconsistent, hopened', hcreated, -⟩
  · exact .inl hfail
  · exact .inr ⟨disk', e, hcreate, hconsistent, hopened', hcreated⟩

/-! ## Remove -/

/-- The end of a `Remove`: the two writes. -/
theorem remove_flush (h : Ready fs disk) {d : Directory} (hd : d.table.length = numDirEntries)
    {b : Bitmap} (hb : b.numBits = numDiskSectors) (fresh fresh' : Nat → Buffer) :
    ∃ disk₁ disk₂, b.writeBack fs.freeMapFile fresh disk = some disk₁ ∧
      d.writeBack fs.directoryFile fresh' disk₁ = some disk₂ ∧ Ready fs disk₂ ∧
      directoryOf disk₂ = d ∧ (∀ s, Marked disk₂ s ↔ s ∈ b.bits) ∧
      ∀ t ∉ FileHeader.sectors (disk freeMapSector),
        t ∉ FileHeader.sectors (disk directorySector) → disk₂ t = disk t := by
  obtain ⟨disk₁, hwrite₁, hready₁, -, hmarked₁, hframe₁⟩ := h.writeMap hb fresh
  obtain ⟨disk₂, hwrite₂, hready₂, hdirectory, hmarked₂, hframe₂⟩ :=
    hready₁.writeDirectory hd fresh'
  rw [hframe₁ _ (h.notMem_map List.mem_cons_self)] at hframe₂
  refine ⟨disk₁, disk₂, hwrite₁, hwrite₂, hready₂, hdirectory,
    fun s => (hmarked₂ s).trans (hmarked₁ s), fun t ht0 ht1 => ?_⟩
  rw [hframe₂ t ht1, hframe₁ t ht0]

/-- What `Remove` writes when it removes the file `e`: the free map and the directory. -/
structure OldFile (disk : DiskImage) (name : Buffer) (e : DirectoryEntry) (b : Bitmap)
    (d : Directory) : Prop where
  named : e.Named name
  removed : (directoryOf disk).remove name = (d, true)
  length : d.table.length = numDirEntries
  perm : (files disk).Perm (e :: d.files)
  numBits : b.numBits = numDiskSectors
  bits : ∀ s, s ∈ b.bits ↔ Marked disk s ∧ s ∉ fileSectors disk e.sector.toNat

/-- `Remove` gets to its first write exactly if there is a file of the name. -/
theorem removeThen_cases (h : Consistent disk) (hopened : Opened fs disk) (fresh : Nat → Buffer)
    (name : Buffer) :
    (nameKey name ∉ (directoryOf disk).bindings ∧ ∀ {α : Type} (refused : α) write,
      fs.removeThen fresh disk name refused write = some refused) ∨
    nameKey name ∈ (directoryOf disk).bindings ∧ ∃ e b d, OldFile disk name e b d ∧
      ∀ {α : Type} (refused : α) write,
        fs.removeThen fresh disk name refused write = write b d := by
  have hready := h.ready hopened
  unfold removeThen
  rw [hready.readDirectory]
  dsimp only [Option.bind_eq_bind, Option.bind_some]
  rcases (directoryOf disk).find_eq name with
    ⟨hfind, -⟩ | ⟨d, e, hfind, hnamed, hremove, hlen, hperm⟩
  · exact .inl ⟨h.find_eq_neg_one_iff.mp hfind, fun _ _ => if_pos hfind⟩
  -- the sectors of the file are marked, and each is listed once
  obtain ⟨hnodup, -, -⟩ := List.nodup_append.mp ((perm_owned hperm).nodup_iff.mp h.nodup)
  have hmem : ∀ t ∈ fileSectors disk e.sector.toNat, Marked disk t := fun t ht =>
    (h.marked t).mpr ((perm_owned hperm).mem_iff.mpr (List.mem_append_left _ ht))
  have hlt : e.sector.toNat < numDiskSectors := (hmem _ List.mem_cons_self).1
  have hne : e.sector ≠ -1 := by
    intro hminus
    rw [hminus] at hlt
    exact absurd hlt (by decide)
  have hint : e.sector.toInt = (e.sector.toNat : Int) :=
    FileHeader.toInt_of_nonneg (onDisk_iff.mpr hlt).1
  rw [hfind, FileHeader.fetchFrom_eq (onDisk_iff.mpr hlt)]
  simp only [if_neg hne, Option.bind_some]
  obtain ⟨b, hread, hnum, hbits⟩ := hready.readMap (fresh 2)
  rw [hread]
  dsimp only [Option.bind_some]
  obtain ⟨b₁, hdealloc, hnum₁, hbits₁⟩ := FileHeader.deallocate_eq hnum (disk e.sector.toNat)
    (List.nodup_cons.mp hnodup).2 fun s hs => (hbits s).mpr (hmem s (List.mem_cons_of_mem _ hs))
  rw [hdealloc]
  dsimp only [Option.bind_some]
  obtain ⟨b₂, hclear, hnum₂, hbits₂⟩ := Bitmap.clear_bits (b := b₁) (hlt.trans_eq hnum₁.symm)
  rw [hint, hclear]
  dsimp only [Option.bind_some]
  have hpresent : nameKey name ∈ (directoryOf disk).bindings :=
    Directory.remove_snd.mp (by rw [hremove])
  refine .inr ⟨hpresent, e, b₂, d, ⟨hnamed, hremove, hlen.trans (Directory.length_ofMemory _ _),
    hperm, hnum₂.trans hnum₁, fun s => ?_⟩, fun _ _ => by rw [hremove]⟩
  rw [hbits₂, hbits₁, Finset.mem_erase, Finset.mem_sdiff, hbits, List.mem_toFinset,
    fileSectors, List.mem_cons, not_or]
  exact and_left_comm

section

variable (h : Consistent disk) (hframe : ∀ t ∉ FileHeader.sectors (disk freeMapSector),
  t ∉ FileHeader.sectors (disk directorySector) → disk' t = disk t)
include h hframe

/-- Only the free map and the directory were written. -/
theorem Consistent.sectors_kept :
    ∀ f ∈ files disk, ∀ t ∈ fileSectors disk f.sector.toNat, disk' t = disk t := by
  intro f hf t ht
  have hout := h.notMem_system hf ht
  refine hframe t (fun hs => hout ?_) fun hs => hout ?_
  · exact List.mem_append_left _ (List.mem_cons_of_mem _ hs)
  · exact List.mem_append_right _ (List.mem_cons_of_mem _ hs)

theorem Consistent.files_kept : ∀ f ∈ files disk, FileUnchanged disk disk' f.sector.toNat :=
  fun f hf => .of_sectors (h.headers f hf) (h.sectors_kept hframe f hf)

theorem Consistent.ready_kept (hopened : Opened fs disk) :
    Ready fs disk' ∧ disk' freeMapSector = disk freeMapSector ∧
      disk' directorySector = disk directorySector := by
  have hready := h.ready hopened
  have hmap := hframe _ hready.header_notMem_map (hready.notMem_directory List.mem_cons_self)
  have hdir := hframe _ (hready.notMem_map List.mem_cons_self) hready.header_notMem_directory
  exact ⟨hready.congr hmap hdir, hmap, hdir⟩

/-- Once everything is written, the disk is consistent. -/
theorem OldFile.consistent {name : Buffer} {e : DirectoryEntry} {b : Bitmap} {d : Directory}
    (hold : OldFile disk name e b d) (hopened : Opened fs disk)
    (hfiles : (files disk).Perm (e :: files disk')) (hmarked : ∀ s, Marked disk' s ↔ s ∈ b.bits) :
    Consistent disk' := by
  obtain ⟨hready', hmap, hdir⟩ := h.ready_kept hframe hopened
  refine h.shrink hready'.files hmap hdir hfiles (fun f hf => ?_)
    fun s => (hmarked s).trans (hold.bits s)
  exact h.sectors_kept hframe f (hfiles.mem_iff.mpr (List.mem_cons_of_mem _ hf)) _
    List.mem_cons_self

end

/-- `Remove` finds no file of the name, or frees exactly the sectors of the one that there is. -/
theorem remove_cases (h : Consistent disk) (hopened : Opened fs disk) (fresh : Nat → Buffer)
    (name : Buffer) :
    (fs.remove fresh disk name = some (disk, false) ∧
      nameKey name ∉ (directoryOf disk).bindings) ∨
    nameKey name ∈ (directoryOf disk).bindings ∧ ∃ disk' e,
      fs.remove fresh disk name = some (disk', true) ∧ Consistent disk' ∧ Opened fs disk' ∧
        Removed disk disk' name e := by
  rw [remove_eq_removeThen]
  rcases removeThen_cases h hopened fresh name with
    ⟨habsent, hrefused⟩ | ⟨hpresent, e, b, d, hold, hgo⟩
  · exact .inl ⟨hrefused _ _, habsent⟩
  obtain ⟨disk₁, disk₂, hwrite₁, hwrite₂, hready₂, hdirectory, hmarked, hframe⟩ :=
    remove_flush (h.ready hopened) hold.length hold.numBits
      (fun i => fresh (3 + i)) fun i => fresh (6 + i)
  have hfiles : (files disk).Perm (e :: files disk₂) := by
    rw [files, files, hdirectory]
    exact hold.perm
  refine .inr ⟨hpresent, disk₂, e, ?_, OldFile.consistent h hframe hold hopened hfiles hmarked,
    hready₂.opened, ⟨hold.named, hfiles, fun s => (hmarked s).trans (hold.bits s), fun f hf => ?_⟩⟩
  · rw [hgo, hwrite₁]
    dsimp only [Option.bind_eq_bind, Option.bind_some]
    rw [hwrite₂]
    rfl
  · exact h.files_kept hframe f (hfiles.mem_iff.mpr (List.mem_cons_of_mem _ hf))

/-- `Remove` finds no file of the name, or frees exactly the sectors of one. -/
theorem remove_eq (h : Consistent disk) (hopened : Opened fs disk) (fresh : Nat → Buffer)
    (name : Buffer) :
    fs.remove fresh disk name = some (disk, false) ∨
    ∃ disk' e, fs.remove fresh disk name = some (disk', true) ∧ Consistent disk' ∧
      Opened fs disk' ∧ Removed disk disk' name e := by
  rcases remove_cases h hopened fresh name with
    ⟨hfail, -⟩ | ⟨-, disk', e, hremove, hconsistent, hopened', hremoved⟩
  · exact .inl hfail
  · exact .inr ⟨disk', e, hremove, hconsistent, hopened', hremoved⟩

/--
`Create` and `Remove` keep the disk consistent and leave the other files alone. A failed call
writes nothing, and `Remove` frees exactly the sectors of the file.
-/
theorem create_remove_consistent (h : Consistent disk) (hopened : Opened fs disk)
    (fresh : Nat → Buffer) (name : Buffer) :
    (∀ initialSize : BitVec 32, 0 ≤ initialSize.toInt →
      divRoundUp initialSize.toNat sectorSize ≤ numDirect →
      ∃ disk' success, fs.create fresh disk name initialSize = some (disk', success) ∧
        Consistent disk' ∧ Opened fs disk' ∧ (success = false → disk' = disk) ∧
        (success = true → ∃ e, Created disk disk' name initialSize e)) ∧
    ∃ disk' success, fs.remove fresh disk name = some (disk', success) ∧
      Consistent disk' ∧ Opened fs disk' ∧ (success = false → disk' = disk) ∧
      (success = true → ∃ e, Removed disk disk' name e) := by
  constructor
  · intro initialSize hsize hdirect
    rcases create_eq h hopened fresh name hsize hdirect with
      hfail | ⟨disk', e, hcreate, hconsistent, hopened', hcreated⟩
    · exact ⟨disk, false, hfail, h, hopened, fun _ => rfl, fun hf => absurd hf (by decide)⟩
    · exact ⟨disk', true, hcreate, hconsistent, hopened', fun hf => absurd hf (by decide),
        fun _ => ⟨e, hcreated⟩⟩
  · rcases remove_eq h hopened fresh name with
      hfail | ⟨disk', e, hremove, hconsistent, hopened', hremoved⟩
    · exact ⟨disk, false, hfail, h, hopened, fun _ => rfl, fun hf => absurd hf (by decide)⟩
    · exact ⟨disk', true, hremove, hconsistent, hopened', fun hf => absurd hf (by decide),
        fun _ => ⟨e, hremoved⟩⟩

end

/-! ## A disk without files -/

/-- A header that begins with `words`. -/
def headerOf (words : List (BitVec 32)) : FileHeader := fun k =>
  byteOf (words.getD (k.val / 4) 0) (k.val % 4)

/-- A disk as a format leaves it, with the free map in sector 2. -/
def emptyDisk : DiskImage := fun s =>
  if s = freeMapSector then headerOf [128, 1, 2]
  else if s = directorySector then headerOf [200, 2, 3, 4]
  else if s = 2 then fun k => if k.val = 0 then 31 else 0
  else fun _ => 0

theorem contents_emptyDisk {k : Nat} (hk : k < sectorSize) :
    contents emptyDisk freeMapSector k = if k = 0 then 31 else 0 := by
  have hsector : (FileHeader.dataSector (emptyDisk freeMapSector) 0).toNat = 2 := by decide
  unfold contents DiskFile.fileByte
  rw [Nat.div_eq_of_lt hk, Nat.mod_eq_of_lt hk, hsector, Bytes.view_of_lt _ hk]
  rfl

theorem marked_emptyDisk (s : Nat) : Marked emptyDisk s ↔ s < 5 := by
  have hbits : ∀ i < 8, (31#8).getLsbD i = true ↔ i < 5 := by decide
  unfold Marked numDiskSectors
  constructor
  · rintro ⟨hs, hbit⟩
    have hk : s / 8 < sectorSize := by
      unfold sectorSize
      omega
    rw [Bitmap.bitIn, contents_emptyDisk hk] at hbit
    split at hbit
    next h0 =>
      have := (hbits _ (Nat.mod_lt _ (by decide))).mp hbit
      omega
    next => exact absurd hbit (by simp)
  · intro hs
    refine ⟨by omega, ?_⟩
    rw [Bitmap.bitIn, contents_emptyDisk (by unfold sectorSize; omega), if_pos (by omega)]
    exact (hbits _ (Nat.mod_lt _ (by decide))).mpr (by omega)

theorem consistent_emptyDisk : Consistent emptyDisk := by
  have hfiles : files emptyDisk = [] := by decide
  have howned : owned emptyDisk = [0, 2, 1, 3, 4] := by decide
  refine ⟨⟨⟨by decide, by decide⟩, by decide, ⟨by decide, by decide⟩, by decide⟩, ?_, ?_, ?_⟩
  · rw [hfiles]
    exact fun e he => absurd he List.not_mem_nil
  · intro s
    rw [howned, marked_emptyDisk]
    simp only [List.mem_cons, List.not_mem_nil, or_false]
    omega
  · rw [howned]
    decide

/-- The system's files, opened on that disk. -/
def emptySystem : DiskFileSystem where
  freeMapFile := ⟨emptyDisk freeMapSector⟩
  directoryFile := ⟨emptyDisk directorySector⟩

/-- The string "a". -/
def nameA : Buffer := fun k => if k = 0 then 97 else 0

theorem admits_emptyDisk : Admits emptyDisk nameA 300 := by
  have hfiles : files emptyDisk = [] := by decide
  have howned : owned emptyDisk = [0, 2, 1, 3, 4] := by decide
  refine ⟨?_, ?_, ?_⟩
  · rw [Directory.mem_bindings, show (directoryOf emptyDisk).files = [] from hfiles]
    simp
  · rw [hfiles]
    decide
  · rw [howned]
    decide

/-- A file of 300 bytes is created on the empty disk, and removed again. -/
theorem create_remove_consistent_nameA :
    ∃ disk₁ disk₂ e e',
      emptySystem.create (fun _ _ => 0) emptyDisk nameA 300 = some (disk₁, true) ∧
      Consistent disk₁ ∧ Created emptyDisk disk₁ nameA 300 e ∧
      emptySystem.remove (fun _ _ => 0) disk₁ nameA = some (disk₂, true) ∧
      Consistent disk₂ ∧ Removed disk₁ disk₂ nameA e' := by
  have hopened : Opened emptySystem emptyDisk := ⟨rfl, rfl⟩
  have hsize : 0 ≤ (300 : BitVec 32).toInt := by decide
  obtain ⟨hcreate, -⟩ :=
    create_remove_consistent consistent_emptyDisk hopened (fun _ _ => 0) nameA
  obtain ⟨disk₁, success, hdone, hconsistent₁, hopened₁, -, hcreated⟩ :=
    hcreate 300 hsize (by decide)
  obtain rfl : success = true := by
    rcases create_cases consistent_emptyDisk hopened (fun _ _ => 0) nameA hsize (by decide) with
      ⟨-, hno⟩ | ⟨-, disk', e, hsome, -⟩
    · exact absurd admits_emptyDisk hno
    · exact (Prod.mk.inj (Option.some.inj (hdone.symm.trans hsome))).2
  obtain ⟨e, hcreated⟩ := hcreated rfl
  obtain ⟨-, disk₂, removed, hgone, hconsistent₂, -, -, hremoved⟩ :=
    create_remove_consistent hconsistent₁ hopened₁ (fun _ _ => 0) nameA
  obtain rfl : removed = true := by
    rcases remove_cases hconsistent₁ hopened₁ (fun _ _ => 0) nameA with
      ⟨-, habsent⟩ | ⟨-, disk', e', hsome, -⟩
    · have hmem : e ∈ files disk₁ := hcreated.files.mem_iff.mpr List.mem_cons_self
      refine absurd ?_ habsent
      exact Directory.mem_bindings.mpr ⟨e, hmem, Directory.named_iff.mp hcreated.named⟩
    · exact (Prod.mk.inj (Option.some.inj (hgone.symm.trans hsome))).2
  obtain ⟨e', hremoved⟩ := hremoved rfl
  exact ⟨disk₁, disk₂, e, e', hdone, hconsistent₁, hcreated, hgone, hconsistent₂, hremoved⟩

end DiskFileSystem

end Nachos
