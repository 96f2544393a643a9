import Nachos.Filesys.DiskSession

/-!
# The sectors of a call, one after the other (`filesys/filesys.cc`, `filesys/openfile.cc`)

The disk is written one sector at a time. The trail of a call is the list of the disks that it
leaves behind on its way, one for each sector that it writes.

* `DiskSession.trail` — the disks that a call goes through
* `DiskFile.Torn` — a file with a part of what was written to it
* `Directory.table_torn` — a directory with a part of what was written to it
* `Ready.directoryTrail`, `Ready.mapTrail` — the files of the system while they are written
-/

namespace Nachos

open Base

/-! ## The disks that a call goes through -/

namespace DiskFile

/-- `WriteAt` up to its loop, in natural numbers. It goes on with the buffer, the first sector, the
number of sectors and the number of bytes. -/
def writeAtThen {α : Type} (f : DiskFile) (fresh : Nat → Buffer) (disk : DiskImage) (data : Buffer)
    (numBytes position : Nat) (nothing : α) (loop : Buffer → Nat → Nat → Nat → Option α) :
    Option α :=
  if numBytes = 0 ∨ f.hdr.fileLength.toInt ≤ position then some nothing
  else do
    let numBytes := f.clipped numBytes position
    let firstSector := position / sectorSize
    let lastSector := (position + numBytes - 1) / sectorSize
    let buf ← f.readFirst fresh disk position firstSector
    let buf ← f.readLast fresh disk buf position numBytes firstSector lastSector
    let buf := bcopy data 0 buf (position - firstSector * sectorSize) numBytes
    loop buf firstSector (1 + lastSector - firstSector) numBytes

theorem writeAt_eq_writeAtThen (f : DiskFile) (fresh : Nat → Buffer) (disk : DiskImage)
    (data : Buffer) (numBytes position : Nat) :
    f.writeAt fresh disk data numBytes position =
      f.writeAtThen fresh disk data numBytes position (disk, 0) fun buf first n numBytes => do
        let disk ← f.writeSectors disk buf first n
        return (disk, numBytes) :=
  rfl

/-- The disks that `WriteAt` goes through. -/
def writeAtTrail (f : DiskFile) (fresh : Nat → Buffer) (disk : DiskImage) (data : Buffer)
    (numBytes position : Nat) : Option (List DiskImage) :=
  f.writeAtThen fresh disk data numBytes position [] fun buf first n _ =>
    trail (f.writeSectors disk buf first) n

/-- `WriteAt` up to its loop. -/
def writeAtIntThen {α : Type} (f : DiskFile) (fresh : Nat → Buffer) (disk : DiskImage)
    (data : Buffer) (numBytes position : BitVec 32) (nothing : α)
    (loop : Buffer → Request → Option α) : Option α :=
  match request f.hdr.fileLength numBytes position with
  | none => some nothing
  | some r => do
    let _ ← index (r.numSectors * sectorSizeInt)
    let buf ← f.readFirstInt fresh disk position r
    let buf ← f.readLastInt fresh disk buf position r
    let offset ← index (position - r.firstSector * sectorSizeInt)
    let buf := bcopy data 0 buf offset (← index r.numBytes)
    loop buf r

theorem writeAtInt_eq_writeAtIntThen (f : DiskFile) (fresh : Nat → Buffer) (disk : DiskImage)
    (data : Buffer) (numBytes position : BitVec 32) :
    f.writeAtInt fresh disk data numBytes position =
      f.writeAtIntThen fresh disk data numBytes position (disk, 0) fun buf r => do
        let disk ← f.writeSectorsInt disk buf r.firstSector (turns r)
        return (disk, r.numBytes) :=
  rfl

/-- The disks that `WriteAt` goes through. -/
def writeAtIntTrail (f : DiskFile) (fresh : Nat → Buffer) (disk : DiskImage) (data : Buffer)
    (numBytes position : BitVec 32) : Option (List DiskImage) :=
  f.writeAtIntThen fresh disk data numBytes position [] fun buf r =>
    trail (f.writeSectorsInt disk buf r.firstSector) (turns r)

/-- The disks that a request goes through. -/
def stepTrail (f : DiskFile) (disk : DiskImage) : Transfer → Option (List DiskImage)
  | .readAt .. => some []
  | .writeAt fresh data numBytes position => f.writeAtIntTrail fresh disk data numBytes position

end DiskFile

/-- The disks that `Directory::WriteBack` goes through. -/
def Directory.writeBackTrail (d : Directory) (file : DiskFile) (fresh : Nat → Buffer)
    (disk : DiskImage) : Option (List DiskImage) :=
  file.writeAtTrail fresh disk d.memory (d.table.length * entrySize) 0

/-- The disks that `PersistentBitmap::WriteBack` goes through. -/
def Bitmap.writeBackTrail (b : Bitmap) (file : DiskFile) (fresh : Nat → Buffer)
    (disk : DiskImage) : Option (List DiskImage) :=
  file.writeAtTrail fresh disk b.memory (b.map.length * 4) 0

namespace DiskFileSystem

/-- The disks that `Create` goes through. -/
def createTrail (fs : DiskFileSystem) (fresh : Nat → Buffer) (disk : DiskImage) (name : Buffer)
    (initialSize : BitVec 32) : Option (List DiskImage) :=
  fs.createThen fresh disk name initialSize [] fun hdr sector directory freeMap => do
    let disk₁ ← FileHeader.writeBack hdr disk sector
    let seen₂ ← directory.writeBackTrail fs.directoryFile (fun i => fresh (4 + i)) disk₁
    let disk₂ ← directory.writeBack fs.directoryFile (fun i => fresh (4 + i)) disk₁
    let seen₃ ← freeMap.writeBackTrail fs.freeMapFile (fun i => fresh (7 + i)) disk₂
    return disk₁ :: (seen₂ ++ seen₃)

/-- The disks that `Remove` goes through. -/
def removeTrail (fs : DiskFileSystem) (fresh : Nat → Buffer) (disk : DiskImage) (name : Buffer) :
    Option (List DiskImage) :=
  fs.removeThen fresh disk name [] fun freeMap directory => do
    let seen₁ ← freeMap.writeBackTrail fs.freeMapFile (fun i => fresh (3 + i)) disk
    let disk₁ ← freeMap.writeBack fs.freeMapFile (fun i => fresh (3 + i)) disk
    let seen₂ ← directory.writeBackTrail fs.directoryFile (fun i => fresh (6 + i)) disk₁
    return seen₁ ++ seen₂

end DiskFileSystem

/-- The disks that a call goes through. -/
def DiskSession.trail (s : DiskSession) : StoreCall → Option (List DiskImage)
  | .create fresh name size => s.fs.createTrail fresh s.disk name size
  | .remove fresh name => s.fs.removeTrail fresh s.disk name
  | .request id r => do
    let o ← s.object id
    o.file.stepTrail s.disk (r.transfer o.seekPosition)
  | .openFile .. | .close _ | .seek .. | .length _ => some []

/-! ## WriteAt -/

namespace DiskFile

/-- Of a write that makes `disk'` out of `disk`, the first sectors have got into the file. -/
structure Torn (hdr : FileHeader) (disk disk' d : DiskImage) : Prop where
  bytes : ∃ m, 0 < m ∧ ∀ k : Nat, k < hdr.fileLength.toInt → fileByte hdr d k =
    if k < m * sectorSize then fileByte hdr disk' k else fileByte hdr disk k
  frame : ∀ s ∉ hdr.sectors, d s = disk s

theorem Torn.getElem?_contents {hdr : FileHeader} {disk disk' d : DiskImage}
    (h : Torn hdr disk disk' d) (k : Nat) :
    (contents ⟨hdr⟩ d)[k]? = (contents ⟨hdr⟩ disk)[k]? ∨
      (contents ⟨hdr⟩ d)[k]? = (contents ⟨hdr⟩ disk')[k]? := by
  obtain ⟨m, -, hbytes⟩ := h.bytes
  simp only [contents, List.getElem?_map]
  rcases Nat.lt_or_ge k hdr.fileLength.toInt.toNat with hlt | hge
  · rw [List.getElem?_range hlt, Option.map_some, Option.map_some, Option.map_some,
      hbytes k (Int.lt_toNat.mp hlt)]
    split
    · exact .inr rfl
    · exact .inl rfl
  · rw [List.getElem?_eq_none (by rwa [List.length_range])]
    exact .inl rfl

section

variable {f : DiskFile} {disk : DiskImage}

/-- The loop of `WriteAt` after some of its turns. -/
theorem writeSectors_torn (disk : DiskImage) (hwf : f.hdr.WellFormed)
    (hdisk : ∀ s ∈ f.hdr.sectors, s < numDiskSectors) (hnodup : f.hdr.sectors.Nodup)
    (buf : Buffer) {first n : Nat}
    (hinside : ∀ i < n, first + i < f.hdr.numSectors.toInt.toNat) :
    ∃ disk', f.writeSectors disk buf first n = some disk' ∧
      ∀ i < n, ∃ d, f.writeSectors disk buf first (i + 1) = some d ∧ Torn f.hdr disk disk' d := by
  have hinj : ∀ i < n, ∀ j < n, (f.hdr.dataSector (first + i)).toNat =
      (f.hdr.dataSector (first + j)).toNat → i = j := by
    intro i hi j hj heq
    have := FileHeader.dataSector_inj hnodup (hinside i hi) (hinside j hj) heq
    omega
  have hon : ∀ i < n, (f.hdr.dataSector (first + i)).toNat < numDiskSectors := fun i hi =>
    hdisk _ (FileHeader.mem_sectors (hinside i hi))
  obtain ⟨disk', hgo, hnew, hold⟩ := writeSectors_eq disk buf hon hinj
  refine ⟨disk', hgo, fun i hi => ?_⟩
  obtain ⟨d, hgo', hnew', hold'⟩ := writeSectors_eq (n := i + 1) disk buf
    (fun j hj => hon j (by omega)) fun j hj l hl => hinj j (by omega) l (by omega)
  refine ⟨d, hgo', ⟨first + (i + 1), by omega, fun k hk => ?_⟩, fun s hs => hold' s ?_⟩
  · obtain ⟨s, r, hr, rfl⟩ : ∃ s r, r < sectorSize ∧ k = s * sectorSize + r :=
      ⟨k / sectorSize, k % sectorSize, Nat.mod_lt _ (by decide), (Nat.div_add_mod' k _).symm⟩
    have hs : s < f.hdr.numSectors.toInt.toNat := by
      have := hwf.index_lt hk
      unfold sectorSize at hr this
      omega
    have hout : ∀ j < n, s ≠ first + j →
        (f.hdr.dataSector s).toNat ≠ (f.hdr.dataSector (first + j)).toNat :=
      fun j hj hne heq => hne (FileHeader.dataSector_inj hnodup hs (hinside j hj) heq)
    have hiff : s * sectorSize + r < (first + (i + 1)) * sectorSize ↔ s < first + (i + 1) := by
      unfold sectorSize at hr ⊢
      omega
    rw [if_congr hiff rfl rfl, fileByte_add _ _ _ hr, fileByte_add _ _ _ hr, fileByte_add _ _ _ hr]
    split
    next hlt =>
      rcases Nat.lt_or_ge s first with hbefore | hge
      · -- a sector in front of the first one
        rw [hold' _ fun j hj => hout j (by omega) (by omega),
          hold _ fun j hj => hout j hj (by omega)]
      · obtain ⟨j, rfl⟩ := Nat.exists_eq_add_of_le hge
        rw [hnew' j (by omega), hnew j (by omega)]
    next hge =>
      rw [hold' _ fun j hj => hout j (by omega) (by omega)]
  · rintro j hj rfl
    exact hs (FileHeader.mem_sectors (hinside j (by omega)))

/-- `WriteAt` comes to its loop, with the same buffer whatever follows, or it does not. -/
theorem writeAtThen_cases (f : DiskFile) (fresh : Nat → Buffer) (disk : DiskImage) (data : Buffer)
    {numBytes position : Nat} (hn : 0 < numBytes) (hp : position < f.hdr.fileLength.toInt) :
    (∀ {α : Type} (nothing : α) loop,
      f.writeAtThen fresh disk data numBytes position nothing loop = none) ∨
    ∃ buf, ∀ {α : Type} (nothing : α) loop,
      f.writeAtThen fresh disk data numBytes position nothing loop =
        loop buf (position / sectorSize)
          (1 + (position + f.clipped numBytes position - 1) / sectorSize - position / sectorSize)
          (f.clipped numBytes position) := by
  have hgo : ¬ (numBytes = 0 ∨ f.hdr.fileLength.toInt ≤ position) := by omega
  unfold writeAtThen
  simp only [if_neg hgo]
  cases f.readFirst fresh disk position (position / sectorSize) with
  | none => exact .inl fun _ _ => rfl
  | some buf =>
    dsimp only [Option.bind_eq_bind, Option.bind_some]
    cases f.readLast fresh disk buf position (f.clipped numBytes position) (position / sectorSize)
        ((position + f.clipped numBytes position - 1) / sectorSize) with
    | none => exact .inl fun _ _ => rfl
    | some buf => exact .inr ⟨_, fun _ _ => rfl⟩

/-- The sectors of a write are sectors of the file. -/
theorem turn_lt (hwf : f.hdr.WellFormed) {numBytes position : Nat} (hn : 0 < numBytes)
    (hp : position < f.hdr.fileLength.toInt) :
    ∀ i < 1 + (position + f.clipped numBytes position - 1) / sectorSize - position / sectorSize,
      position / sectorSize + i < f.hdr.numSectors.toInt.toNat := by
  have hpos := clipped_pos hn hp
  have hend : (position + f.clipped numBytes position : Nat) ≤ f.hdr.fileLength.toInt :=
    add_clipped_le hp
  intro i hi
  have hlt := hwf.index_lt (k := position + f.clipped numBytes position - 1) (by omega)
  omega

/-- The file on the way of a `WriteAt`. -/
theorem writeAtTrail_eq (hwf : f.hdr.WellFormed)
    (hdisk : ∀ s ∈ f.hdr.sectors, s < numDiskSectors) (hnodup : f.hdr.sectors.Nodup)
    (fresh : Nat → Buffer) (data : Buffer) {numBytes position : Nat} (hn : 0 < numBytes)
    (hp : position < f.hdr.fileLength.toInt) {disk' : DiskImage} {written : Nat}
    (hwrite : f.writeAt fresh disk data numBytes position = some (disk', written)) :
    ∃ seen, f.writeAtTrail fresh disk data numBytes position = some seen ∧
      seen.getLastD disk = disk' ∧ ∀ d ∈ seen, Torn f.hdr disk disk' d := by
  rw [writeAt_eq_writeAtThen] at hwrite
  rcases f.writeAtThen_cases fresh disk data hn hp with hnone | ⟨buf, hgo⟩
  · rw [hnone] at hwrite
    cases hwrite
  obtain ⟨disk'', hloop, htorn⟩ :=
    writeSectors_torn disk hwf hdisk hnodup buf (turn_lt hwf hn hp)
  rw [hgo, hloop] at hwrite
  obtain rfl : disk'' = disk' := congrArg Prod.fst (Option.some.inj hwrite)
  obtain ⟨seen, hseen, hmem, hlast⟩ := trail_eq fun i hi =>
    (htorn i hi).imp fun d hd => hd.1
  refine ⟨seen, (hgo _ _).trans hseen, hlast _ _ rfl hloop, fun d hd => ?_⟩
  obtain ⟨i, hi, hd'⟩ := hmem d hd
  obtain ⟨d', hgo', htorn'⟩ := htorn i hi
  obtain rfl := Option.some.inj (hgo'.symm.trans hd')
  exact htorn'

/-- The same for the `WriteAt` that is given `int`s. -/
theorem writeAtIntThen_cases (f : DiskFile) (fresh : Nat → Buffer) (disk : DiskImage)
    (data : Buffer) {numBytes position : BitVec 32} {r : Request}
    (hr : request f.hdr.fileLength numBytes position = some r) :
    (∀ {α : Type} (nothing : α) loop,
      f.writeAtIntThen fresh disk data numBytes position nothing loop = none) ∨
    ∃ buf, ∀ {α : Type} (nothing : α) loop,
      f.writeAtIntThen fresh disk data numBytes position nothing loop = loop buf r := by
  unfold writeAtIntThen
  rw [hr]
  dsimp only [Option.bind_eq_bind]
  cases index (r.numSectors * sectorSizeInt) with
  | none => exact .inl fun _ _ => rfl
  | some _ =>
    dsimp only [Option.bind_some]
    cases f.readFirstInt fresh disk position r with
    | none => exact .inl fun _ _ => rfl
    | some buf =>
      dsimp only [Option.bind_some]
      cases f.readLastInt fresh disk buf position r with
      | none => exact .inl fun _ _ => rfl
      | some buf =>
        dsimp only [Option.bind_some]
        cases index (position - r.firstSector * sectorSizeInt) with
        | none => exact .inl fun _ _ => rfl
        | some offset =>
          dsimp only [Option.bind_some]
          cases index r.numBytes with
          | none => exact .inl fun _ _ => rfl
          | some m => exact .inr ⟨_, fun _ _ => rfl⟩

theorem writeAtIntTrail_eq (hwf : f.hdr.WellFormed)
    (hdisk : ∀ s ∈ f.hdr.sectors, s < numDiskSectors) (hnodup : f.hdr.sectors.Nodup)
    (fresh : Nat → Buffer) (data : Buffer) {numBytes position : BitVec 32}
    (hp : 0 ≤ position.toInt) (hend : position.toInt + numBytes.toInt < 2 ^ 31)
    {disk' : DiskImage} {result : BitVec 32}
    (hwrite : f.writeAtInt fresh disk data numBytes position = some (disk', result)) :
    ∃ seen, f.writeAtIntTrail fresh disk data numBytes position = some seen ∧
      seen.getLastD disk = disk' ∧ ∀ d ∈ seen, Torn f.hdr disk disk' d := by
  rcases request_cases (f := f) hp hend with
    hnone | ⟨n, p, hn, hlt, hint, rfl, rfl, -, -, -⟩
  · rw [writeAtInt, hnone] at hwrite
    refine ⟨[], ?_, congrArg Prod.fst (Option.some.inj hwrite),
      fun d hd => absurd hd List.not_mem_nil⟩
    rw [writeAtIntTrail, writeAtIntThen, hnone]
  have hr := request_ofNat hn hlt hint
  have hlast := last_lt_numDirect hwf hn hlt
  have hfirst : p / sectorSize ≤ (p + f.clipped n p - 1) / sectorSize := by
    have hpos := clipped_pos hn hlt
    exact Nat.div_le_div_right (by omega)
  rw [writeAtInt_eq_writeAtIntThen] at hwrite
  rcases f.writeAtIntThen_cases fresh disk data hr with hnone | ⟨buf, hgo⟩
  · rw [hnone] at hwrite
    cases hwrite
  obtain ⟨disk'', hloop, htorn⟩ :=
    writeSectors_torn disk hwf hdisk hnodup buf (turn_lt hwf hn hlt)
  have hint_eq (i : Nat)
      (hi : i ≤ 1 + (p + f.clipped n p - 1) / sectorSize - p / sectorSize) :
      f.writeSectorsInt disk buf (BitVec.ofNat 32 (p / sectorSize)) i =
        f.writeSectors disk buf (p / sectorSize) i :=
    writeSectorsInt_eq disk buf (by omega)
  rw [hgo, turns_eq hfirst hlast, hint_eq _ (Nat.le_refl _), hloop] at hwrite
  obtain rfl : disk'' = disk' := congrArg Prod.fst (Option.some.inj hwrite)
  obtain ⟨seen, hseen, hmem, hlast'⟩ := trail_eq fun i hi =>
    (htorn i hi).imp fun d hd => (hint_eq (i + 1) (by omega)).trans hd.1
  refine ⟨seen, ?_, hlast' _ _ rfl ((hint_eq _ (Nat.le_refl _)).trans hloop), fun d hd => ?_⟩
  · rw [writeAtIntTrail, hgo, turns_eq hfirst hlast]
    exact hseen
  · obtain ⟨i, hi, hd'⟩ := hmem d hd
    obtain ⟨d', hgo', htorn'⟩ := htorn i hi
    obtain rfl := Option.some.inj (hgo'.symm.trans ((hint_eq (i + 1) (by omega)).symm.trans hd'))
    exact htorn'

end

end DiskFile

/-! ## A directory on the way -/

namespace DirectoryEntry

/-- The first `c` bytes of the entry `e'`, and the other ones of `e`. -/
def torn (e e' : DirectoryEntry) (c : Nat) : DirectoryEntry := fun k => if k < c then e' k else e k

variable {e e' : DirectoryEntry} {c : Nat}

theorem view_torn {k : Nat} (hk : k < c) : Bytes.view (e.torn e' c) k = Bytes.view e' k := by
  by_cases hlt : k < entrySize
  · rw [Bytes.view_of_lt _ hlt, Bytes.view_of_lt _ hlt]
    exact if_pos hk
  · rw [Bytes.view, Bytes.view, dif_neg hlt, dif_neg hlt]

/-- The flag and the sector are the first bytes of an entry. -/
theorem inUse_torn (hc : 8 ≤ c) : (e.torn e' c).inUse = e'.inUse := by
  unfold inUse
  rw [view_torn (by omega)]

theorem sector_torn (hc : 8 ≤ c) : (e.torn e' c).sector = e'.sector :=
  wordAt_congr fun j hj => view_torn (by omega)

end DirectoryEntry

namespace Directory

variable {old new : Directory} {i size : Nat} {g : DirectoryEntry → DirectoryEntry}

/-- Of a table in which one entry was changed, the first `c` bytes have got into the file. -/
theorem table_torn (hnew : new.table = old.table.modify i g) {oldBytes newBytes bytes : Buffer}
    (hold : ofMemory oldBytes size = old) (hnew' : ofMemory newBytes size = new) {c : Nat}
    (hbytes : ∀ k < size * entrySize, bytes k = if k < c then newBytes k else oldBytes k) :
    (ofMemory bytes size).table =
      old.table.modify i fun e => e.torn (g e) (c - i * entrySize) := by
  refine List.ext_getElem ?_ fun j hj hj' => ?_
  · rw [List.length_modify, ← hold, length_ofMemory, length_ofMemory]
  have hsize : j < size := by
    rwa [length_ofMemory] at hj
  have hj₀ : j < old.table.length := by
    rwa [List.length_modify] at hj'
  have hj₁ : j < new.table.length := by
    rwa [hnew, List.length_modify]
  have hold_j : old.table[j] = Bytes.ofBuffer oldBytes (j * entrySize) := by
    simp only [← hold, ofMemory, List.getElem_map, List.getElem_range]
  have hnew_j : new.table[j] = Bytes.ofBuffer newBytes (j * entrySize) := by
    simp only [← hnew', ofMemory, List.getElem_map, List.getElem_range]
  have hg : new.table[j] = if i = j then g old.table[j] else old.table[j] := by
    simp only [hnew, List.getElem_modify]
  have hbyte (k : Fin entrySize) : Bytes.ofBuffer bytes (j * entrySize) k =
      if j * entrySize + k < c then new.table[j] k else old.table[j] k := by
    have hle := Nat.mul_le_mul_right entrySize (Nat.succ_le_of_lt hsize)
    rw [Nat.succ_mul] at hle
    rw [hold_j, hnew_j]
    exact hbytes (j * entrySize + k) (by omega)
  rw [List.getElem_modify]
  simp only [ofMemory, List.getElem_map, List.getElem_range]
  funext k
  rw [hbyte]
  split at hg
  next heq =>
    have hiff : j * entrySize + k < c ↔ (k : Nat) < c - i * entrySize := by
      rw [heq]
      omega
    rw [if_pos heq, DirectoryEntry.torn, if_congr hiff rfl rfl, hg]
  next hne =>
    rw [if_neg hne, hg, ite_self]

/-- `Add` changes an entry that is not in use. -/
theorem add_modify {d d' : Directory} {name : Buffer} {newSector : BitVec 32}
    (h : d.add name newSector = (d', true)) :
    ∃ i, ∃ hi : i < d.table.length, d.table[i].inUse = false ∧
      d'.table = d.table.modify i fun e =>
        ((e.setInUse true).setName name).setSector newSector := by
  unfold add at h
  split at h
  next => cases h
  next =>
    split at h
    next => cases h
    next i hfree =>
      obtain ⟨hi, hunused, -⟩ := List.findIdx?_eq_some_iff_getElem.mp hfree
      obtain rfl := congrArg Prod.fst h
      exact ⟨i, hi, Bool.not_eq_true' _ ▸ hunused, rfl⟩

/-- `Remove` changes an entry in use. -/
theorem remove_modify {d d' : Directory} {name : Buffer} (h : d.remove name = (d', true)) :
    ∃ i, ∃ hi : i < d.table.length, d.table[i].inUse = true ∧
      d'.table = d.table.modify i fun e => e.setInUse false := by
  unfold remove at h
  cases hfind : d.findIndex name with
  | none =>
    rw [hfind] at h
    cases h
  | some i =>
    rw [hfind] at h
    obtain ⟨hi, hmatch, -⟩ := List.findIdx?_eq_some_iff_getElem.mp hfind
    rw [Bool.and_eq_true] at hmatch
    obtain rfl := congrArg Prod.fst h
    exact ⟨i, hi, hmatch.1, rfl⟩

/-- The cut lies between the sector of an entry and its name, or between two entries. -/
theorem cut_eq {m : Nat} (hi : i < numDirEntries) :
    m * sectorSize - i * entrySize = 0 ∨ 8 ≤ m * sectorSize - i * entrySize := by
  unfold sectorSize entrySize
  unfold numDirEntries at hi
  omega

end Directory

namespace DiskFileSystem

variable {fs : DiskFileSystem} {disk : DiskImage}

/-- The directory is written: what changes in one entry comes in two parts at the most. -/
theorem Ready.directoryTrail (h : Ready fs disk) {d : Directory}
    (hd : d.table.length = numDirEntries) {i : Nat} {g : DirectoryEntry → DirectoryEntry}
    (hi : i < numDirEntries) (hmodify : d.table = (directoryOf disk).table.modify i g)
    (fresh : Nat → Buffer) {disk' : DiskImage}
    (hwrite : d.writeBack fs.directoryFile fresh disk = some disk')
    (hback : directoryOf disk' = d)
    (hrest : ∀ s ∉ FileHeader.sectors (disk directorySector), disk' s = disk s) :
    ∃ seen, d.writeBackTrail fs.directoryFile fresh disk = some seen ∧
      seen.getLastD disk = disk' ∧ ∀ d' ∈ seen,
        (directoryOf d' = directoryOf disk ∨ ∃ c, 8 ≤ c ∧
          (directoryOf d').table = (directoryOf disk).table.modify i fun e => e.torn (g e) c) ∧
        ∀ s ∉ FileHeader.sectors (disk directorySector), d' s = disk s := by
  have hlen := h.files.directory_length
  have hdisk : ∀ s ∈ FileHeader.sectors (disk directorySector), s < numDiskSectors := fun s hs =>
    h.onDisk s (List.mem_append_right _ (List.mem_cons_of_mem _ hs))
  have hnodup : (FileHeader.sectors (disk directorySector)).Nodup :=
    (List.nodup_cons.mp (List.nodup_append.mp h.nodup).2.1).2
  have htrail := @DiskFile.writeAtTrail_eq fs.directoryFile disk
  rw [h.opened.directoryFile] at htrail
  unfold Directory.writeBack at hwrite
  cases hgo : fs.directoryFile.writeAt fresh disk d.memory (d.table.length * entrySize) 0 with
  | none =>
    rw [hgo] at hwrite
    cases hwrite
  | some result =>
    rw [hgo] at hwrite
    obtain rfl : result.1 = disk' := Option.some.inj hwrite
    have hsize : d.table.length * entrySize = numDirEntries * entrySize := by rw [hd]
    have hfile : directoryFileSize = numDirEntries * entrySize := rfl
    obtain ⟨seen, hseen, hlast, htorn⟩ := htrail h.files.directory hdisk hnodup fresh d.memory
      (by rw [hsize]; decide) (lt_of_lt_of_le (by decide) hlen) hgo
    refine ⟨seen, hseen, hlast, fun d' hd' => ?_⟩
    obtain ⟨⟨m, -, hbytes⟩, hframe⟩ := htorn d' hd'
    refine ⟨?_, hframe⟩
    -- the directory in the file of a disk with the old header
    have hread {x : DiskImage}
        (hx : ∀ s ∉ FileHeader.sectors (disk directorySector), x s = disk s) :
        Directory.ofMemory (DiskFile.fileByte (disk directorySector) x) numDirEntries =
          directoryOf x := by
      rw [directoryOf, contents, hx _ h.header_notMem_directory]
    have htable := Directory.table_torn hmodify (hread fun _ _ => rfl) ((hread hrest).trans hback)
      fun k hk => hbytes k (lt_of_lt_of_le (Int.ofNat_lt.mpr (hk.trans_eq (Nat.mul_comm _ _))) hlen)
    rw [hread hframe] at htable
    rcases Directory.cut_eq (m := m) hi with hzero | hcut
    · have hsame : (directoryOf d').table = (directoryOf disk).table := by
        rw [htable, hzero]
        exact List.modify_id _ _
      exact .inl (congrArg Directory.mk hsame)
    · exact .inr ⟨_, hcut, htable⟩

/-- The free map is written: it takes one sector. -/
theorem Ready.mapTrail (h : Ready fs disk) {b : Bitmap}
    (fresh : Nat → Buffer) {disk' : DiskImage}
    (hwrite : b.writeBack fs.freeMapFile fresh disk = some disk')
    (hrest : ∀ s ∉ FileHeader.sectors (disk freeMapSector), disk' s = disk s) :
    ∃ seen, b.writeBackTrail fs.freeMapFile fresh disk = some seen ∧
      seen.getLastD disk = disk' ∧ ∀ d' ∈ seen, (∀ s, Marked d' s ↔ Marked disk' s) ∧
        ∀ s ∉ FileHeader.sectors (disk freeMapSector), d' s = disk s := by
  have hlen := h.files.freeMap_length
  have hdisk : ∀ s ∈ FileHeader.sectors (disk freeMapSector), s < numDiskSectors := fun s hs =>
    h.onDisk s (List.mem_append_left _ (List.mem_cons_of_mem _ hs))
  have hnodup : (FileHeader.sectors (disk freeMapSector)).Nodup :=
    (List.nodup_cons.mp (List.nodup_append.mp h.nodup).1).2
  have htrail := @DiskFile.writeAtTrail_eq fs.freeMapFile disk
  rw [h.opened.freeMapFile] at htrail
  unfold Bitmap.writeBack at hwrite
  cases hgo : fs.freeMapFile.writeAt fresh disk b.memory (b.map.length * 4) 0 with
  | none =>
    rw [hgo] at hwrite
    cases hwrite
  | some result =>
    rw [hgo] at hwrite
    obtain rfl : result.1 = disk' := Option.some.inj hwrite
    obtain ⟨seen, hseen, hlast, htorn⟩ := htrail h.files.freeMap hdisk hnodup fresh b.memory
      b.map_length_pos (lt_of_lt_of_le (by decide) hlen) hgo
    refine ⟨seen, hseen, hlast, fun d' hd' => ?_⟩
    obtain ⟨⟨m, hm, hbytes⟩, hframe⟩ := htorn d' hd'
    refine ⟨fun s => and_congr_right fun hs => ?_, hframe⟩
    unfold numDiskSectors at hs
    unfold freeMapFileSize numDiskSectors at hlen
    have hcut : s / 8 < m * sectorSize := by
      unfold sectorSize
      omega
    have hbyte := hbytes (s / 8) (by omega)
    rw [if_pos hcut] at hbyte
    rw [Bitmap.bitIn, Bitmap.bitIn, contents, contents, hframe _ h.header_notMem_map,
      hrest _ h.header_notMem_map, hbyte]

end DiskFileSystem

end Nachos
