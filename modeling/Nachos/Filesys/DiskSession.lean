import Nachos.Base.Buckets
import Nachos.Filesys.DiskFileSystem
import Nachos.Filesys.FileStore

/-!
# Named files on the disk (`filesys/filesys.h`, `filesys/filesys.cc`, `filesys/openfile.cc`)

A program uses the file system that is not a stub: it creates, removes and opens files, and goes
through the objects that `Open` has made, as many as it likes.

* `DiskFileSystem.openFile` — `FileSystem::Open`
* `DiskSession.Represents` — the disk holds the files of a store
* `Represents.step` — what a call does to the store
* `diskSession_refines` — any sequence of calls
-/

namespace Nachos

open Base

/-- `FileSystem::Open`; the inner `none` is the answer NULL. -/
def DiskFileSystem.openFile (fs : DiskFileSystem) (fresh : Nat → Buffer) (disk : DiskImage)
    (name : Buffer) : Option (Option DiskFile) := do
  let directory ← (Directory.new (fresh 0) numDirEntries).fetchFrom fs.directoryFile (fresh 1) disk
  let sector := directory.find name
  if 0 ≤ sector.toInt then (DiskFile.new disk sector).map some else return none

/-- The class `OpenFile`, with its position. -/
structure DiskOpenFile where
  file : DiskFile
  seekPosition : BitVec 32

/-- `OpenFile::ReadAt`, `WriteAt`, `Read` and `Write`. -/
def DiskOpenFile.request (o : DiskOpenFile) (disk : DiskImage) (r : FileRequest) :
    Option (DiskImage × DiskOpenFile × TransferReply) := do
  let (disk, reply) ← o.file.step disk (r.transfer o.seekPosition)
  return (disk, { o with seekPosition := r.advance o.seekPosition reply.result }, reply)

/-- The file system, the disk, and the objects made by `Open`; `none` is an object deleted. -/
structure DiskSession where
  fs : DiskFileSystem
  disk : DiskImage
  objects : List (Option DiskOpenFile)

namespace DiskSession

/-- The object number `id`, if it has not been deleted. -/
def object (s : DiskSession) (id : Nat) : Option DiskOpenFile := s.objects[id]?.join

/-- A call. It is `none` if the kernel is aborted or an object is used after its deletion. -/
def step (s : DiskSession) : StoreCall → Option (DiskSession × StoreReply)
  | .create fresh name size => do
    let (disk, b) ← s.fs.create fresh s.disk name size
    return ({ s with disk := disk }, .done b)
  | .remove fresh name => do
    let (disk, b) ← s.fs.remove fresh s.disk name
    return ({ s with disk := disk }, .done b)
  | .openFile fresh name => do
    match ← s.fs.openFile fresh s.disk name with
    | none => return (s, .opened none)
    | some file =>
      return ({ s with objects := s.objects ++ [some ⟨file, 0⟩] }, .opened (some s.objects.length))
  | .close id => do
    let _ ← s.object id
    return ({ s with objects := s.objects.set id none }, .nothing)
  | .seek id position => do
    let o ← s.object id
    let o := { o with seekPosition := position }
    return ({ s with objects := s.objects.set id (some o) }, .nothing)
  | .request id r => do
    let o ← s.object id
    let (disk, o, reply) ← o.request s.disk r
    return ({ s with disk := disk, objects := s.objects.set id (some o) }, .transferred reply)
  | .length id => do
    let o ← s.object id
    return (s, .length o.file.hdr.fileLength)

end DiskSession

/-! ## The files of a disk -/

namespace DiskFileSystem

/-- The file with its header in sector `s`. -/
def fileArray (disk : DiskImage) (s : Nat) : FileArray := DiskFile.contents ⟨disk s⟩ disk

/-- The files under their names. -/
def filesByName (disk : DiskImage) : Finmap fun _ : NameKey => FileArray :=
  toFinmap DirectoryEntry.key (fun e => fileArray disk e.sector.toNat) (files disk)

/-- The names of the files are different, and no file has more sectors than it needs. -/
structure Tidy (disk : DiskImage) : Prop where
  distinct : (directoryOf disk).Distinct
  nonneg : ∀ e ∈ files disk, 0 ≤ (FileHeader.fileLength (disk e.sector.toNat)).toInt
  sized : ∀ e ∈ files disk, (FileHeader.numSectors (disk e.sector.toNat)).toInt =
    FileHeader.sectorsFor (FileHeader.fileLength (disk e.sector.toNat))

variable {fs : DiskFileSystem} {disk disk' : DiskImage}

/-- Only the directory and the headers matter. -/
theorem Tidy.congr (h : Tidy disk) (hdirectory : directoryOf disk' = directoryOf disk)
    (hheaders : ∀ f ∈ files disk, disk' f.sector.toNat = disk f.sector.toNat) : Tidy disk' := by
  have hfiles : files disk' = files disk := congrArg Directory.files hdirectory
  refine ⟨hdirectory ▸ h.distinct, ?_, ?_⟩
  · rw [hfiles]
    intro f hf
    rw [hheaders f hf]
    exact h.nonneg f hf
  · rw [hfiles]
    intro f hf
    rw [hheaders f hf]
    exact h.sized f hf

theorem mem_bindings_iff {name : Buffer} :
    nameKey name ∈ (directoryOf disk).bindings ↔ nameKey name ∈ filesByName disk := by
  rw [Directory.mem_bindings, filesByName, mem_toFinmap]
  rfl

theorem FileUnchanged.fileArray_eq {s : Nat} (h : FileUnchanged disk disk' s) :
    fileArray disk' s = fileArray disk s := by
  have hlength : FileHeader.fileLength (disk' s) = FileHeader.fileLength (disk s) :=
    congrArg _ h.1
  refine List.ext_getElem ?_ fun k hk hk' => ?_
  · rw [fileArray, fileArray, DiskFile.length_contents, DiskFile.length_contents, hlength]
  · rw [fileArray, DiskFile.length_contents] at hk'
    simp only [fileArray, DiskFile.getElem_contents]
    exact h.2 k (Int.lt_toNat.mp hk')

/-! ### The files under their names -/

theorem filesByName_grow {e : DirectoryEntry}
    (hdistinct : ((files disk').map DirectoryEntry.key).Nodup)
    (hfiles : (files disk').Perm (e :: files disk))
    (hothers : ∀ f ∈ files disk, FileUnchanged disk disk' f.sector.toNat) :
    filesByName disk' = (filesByName disk).insert e.key (fileArray disk' e.sector.toNat) := by
  unfold filesByName
  rw [toFinmap_perm hdistinct hfiles, toFinmap_cons,
    toFinmap_congr fun f hf => (hothers f hf).fileArray_eq]

theorem filesByName_shrink {e : DirectoryEntry}
    (hdistinct : ((files disk).map DirectoryEntry.key).Nodup)
    (hfiles : (files disk).Perm (e :: files disk'))
    (hothers : ∀ f ∈ files disk', FileUnchanged disk disk' f.sector.toNat) :
    filesByName disk' = (filesByName disk).erase e.key := by
  unfold filesByName
  rw [← toFinmap_erase hdistinct hfiles,
    toFinmap_congr fun f hf => (hothers f hf).fileArray_eq]

theorem filesByName_written {e : DirectoryEntry} (hdistinct : (directoryOf disk).Distinct)
    (hdirectory : directoryOf disk' = directoryOf disk) (he : e ∈ files disk)
    (hothers : ∀ f ∈ files disk, f ≠ e → FileUnchanged disk disk' f.sector.toNat) :
    filesByName disk' = (filesByName disk).insert e.key (fileArray disk' e.sector.toNat) := by
  have hfiles : files disk' = files disk := congrArg Directory.files hdirectory
  unfold filesByName
  rw [hfiles]
  exact toFinmap_update hdistinct he fun f hf hne => (hothers f hf hne).fileArray_eq

/-! ### Their sectors -/

/-- Two files have no sector in common. -/
theorem Consistent.disjoint (h : Consistent disk) {e f : DirectoryEntry} (he : e ∈ files disk)
    (hf : f ∈ files disk) (hne : e ≠ f) :
    (fileSectors disk e.sector.toNat).Disjoint (fileSectors disk f.sector.toNat) := by
  let apart (e f : DirectoryEntry) : Prop :=
    (fileSectors disk e.sector.toNat).Disjoint (fileSectors disk f.sector.toNat)
  have hpairwise : (files disk).Pairwise apart :=
    (List.nodup_flatMap.mp (List.nodup_append.mp h.nodup).2.1).2
  have : Std.Symm apart := ⟨fun _ _ hd => hd.symm⟩
  exact hpairwise.forall he hf hne

theorem Consistent.nodup_fileSectors (h : Consistent disk) {e : DirectoryEntry}
    (he : e ∈ files disk) : (fileSectors disk e.sector.toNat).Nodup :=
  (List.nodup_flatMap.mp (List.nodup_append.mp h.nodup).2.1).1 e he

/-- What is left alone when a file is written. -/
theorem Consistent.written (h : Consistent disk) (hopened : Opened fs disk) {e : DirectoryEntry}
    (he : e ∈ files disk)
    (hrest : ∀ s ∉ FileHeader.sectors (disk e.sector.toNat), disk' s = disk s) :
    Consistent disk' ∧ Opened fs disk' ∧ directoryOf disk' = directoryOf disk ∧
      owned disk' = owned disk ∧
      (∀ f ∈ files disk, disk' f.sector.toNat = disk f.sector.toNat) ∧
      ∀ f ∈ files disk, f ≠ e → FileUnchanged disk disk' f.sector.toNat := by
  have hready := h.ready hopened
  have hsystem : ∀ t ∈ systemSectors disk, disk' t = disk t := fun t ht =>
    hrest t fun hs => h.notMem_system he (List.mem_cons_of_mem _ hs) ht
  have hmap : ∀ t ∈ fileSectors disk freeMapSector, disk' t = disk t := fun t ht =>
    hsystem t (List.mem_append_left _ ht)
  have hdir : ∀ t ∈ fileSectors disk directorySector, disk' t = disk t := fun t ht =>
    hsystem t (List.mem_append_right _ ht)
  have hother : ∀ f ∈ files disk, f ≠ e → ∀ t ∈ fileSectors disk f.sector.toNat,
      disk' t = disk t := fun f hf hne t ht =>
    hrest t fun hs => h.disjoint hf he hne ht (List.mem_cons_of_mem _ hs)
  have hheaders : ∀ f ∈ files disk, disk' f.sector.toNat = disk f.sector.toNat := by
    intro f hf
    by_cases hfe : f = e
    · rw [hfe]
      exact hrest _ (List.nodup_cons.mp (h.nodup_fileSectors he)).1
    · exact hother f hf hfe _ List.mem_cons_self
  have hdirectory := hready.directoryOf_congr hdir
  have hfiles : files disk' = files disk := congrArg Directory.files hdirectory
  have howned : owned disk' = owned disk := by
    unfold owned systemSectors
    rw [hfiles, fileSectors_congr (hmap _ List.mem_cons_self),
      fileSectors_congr (hdir _ List.mem_cons_self), ownedBy_congr hheaders]
  have hready' := hready.congr (hmap _ List.mem_cons_self) (hdir _ List.mem_cons_self)
  refine ⟨⟨hready'.files, fun f hf => ?_, fun s => ?_, ?_⟩, hready'.opened, hdirectory, howned,
    hheaders, fun f hf hne => .of_sectors (h.headers f hf) (hother f hf hne)⟩
  · rw [hfiles] at hf
    rw [hheaders f hf]
    exact h.headers f hf
  · rw [hready.marked_congr hmap, h.marked, howned]
  · rw [howned]
    exact h.nodup

/-- `Open` finds the file of the name, if there is one. -/
theorem openFile_cases (h : Consistent disk) (hopened : Opened fs disk) (fresh : Nat → Buffer)
    (name : Buffer) :
    (fs.openFile fresh disk name = some none ∧ nameKey name ∉ filesByName disk) ∨
    ∃ e ∈ files disk, e.key = nameKey name ∧
      fs.openFile fresh disk name = some (some ⟨disk e.sector.toNat⟩) := by
  unfold openFile
  rw [(h.ready hopened).readDirectory]
  dsimp only [Option.bind_eq_bind, Option.bind_some]
  rcases (directoryOf disk).find_eq name with ⟨hfind, -⟩ | ⟨d, e, hfind, hnamed, -, -, hperm⟩
  · refine .inl ⟨?_, fun hmem => ?_⟩
    · rw [hfind]
      rfl
    · exact (h.find_eq_neg_one_iff.mp hfind) (mem_bindings_iff.mpr hmem)
  · have he : e ∈ files disk := hperm.mem_iff.mpr List.mem_cons_self
    have hon := onDisk_iff.mpr (h.sector_lt he)
    refine .inr ⟨e, he, Directory.named_iff.mp hnamed, ?_⟩
    rw [hfind, if_pos hon.1, DiskFile.new, FileHeader.fetchFrom_eq hon]
    rfl

end DiskFileSystem

/-! ## The disk and the store -/

open DiskFileSystem

/-- The object is where the cursor is. It has the header of its file, unless that was removed. -/
structure DiskOpenFile.Serves (disk : DiskImage) (o : DiskOpenFile) (c : FileCursor) : Prop where
  position : o.seekPosition = c.position
  file : ∀ key, c.file = some key →
    ∃ e ∈ files disk, e.key = key ∧ o.file.hdr = disk e.sector.toNat

namespace DiskSession

/-- The disk holds the files of the store, and the objects are its cursors. -/
structure Represents (s : DiskSession) (a : FileStore) : Prop where
  consistent : Consistent s.disk
  opened : Opened s.fs s.disk
  tidy : Tidy s.disk
  files : a.files = filesByName s.disk
  room : a.room + (owned s.disk).length = numDiskSectors
  cursors : List.Forall₂ (Option.Rel (DiskOpenFile.Serves s.disk)) s.objects a.cursors

variable {s : DiskSession} {a : FileStore}

/-- A cursor in use has its object. -/
theorem object_of_cursor (h : Represents s a) {id : Nat} {c : FileCursor}
    (hc : a.cursors[id]? = some (some c)) :
    ∃ o, s.object id = some o ∧ o.Serves s.disk c := by
  have hlt : id < s.objects.length := by
    rw [h.cursors.length_eq]
    exact (List.getElem?_eq_some_iff.mp hc).1
  obtain ⟨o?, c?, ho, hc', hrel⟩ := forall₂_getElem? h.cursors hlt
  obtain rfl := Option.some.inj (hc.symm.trans hc')
  rcases optionRel_cases hrel with ⟨-, hnone⟩ | ⟨o, c', rfl, hsome, hserves⟩
  · cases hnone
  · obtain rfl := Option.some.inj hsome
    refine ⟨o, ?_, hserves⟩
    rw [object, ho]
    rfl

/-- The store has the file of an entry. -/
theorem Represents.lookup_key (h : Represents s a) {e : DirectoryEntry}
    (he : e ∈ DiskFileSystem.files s.disk) :
    a.files.lookup e.key = some (fileArray s.disk e.sector.toNat) := by
  rw [h.files]
  exact lookup_toFinmap h.tidy.distinct he

/-- The sectors of a file, by the length of its array. -/
theorem length_fileSectors (htidy : Tidy s.disk) {e : DirectoryEntry}
    (he : e ∈ DiskFileSystem.files s.disk) :
    (fileSectors s.disk e.sector.toNat).length =
      FileStore.sectorsOf (fileArray s.disk e.sector.toNat) := by
  have hlength : (fileArray s.disk e.sector.toNat).length =
      (FileHeader.fileLength (s.disk e.sector.toNat)).toNat := by
    rw [fileArray, DiskFile.length_contents, FileHeader.toInt_of_nonneg (htidy.nonneg e he),
      Int.toNat_natCast]
  rw [fileSectors, List.length_cons, FileHeader.sectors, FileHeader.dataSectors, List.length_map,
    List.length_range, htidy.sized e he, Int.toNat_natCast, FileStore.sectorsOf, hlength,
    FileHeader.sectorsFor, Nat.add_comm]

/-! ## What a call does to the store -/

/-- The objects serve the same cursors if the headers of their files stay where they are. -/
theorem serves_congr {disk disk' : DiskImage} {objects : List (Option DiskOpenFile)}
    {cursors : List (Option FileCursor)}
    (hfiles : ∀ e ∈ DiskFileSystem.files disk, e ∈ DiskFileSystem.files disk' ∧
      disk' e.sector.toNat = disk e.sector.toNat)
    (h : List.Forall₂ (Option.Rel (DiskOpenFile.Serves disk)) objects cursors) :
    List.Forall₂ (Option.Rel (DiskOpenFile.Serves disk')) objects cursors := by
  refine h.imp fun o? c? hrel => ?_
  cases hrel with
  | none => exact .none
  | some hserves =>
    refine .some ⟨hserves.position, fun key hkey => ?_⟩
    obtain ⟨e, he, hname, hhdr⟩ := hserves.file key hkey
    obtain ⟨he', hsame⟩ := hfiles e he
    exact ⟨e, he', hname, hhdr.trans hsame.symm⟩

/-- A new file. -/
theorem Represents.created (h : Represents s a) {disk' : DiskImage} {name : Buffer}
    {size : BitVec 32} {e : DirectoryEntry} (hsize : 0 ≤ size.toInt)
    (hroom : Admits s.disk name size) (hconsistent : Consistent disk')
    (hopened : Opened s.fs disk') (hcreated : Created s.disk disk' name size e)
    (hsized : (FileHeader.numSectors (disk' e.sector.toNat)).toInt = FileHeader.sectorsFor size) :
    (fileArray disk' e.sector.toNat).length = size.toNat ∧
      Represents { s with disk := disk' }
        (a.created (nameKey name) (fileArray disk' e.sector.toNat)) := by
  obtain ⟨hnamed, hfiles, hlength, hothers⟩ := hcreated
  have hkey : e.key = nameKey name := Directory.named_iff.mp hnamed
  have hmem : ∀ f ∈ DiskFileSystem.files disk',
      f = e ∨ f ∈ DiskFileSystem.files s.disk := fun f hf =>
    List.mem_cons.mp (hfiles.mem_iff.mp hf)
  have he : e ∈ DiskFileSystem.files disk' := hfiles.mem_iff.mpr List.mem_cons_self
  have hdistinct : (directoryOf disk').Distinct := by
    refine (hfiles.map DirectoryEntry.key).nodup_iff.mpr (List.nodup_cons.mpr ⟨?_, h.tidy.distinct⟩)
    intro hold
    obtain ⟨f, hf, hk⟩ := List.mem_map.mp hold
    exact hroom.absent (Directory.mem_bindings.mpr ⟨f, hf, hk.trans hkey⟩)
  have htidy : Tidy disk' := by
    refine ⟨hdistinct, fun f hf => ?_, fun f hf => ?_⟩
    · rcases hmem f hf with rfl | hold
      · rw [hlength]
        exact hsize
      · rw [(hothers f hold).1]
        exact h.tidy.nonneg f hold
    · rcases hmem f hf with rfl | hold
      · rw [hlength]
        exact hsized
      · rw [(hothers f hold).1]
        exact h.tidy.sized f hold
  have hbytes : (fileArray disk' e.sector.toNat).length = size.toNat := by
    rw [fileArray, DiskFile.length_contents, hlength, FileHeader.toInt_of_nonneg hsize,
      Int.toNat_natCast]
  refine ⟨hbytes, hconsistent, hopened, htidy, ?_, ?_, ?_⟩
  · refine Eq.trans ?_ (filesByName_grow hdistinct hfiles hothers).symm
    rw [FileStore.created, h.files, hkey]
  · have hnew := length_fileSectors (s := { s with disk := disk' }) htidy he
    have hperm := (perm_owned hfiles).length_eq
    have hsys : systemSectors disk' = systemSectors s.disk := by
      have hmap := hopened.freeMapFile.symm.trans h.opened.freeMapFile
      have hdir := hopened.directoryFile.symm.trans h.opened.directoryFile
      unfold systemSectors
      rw [fileSectors_congr hmap, fileSectors_congr hdir]
    have hownedBy := ownedBy_congr fun f hf => (hothers f hf).1
    rw [List.length_append, hnew, hsys, hownedBy, ← owned] at hperm
    have hfits := hroom.sectors
    have hold := h.room
    have hcount : FileStore.sectorsOf (fileArray disk' e.sector.toNat) =
        1 + FileHeader.sectorsFor size := by
      rw [FileStore.sectorsOf, hbytes, FileHeader.sectorsFor]
    rw [FileStore.created]
    dsimp only at hperm ⊢
    omega
  · exact serves_congr (fun f hf => ⟨hfiles.mem_iff.mpr (List.mem_cons_of_mem _ hf),
      (hothers f hf).1⟩) h.cursors

/-- A file is removed. -/
theorem Represents.removed (h : Represents s a) {disk' : DiskImage} {name : Buffer}
    {e : DirectoryEntry} (hconsistent : Consistent disk') (hopened : Opened s.fs disk')
    (hremoved : Removed s.disk disk' name e) :
    a.files.lookup (nameKey name) = some (fileArray s.disk e.sector.toNat) ∧
      Represents { s with disk := disk' }
        (a.removed (nameKey name) (fileArray s.disk e.sector.toNat)) := by
  obtain ⟨hnamed, hfiles, -, hothers⟩ := hremoved
  have hkey : e.key = nameKey name := Directory.named_iff.mp hnamed
  have he : e ∈ DiskFileSystem.files s.disk := hfiles.mem_iff.mpr List.mem_cons_self
  have hold : ∀ f ∈ DiskFileSystem.files disk', f ∈ DiskFileSystem.files s.disk := fun f hf =>
    hfiles.mem_iff.mpr (List.mem_cons_of_mem _ hf)
  have hkeys := (hfiles.map DirectoryEntry.key).nodup_iff.mp h.tidy.distinct
  have htidy : Tidy disk' := by
    refine ⟨(List.nodup_cons.mp hkeys).2, fun f hf => ?_, fun f hf => ?_⟩
    · rw [(hothers f hf).1]
      exact h.tidy.nonneg f (hold f hf)
    · rw [(hothers f hf).1]
      exact h.tidy.sized f (hold f hf)
  refine ⟨?_, hconsistent, hopened, htidy, ?_, ?_, ?_⟩
  · rw [← hkey]
    exact h.lookup_key he
  · refine Eq.trans ?_ (filesByName_shrink h.tidy.distinct hfiles hothers).symm
    rw [FileStore.removed, h.files, hkey]
  · have hgone := length_fileSectors h.tidy he
    have hperm := (perm_owned hfiles).length_eq
    have hsys : systemSectors disk' = systemSectors s.disk := by
      have hmap := hopened.freeMapFile.symm.trans h.opened.freeMapFile
      have hdir := hopened.directoryFile.symm.trans h.opened.directoryFile
      unfold systemSectors
      rw [fileSectors_congr hmap, fileSectors_congr hdir]
    have hownedBy := ownedBy_congr fun f hf => (hothers f hf).1
    rw [List.length_append, hgone, ← hsys, ← hownedBy, ← owned] at hperm
    have hroom := h.room
    rw [FileStore.removed]
    dsimp only at hperm ⊢
    omega
  · rw [FileStore.removed]
    refine List.forall₂_map_right_iff.mpr (h.cursors.imp fun o? c? hrel => ?_)
    cases hrel with
    | none => exact .none
    | some hserves =>
      refine .some ⟨?_, fun key hfile => ?_⟩
      · rw [hserves.position, FileCursor.forget]
        split <;> rfl
      · -- the cursor is on a file that is still there
        unfold FileCursor.forget at hfile
        split at hfile
        next => cases hfile
        next hne =>
          obtain ⟨f, hf, hname, hhdr⟩ := hserves.file key hfile
          rcases List.mem_cons.mp (hfiles.mem_iff.mp hf) with rfl | hstays
          · exact absurd (by rw [hfile, ← hname, hkey]) hne
          · exact ⟨f, hstays, hname, hhdr.trans (hothers f hstays).1.symm⟩

/-- A request through an object whose file is there. -/
theorem Represents.requested (h : Represents s a) {id : Nat} {r : FileRequest} {c : FileCursor}
    {key : NameKey} (hc : a.cursors[id]? = some (some c)) (hfile : c.file = some key)
    (hrange : (r.transfer c.position).InRange) :
    ∃ t bytes, a.files.lookup key = some bytes ∧
      s.step (.request id r) = some (t, .transferred (a.requested id r c key bytes).2) ∧
      Represents t (a.requested id r c key bytes).1 := by
  obtain ⟨o, ho, hserves⟩ := object_of_cursor h hc
  obtain ⟨e, he, hname, hhdr⟩ := hserves.file key hfile
  have hnodup := h.consistent.nodup_fileSectors he
  have hdisk : ∀ t ∈ FileHeader.sectors (s.disk e.sector.toNat), t < numDiskSectors := fun t ht =>
    (h.consistent.marked_of_mem he (List.mem_cons_of_mem _ ht)).1
  have hstep := DiskFile.step_refines (f := o.file) s.disk
  rw [hhdr] at hstep
  obtain ⟨disk', hgo, hcontents, hrest⟩ :=
    hstep (h.consistent.headers e he) hdisk (List.nodup_cons.mp hnodup).2 hrange
  have hbytes : o.file.contents s.disk = fileArray s.disk e.sector.toNat := by
    rw [DiskFile.contents, hhdr]
    rfl
  have hbytes' : o.file.contents disk' = fileArray disk' e.sector.toNat := by
    rw [fileArray, DiskFile.contents, hhdr, hrest _ (List.nodup_cons.mp hnodup).1]
    rfl
  rw [hbytes] at hgo hcontents
  rw [hbytes'] at hcontents
  obtain ⟨hconsistent, hopened, hdirectory, howned, hheaders, hothers⟩ :=
    h.consistent.written h.opened he hrest
  have hfiles : DiskFileSystem.files disk' = DiskFileSystem.files s.disk :=
    congrArg Directory.files hdirectory
  let reply := (FileArray.step (fileArray s.disk e.sector.toNat) (r.transfer c.position)).2
  refine ⟨⟨s.fs, disk', s.objects.set id (some ⟨o.file, r.advance c.position reply.result⟩)⟩,
    fileArray s.disk e.sector.toNat, ?_, ?_, hconsistent, hopened,
    h.tidy.congr hdirectory hheaders, ?_, ?_, ?_⟩
  · rw [← hname]
    exact h.lookup_key he
  · rw [step, ho]
    dsimp only [Option.bind_eq_bind, Option.bind_some]
    rw [DiskOpenFile.request, hserves.position, hgo]
    rfl
  · refine Eq.trans ?_ (filesByName_written h.tidy.distinct hdirectory he hothers).symm
    rw [FileStore.requested, h.files, hcontents, hname]
  · rw [howned]
    exact h.room
  · refine forall₂_set (serves_congr (fun f hf => ⟨hfiles ▸ hf, hheaders f hf⟩) h.cursors) ?_ id
    refine .some ⟨rfl, fun key' hkey' => ?_⟩
    obtain rfl := Option.some.inj (hfile.symm.trans hkey')
    exact ⟨e, hfiles ▸ he, hname, hhdr.trans (hheaders e he).symm⟩

/-- A call that the store permits is one of its steps. -/
theorem Represents.step (h : Represents s a) {call : StoreCall} (hcall : a.Permits call) :
    ∃ t reply b, s.step call = some (t, reply) ∧ FileStore.Step numDirEntries a call reply b ∧
      Represents t b := by
  have hadmits (name : Buffer) (size : BitVec 32) :
      a.Admits numDirEntries (nameKey name) size ↔ Admits s.disk name size := by
    have hcard : (filesByName s.disk).keys.card = (DiskFileSystem.files s.disk).length :=
      card_keys_toFinmap h.tidy.distinct
    have hroom := h.room
    have hname : nameKey name ∉ (directoryOf s.disk).bindings ↔ nameKey name ∉ filesByName s.disk :=
      mem_bindings_iff.not
    rw [← h.files] at hcard hname
    constructor
    · rintro ⟨habsent, hentry, hsectors⟩
      exact ⟨hname.mpr habsent, hcard ▸ hentry, by omega⟩
    · rintro ⟨habsent, hentry, hsectors⟩
      exact ⟨hname.mp habsent, hcard.symm ▸ hentry, by omega⟩
  cases call with
  | create fresh name size =>
    obtain ⟨hsize, hdirect⟩ := hcall
    rcases create_cases h.consistent h.opened fresh name hsize hdirect with
      ⟨hfail, hno⟩ | ⟨hroom, disk', e, hgo, hconsistent, hopened, hcreated, hsized⟩
    · refine ⟨s, .done false, a, ?_, .createRefused fun hyes => hno ((hadmits _ _).mp hyes), h⟩
      rw [DiskSession.step, hfail]
      rfl
    · obtain ⟨hlength, hrep⟩ := h.created hsize hroom hconsistent hopened hcreated hsized
      refine ⟨_, .done true, _, ?_, .create ((hadmits _ _).mpr hroom) hlength, hrep⟩
      rw [DiskSession.step, hgo]
      rfl
  | remove fresh name =>
    rcases remove_cases h.consistent h.opened fresh name with
      ⟨hfail, habsent⟩ | ⟨-, disk', e, hgo, hconsistent, hopened, hremoved⟩
    · rw [mem_bindings_iff, ← h.files] at habsent
      refine ⟨s, .done false, a, ?_, .removeRefused habsent, h⟩
      rw [DiskSession.step, hfail]
      rfl
    · obtain ⟨hlookup, hrep⟩ := h.removed hconsistent hopened hremoved
      refine ⟨_, .done true, _, ?_, .remove hlookup, hrep⟩
      rw [DiskSession.step, hgo]
      rfl
  | openFile fresh name =>
    rcases openFile_cases h.consistent h.opened fresh name with
      ⟨hfail, habsent⟩ | ⟨e, he, hname, hgo⟩
    · rw [← h.files] at habsent
      refine ⟨s, .opened none, a, ?_, .openRefused habsent, h⟩
      rw [DiskSession.step, hfail]
      rfl
    · have hmem : nameKey name ∈ a.files := by
        rw [h.files]
        exact mem_toFinmap.mpr ⟨e, he, hname⟩
      refine ⟨{ s with objects := s.objects ++ [some ⟨⟨s.disk e.sector.toNat⟩, 0⟩] },
        .opened (some a.cursors.length), _, ?_, .openFile hmem,
        { h with cursors := List.rel_append h.cursors (.cons (.some ⟨rfl, ?_⟩) .nil) }⟩
      · rw [DiskSession.step, hgo, ← h.cursors.length_eq]
        rfl
      · intro key hkey
        obtain rfl := Option.some.inj hkey
        exact ⟨e, he, hname, rfl⟩
  | close id =>
    obtain ⟨c, hc⟩ := hcall
    obtain ⟨o, ho, -⟩ := object_of_cursor h hc
    refine ⟨{ s with objects := s.objects.set id none }, .nothing, _, ?_, .close,
      { h with cursors := forall₂_set h.cursors .none id }⟩
    rw [DiskSession.step, ho]
    rfl
  | seek id position =>
    obtain ⟨c, hc⟩ := hcall
    obtain ⟨o, ho, hserves⟩ := object_of_cursor h hc
    have hmoved : DiskOpenFile.Serves s.disk { o with seekPosition := position }
        { c with position := position } := ⟨rfl, hserves.file⟩
    refine ⟨{ s with objects := s.objects.set id (some { o with seekPosition := position }) },
      .nothing, _, ?_, .seek hc, { h with cursors := forall₂_set h.cursors (.some hmoved) id }⟩
    rw [DiskSession.step, ho]
    rfl
  | request id r =>
    obtain ⟨c, key, hc, hfile, hrange⟩ := hcall
    obtain ⟨t, bytes, hlookup, hgo, hrep⟩ := h.requested hc hfile hrange
    exact ⟨t, _, _, hgo, .request hc hfile hlookup, hrep⟩
  | length id =>
    obtain ⟨c, key, hc, hfile⟩ := hcall
    obtain ⟨o, ho, hserves⟩ := object_of_cursor h hc
    obtain ⟨e, he, hname, hhdr⟩ := hserves.file key hfile
    have hlookup : a.files.lookup key = some (fileArray s.disk e.sector.toNat) := by
      rw [← hname]
      exact h.lookup_key he
    have hlength : BitVec.ofNat 32 (fileArray s.disk e.sector.toNat).length =
        o.file.hdr.fileLength := by
      have hint := FileHeader.toInt_of_nonneg (h.tidy.nonneg e he)
      rw [fileArray, DiskFile.length_contents, hint, Int.toNat_natCast, BitVec.ofNat_toNat,
        BitVec.setWidth_eq, hhdr]
    refine ⟨s, .length o.file.hdr.fileLength, a, ?_, ?_, h⟩
    · rw [DiskSession.step, ho]
      rfl
    · rw [← hlength]
      exact .length hc hfile hlookup

end DiskSession

/--
**The file system on the disk is a store of named files.**

A consistent disk holds the files of a store. Whatever is called then, as long as the caller sees to
what the store asks for: no call aborts the kernel, the answers are those of a run of the store, and
the disk holds the files of the store at the end of that run. So a file is created exactly if its
name is new and there is room, and what is read is what was written last under that name.
-/
theorem diskSession_refines {s : DiskSession} {a : FileStore} (h : s.Represents a)
    {calls : List StoreCall}
    (hcalls : Admitted (FileStore.Step numDirEntries) FileStore.Permits a calls) :
    ∃ u replies b, runReplies DiskSession.step s calls = some (u, replies) ∧
      Runs (FileStore.Step numDirEntries) a calls replies b ∧ u.Represents b :=
  runReplies_runs (fun _ _ _ hrep hcall => hrep.step hcall) h hcalls

/-- The disk without files, and no object. -/
def emptySession : DiskSession where
  fs := emptySystem
  disk := emptyDisk
  objects := []

theorem represents_emptySession : emptySession.Represents ⟨∅, 1019, []⟩ := by
  have hfiles : files emptyDisk = [] := by decide
  have hnone {P : DirectoryEntry → Prop} : ∀ e ∈ files emptyDisk, P e := by
    rw [hfiles]
    exact fun e he => absurd he List.not_mem_nil
  have hdistinct : (directoryOf emptyDisk).Distinct := by
    unfold Directory.Distinct
    rw [show (directoryOf emptyDisk).files = [] from hfiles]
    exact List.nodup_nil
  refine ⟨consistent_emptyDisk, ⟨rfl, rfl⟩, ⟨hdistinct, hnone, hnone⟩, ?_, by decide, .nil⟩
  rw [filesByName, emptySession, hfiles]
  rfl

/-- A file is created, opened and written to. -/
theorem diskSession_refines_write :
    ∃ u replies b, runReplies DiskSession.step emptySession
        [.create (fun _ _ => 0) nameA 300, .openFile (fun _ _ => 0) nameA,
          .request 0 (.write (fun _ _ => 0) (fun _ => 7) 10)] = some (u, replies) ∧
      Runs (FileStore.Step numDirEntries) ⟨∅, 1019, []⟩
        [.create (fun _ _ => 0) nameA 300, .openFile (fun _ _ => 0) nameA,
          .request 0 (.write (fun _ _ => 0) (fun _ => 7) 10)] replies b ∧ u.Represents b := by
  refine diskSession_refines represents_emptySession ⟨⟨by decide, by decide⟩, ?_⟩
  intro r a hcreate
  have habsent : nameKey nameA ∉ (∅ : Finmap fun _ : NameKey => FileArray) :=
    Finmap.notMem_empty
  cases hcreate with
  | createRefused hno => exact absurd ⟨habsent, by decide, by decide⟩ hno
  | create _ _ =>
    refine ⟨trivial, fun r b hopen => ?_⟩
    cases hopen with
    | openRefused hno => exact absurd (Finmap.mem_insert.mpr (.inl rfl)) hno
    | openFile _ => exact ⟨⟨_, _, rfl, rfl, by decide, by decide⟩, fun _ _ _ => trivial⟩

end Nachos
