import Nachos.Filesys.SectorTrail

/-!
# A call that is cut off (`filesys/filesys.cc`, `filesys/openfile.cc`)

Nachos may exit after any sector that is written, and it does nothing to be safe from that. What the
order of the writes guarantees all the same is stated here.

* `DiskFileSystem.Unprotected` — a disk with one file whose sectors are free in the free map
* `create_trail`, `remove_trail` — where `Create` and `Remove` may have come to
* `powerCut_contained` — the exit damages no file but the one that the call is about
-/

namespace Nachos

open Base

namespace DiskFileSystem

variable {fs : DiskFileSystem} {disk : DiskImage}

/-! ## Create and Remove on the way -/

/-- The disk is consistent but for the file `e`, whose sectors are free in the free map. -/
structure Unprotected (disk : DiskImage) (e : DirectoryEntry) : Prop where
  system : SystemFiles disk
  headers : ∀ f ∈ files disk, FileHeader.WellFormed (disk f.sector.toNat)
  nodup : (owned disk).Nodup
  mem : e ∈ files disk
  onDisk : ∀ s ∈ fileSectors disk e.sector.toNat, s < numDiskSectors
  marked : ∀ s, Marked disk s ↔ s ∈ owned disk ∧ s ∉ fileSectors disk e.sector.toNat

/-- The file `e` has been added, with its header in a sector that was free. -/
structure Added (disk d : DiskImage) (initialSize : BitVec 32) (e : DirectoryEntry) : Prop where
  files : (files d).Perm (e :: files disk)
  fresh : ¬ Marked disk e.sector.toNat
  length : FileHeader.fileLength (d e.sector.toNat) = initialSize

/-- Where a `Create` may have come to: the file is not in the directory yet, or it is. -/
def Creating (disk : DiskImage) (initialSize : BitVec 32) (d : DiskImage) : Prop :=
  Consistent d ∧ files d = files disk ∨
    ∃ e, Added disk d initialSize e ∧ (Consistent d ∨ Unprotected d e)

/-- Where a `Remove` of the file `e` may have come to: it is still in the directory, or not. -/
def Removing (disk : DiskImage) (e : DirectoryEntry) (d : DiskImage) : Prop :=
  Unprotected d e ∧ files d = files disk ∨ Consistent d ∧ (files disk).Perm (e :: files d)

section

variable {disk' : DiskImage}

/-- The directory is the old one. -/
theorem Consistent.same (h : Consistent disk)
    (hmap : disk' freeMapSector = disk freeMapSector)
    (hdir : disk' directorySector = disk directorySector)
    (hdirectory : directoryOf disk' = directoryOf disk)
    (hheaders : ∀ f ∈ files disk, disk' f.sector.toNat = disk f.sector.toNat) :
    files disk' = files disk ∧ owned disk' = owned disk ∧
      (∀ f ∈ files disk', FileHeader.WellFormed (disk' f.sector.toNat)) := by
  have hfiles : files disk' = files disk := congrArg Directory.files hdirectory
  refine ⟨hfiles, ?_, fun f hf => ?_⟩
  · unfold owned systemSectors
    rw [hfiles, fileSectors_congr hmap, fileSectors_congr hdir, ownedBy_congr hheaders]
  · rw [hfiles] at hf
    rw [hheaders f hf]
    exact h.headers f hf

namespace NewFile

variable {name : Buffer} {initialSize : BitVec 32} {sector : Nat} {hdr : FileHeader}
  {d : Directory} {b : Bitmap}

/-- The file in the directory is the new one. -/
theorem toAdded (hnew : NewFile disk name initialSize sector hdr d b) (hheader : disk' sector = hdr)
    {e : DirectoryEntry} (hsector : e.sector.toNat = sector)
    (hfiles : (files disk').Perm (e :: files disk)) : Added disk disk' initialSize e where
  files := hfiles
  fresh := by
    rw [hsector]
    exact (hnew.free sector List.mem_cons_self).2
  length := by
    rw [hsector, hheader]
    exact hnew.length

variable (hnew : NewFile disk name initialSize sector hdr d b) (h : Consistent disk)
  (hopened : Opened fs disk)
  (hframe : ∀ t ≠ sector, t ∉ FileHeader.sectors (disk freeMapSector) →
    t ∉ FileHeader.sectors (disk directorySector) → disk' t = disk t)
include hnew h hopened hframe

/-- The new file is not in the directory yet. -/
theorem unlisted (hdirectory : directoryOf disk' = directoryOf disk)
    (hmarked : ∀ s, Marked disk' s ↔ Marked disk s) : Consistent disk' := by
  obtain ⟨hready', hmap, hdir⟩ := hnew.ready h hframe hopened
  obtain ⟨-, howned, hheaders⟩ := h.same hmap hdir hdirectory fun f hf =>
    hnew.others_eq h hframe f hf _ List.mem_cons_self
  refine ⟨hready'.files, hheaders, fun s => ?_, ?_⟩
  · rw [hmarked, h.marked, howned]
  · rw [howned]
    exact h.nodup

variable (hheader : disk' sector = hdr)
include hheader

/-- The new file is in the directory, and its sectors are free in the free map. -/
theorem unprotected {e : DirectoryEntry} (hsector : e.sector.toNat = sector)
    (hfiles : (files disk').Perm (e :: files disk))
    (hmarked : ∀ s, Marked disk' s ↔ Marked disk s) : Unprotected disk' e := by
  obtain ⟨hready', hmap, hdir⟩ := hnew.ready h hframe hopened
  have hheaders : ∀ f ∈ files disk, disk' f.sector.toNat = disk f.sector.toNat := fun f hf =>
    hnew.others_eq h hframe f hf _ List.mem_cons_self
  have hsectors : fileSectors disk' e.sector.toNat = sector :: FileHeader.sectors hdr := by
    rw [fileSectors, hsector, hheader]
  have hperm := perm_owned_grow hmap hdir hfiles hheaders
  rw [hsectors] at hperm
  refine ⟨hready'.files, fun f hf => ?_, ?_, hfiles.mem_iff.mpr List.mem_cons_self, ?_, fun s => ?_⟩
  · rcases List.mem_cons.mp (hfiles.mem_iff.mp hf) with rfl | hold
    · rw [hsector, hheader]
      exact hnew.header
    · rw [hheaders f hold]
      exact h.headers f hold
  · rw [hperm.nodup_iff]
    refine List.nodup_append.mpr ⟨hnew.nodup, h.nodup, ?_⟩
    rintro s hs t ht rfl
    exact (hnew.free s hs).2 ((h.marked s).mpr ht)
  · rw [hsectors]
    exact fun s hs => (hnew.free s hs).1
  · rw [hmarked, hsectors, hperm.mem_iff, List.mem_append]
    constructor
    · exact fun hs => ⟨.inr ((h.marked s).mp hs), fun hin => (hnew.free s hin).2 hs⟩
    · rintro ⟨hin | hin, hout⟩
      · exact absurd hin hout
      · exact (h.marked s).mpr hin

/-- On the way of the directory into its file. -/
theorem creating_torn {i : Nat} (hi : i < (directoryOf disk).table.length)
    (hunused : (directoryOf disk).table[i].inUse = false)
    (hmarked : ∀ s, Marked disk' s ↔ Marked disk s)
    (htorn : directoryOf disk' = directoryOf disk ∨ ∃ c, 8 ≤ c ∧ (directoryOf disk').table =
      (directoryOf disk).table.modify i fun e => e.torn
        (((e.setInUse true).setName name).setSector (BitVec.ofInt 32 (sector : Int))) c) :
    Creating disk initialSize disk' := by
  rcases htorn with hsame | ⟨c, hc, htable⟩
  · exact .inl ⟨hnew.unlisted h hopened hframe hsame hmarked, congrArg Directory.files hsame⟩
  obtain ⟨e, he⟩ : ∃ e, e = (directoryOf disk).table[i].torn
      ((((directoryOf disk).table[i].setInUse true).setName name).setSector
        (BitVec.ofInt 32 (sector : Int))) c := ⟨_, rfl⟩
  have hfiles : (files disk').Perm (e :: files disk) := by
    rw [files, Directory.files, htable, he]
    refine Directory.filter_modify_perm hi hunused ?_
    rw [DirectoryEntry.inUse_torn hc, DirectoryEntry.inUse_setSector,
      DirectoryEntry.inUse_setName, DirectoryEntry.inUse_setInUse]
  have hsector : e.sector.toNat = sector := by
    rw [he, DirectoryEntry.sector_torn hc, DirectoryEntry.sector_setSector]
    exact FileHeader.toNat_ofInt_sector (hnew.free sector List.mem_cons_self).1
  exact .inr ⟨e, hnew.toAdded hheader hsector hfiles,
    .inr (hnew.unprotected h hopened hframe hheader hsector hfiles hmarked)⟩

/-- On the way of the free map into its file. -/
theorem creating_listed (hdirectory : directoryOf disk' = d)
    (hmarked : ∀ s, Marked disk' s ↔ s ∈ b.bits) : Creating disk initialSize disk' := by
  obtain ⟨e, hsector, -, -, hperm⟩ := hnew.entry
  have hfiles : (files disk').Perm (e :: files disk) := by
    rw [files, hdirectory]
    exact hperm
  exact .inr ⟨e, hnew.toAdded hheader hsector hfiles,
    .inl (hnew.consistent h hframe hopened hheader hsector hfiles hmarked)⟩

end NewFile

/-- The old file is still in the directory, and its sectors are free in the free map. -/
theorem OldFile.unprotected {name : Buffer} {e : DirectoryEntry} {b : Bitmap} {d : Directory}
    (hold : OldFile disk name e b d) (h : Consistent disk) (hopened : Opened fs disk)
    (hframe : ∀ t ∉ FileHeader.sectors (disk freeMapSector),
      t ∉ FileHeader.sectors (disk directorySector) → disk' t = disk t)
    (hdirectory : directoryOf disk' = directoryOf disk)
    (hmarked : ∀ s, Marked disk' s ↔ s ∈ b.bits) : Unprotected disk' e := by
  obtain ⟨hready', hmap, hdir⟩ := h.ready_kept hframe hopened
  have he : e ∈ files disk := hold.perm.mem_iff.mpr List.mem_cons_self
  have hheaders : ∀ f ∈ files disk, disk' f.sector.toNat = disk f.sector.toNat := fun f hf =>
    h.sectors_kept hframe f hf _ List.mem_cons_self
  obtain ⟨hfiles, howned, hwf⟩ := h.same hmap hdir hdirectory hheaders
  refine ⟨hready'.files, hwf, ?_, hfiles ▸ he, ?_, fun s => ?_⟩
  · rw [howned]
    exact h.nodup
  · rw [fileSectors_congr (hheaders e he)]
    exact fun s hs => (h.marked_of_mem he hs).1
  · rw [hmarked, hold.bits, h.marked, howned, fileSectors_congr (hheaders e he)]

end

/-- The header is written. -/
theorem NewFile.writeHeader {name : Buffer} {initialSize : BitVec 32} {sector : Nat}
    {hdr : FileHeader} {d : Directory} {b : Bitmap}
    (hnew : NewFile disk name initialSize sector hdr d b) (h : Consistent disk)
    (hopened : Opened fs disk) :
    ∃ disk₁, FileHeader.writeBack hdr disk (BitVec.ofInt 32 (sector : Int)) = some disk₁ ∧
      disk₁ sector = hdr ∧ Ready fs disk₁ ∧ disk₁ directorySector = disk directorySector ∧
      directoryOf disk₁ = directoryOf disk ∧ (∀ s, Marked disk₁ s ↔ Marked disk s) ∧
      ∀ t ≠ sector, disk₁ t = disk t := by
  have hready := h.ready hopened
  have hnat := FileHeader.toNat_ofInt_sector (hnew.free sector List.mem_cons_self).1
  have hon : OnDisk (BitVec.ofInt 32 (sector : Int)) := by
    rw [onDisk_iff, hnat]
    exact (hnew.free sector List.mem_cons_self).1
  have hrest : ∀ t ≠ sector, Function.update disk sector hdr t = disk t := fun t ht =>
    Function.update_of_ne ht _ _
  have hsame : ∀ t ∈ systemSectors disk, Function.update disk sector hdr t = disk t := fun t ht =>
    hrest t fun heq => hnew.notMem_system h (heq ▸ ht)
  obtain ⟨hready', -, hdir⟩ := hnew.ready h (fun t ht _ _ => hrest t ht) hopened
  refine ⟨Function.update disk sector hdr, ?_, Function.update_self .., hready', hdir,
    hready.directoryOf_congr fun t ht => hsame t (List.mem_append_right _ ht),
    hready.marked_congr fun t ht => hsame t (List.mem_append_left _ ht), hrest⟩
  rw [FileHeader.writeBack_eq hon, hnat]

/-- The directory is written, and then the free map. -/
theorem Ready.flushTrail (hready : Ready fs disk) {d : Directory}
    (hd : d.table.length = numDirEntries) {i : Nat} {g : DirectoryEntry → DirectoryEntry}
    (hi : i < numDirEntries) (hmodify : d.table = (directoryOf disk).table.modify i g)
    {b : Bitmap} (hb : b.numBits = numDiskSectors) (fresh fresh' : Nat → Buffer) :
    ∃ seen₁ disk₁ seen₂ disk₂,
      d.writeBackTrail fs.directoryFile fresh disk = some seen₁ ∧
      d.writeBack fs.directoryFile fresh disk = some disk₁ ∧
      b.writeBackTrail fs.freeMapFile fresh' disk₁ = some seen₂ ∧
      b.writeBack fs.freeMapFile fresh' disk₁ = some disk₂ ∧
      seen₂.getLastD (seen₁.getLastD disk) = disk₂ ∧
      (∀ x ∈ seen₁, (∀ s, Marked x s ↔ Marked disk s) ∧
        (directoryOf x = directoryOf disk ∨ ∃ c, 8 ≤ c ∧
          (directoryOf x).table = (directoryOf disk).table.modify i fun e => e.torn (g e) c)) ∧
      (∀ x ∈ seen₂, directoryOf x = d ∧ ∀ s, Marked x s ↔ s ∈ b.bits) ∧
      ∀ x ∈ seen₁ ++ seen₂, ∀ t ∉ FileHeader.sectors (disk freeMapSector),
        t ∉ FileHeader.sectors (disk directorySector) → x t = disk t := by
  obtain ⟨disk₁, hwrite₁, hready₁, hdirectory₁, -, hrest₁⟩ := hready.writeDirectory hd fresh
  obtain ⟨seen₁, hseen₁, hlast₁, hon₁⟩ :=
    hready.directoryTrail hd hi hmodify fresh hwrite₁ hdirectory₁ hrest₁
  obtain ⟨disk₂, hwrite₂, -, -, hmarked₂, hrest₂⟩ := hready₁.writeMap hb fresh'
  obtain ⟨seen₂, hseen₂, hlast₂, hon₂⟩ := hready₁.mapTrail fresh' hwrite₂ hrest₂
  have hmap₁ := hrest₁ _ (hready.notMem_directory List.mem_cons_self)
  refine ⟨seen₁, disk₁, seen₂, disk₂, hseen₁, hwrite₁, hseen₂, hwrite₂, ?_, fun x hx => ?_,
    fun x hx => ?_, fun x hx t ht0 ht1 => ?_⟩
  · rw [hlast₁, hlast₂]
  · obtain ⟨htorn, hrest⟩ := hon₁ x hx
    exact ⟨hready.marked_congr fun t ht => hrest t (hready.notMem_directory ht), htorn⟩
  · obtain ⟨hmarked, hrest⟩ := hon₂ x hx
    refine ⟨?_, fun s => (hmarked s).trans (hmarked₂ s)⟩
    exact (hready₁.directoryOf_congr fun t ht => hrest t (hready₁.notMem_map ht)).trans hdirectory₁
  · rcases List.mem_append.mp hx with hx | hx
    · exact (hon₁ x hx).2 t ht1
    · have hout : t ∉ FileHeader.sectors (disk₁ freeMapSector) := by
        rw [hmap₁]
        exact ht0
      exact ((hon₂ x hx).2 t hout).trans (hrest₁ t ht1)

/-- The disks that `Create` goes through. -/
theorem create_trail (h : Consistent disk) (hopened : Opened fs disk) (fresh : Nat → Buffer)
    (name : Buffer) {initialSize : BitVec 32} (hsize : 0 ≤ initialSize.toInt)
    (hdirect : FileHeader.sectorsFor initialSize ≤ numDirect) {disk' : DiskImage} {success : Bool}
    (hcreate : fs.create fresh disk name initialSize = some (disk', success)) :
    ∃ seen, fs.createTrail fresh disk name initialSize = some seen ∧ seen.getLastD disk = disk' ∧
      ∀ d ∈ seen, Creating disk initialSize d ∧
        ∀ f ∈ files disk, FileUnchanged disk d f.sector.toNat := by
  rw [create_eq_createThen] at hcreate
  rcases createThen_cases h hopened fresh name hsize hdirect with
    ⟨-, hrefused⟩ | ⟨-, sector, hdr, d, b, hnew, hgo⟩
  · rw [hrefused] at hcreate
    exact ⟨[], hrefused _ _, congrArg Prod.fst (Option.some.inj hcreate), nofun⟩
  obtain ⟨-, -, -, hlen, -⟩ := hnew.entry
  obtain ⟨i, hi, hunused, hmodify⟩ := Directory.add_modify hnew.added
  have hi' : i < numDirEntries := by
    rwa [directoryOf, Directory.length_ofMemory] at hi
  obtain ⟨disk₁, hwrite₁, hheader₁, hready₁, hdir₁, hdirectory₁, hmarked₁, hrest₁⟩ :=
    hnew.writeHeader h hopened
  rw [← hdirectory₁] at hmodify
  obtain ⟨seen₂, disk₂, seen₃, disk₃, hseen₂, hwrite₂, hseen₃, hwrite₃, hlast, hon₂, hon₃, hkeep⟩ :=
    hready₁.flushTrail hlen hi' hmodify hnew.numBits (fun i => fresh (4 + i)) fun i => fresh (7 + i)
  rw [hready₁.opened.freeMapFile.symm.trans hopened.freeMapFile, hdir₁] at hkeep
  rw [hgo, hwrite₁] at hcreate
  dsimp only [Option.bind_eq_bind, Option.bind_some] at hcreate
  rw [hwrite₂, Option.bind_some, hwrite₃] at hcreate
  obtain rfl : disk₃ = disk' := congrArg Prod.fst (Option.some.inj hcreate)
  refine ⟨disk₁ :: (seen₂ ++ seen₃), ?_, ?_, fun x hx => ?_⟩
  · rw [createTrail, hgo, hwrite₁]
    dsimp only [Option.bind_eq_bind, Option.bind_some]
    rw [hseen₂, Option.bind_some, hwrite₂, Option.bind_some, hseen₃]
    rfl
  · rw [List.getLastD_cons, getLastD_append, hlast]
  -- once the header is written, only the files of the system change
  have hkeep' : ∀ t ∉ FileHeader.sectors (disk freeMapSector),
      t ∉ FileHeader.sectors (disk directorySector) → x t = disk₁ t := by
    rcases List.mem_cons.mp hx with rfl | hx
    · exact fun t _ _ => rfl
    · exact hkeep x hx
  have hframe : ∀ t ≠ sector, t ∉ FileHeader.sectors (disk freeMapSector) →
      t ∉ FileHeader.sectors (disk directorySector) → x t = disk t := fun t ht ht0 ht1 =>
    (hkeep' t ht0 ht1).trans (hrest₁ t ht)
  have hheader : x sector = hdr := by
    have hsystem := hnew.notMem_system h
    refine (hkeep' sector (fun hs => hsystem ?_) fun hs => hsystem ?_).trans hheader₁
    · exact List.mem_append_left _ (List.mem_cons_of_mem _ hs)
    · exact List.mem_append_right _ (List.mem_cons_of_mem _ hs)
  refine ⟨?_, hnew.unchanged h hframe⟩
  rw [hdirectory₁] at hon₂
  rcases List.mem_cons.mp hx with rfl | hx
  · exact hnew.creating_torn h hopened hframe hheader hi hunused hmarked₁ (.inl hdirectory₁)
  rcases List.mem_append.mp hx with hx | hx
  · obtain ⟨hmarked, htorn⟩ := hon₂ x hx
    exact hnew.creating_torn h hopened hframe hheader hi hunused
      (fun s => (hmarked s).trans (hmarked₁ s)) htorn
  · obtain ⟨hdirectory, hmarked⟩ := hon₃ x hx
    exact hnew.creating_listed h hopened hframe hheader hdirectory hmarked

/-- On the way of the directory into its file. -/
theorem OldFile.removing {disk' : DiskImage} {name : Buffer} {e : DirectoryEntry} {b : Bitmap}
    {d : Directory} (hold : OldFile disk name e b d) (h : Consistent disk)
    (hopened : Opened fs disk) (hframe : ∀ t ∉ FileHeader.sectors (disk freeMapSector),
      t ∉ FileHeader.sectors (disk directorySector) → disk' t = disk t)
    {i : Nat} (hi : i < (directoryOf disk).table.length)
    (hused : (directoryOf disk).table[i].inUse = true)
    (hmodify : d.table = (directoryOf disk).table.modify i fun e => e.setInUse false)
    (hmarked : ∀ s, Marked disk' s ↔ s ∈ b.bits)
    (htorn : directoryOf disk' = directoryOf disk ∨ ∃ c, 8 ≤ c ∧ (directoryOf disk').table =
      (directoryOf disk).table.modify i fun e => e.torn (e.setInUse false) c) :
    Removing disk e disk' := by
  rcases htorn with hsame | ⟨c, hc, htable⟩
  · exact .inl ⟨hold.unprotected h hopened hframe hsame hmarked, congrArg Directory.files hsame⟩
  -- the entry that is not in use any more is that of the file
  have hentry : (directoryOf disk).table[i] = e := by
    have hperm : (files disk).Perm ((directoryOf disk).table[i] :: d.files) := by
      rw [files, Directory.files, Directory.files, hmodify]
      exact Directory.perm_filter_modify hi hused (DirectoryEntry.inUse_setInUse _ _)
    exact (Multiset.cons_inj_left (d.files : Multiset DirectoryEntry)).mp
      (Multiset.coe_eq_coe.mpr (hperm.symm.trans hold.perm))
  have hfiles : (files disk).Perm (e :: files disk') := by
    rw [files, files, Directory.files, Directory.files, htable, ← hentry]
    refine Directory.perm_filter_modify hi hused ?_
    rw [DirectoryEntry.inUse_torn hc, DirectoryEntry.inUse_setInUse]
  exact .inr ⟨OldFile.consistent h hframe hold hopened hfiles hmarked, hfiles⟩

/-- The disks that `Remove` goes through. -/
theorem remove_trail (h : Consistent disk) (hopened : Opened fs disk) (fresh : Nat → Buffer)
    (name : Buffer) {disk' : DiskImage} {success : Bool}
    (hremove : fs.remove fresh disk name = some (disk', success)) :
    ∃ seen, fs.removeTrail fresh disk name = some seen ∧ seen.getLastD disk = disk' ∧
      ∀ d ∈ seen, (∃ e ∈ files disk, e.Named name ∧ Removing disk e d) ∧
        ∀ f ∈ files disk, FileUnchanged disk d f.sector.toNat := by
  rw [remove_eq_removeThen] at hremove
  rcases removeThen_cases h hopened fresh name with
    ⟨-, hrefused⟩ | ⟨-, e, b, d, hold, hgo⟩
  · rw [hrefused] at hremove
    exact ⟨[], hrefused _ _, congrArg Prod.fst (Option.some.inj hremove), nofun⟩
  have hready := h.ready hopened
  obtain ⟨i, hi, hused, hmodify⟩ := Directory.remove_modify hold.removed
  have hi' : i < numDirEntries := by
    rwa [directoryOf, Directory.length_ofMemory] at hi
  -- the free map, and the directory
  obtain ⟨disk₁, hwrite₁, hready₁, hdirectory₁, hmarked₁, hrest₁⟩ :=
    hready.writeMap hold.numBits fun i => fresh (3 + i)
  obtain ⟨seen₁, hseen₁, hlast₁, hon₁⟩ := hready.mapTrail _ hwrite₁ hrest₁
  have hmodify₁ := hmodify
  rw [← hdirectory₁] at hmodify₁
  obtain ⟨disk₂, hwrite₂, -, hdirectory₂, -, hrest₂⟩ :=
    hready₁.writeDirectory hold.length fun i => fresh (6 + i)
  obtain ⟨seen₂, hseen₂, hlast₂, hon₂⟩ :=
    hready₁.directoryTrail hold.length hi' hmodify₁ _ hwrite₂ hdirectory₂ hrest₂
  have hdir₁ := hrest₁ _ (hready.notMem_map List.mem_cons_self)
  rw [hdirectory₁] at hon₂
  rw [hgo, hwrite₁] at hremove
  dsimp only [Option.bind_eq_bind, Option.bind_some] at hremove
  rw [hwrite₂] at hremove
  obtain rfl : disk₂ = disk' := congrArg Prod.fst (Option.some.inj hremove)
  refine ⟨seen₁ ++ seen₂, ?_, ?_, fun x hx => ?_⟩
  · rw [removeTrail, hgo, hseen₁]
    dsimp only [Option.bind_eq_bind, Option.bind_some]
    rw [hwrite₁, Option.bind_some, hseen₂]
    rfl
  · rw [getLastD_append, hlast₁, hlast₂]
  have hstate : (∀ t ∉ FileHeader.sectors (disk freeMapSector),
        t ∉ FileHeader.sectors (disk directorySector) → x t = disk t) ∧
      (∀ s, Marked x s ↔ s ∈ b.bits) ∧
      (directoryOf x = directoryOf disk ∨ ∃ c, 8 ≤ c ∧ (directoryOf x).table =
        (directoryOf disk).table.modify i fun e => e.torn (e.setInUse false) c) := by
    rcases List.mem_append.mp hx with hx | hx
    · obtain ⟨hmarked, hrest⟩ := hon₁ x hx
      refine ⟨fun t ht0 _ => hrest t ht0, fun s => (hmarked s).trans (hmarked₁ s), .inl ?_⟩
      exact hready.directoryOf_congr fun t ht => hrest t (hready.notMem_map ht)
    · obtain ⟨htorn, hrest⟩ := hon₂ x hx
      refine ⟨fun t ht0 ht1 => ?_, fun s => ?_, htorn⟩
      · have hout : t ∉ FileHeader.sectors (disk₁ directorySector) := by
          rw [hdir₁]
          exact ht1
        exact (hrest t hout).trans (hrest₁ t ht0)
      · rw [← hmarked₁]
        exact hready₁.marked_congr (fun t ht => hrest t (hready₁.notMem_directory ht)) s
  obtain ⟨hframe, hmarked, htorn⟩ := hstate
  exact ⟨⟨e, hold.perm.mem_iff.mpr List.mem_cons_self, hold.named,
    hold.removing h hopened hframe hi hused hmodify hmarked htorn⟩, h.files_kept hframe⟩

end DiskFileSystem

/-! ## Any call, after any sequence of calls -/

open DiskFileSystem

/-- Byte for byte, the array is the old one or the new one. -/
def FileArray.Between (old new mid : FileArray) : Prop :=
  mid.length = old.length ∧ ∀ k : Nat, mid[k]? = old[k]? ∨ mid[k]? = new[k]?

/-- There is a file of the name, with these bytes. -/
def DiskFileSystem.Holds (d : DiskImage) (key : NameKey) (bytes : FileArray) : Prop :=
  ∃ e ∈ files d, e.key = key ∧ fileArray d e.sector.toNat = bytes

/--
What is left on the disk `d` when a call is cut off, which would have made `disk` to a disk with the
files of `b` out of one with those of `a`.
-/
structure Contained (call : StoreCall) (disk d : DiskImage) (a b : FileStore) : Prop where
  sound : Consistent d ∨ ∃ e, Unprotected d e ∧ (e.key ∉ b.files ∨ e ∉ files disk)
  kept : ∀ key old new, a.files.lookup key = some old → b.files.lookup key = some new →
    ∃ mid, FileArray.Between old new mid ∧ Holds d key mid
  removed : ∀ key old, a.files.lookup key = some old → key ∉ b.files →
    Holds d key old ∨ key ∉ filesByName d
  added : ∀ e ∈ files d, e ∈ files disk ∨ ∃ fresh name initialSize,
    call = .create fresh name initialSize ∧ ¬ Marked disk e.sector.toNat ∧
      FileHeader.fileLength (d e.sector.toNat) = initialSize

namespace DiskSession

variable {s : DiskSession} {a b : FileStore}

/-- A file of the store has an entry. -/
theorem Represents.exists_of_lookup (h : s.Represents a) {key : NameKey} {bytes : FileArray}
    (hlookup : a.files.lookup key = some bytes) :
    ∃ e ∈ DiskFileSystem.files s.disk, e.key = key ∧ fileArray s.disk e.sector.toNat = bytes := by
  have hmem := Finmap.mem_of_lookup_eq_some hlookup
  rw [h.files] at hmem
  obtain ⟨e, he, hkey⟩ := mem_toFinmap.mp hmem
  have hbytes := h.lookup_key he
  rw [hkey] at hbytes
  exact ⟨e, he, hkey, Option.some.inj (hbytes.symm.trans hlookup)⟩

/-- A `Create` that is cut off. -/
theorem Represents.creating (h : s.Represents a) {d : DiskImage} {fresh : Nat → Buffer}
    {name : Buffer} {initialSize : BitVec 32} (hcreating : Creating s.disk initialSize d)
    (hothers : ∀ f ∈ DiskFileSystem.files s.disk, FileUnchanged s.disk d f.sector.toNat) :
    Contained (.create fresh name initialSize) s.disk d a b := by
  have hsub : ∀ f ∈ DiskFileSystem.files s.disk, f ∈ DiskFileSystem.files d := by
    rcases hcreating with ⟨-, hfiles⟩ | ⟨e, hadded, -⟩
    · exact fun f hf => hfiles ▸ hf
    · exact fun f hf => hadded.files.mem_iff.mpr (List.mem_cons_of_mem _ hf)
  have hholds : ∀ key old, a.files.lookup key = some old → Holds d key old := by
    intro key old hlookup
    obtain ⟨f, hf, hkey, hbytes⟩ := h.exists_of_lookup hlookup
    exact ⟨f, hsub f hf, hkey, (hothers f hf).fileArray_eq.trans hbytes⟩
  refine ⟨?_, fun key old new hold _ => ⟨old, ⟨rfl, fun _ => .inl rfl⟩, hholds key old hold⟩,
    fun key old hold _ => .inl (hholds key old hold), fun e he => ?_⟩
  · rcases hcreating with ⟨hconsistent, -⟩ | ⟨e, hadded, hconsistent | hunprotected⟩
    · exact .inl hconsistent
    · exact .inl hconsistent
    · exact .inr ⟨e, hunprotected, .inr fun he =>
        hadded.fresh (h.consistent.marked_of_mem he List.mem_cons_self)⟩
  · rcases hcreating with ⟨-, hfiles⟩ | ⟨e', hadded, -⟩
    · exact .inl (hfiles ▸ he)
    · rcases List.mem_cons.mp (hadded.files.mem_iff.mp he) with rfl | hold
      · exact .inr ⟨fresh, name, initialSize, rfl, hadded.fresh, hadded.length⟩
      · exact .inl hold

/-- A `Remove` that is cut off. -/
theorem Represents.removing (h : s.Represents a) {d : DiskImage} {fresh : Nat → Buffer}
    {name : Buffer} {e : DirectoryEntry} (he : e ∈ DiskFileSystem.files s.disk)
    (hremoving : Removing s.disk e d) (hfiles : b.files = a.files.erase e.key)
    (hothers : ∀ f ∈ DiskFileSystem.files s.disk, FileUnchanged s.disk d f.sector.toNat) :
    Contained (.remove fresh name) s.disk d a b := by
  have hgone : e.key ∉ b.files := by
    rw [hfiles]
    exact Finmap.notMem_erase_self
  have hholds : ∀ key old, a.files.lookup key = some old → key ≠ e.key → Holds d key old := by
    intro key old hlookup hne
    obtain ⟨f, hf, rfl, hbytes⟩ := h.exists_of_lookup hlookup
    refine ⟨f, ?_, rfl, (hothers f hf).fileArray_eq.trans hbytes⟩
    rcases hremoving with ⟨-, hsame⟩ | ⟨-, hperm⟩
    · exact hsame ▸ hf
    · rcases List.mem_cons.mp (hperm.mem_iff.mp hf) with rfl | hrest
      · exact absurd rfl hne
      · exact hrest
  refine ⟨?_, fun key old new hold hnew => ⟨old, ⟨rfl, fun _ => .inl rfl⟩, hholds key old hold ?_⟩,
    fun key old hold hout => ?_, fun f hf => .inl ?_⟩
  · rcases hremoving with ⟨hunprotected, -⟩ | ⟨hconsistent, -⟩
    · exact .inr ⟨e, hunprotected, .inl hgone⟩
    · exact .inl hconsistent
  · rintro rfl
    exact hgone (Finmap.mem_of_lookup_eq_some hnew)
  · by_cases hne : key ≠ e.key
    · exact .inl (hholds key old hold hne)
    · obtain rfl := not_not.mp hne
      rcases hremoving with ⟨-, hsame⟩ | ⟨-, hperm⟩
      · refine .inl ⟨e, hsame ▸ he, rfl, (hothers e he).fileArray_eq.trans ?_⟩
        exact Option.some.inj ((h.lookup_key he).symm.trans hold)
      · refine .inr fun hmem => ?_
        obtain ⟨f, hf, hkey⟩ := mem_toFinmap.mp hmem
        have hdistinct := (hperm.map DirectoryEntry.key).nodup_iff.mp h.tidy.distinct
        exact (List.nodup_cons.mp hdistinct).1 (hkey ▸ List.mem_map_of_mem hf)
  · rcases hremoving with ⟨-, hsame⟩ | ⟨-, hperm⟩
    · exact hsame ▸ hf
    · exact hperm.mem_iff.mpr (List.mem_cons_of_mem _ hf)

/-- A write that is cut off. -/
theorem Represents.writing (h : s.Represents a) {t : DiskSession} (ht : t.Represents b)
    {e : DirectoryEntry} (he : e ∈ DiskFileSystem.files s.disk)
    (hrest : ∀ x ∉ FileHeader.sectors (s.disk e.sector.toNat), t.disk x = s.disk x) {d : DiskImage}
    (htorn : DiskFile.Torn (s.disk e.sector.toNat) s.disk t.disk d) (call : StoreCall) :
    Contained call s.disk d a b := by
  obtain ⟨hconsistent, -, hdirectory, -, hheaders, hothers⟩ :=
    h.consistent.written h.opened he htorn.frame
  obtain ⟨-, -, hdirectory', -, hheaders', -⟩ := h.consistent.written h.opened he hrest
  have hfiles : DiskFileSystem.files d = DiskFileSystem.files s.disk :=
    congrArg Directory.files hdirectory
  have hfiles' : DiskFileSystem.files t.disk = DiskFileSystem.files s.disk :=
    congrArg Directory.files hdirectory'
  have hnew {f : DirectoryEntry} (hf : f ∈ DiskFileSystem.files s.disk) :
      b.files.lookup f.key = some (fileArray t.disk f.sector.toNat) :=
    ht.lookup_key (hfiles' ▸ hf)
  refine ⟨.inl hconsistent, fun key old new hold hnew' => ?_, fun key old hold hout => ?_,
    fun f hf => .inl (hfiles ▸ hf)⟩
  · obtain ⟨f, hf, rfl, rfl⟩ := h.exists_of_lookup hold
    obtain rfl := Option.some.inj ((hnew hf).symm.trans hnew')
    refine ⟨fileArray d f.sector.toNat, ⟨?_, fun k => ?_⟩, f, hfiles ▸ hf, rfl, rfl⟩
    · rw [fileArray, fileArray, DiskFile.length_contents, DiskFile.length_contents, hheaders f hf]
    · by_cases hfe : f = e
      · rw [hfe, fileArray, fileArray, fileArray, hheaders e he, hheaders' e he]
        exact htorn.getElem?_contents k
      · rw [(hothers f hf hfe).fileArray_eq]
        exact .inl rfl
  · obtain ⟨f, hf, rfl, -⟩ := h.exists_of_lookup hold
    exact absurd (Finmap.mem_of_lookup_eq_some (hnew hf)) hout

/-- What a call does to the disk. -/
theorem step_request_disk {t : DiskSession} {id : Nat} {r : FileRequest} {reply : StoreReply}
    {o : DiskOpenFile} (ho : s.object id = some o) (h : s.step (.request id r) = some (t, reply)) :
    ∃ reply', o.file.step s.disk (r.transfer o.seekPosition) = some (t.disk, reply') := by
  rw [step, ho] at h
  dsimp only [Option.bind_eq_bind, Option.bind_some, DiskOpenFile.request] at h
  cases hgo : o.file.step s.disk (r.transfer o.seekPosition) with
  | none =>
    rw [hgo] at h
    cases h
  | some result =>
    rw [hgo] at h
    obtain rfl := congrArg Prod.fst (Option.some.inj h)
    exact ⟨result.2, rfl⟩

/-- The calls that only read. -/
def Quiet : StoreCall → Prop
  | .openFile .. | .close _ | .seek .. | .length _ => True
  | .create .. | .remove .. | .request .. => False

/-- They leave the disk alone. -/
theorem step_quiet {t : DiskSession} {call : StoreCall} {reply : StoreReply} (hquiet : Quiet call)
    (h : s.step call = some (t, reply)) : s.trail call = some [] ∧ t.disk = s.disk := by
  cases call with
  | create | remove | request => exact absurd hquiet not_false
  | openFile fresh name =>
    refine ⟨rfl, ?_⟩
    rw [step] at h
    cases hopen : s.fs.openFile fresh s.disk name with
    | none =>
      rw [hopen] at h
      cases h
    | some file =>
      rw [hopen] at h
      cases file with
      | none => exact congrArg (fun r => r.1.disk) (Option.some.inj h).symm
      | some file => exact congrArg (fun r => r.1.disk) (Option.some.inj h).symm
  | close id | seek id position | length id =>
    refine ⟨rfl, ?_⟩
    rw [step] at h
    cases ho : s.object id with
    | none =>
      rw [ho] at h
      cases h
    | some o =>
      rw [ho] at h
      exact congrArg (fun r => r.1.disk) (Option.some.inj h).symm

/-- A call that is cut off. -/
theorem Represents.contained (h : s.Represents a) {call : StoreCall} (hcall : a.Permits call) :
    ∃ t reply c seen, s.step call = some (t, reply) ∧ FileStore.Step numDirEntries a call reply c ∧
      t.Represents c ∧ s.trail call = some seen ∧ seen.getLastD s.disk = t.disk ∧
      ∀ d ∈ seen, Contained call s.disk d a c := by
  obtain ⟨t, reply, c, hgo, hstep, hrep⟩ := h.step hcall
  have hquiet (hq : Quiet call) : ∃ seen, s.trail call = some seen ∧
      seen.getLastD s.disk = t.disk ∧ ∀ d ∈ seen, Contained call s.disk d a c := by
    obtain ⟨htrail, hdisk⟩ := step_quiet hq hgo
    exact ⟨[], htrail, hdisk.symm, nofun⟩
  suffices hsuff : ∃ seen, s.trail call = some seen ∧ seen.getLastD s.disk = t.disk ∧
      ∀ d ∈ seen, Contained call s.disk d a c by
    obtain ⟨seen, hseen⟩ := hsuff
    exact ⟨t, reply, c, seen, hgo, hstep, hrep, hseen⟩
  cases call with
  | openFile | close | seek | length => exact hquiet trivial
  | create fresh name size =>
    rw [DiskSession.step] at hgo
    cases hcreate : s.fs.create fresh s.disk name size with
    | none =>
      rw [hcreate] at hgo
      cases hgo
    | some result =>
      rw [hcreate] at hgo
      obtain rfl := (Prod.ext_iff.mp (Option.some.inj hgo)).1
      obtain ⟨seen, hseen, hlast, htrail⟩ :=
        create_trail h.consistent h.opened fresh name hcall.1 hcall.2 hcreate
      exact ⟨seen, hseen, hlast, fun d hd => h.creating (htrail d hd).1 (htrail d hd).2⟩
  | remove fresh name =>
    rw [DiskSession.step] at hgo
    cases hremove : s.fs.remove fresh s.disk name with
    | none =>
      rw [hremove] at hgo
      cases hgo
    | some result =>
      rw [hremove] at hgo
      obtain rfl := (Prod.ext_iff.mp (Option.some.inj hgo)).1
      obtain ⟨seen, hseen, hlast, htrail⟩ :=
        remove_trail h.consistent h.opened fresh name hremove
      refine ⟨seen, hseen, hlast, fun d hd => ?_⟩
      obtain ⟨⟨e, he, hnamed, hremoving⟩, hothers⟩ := htrail d hd
      have hkey : e.key = nameKey name := Directory.named_iff.mp hnamed
      refine h.removing he hremoving ?_ hothers
      rw [hkey]
      cases hstep with
      | remove => rfl
      | removeRefused habsent =>
        refine absurd (Finmap.mem_of_lookup_eq_some (h.lookup_key he)) ?_
        rw [hkey]
        exact habsent
  | request id r =>
    obtain ⟨cursor, key, hc, hfile, hrange⟩ := hcall
    obtain ⟨o, ho, hserves⟩ := object_of_cursor h hc
    obtain ⟨e, he, -, hhdr⟩ := hserves.file key hfile
    obtain ⟨reply', hwrite⟩ := step_request_disk ho hgo
    have hnodup := h.consistent.nodup_fileSectors he
    have hdisk : ∀ x ∈ FileHeader.sectors (s.disk e.sector.toNat), x < numDiskSectors :=
      fun x hx => (h.consistent.marked_of_mem he (List.mem_cons_of_mem _ hx)).1
    rw [DiskSession.trail, ho]
    dsimp only [Option.bind_eq_bind, Option.bind_some]
    rw [← hserves.position] at hrange
    generalize r.transfer o.seekPosition = transfer at hwrite hrange
    have hrefines := DiskFile.step_refines (f := o.file) s.disk
    rw [hhdr] at hrefines
    obtain ⟨disk', hwrite', -, hrest⟩ :=
      hrefines (h.consistent.headers e he) hdisk (List.nodup_cons.mp hnodup).2 hrange
    obtain rfl : disk' = t.disk :=
      congrArg Prod.fst (Option.some.inj (hwrite'.symm.trans hwrite))
    cases transfer with
    | readAt =>
      obtain ⟨_, -, heq⟩ := Option.map_eq_some_iff.mp hwrite
      exact ⟨[], rfl, congrArg Prod.fst heq, nofun⟩
    | writeAt fresh data numBytes position =>
      have htrail := @DiskFile.writeAtIntTrail_eq o.file s.disk
      rw [hhdr] at htrail
      obtain ⟨result, hgo', heq⟩ := Option.map_eq_some_iff.mp hwrite
      have hfst : result.1 = t.disk := congrArg Prod.fst heq
      have hresult : result = (t.disk, result.2) := Prod.ext hfst rfl
      obtain ⟨seen, hseen, hlast, htorn⟩ := htrail (h.consistent.headers e he) hdisk
        (List.nodup_cons.mp hnodup).2 fresh data hrange.1 hrange.2
        (hgo'.trans (congrArg some hresult))
      exact ⟨seen, hseen, hlast, fun d hd => h.writing hrep he hrest (htorn d hd) _⟩

end DiskSession

/--
**A call that is cut off damages no other file.**

After any sequence of calls, the next one is cut off behind any of the sectors that it writes. Then
the disk is consistent, or it is but for one file whose sectors are free in the free map, and that
is the file being created or removed. No sector that is marked is lost, and no sector belongs to two
files. Every file is still there under its name, with all of its bytes: a file that was being
written has for each byte the old one or the new one, and one that was being removed may be gone.
There is no other file but the new one, which has its header already.
-/
theorem powerCut_contained {s : DiskSession} {a : FileStore} (h : s.Represents a)
    {calls : List StoreCall}
    (hcalls : Admitted (FileStore.Step numDirEntries) FileStore.Permits a calls) :
    ∃ u replies b, runReplies DiskSession.step s calls = some (u, replies) ∧
      Runs (FileStore.Step numDirEntries) a calls replies b ∧
      ∀ call, b.Permits call → ∃ t reply c seen, u.step call = some (t, reply) ∧
        FileStore.Step numDirEntries b call reply c ∧ u.trail call = some seen ∧
        seen.getLastD u.disk = t.disk ∧ ∀ d ∈ seen, Contained call u.disk d b c := by
  have hstep : ∀ (s : DiskSession) (a : FileStore) call, s.Represents a → a.Permits call →
      ∃ t reply b, s.step call = some (t, reply) ∧ FileStore.Step numDirEntries a call reply b ∧
        t.Represents b := fun _ _ _ hrep hcall => hrep.step hcall
  obtain ⟨u, replies, b, hrun, hruns, hrep⟩ := runReplies_runs hstep h hcalls
  refine ⟨u, replies, b, hrun, hruns, fun call hcall => ?_⟩
  obtain ⟨t, reply, c, seen, hgo, hstep, -, htrail, hlast, hseen⟩ := hrep.contained hcall
  exact ⟨t, reply, c, seen, hgo, hstep, htrail, hlast, hseen⟩

/-- A file is created, and its removal is cut off. -/
theorem powerCut_contained_remove :
    ∃ u replies b t reply c seen,
      runReplies DiskSession.step emptySession [.create (fun _ _ => 0) nameA 300] =
        some (u, replies) ∧
      Runs (FileStore.Step numDirEntries) ⟨∅, 1019, []⟩ [.create (fun _ _ => 0) nameA 300]
        replies b ∧
      u.step (.remove (fun _ _ => 0) nameA) = some (t, reply) ∧
      u.trail (.remove (fun _ _ => 0) nameA) = some seen ∧ seen.getLastD u.disk = t.disk ∧
      ∀ d ∈ seen, Contained (.remove (fun _ _ => 0) nameA) u.disk d b c := by
  have hcalls : Admitted (FileStore.Step numDirEntries) FileStore.Permits ⟨∅, 1019, []⟩
      [.create (fun _ _ => 0) nameA 300] := ⟨⟨by decide, by decide⟩, fun _ _ _ => trivial⟩
  obtain ⟨u, replies, b, hrun, hruns, hnext⟩ := powerCut_contained represents_emptySession hcalls
  obtain ⟨t, reply, c, seen, hgo, -, htrail, hlast, hseen⟩ :=
    hnext (.remove (fun _ _ => 0) nameA) trivial
  exact ⟨u, replies, b, t, reply, c, seen, hrun, hruns, hgo, htrail, hlast, hseen⟩

end Nachos
