import Nachos.Base.CString
import Nachos.Filesys.DiskFile
import Mathlib.Data.List.Perm.Basic

/-!
# Directories (`filesys/directory.cc`)

A directory is a table of entries, kept as the bytes that it has in memory and in its file. What
counts are its `files`: the entries in use.

* `Directory.find_eq` — looking up a name, and removing it
* `Directory.add_eq` — adding a name
* `Directory.fetchFrom_eq`, `Directory.writeBack_eq` — the table in its file
-/

namespace Nachos

open Base

/-- `FileNameMaxLen`. -/
def fileNameMaxLen : Nat := 9

/-- `sizeof(DirectoryEntry)`, with what fills it up to whole words. -/
def entrySize : Nat := 20

/-- The class `DirectoryEntry`: `inUse` lies at index 0, `sector` at 4 and `name` at 8. -/
abbrev DirectoryEntry := Bytes entrySize

namespace DirectoryEntry

def inUse (e : DirectoryEntry) : Bool := e.view 0 != 0

def sector (e : DirectoryEntry) : BitVec 32 := wordAt e.view 4

def name (e : DirectoryEntry) : Buffer := fun k => e.view (8 + k)

def setInUse (e : DirectoryEntry) (inUse : Bool) : DirectoryEntry :=
  Bytes.ofBuffer (Function.update e.view 0 (if inUse then 1 else 0)) 0

/-- `strncpy(name, newName, FileNameMaxLen)`. -/
def setName (e : DirectoryEntry) (newName : Buffer) : DirectoryEntry :=
  Bytes.ofBuffer (strncpy e.view 8 newName fileNameMaxLen) 0

def setSector (e : DirectoryEntry) (sector : BitVec 32) : DirectoryEntry :=
  Bytes.ofBuffer (putWord e.view 4 sector) 0

/-- The test of `FindIndex` on the name. -/
def Named (e : DirectoryEntry) (wanted : Buffer) : Prop :=
  strncmp (name e) wanted fileNameMaxLen = 0

instance (e : DirectoryEntry) (wanted : Buffer) : Decidable (Named e wanted) :=
  inferInstanceAs (Decidable (_ = _))

end DirectoryEntry

/-- The class `Directory`; `tableSize` is the length of `table`. -/
structure Directory where
  table : List DirectoryEntry

namespace Directory

/-- The table as bytes. -/
def memory (d : Directory) : Buffer := fun k =>
  Bytes.view (d.table.getD (k / entrySize) fun _ => 0) (k % entrySize)

/-- The table of `size` entries in a buffer. -/
def ofMemory (buf : Buffer) (size : Nat) : Directory where
  table := (List.range size).map fun i => Bytes.ofBuffer buf (i * entrySize)

/-- `Directory::Directory`; `fresh` is the memory that `new` finds for the table. -/
def new (fresh : Buffer) (size : Nat) : Directory where
  table := (ofMemory fresh size).table.map fun e => e.setInUse false

/-- `Directory::FetchFrom`. -/
def fetchFrom (d : Directory) (file : DiskFile) (fresh : Buffer) (disk : DiskImage) :
    Option Directory := do
  let (buf, _) ← file.readAt fresh disk d.memory 0 (d.table.length * entrySize) 0
  return ofMemory buf d.table.length

/-- `Directory::WriteBack`. -/
def writeBack (d : Directory) (file : DiskFile) (fresh : Nat → Buffer) (disk : DiskImage) :
    Option DiskImage := do
  let (disk, _) ← file.writeAt fresh disk d.memory (d.table.length * entrySize) 0
  return disk

/-- `Directory::FindIndex`, with `none` for -1. -/
def findIndex (d : Directory) (name : Buffer) : Option Nat :=
  d.table.findIdx? fun e => e.inUse && decide (e.Named name)

/-- `Directory::Find`. -/
def find (d : Directory) (name : Buffer) : BitVec 32 :=
  match d.findIndex name with
  | none => -1
  | some i => DirectoryEntry.sector (d.table.getD i fun _ => 0)

/-- `Directory::Add`. -/
def add (d : Directory) (name : Buffer) (newSector : BitVec 32) : Directory × Bool :=
  if (d.findIndex name).isSome then (d, false)
  else
    match d.table.findIdx? fun e => !e.inUse with
    | none => (d, false)
    | some i =>
      ({ table := d.table.modify i fun e => ((e.setInUse true).setName name).setSector newSector },
        true)

/-- `Directory::Remove`. -/
def remove (d : Directory) (name : Buffer) : Directory × Bool :=
  match d.findIndex name with
  | none => (d, false)
  | some i => ({ table := d.table.modify i fun e => e.setInUse false }, true)

/-- The entries in use. -/
def files (d : Directory) : List DirectoryEntry := d.table.filter fun e => e.inUse

end Directory

/-! ## The fields of an entry -/

namespace DirectoryEntry

theorem inUse_setInUse (e : DirectoryEntry) (b : Bool) : (e.setInUse b).inUse = b := by
  rw [inUse, setInUse, Bytes.view_ofBuffer (by decide), Nat.zero_add, Function.update_self]
  cases b <;> rfl

theorem inUse_setName (e : DirectoryEntry) (newName : Buffer) :
    (e.setName newName).inUse = e.inUse := by
  rw [inUse, setName, Bytes.view_ofBuffer (by decide), Nat.zero_add, strncpy_of_lt (by decide)]
  rfl

theorem inUse_setSector (e : DirectoryEntry) (x : BitVec 32) :
    (e.setSector x).inUse = e.inUse := by
  rw [inUse, setSector, Bytes.view_ofBuffer (by decide), Nat.zero_add, putWord_of_lt (by decide)]
  rfl

theorem sector_setSector (e : DirectoryEntry) (x : BitVec 32) : (e.setSector x).sector = x := by
  refine wordAt_eq fun j hj => ?_
  have hlt : 4 + j < entrySize := by
    unfold entrySize
    omega
  rw [setSector, Bytes.view_ofBuffer hlt, Nat.zero_add, putWord, if_pos (by omega),
    Nat.add_sub_cancel_left]

theorem named_setName (e : DirectoryEntry) (newName : Buffer) (x : BitVec 32) :
    ((e.setName newName).setSector x).Named newName := by
  refine strncmp_eq_zero fun l hl => ?_
  have hn : l < fileNameMaxLen := (lt_copied_iff.mp hl).1
  have hlt : 8 + l < entrySize := by
    unfold fileNameMaxLen at hn
    unfold entrySize
    omega
  rw [name, setSector, Bytes.view_ofBuffer hlt, Nat.zero_add, putWord_of_le (by omega), setName,
    Bytes.view_ofBuffer hlt, Nat.zero_add, strncpy_add hl]

end DirectoryEntry

namespace Directory

/-! ## The entries in use -/

section

variable {α : Type*} {p : α → Bool} {l : List α} {f : α → α} {i : Nat}

/-- An element that passes the filter only after the change. -/
theorem filter_modify_perm (hi : i < l.length) (hbefore : p l[i] = false)
    (hafter : p (f l[i]) = true) : ((l.modify i f).filter p).Perm (f l[i] :: l.filter p) := by
  have hl : l = l.take i ++ l[i] :: l.drop (i + 1) := by
    rw [← List.drop_eq_getElem_cons hi, List.take_append_drop]
  have hold : l.filter p = (l.take i).filter p ++ (l.drop (i + 1)).filter p := by
    conv_lhs => rw [hl]
    rw [List.filter_append, List.filter_cons_of_neg (by rw [hbefore]; decide)]
  rw [List.modify_eq_take_cons_drop hi, List.filter_append, List.filter_cons_of_pos hafter, hold]
  exact List.perm_middle

/-- An element that passes it only before. -/
theorem perm_filter_modify (hi : i < l.length) (hbefore : p l[i] = true)
    (hafter : p (f l[i]) = false) : (l.filter p).Perm (l[i] :: (l.modify i f).filter p) := by
  have hl : l = l.take i ++ l[i] :: l.drop (i + 1) := by
    rw [← List.drop_eq_getElem_cons hi, List.take_append_drop]
  have hold : l.filter p = (l.take i).filter p ++ l[i] :: (l.drop (i + 1)).filter p := by
    conv_lhs => rw [hl]
    rw [List.filter_append, List.filter_cons_of_pos hbefore]
  rw [List.modify_eq_take_cons_drop hi, List.filter_append,
    List.filter_cons_of_neg (by rw [hafter]; decide), hold]
  exact List.perm_middle

end

/-- A name that is found is that of a file, which `Remove` takes out of the table. -/
theorem find_eq (d : Directory) (name : Buffer) :
    (d.find name = -1 ∧ d.remove name = (d, false)) ∨
    ∃ d' e, d.find name = e.sector ∧ e.Named name ∧ d.remove name = (d', true) ∧
      d'.table.length = d.table.length ∧ d.files.Perm (e :: d'.files) := by
  unfold find remove
  cases hfind : d.findIndex name with
  | none => exact .inl ⟨rfl, rfl⟩
  | some i =>
    obtain ⟨hi, hmatch, -⟩ := List.findIdx?_eq_some_iff_getElem.mp hfind
    rw [Bool.and_eq_true, decide_eq_true_eq] at hmatch
    refine .inr ⟨_, d.table[i], ?_, hmatch.2, rfl, List.length_modify _ _ _, ?_⟩
    · exact congrArg DirectoryEntry.sector (List.getD_eq_getElem _ _ hi)
    · exact perm_filter_modify hi hmatch.1 (DirectoryEntry.inUse_setInUse _ _)

/-- `Add` fills an entry that is not in use, if it adds the name. -/
theorem add_eq (d : Directory) (name : Buffer) (newSector : BitVec 32) :
    d.add name newSector = (d, false) ∨
    ∃ d' e, d.add name newSector = (d', true) ∧ e.sector = newSector ∧ e.Named name ∧
      d'.table.length = d.table.length ∧ d'.files.Perm (e :: d.files) := by
  unfold add
  split
  next => exact .inl rfl
  next =>
    split
    next => exact .inl rfl
    next i hfree =>
      obtain ⟨hi, hunused, -⟩ := List.findIdx?_eq_some_iff_getElem.mp hfree
      rw [Bool.not_eq_true'] at hunused
      refine .inr ⟨_, ((d.table[i].setInUse true).setName name).setSector newSector, rfl,
        DirectoryEntry.sector_setSector _ _, DirectoryEntry.named_setName _ _ _,
        List.length_modify _ _ _, ?_⟩
      refine filter_modify_perm hi hunused ?_
      rw [DirectoryEntry.inUse_setSector, DirectoryEntry.inUse_setName,
        DirectoryEntry.inUse_setInUse]

/-! ## The table and its file -/

theorem length_ofMemory (buf : Buffer) (size : Nat) : (ofMemory buf size).table.length = size := by
  rw [ofMemory, List.length_map, List.length_range]

theorem length_new (fresh : Buffer) (size : Nat) : (new fresh size).table.length = size := by
  rw [new, List.length_map, length_ofMemory]

theorem ofMemory_congr {b c : Buffer} {size : Nat} (h : ∀ k < size * entrySize, b k = c k) :
    ofMemory b size = ofMemory c size := by
  unfold ofMemory
  refine congrArg Directory.mk (List.map_congr_left fun i hi => funext fun k => ?_)
  have hlt := Nat.mul_le_mul_right entrySize (Nat.succ_le_of_lt (List.mem_range.mp hi))
  rw [Nat.succ_mul] at hlt
  exact h _ (by omega)

/-- The bytes of a table are read back as the table. -/
theorem ofMemory_memory (d : Directory) : ofMemory d.memory d.table.length = d := by
  refine congrArg Directory.mk (List.ext_getElem ?_ fun i hi hi' => ?_)
  · rw [List.length_map, List.length_range]
  rw [List.getElem_map, List.getElem_range]
  refine Bytes.ofBuffer_eq fun k hk => ?_
  have hdiv : (i * entrySize + k) / entrySize = i := by
    unfold entrySize at hk ⊢
    omega
  have hmod : (i * entrySize + k) % entrySize = k := by
    unfold entrySize at hk ⊢
    omega
  rw [memory, hdiv, hmod, List.getD_eq_getElem _ _ hi']

variable (file : DiskFile) (disk : DiskImage) (d : Directory)

theorem fetchFrom_eq (hwf : file.hdr.WellFormed)
    (hdisk : ∀ s ∈ file.hdr.sectors, s < numDiskSectors) (fresh : Buffer)
    (hpos : 0 < d.table.length)
    (hlen : (d.table.length * entrySize : Nat) ≤ file.hdr.fileLength.toInt) :
    d.fetchFrom file fresh disk =
      some (ofMemory (DiskFile.fileByte file.hdr disk) d.table.length) := by
  have hpos' : 0 < d.table.length * entrySize := Nat.mul_pos hpos (by decide)
  obtain ⟨buf, hread, hbytes, -⟩ := DiskFile.readAt_eq disk hwf hdisk fresh d.memory 0
    _ 0 hpos' (by omega)
  rw [DiskFile.clipped_of_le (by omega)] at hread hbytes
  unfold fetchFrom
  rw [hread]
  refine congrArg some (ofMemory_congr fun k hk => ?_)
  have hbyte := hbytes k hk
  rwa [Nat.zero_add] at hbyte

theorem writeBack_eq (hwf : file.hdr.WellFormed)
    (hdisk : ∀ s ∈ file.hdr.sectors, s < numDiskSectors) (hnodup : file.hdr.sectors.Nodup)
    (fresh : Nat → Buffer) (hpos : 0 < d.table.length)
    (hlen : (d.table.length * entrySize : Nat) ≤ file.hdr.fileLength.toInt) :
    ∃ disk', d.writeBack file fresh disk = some disk' ∧
      ofMemory (DiskFile.fileByte file.hdr disk') d.table.length = d ∧
      ∀ s ∉ file.hdr.sectors, disk' s = disk s := by
  have hpos' : 0 < d.table.length * entrySize := Nat.mul_pos hpos (by decide)
  obtain ⟨disk', hwrite, hbytes, hframe⟩ := DiskFile.writeAt_eq disk hwf hdisk hnodup
    fresh d.memory _ 0 hpos' (by omega)
  rw [DiskFile.clipped_of_le (by omega)] at hwrite hbytes
  refine ⟨disk', ?_, ?_, hframe⟩
  · unfold writeBack
    rw [hwrite]
    rfl
  · refine Eq.trans (ofMemory_congr fun k hk => ?_) (ofMemory_memory d)
    rw [hbytes k (by omega), if_pos (by omega), Nat.sub_zero]

end Directory

end Nachos
