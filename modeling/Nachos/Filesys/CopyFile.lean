import Nachos.Base.Blocks
import Nachos.Filesys.DiskSession
import Nachos.Filesys.SharedFiles

/-!
# Copying a UNIX file to the disk, and printing a file (`threads/main.cc`)

`Copy` makes a file of the length of a UNIX file and writes that file into it, block by block.
`Print` reads a file block by block and prints what it has read.

* `DiskFileSystem.copy`, `DiskFileSystem.print` — the two functions
* `print_eq` — all of a file is printed
* `copy_then_print` — what has been copied is printed, and the other files are as they were
-/

namespace Nachos

open Base

/-- `TransferSize`. -/
def transferSize : Nat := 128

/-- `MaxFileSize`. -/
def maxDiskFileSize : Nat := numDirect * sectorSize

/-- `ReadPartial(fd, buffer, TransferSize)` of a UNIX file, with the bytes that are read. -/
def HostDescriptor.readBlock (files : HostFiles) (fd : HostDescriptor) :
    Option (List (BitVec 8) × HostDescriptor) :=
  let (fd, bytes, _) := fd.readPartial files transferSize
  some (bytes, fd)

/-- An open file in a loop; `rounds` numbers the memory that the calls get from `new`. -/
structure DiskBlocks where
  rounds : Nat
  disk : DiskImage
  openFile : DiskOpenFile

namespace DiskBlocks

/-- `openFile->Read(buffer, TransferSize)`, with the bytes that are read. -/
def readBlock (fresh : Nat → Nat → Buffer) (s : DiskBlocks) :
    Option (List (BitVec 8) × DiskBlocks) := do
  let request : FileRequest := .read (fresh s.rounds 0) (fresh s.rounds 1)
    (BitVec.ofNat 32 transferSize)
  let (disk, openFile, reply) ← s.openFile.request s.disk request
  match reply with
  | .read into amountRead =>
    return ((List.range amountRead.toInt.toNat).map into, ⟨s.rounds + 1, disk, openFile⟩)
  | .written _ => none

/-- `openFile->Write(buffer, amountRead)`. -/
def writeBlock (fresh : Nat → Nat → Buffer) (s : DiskBlocks) (bytes : List (BitVec 8)) :
    Option DiskBlocks := do
  let request : FileRequest := .write (fresh s.rounds) (fun k => bytes.getD k 0)
    (BitVec.ofNat 32 bytes.length)
  let (disk, openFile, _) ← s.openFile.request s.disk request
  return ⟨s.rounds + 1, disk, openFile⟩

end DiskBlocks

namespace DiskFileSystem

/--
`Copy`: the disk afterwards. The UNIX file is `fromFile`, or none if it cannot be opened.

`none` is the failed assertion, or a loop that does not end after `fuel` rounds.
-/
def copy (fs : DiskFileSystem) (fresh : Nat → Nat → Buffer) (files : HostFiles) (fuel : Nat)
    (disk : DiskImage) (fromFile : Option Ino) (toName : Buffer) : Option DiskImage :=
  match fromFile with
  | none => some disk
  | some ino => do
    let fd : HostDescriptor := { ino := ino, pos := 0 }
    let fd ← fd.lseek files 0 .seekEnd
    let (fd, fileLength) := fd.tell files
    let fd ← fd.lseek files 0 .seekSet
    let (disk, created) ← fs.create (fresh 0) disk toName (BitVec.ofInt 32 fileLength)
    if !created then return disk
    else
      match ← fs.openFile (fresh 1) disk toName with
      | none => none
      | some file =>
        let (_, s) ← blockLoop (HostDescriptor.readBlock files) (DiskBlocks.writeBlock fresh) fuel
          fd ⟨2, disk, ⟨file, 0⟩⟩
        return s.disk

/-- `Print`: the bytes printed, or `some none` if the file cannot be opened. -/
def print (fs : DiskFileSystem) (fresh : Nat → Nat → Buffer) (fuel : Nat) (disk : DiskImage)
    (name : Buffer) : Option (Option (List (BitVec 8))) := do
  match ← fs.openFile (fresh 0) disk name with
  | none => return none
  | some file =>
    let (_, printed) ← blockLoop (DiskBlocks.readBlock fresh) (fun out bytes => some (out ++ bytes))
      fuel ⟨1, disk, ⟨file, 0⟩⟩ []
    return some printed

end DiskFileSystem

/-! ## Blocks of an array -/

namespace FileArray

variable {a : FileArray}

theorem count_natCast (n p : Nat) : a.count n p = min n (a.length - p) := by
  unfold count
  omega

/-- The bytes that `ReadAt` puts into a buffer. -/
theorem map_readAt (into : Buffer) (n p : Nat) :
    (List.range (a.count n p)).map (a.readAt into 0 n p) = (a.drop p).take n := by
  rw [count_natCast]
  refine List.ext_getElem ?_ fun k hk hk' => ?_
  · rw [List.length_map, List.length_range, List.length_take, List.length_drop]
  · rw [List.length_map, List.length_range] at hk
    rw [List.getElem_map, List.getElem_range, List.getElem_take, List.getElem_drop, readAt,
      count_natCast, Int.toNat_natCast, bcopy_zero hk]
    exact List.getD_eq_getElem _ _ _

/-- What is left behind a block that has been read. -/
theorem drop_drop_min {n p : Nat} : (a.drop p).drop n = a.drop (p + min n (a.length - p)) := by
  rw [List.drop_drop]
  rcases Nat.le_total n (a.length - p) with hle | hle
  · rw [Nat.min_eq_left hle]
  · rw [Nat.min_eq_right hle, List.drop_of_length_le (by omega), List.drop_of_length_le (by omega)]

/-- A block in the middle is replaced. -/
theorem writeAt_append {out old rest block : FileArray} (h : old.length = block.length) :
    (out ++ old ++ rest).writeAt (fun k => block.getD k 0) block.length out.length =
      out ++ block ++ rest := by
  have hcount : (out ++ old ++ rest).count block.length out.length = block.length := by
    rw [count_natCast, List.length_append, List.length_append]
    omega
  refine List.ext_getElem ?_ fun k hk hk' => ?_
  · simp only [length_writeAt, List.length_append, h]
  · rw [length_writeAt] at hk
    rw [getElem_writeAt hk, hcount, Int.toNat_natCast]
    rcases Nat.lt_or_ge k out.length with hlt | hge
    · rw [if_neg (by omega), List.getElem_append_left (by rw [List.length_append]; omega),
        List.getElem_append_left hlt, List.getElem_append_left (by rw [List.length_append]; omega),
        List.getElem_append_left hlt]
    · rcases Nat.lt_or_ge k (out.length + block.length) with hin | hout
      · rw [if_pos (by omega), List.getElem_append_left (by rw [List.length_append]; omega),
          List.getElem_append_right hge]
        exact List.getD_eq_getElem _ _ _
      · rw [if_neg (by omega), List.getElem_append_right (by rw [List.length_append]; omega),
          List.getElem_append_right (by rw [List.length_append]; omega)]
        simp only [List.length_append, h]

end FileArray

/-! ## An open file in a loop -/

section

variable {fs : DiskFileSystem} {a : FileStore} {key : NameKey} {bytes : FileArray} {pos : Nat}
  {s : DiskBlocks}

namespace DiskBlocks

/--
The disk holds the files of the store, with `bytes` under the name `key`, and the open file stands
at the byte number `pos` of it.
-/
structure At (s : DiskBlocks) (fs : DiskFileSystem) (a : FileStore) (key : NameKey)
    (bytes : FileArray) (pos : Nat) : Prop where
  within : pos ≤ bytes.length
  represents : DiskSession.Represents ⟨fs, s.disk, [some s.openFile]⟩
    ⟨a.files.insert key bytes, a.room, [some ⟨some key, BitVec.ofNat 32 pos⟩]⟩

/-- A request through the open file. -/
theorem At.request (h : s.At fs a key bytes pos) {r : FileRequest}
    (hrange : (r.transfer (BitVec.ofNat 32 pos)).InRange) {bytes' : FileArray}
    {reply : TransferReply}
    (hstep : FileArray.step bytes (r.transfer (BitVec.ofNat 32 pos)) = (bytes', reply)) {next : Nat}
    (hnext : r.advance (BitVec.ofNat 32 pos) reply.result = BitVec.ofNat 32 next)
    (hwithin : next ≤ bytes'.length) (rounds : Nat) :
    ∃ disk openFile, s.openFile.request s.disk r = some (disk, openFile, reply) ∧
      DiskBlocks.At ⟨rounds, disk, openFile⟩ fs a key bytes' next := by
  let c : FileCursor := ⟨some key, BitVec.ofNat 32 pos⟩
  have hcursor : [some c][0]? = some (some c) := rfl
  obtain ⟨t, found, hlookup, hgo, hrep⟩ := h.represents.requested hcursor rfl hrange
  obtain rfl := Option.some.inj ((Finmap.lookup_insert _).symm.trans hlookup)
  obtain ⟨⟨disk, openFile, answer⟩, hrequest, hset⟩ := Option.bind_eq_some_iff.mp hgo
  rw [FileStore.requested, hstep] at hset hrep
  obtain ⟨rfl, hanswer⟩ := Prod.mk.inj (Option.some.inj hset)
  obtain rfl := StoreReply.transferred.inj hanswer
  refine ⟨disk, openFile, hrequest, hwithin, ?_⟩
  rw [← hnext]
  dsimp only at hrep
  rw [Finmap.insert_insert] at hrep
  exact hrep

/-- The object is deleted. -/
theorem At.close (h : s.At fs a key bytes pos) :
    DiskSession.Represents ⟨fs, s.disk, []⟩ ⟨a.files.insert key bytes, a.room, []⟩ :=
  { h.represents with cursors := .nil }

/-- Positions and lengths of blocks are small. -/
theorem toInt_position (h : pos ≤ maxDiskFileSize) : (BitVec.ofNat 32 pos).toInt = pos := by
  refine DiskFile.toInt_ofNat_of_lt ?_
  have hmax : maxDiskFileSize = 3840 := rfl
  omega

theorem inRange_of_le {n : Nat} (hpos : pos ≤ maxDiskFileSize) (hn : n ≤ maxDiskFileSize) :
    0 ≤ (BitVec.ofNat 32 pos).toInt ∧
      (BitVec.ofNat 32 pos).toInt + (BitVec.ofNat 32 n).toInt < 2 ^ 31 := by
  rw [toInt_position hpos, toInt_position hn]
  have hmax : maxDiskFileSize = 3840 := rfl
  omega

/-- A block is read. -/
theorem At.readBlock (h : s.At fs a key bytes pos) (hlength : bytes.length ≤ maxDiskFileSize)
    (fresh : Nat → Nat → Buffer) :
    ∃ t, s.readBlock fresh = some ((bytes.drop pos).take transferSize, t) ∧
      DiskBlocks.At t fs a key bytes (pos + min transferSize (bytes.length - pos)) := by
  have hpos := h.within.trans hlength
  have hsize : transferSize ≤ maxDiskFileSize := by decide
  let into := fresh s.rounds 1
  have hstep : FileArray.step bytes
        (.readAt (fresh s.rounds 0) into 0 (BitVec.ofNat 32 transferSize) (BitVec.ofNat 32 pos)) =
      (bytes, .read (bytes.readAt into 0 transferSize pos)
        (BitVec.ofNat 32 (bytes.count transferSize pos))) := by
    rw [FileArray.step, toInt_position hpos, toInt_position hsize]
  have hcount := FileArray.count_natCast (a := bytes) (n := transferSize) (p := pos)
  obtain ⟨disk, openFile, hgo, hat⟩ := h.request
    (r := .read (fresh s.rounds 0) into (BitVec.ofNat 32 transferSize)) (inRange_of_le hpos hsize)
    hstep (BitVec.ofNat_add _ _).symm (by have hwithin := h.within; omega) (s.rounds + 1)
  rw [hcount] at hat
  refine ⟨_, ?_, hat⟩
  rw [DiskBlocks.readBlock]
  dsimp only [Option.bind_eq_bind]
  rw [hgo]
  dsimp only [Option.bind_some]
  rw [toInt_position (by omega), Int.toNat_natCast, FileArray.map_readAt]
  rfl

/-- A block is written over the bytes that the file has there. -/
theorem At.writeBlock {out old rest block : FileArray}
    (h : s.At fs a key (out ++ old ++ rest) out.length) (hold : old.length = block.length)
    (hlength : (out ++ old ++ rest).length ≤ maxDiskFileSize) (fresh : Nat → Nat → Buffer) :
    ∃ t, s.writeBlock fresh block = some t ∧
      DiskBlocks.At t fs a key (out ++ block ++ rest) (out ++ block).length := by
  have hpos := h.within.trans hlength
  have htotal : out.length + old.length ≤ maxDiskFileSize := by
    rw [List.length_append, List.length_append] at hlength
    omega
  have hblock : block.length ≤ maxDiskFileSize := by omega
  let data : Buffer := fun k => block.getD k 0
  have hcount : (out ++ old ++ rest).count block.length out.length = block.length := by
    rw [FileArray.count_natCast, List.length_append, List.length_append]
    omega
  have hstep : FileArray.step (out ++ old ++ rest) (.writeAt (fresh s.rounds) data
        (BitVec.ofNat 32 block.length) (BitVec.ofNat 32 out.length)) =
      (out ++ block ++ rest, .written (BitVec.ofNat 32 block.length)) := by
    rw [FileArray.step, toInt_position hpos, toInt_position hblock, hcount,
      FileArray.writeAt_append hold]
  have hnext : BitVec.ofNat 32 out.length + BitVec.ofNat 32 block.length =
      BitVec.ofNat 32 (out ++ block).length := by
    rw [List.length_append, BitVec.ofNat_add]
  have hwithin : (out ++ block).length ≤ (out ++ block ++ rest).length :=
    (List.prefix_append _ _).length_le
  obtain ⟨disk, openFile, hgo, hat⟩ := h.request
    (r := .write (fresh s.rounds) data (BitVec.ofNat 32 block.length)) (inRange_of_le hpos hblock)
    hstep hnext hwithin (s.rounds + 1)
  refine ⟨_, ?_, hat⟩
  rw [DiskBlocks.writeBlock]
  dsimp only [Option.bind_eq_bind]
  rw [hgo]
  rfl

end DiskBlocks

/-- What an open file has behind its position is read block by block, up to the end. -/
theorem readLoop_eq (h : s.At fs a key bytes pos) (hlength : bytes.length ≤ maxDiskFileSize)
    (fresh : Nat → Nat → Buffer) {fuel : Nat} (hfuel : maxDiskFileSize < fuel) :
    ∃ t, blockLoop (DiskBlocks.readBlock fresh) (fun out bytes => some (out ++ bytes)) fuel s [] =
      some (t, bytes.drop pos) := by
  have hread : ∀ s rest, (∃ pos, DiskBlocks.At s fs a key bytes pos ∧ rest = bytes.drop pos) →
      ∃ t, DiskBlocks.readBlock fresh s = some (rest.take transferSize, t) ∧
        ∃ pos, DiskBlocks.At t fs a key bytes pos ∧ rest.drop transferSize = bytes.drop pos := by
    rintro s rest ⟨pos, hat, rfl⟩
    obtain ⟨t, hgo, hnext⟩ := hat.readBlock hlength fresh
    exact ⟨t, hgo, _, hnext, FileArray.drop_drop_min⟩
  have hrest : (bytes.drop pos).length < fuel := by
    rw [List.length_drop]
    omega
  obtain ⟨t, out, hloop, -, rfl⟩ := blockLoop_eq (by decide) hread
    (fun out out' block heq _ _ => ⟨_, rfl, congrArg (· ++ block) heq⟩)
    ⟨pos, h, rfl⟩ (rfl : ([] : FileArray) = []) (List.nil_append _) hrest
  exact ⟨t, hloop⟩

/-- The bytes of a UNIX file are written over those of an open file of the same length. -/
theorem writeLoop_eq {files : HostFiles} {ino : Ino} (h : s.At fs a key bytes 0)
    (hlength : bytes.length = (files ino).length) (hmax : (files ino).length ≤ maxDiskFileSize)
    (fresh : Nat → Nat → Buffer) {fuel : Nat} (hfuel : maxDiskFileSize < fuel) :
    ∃ fd t, blockLoop (HostDescriptor.readBlock files) (DiskBlocks.writeBlock fresh) fuel
        ⟨ino, 0⟩ s = some (fd, t) ∧ DiskBlocks.At t fs a key (files ino) (files ino).length := by
  have hread : ∀ (fd : HostDescriptor) rest, fd.ino = ino ∧ rest = (files ino).drop fd.pos →
      ∃ fd', HostDescriptor.readBlock files fd = some (rest.take transferSize, fd') ∧
        fd'.ino = ino ∧ rest.drop transferSize = (files ino).drop fd'.pos := by
    rintro fd rest ⟨rfl, rfl⟩
    refine ⟨_, rfl, rfl, FileArray.drop_drop_min.trans ?_⟩
    rw [length_hostRead, Int.toNat_natCast]
  have hwrite : ∀ t out block, (∃ old, out.length + old.length = (files ino).length ∧
        DiskBlocks.At t fs a key (out ++ old) out.length) →
      out ++ block <+: files ino → block.length ≤ transferSize →
      ∃ t', DiskBlocks.writeBlock fresh t block = some t' ∧
        ∃ old, (out ++ block).length + old.length = (files ino).length ∧
          DiskBlocks.At t' fs a key (out ++ block ++ old) (out ++ block).length := by
    rintro t out block ⟨old, htotal, hat⟩ hprefix -
    have hfits := hprefix.length_le
    rw [List.length_append] at hfits
    have hold : (old.take block.length).length = block.length := by
      rw [List.length_take]
      omega
    have hsplit : out ++ old.take block.length ++ old.drop block.length = out ++ old := by
      rw [List.append_assoc, List.take_append_drop]
    rw [← hsplit] at hat
    obtain ⟨t', hgo, hat'⟩ := hat.writeBlock hold (by rw [hsplit, List.length_append]; omega) fresh
    refine ⟨t', hgo, _, ?_, hat'⟩
    rw [List.length_append, List.length_drop]
    omega
  have hstart : ([] : FileArray).length + bytes.length = (files ino).length := by
    rw [List.length_nil, Nat.zero_add, hlength]
  obtain ⟨fd, t, hloop, -, old, htotal, hat⟩ := blockLoop_eq (by decide) hread hwrite
    (s := ⟨ino, 0⟩) ⟨rfl, List.drop_zero.symm⟩ ⟨bytes, hstart, h⟩ (List.nil_append _)
    (hmax.trans_lt hfuel)
  refine ⟨fd, t, hloop, ?_⟩
  have hnone : old = [] := List.eq_nil_of_length_eq_zero (by omega)
  rw [hnone, List.append_nil] at hat
  exact hat

end

/-! ## The files of a disk -/

open DiskFileSystem

section

variable {fs : DiskFileSystem} {disk : DiskImage} {a : FileStore} {bytes : FileArray}

/-- A consistent disk holds its files. -/
theorem represents_disk (h : Consistent disk) (hopened : Opened fs disk) (htidy : Tidy disk) :
    DiskSession.Represents ⟨fs, disk, []⟩
      ⟨filesByName disk, numDiskSectors - (owned disk).length, []⟩ := by
  have hcard : (owned disk).toFinset ⊆ Finset.range numDiskSectors := by
    intro t ht
    exact Finset.mem_range.mpr ((h.marked t).mpr (List.mem_toFinset.mp ht)).1
  have hle := Finset.card_le_card hcard
  rw [List.toFinset_card_of_nodup h.nodup, Finset.card_range] at hle
  exact ⟨h, hopened, htidy, rfl, Nat.sub_add_cancel hle, .nil⟩

/-- A file that is there can be opened. -/
theorem openFile_at (h : DiskSession.Represents ⟨fs, disk, []⟩ a) (fresh : Nat → Buffer)
    {name : Buffer} (hname : a.files.lookup (nameKey name) = some bytes) (rounds : Nat) :
    bytes.length ≤ maxDiskFileSize ∧ ∃ file, fs.openFile fresh disk name = some (some file) ∧
      DiskBlocks.At ⟨rounds, disk, ⟨file, 0⟩⟩ fs a (nameKey name) bytes 0 := by
  rcases openFile_cases h.consistent h.opened fresh name with ⟨-, habsent⟩ | ⟨e, he, hkey, hgo⟩
  · rw [h.files, Finmap.lookup_eq_none.mpr habsent] at hname
    cases hname
  · have hbytes : fileArray disk e.sector.toNat = bytes := by
      exact Option.some.inj ((h.lookup_key he).symm.trans (hkey ▸ hname))
    have hsame : a.files.insert (nameKey name) bytes = a.files := by
      refine Finmap.ext_lookup fun key => ?_
      rcases eq_or_ne key (nameKey name) with rfl | hne
      · rw [Finmap.lookup_insert, hname]
      · rw [Finmap.lookup_insert_of_ne _ hne]
    refine ⟨?_, _, hgo, Nat.zero_le _, ?_⟩
    · have hlength :=
        DiskFile.fileLength_le (f := ⟨disk e.sector.toNat⟩) (h.consistent.headers e he)
      rw [← hbytes, fileArray, DiskFile.length_contents]
      exact Int.toNat_le.mpr hlength
    · rw [hsame]
      refine { h with cursors := .cons (.some ⟨rfl, fun key hfile => ?_⟩) .nil }
      obtain rfl := Option.some.inj hfile
      exact ⟨e, he, hkey, rfl⟩

/-- All of a file is printed. -/
theorem print_eq (h : DiskSession.Represents ⟨fs, disk, []⟩ a) (fresh : Nat → Nat → Buffer)
    {fuel : Nat} (hfuel : maxDiskFileSize < fuel) (name : Buffer) :
    fs.print fresh fuel disk name = some (a.files.lookup (nameKey name)) := by
  unfold DiskFileSystem.print
  cases hname : a.files.lookup (nameKey name) with
  | none =>
    rcases openFile_cases h.consistent h.opened (fresh 0) name with ⟨hgo, -⟩ | ⟨e, he, hkey, -⟩
    · dsimp only at hgo
      rw [hgo]
      rfl
    · rw [← hkey, h.lookup_key he] at hname
      cases hname
  | some bytes =>
    obtain ⟨hlength, file, hgo, hat⟩ := openFile_at h (fresh 0) hname 1
    obtain ⟨t, hloop⟩ := readLoop_eq hat hlength fresh hfuel
    rw [hgo]
    dsimp only [Option.bind_eq_bind, Option.bind_some]
    rw [hloop]
    rfl

end

/--
**What has been copied is printed.**

Let the disk be consistent, and let the UNIX file be no longer than a file of Nachos can be. Then
`Copy` comes to its end. If the name is new and there is room, `Print` shows the bytes of the UNIX
file under this name, and what it showed before under any other. Else the disk is as it was.
-/
theorem copy_then_print {fs : DiskFileSystem} {disk : DiskImage} (h : Consistent disk)
    (hopened : Opened fs disk) (htidy : Tidy disk) (fresh : Nat → Nat → Buffer) (files : HostFiles)
    (ino : Ino) (toName : Buffer) (hmax : (files ino).length ≤ maxDiskFileSize) {fuel : Nat}
    (hfuel : maxDiskFileSize < fuel) :
    ∃ disk', fs.copy fresh files fuel disk (some ino) toName = some disk' ∧
      Consistent disk' ∧ Opened fs disk' ∧ Tidy disk' ∧
      (¬ Admits disk toName (BitVec.ofNat 32 (files ino).length) → disk' = disk) ∧
      (Admits disk toName (BitVec.ofNat 32 (files ino).length) →
        ∀ (fresh' : Nat → Nat → Buffer) (name : Buffer), fs.print fresh' fuel disk' name =
          if nameKey name = nameKey toName then some (some (files ino))
          else fs.print fresh' fuel disk name) := by
  have hrep := represents_disk h hopened htidy
  have hlength : (BitVec.ofNat 32 (files ino).length).toInt = (files ino).length :=
    DiskBlocks.toInt_position hmax
  have hsize : 0 ≤ (BitVec.ofNat 32 (files ino).length).toInt := by
    rw [hlength]
    exact Int.natCast_nonneg _
  have hnat : (BitVec.ofNat 32 (files ino).length).toNat = (files ino).length := by
    have hint := FileHeader.toInt_of_nonneg hsize
    rw [hlength] at hint
    exact_mod_cast hint.symm
  have hdirect : FileHeader.sectorsFor (BitVec.ofNat 32 (files ino).length) ≤ numDirect := by
    rw [FileHeader.sectorsFor, hnat]
    unfold divRoundUp
    unfold maxDiskFileSize at hmax
    unfold numDirect sectorSize at *
    split <;> omega
  have hhost : (files ino).length ≤ maxFileSize := hmax.trans (by decide)
  unfold DiskFileSystem.copy
  dsimp only
  rw [HostDescriptor.lseek_seekEnd hhost]
  dsimp only [Option.bind_eq_bind, Option.bind_some]
  rw [HostDescriptor.tell_eq hhost]
  dsimp only
  rw [HostDescriptor.lseek_seekSet (Int.natCast_nonneg _), lseek_of_nonneg le_rfl, Option.map_some,
    BitVec.ofInt_natCast]
  dsimp only [Option.bind_some, Int.toNat_zero]
  rcases create_cases h hopened (fresh 0) toName hsize hdirect with
    ⟨hfail, hno⟩ | ⟨hroom, disk', e, hgo, hconsistent, hopened', hcreated, hsized⟩
  · refine ⟨disk, ?_, h, hopened, htidy, fun _ => rfl, fun hyes => absurd hyes hno⟩
    rw [hfail]
    rfl
  · obtain ⟨hbytes, hmade⟩ := hrep.created hsize hroom hconsistent hopened' hcreated hsized
    rw [hnat] at hbytes
    obtain ⟨-, file, hopen, hat⟩ := openFile_at hmade (fresh 1) (Finmap.lookup_insert _) 2
    obtain ⟨fd, t, hloop, hdone⟩ := writeLoop_eq hat hbytes hmax fresh hfuel
    have hend := hdone.close
    refine ⟨t.disk, ?_, hend.consistent, hend.opened, hend.tidy, fun hno => absurd hroom hno,
      fun _ fresh' name => ?_⟩
    · rw [hgo]
      dsimp only [Option.bind_some]
      rw [if_neg (by decide), hopen]
      dsimp only [Option.bind_some]
      rw [hloop]
      rfl
    · rw [print_eq hend fresh' hfuel, print_eq hrep fresh' hfuel]
      dsimp only [FileStore.created]
      split
      next hsame => rw [hsame, Finmap.lookup_insert]
      next hne => rw [Finmap.lookup_insert_of_ne _ hne, Finmap.lookup_insert_of_ne _ hne]

/-- A UNIX file of 300 bytes is copied to the disk without files. -/
theorem copy_then_print_sevens :
    ∃ disk', emptySystem.copy (fun _ _ _ => 0) (fun _ => List.replicate 300 7) 4000 emptyDisk
        (some 5) nameA = some disk' ∧
      emptySystem.print (fun _ _ _ => 0) 4000 disk' nameA = some (some (List.replicate 300 7)) := by
  have hopened : Opened emptySystem emptyDisk := represents_emptySession.opened
  have htidy : Tidy emptyDisk := represents_emptySession.tidy
  have hlength : (List.replicate 300 (7 : BitVec 8)).length = 300 := List.length_replicate
  obtain ⟨disk', hgo, -, -, -, -, hprint⟩ :=
    copy_then_print consistent_emptyDisk hopened htidy (fun _ _ _ => 0)
      (fun _ => List.replicate 300 7) 5 nameA (by rw [hlength]; decide)
      (show maxDiskFileSize < 4000 by decide)
  have habsent : nameKey nameA ∉ (directoryOf emptyDisk).bindings := by
    have hfiles : ∅ = filesByName emptyDisk := represents_emptySession.files
    rw [mem_bindings_iff, ← hfiles]
    exact Finmap.notMem_empty
  refine ⟨disk', hgo, ?_⟩
  rw [hlength] at hprint
  rw [hprint ⟨habsent, by decide, by decide⟩, if_pos rfl]

end Nachos
