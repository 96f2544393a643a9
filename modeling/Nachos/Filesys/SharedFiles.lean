import Nachos.Base.Run
import Nachos.Filesys.OpenFile

/-!
# Two positions of one open file (`filesys/openfile.h`, `lib/sysdep.cc`)

An `OpenFile` has its own position, `currentOffset`, and owns a descriptor of the host, which has a
position as well. `Length`, `ReadAt` and `WriteAt` move the second and not the first. Here the host
keeps its positions, and several objects may have opened the same file.

* `HostOpenFile` — the class with both positions
* `read_forget` and its like — the position of the descriptor never matters
* `openFiles_refine` — any number of objects are cursors over lists of bytes
-/

namespace Nachos

open Base

/-! ## The system calls of the host -/

/-- What a descriptor of the host stands for. -/
structure HostDescriptor where
  ino : Ino
  pos : Nat
deriving DecidableEq

/-- What `lseek` counts from. -/
inductive Whence where
  | seekSet
  | seekCur
  | seekEnd
deriving DecidableEq

namespace HostDescriptor

/-- `lseek`. The answer is -1 when the new position does not fit the `off_t`. -/
def unixLseek (fd : HostDescriptor) (files : HostFiles) (offset : Int) (whence : Whence) :
    HostDescriptor × Int :=
  let position : Int :=
    match whence with
    | .seekSet => offset
    | .seekCur => fd.pos + offset
    | .seekEnd => (files fd.ino).length + offset
  if 0 ≤ position ∧ position ≤ maxFileSize then ({ fd with pos := position.toNat }, position)
  else (fd, -1)

/-- `read`. -/
def unixRead (fd : HostDescriptor) (files : HostFiles) (nBytes : Int) :
    HostDescriptor × List (BitVec 8) × Int :=
  if nBytes < 0 then (fd, [], -1)
  else
    let bytes := hostRead (files fd.ino) fd.pos nBytes.toNat
    ({ fd with pos := fd.pos + bytes.length }, bytes, bytes.length)

/-- `write`. A file that would become too long takes a part of the bytes, or none of them. -/
def unixWrite (fd : HostDescriptor) (files : HostFiles) (buffer : Nat → BitVec 8) (nBytes : Int) :
    HostDescriptor × HostFiles × Int :=
  if nBytes < 0 then (fd, files, -1)
  else if fd.pos + nBytes.toNat ≤ maxFileSize then
    ({ fd with pos := fd.pos + nBytes.toNat },
      Function.update files fd.ino
        (hostWrite (files fd.ino) fd.pos (bufferBytes buffer nBytes.toNat)),
      nBytes)
  else if fd.pos < maxFileSize then
    let room := maxFileSize - fd.pos
    ({ fd with pos := maxFileSize },
      Function.update files fd.ino (hostWrite (files fd.ino) fd.pos (bufferBytes buffer room)),
      room)
  else (fd, files, -1)

/-! ## `lib/sysdep.cc` -/

/-- `Lseek`. -/
def lseek (fd : HostDescriptor) (files : HostFiles) (offset : Int) (whence : Whence) :
    Option HostDescriptor :=
  let (fd, retVal) := fd.unixLseek files offset whence
  if 0 ≤ retVal then some fd else none

/-- `Tell`. -/
def tell (fd : HostDescriptor) (files : HostFiles) : HostDescriptor × Int :=
  fd.unixLseek files 0 .seekCur

/-- `ReadPartial`. -/
def readPartial (fd : HostDescriptor) (files : HostFiles) (nBytes : Int) :
    HostDescriptor × List (BitVec 8) × Int :=
  fd.unixRead files nBytes

/-- `WriteFile`. -/
def writeFile (fd : HostDescriptor) (files : HostFiles) (buffer : Nat → BitVec 8) (nBytes : Int) :
    Option (HostDescriptor × HostFiles) :=
  let (fd, files, retVal) := fd.unixWrite files buffer nBytes
  if retVal = nBytes then some (fd, files) else none

end HostDescriptor

/-! ## The class `OpenFile` -/

/-- The class `OpenFile`, with the descriptor that the object owns. -/
structure HostOpenFile where
  file : HostDescriptor
  currentOffset : Int
deriving DecidableEq

namespace HostOpenFile

/-- `OpenFile::OpenFile`, with a descriptor that has just been opened. -/
def new (f : Ino) : HostOpenFile := { file := { ino := f, pos := 0 }, currentOffset := 0 }

/-- `OpenFile::Seek`. -/
def seek (f : HostOpenFile) (files : HostFiles) (pos : Int) : Option (HostOpenFile × Int) := do
  let file ← f.file.lseek files pos .seekSet
  let (file, currentOffset) := file.tell files
  return ({ file := file, currentOffset := currentOffset }, currentOffset)

/-- `OpenFile::ReadAt`. -/
def readAt (f : HostOpenFile) (files : HostFiles) (numBytes position : Int) :
    Option (HostOpenFile × List (BitVec 8) × Int) := do
  let file ← f.file.lseek files position .seekSet
  let (file, bytes, numRead) := file.readPartial files numBytes
  return ({ f with file := file }, bytes, numRead)

/-- `OpenFile::WriteAt`. -/
def writeAt (f : HostOpenFile) (files : HostFiles) (buffer : Nat → BitVec 8)
    (numBytes position : Int) : Option (HostOpenFile × HostFiles × Int) := do
  let file ← f.file.lseek files position .seekSet
  let (file, files) ← file.writeFile files buffer numBytes
  return ({ f with file := file }, files, numBytes)

/-- `OpenFile::Read`. -/
def read (f : HostOpenFile) (files : HostFiles) (numBytes : Int) :
    Option (HostOpenFile × List (BitVec 8) × Int) := do
  let (f, bytes, numRead) ← f.readAt files numBytes f.currentOffset
  return ({ f with currentOffset := f.currentOffset + numRead }, bytes, numRead)

/-- `OpenFile::Write`. -/
def write (f : HostOpenFile) (files : HostFiles) (buffer : Nat → BitVec 8) (numBytes : Int) :
    Option (HostOpenFile × HostFiles × Int) := do
  let (f, files, numWritten) ← f.writeAt files buffer numBytes f.currentOffset
  return ({ f with currentOffset := f.currentOffset + numWritten }, files, numWritten)

/-- `OpenFile::Length`. -/
def length (f : HostOpenFile) (files : HostFiles) : Option (HostOpenFile × Int) := do
  let file ← f.file.lseek files 0 .seekEnd
  let (file, length) := file.tell files
  return ({ f with file := file }, length)

/-- What `SysSeek` does with the object. -/
def sysSeek (f : HostOpenFile) (files : HostFiles) (pos : Int) : Option (HostOpenFile × Int) := do
  let asked := if pos = -1 then f.length files else some (f, pos)
  let (f, pos) ← asked
  let (f, length) ← f.length files
  if pos > length ∨ pos < 0 then return (f, -1)
  else
    let (f, _) ← f.seek files pos
    return (f, pos)

end HostOpenFile

/-! ## Without the position of the descriptor -/

theorem lseek_of_nonneg {offset : Int} (h : 0 ≤ offset) : lseek offset = some offset.toNat :=
  if_pos h

theorem lseek_of_neg {offset : Int} (h : ¬ 0 ≤ offset) : lseek offset = none := if_neg h

namespace HostDescriptor

variable {fd : HostDescriptor} {files : HostFiles}

/-- Wherever the descriptor was, it is at `offset` now. -/
theorem lseek_seekSet {offset : Int} (h : offset ≤ maxFileSize) :
    fd.lseek files offset .seekSet =
      (Nachos.lseek offset).map fun pos => { fd with pos := pos } := by
  unfold lseek unixLseek
  by_cases hoff : 0 ≤ offset
  · simp only [hoff, h, and_self, if_true, lseek_of_nonneg hoff, Option.map_some]
  · simp only [hoff, false_and, if_false, lseek_of_neg hoff, Option.map_none]
    exact if_neg (by omega)

theorem lseek_seekEnd (h : (files fd.ino).length ≤ maxFileSize) :
    fd.lseek files 0 .seekEnd = some { fd with pos := (files fd.ino).length } := by
  have hrange : (0 : Int) ≤ (files fd.ino).length ∧
      ((files fd.ino).length : Int) ≤ maxFileSize := by omega
  simp only [lseek, unixLseek, Int.add_zero, hrange, and_self, if_true, Int.toNat_natCast]

/-- The file has grown beyond what an `off_t` can say. -/
theorem lseek_seekEnd_eq_none (h : ¬ (files fd.ino).length ≤ maxFileSize) :
    fd.lseek files 0 .seekEnd = none := by
  have hrange : ¬ ((files fd.ino).length : Int) ≤ maxFileSize := by omega
  simp only [lseek, unixLseek, Int.add_zero, hrange, and_false, if_false]
  exact if_neg (by omega)

theorem tell_eq (h : fd.pos ≤ maxFileSize) : fd.tell files = (fd, (fd.pos : Int)) := by
  have hrange : (0 : Int) ≤ fd.pos ∧ (fd.pos : Int) ≤ maxFileSize := by omega
  simp only [tell, unixLseek, Int.add_zero, hrange, and_self, if_true, Int.toNat_natCast]

/-- The assertion lets through what was written in full, and the size -1. -/
theorem writeFile_eq (fd : HostDescriptor) (files : HostFiles) (buffer : Nat → BitVec 8)
    (nBytes : Int) : fd.writeFile files buffer nBytes =
      if nBytes < 0 then if nBytes = -1 then some (fd, files) else none
      else if fd.pos + nBytes.toNat ≤ maxFileSize then
        some ({ fd with pos := fd.pos + nBytes.toNat }, Function.update files fd.ino
          (hostWrite (files fd.ino) fd.pos (bufferBytes buffer nBytes.toNat)))
      else none := by
  unfold writeFile unixWrite
  by_cases hneg : nBytes < 0
  · simp only [if_pos hneg, eq_comm]
  · simp only [if_neg hneg]
    split
    · exact if_pos rfl
    · split
      · exact if_neg (by omega)
      · exact if_neg (by omega)

end HostDescriptor

namespace HostOpenFile

variable {files : HostFiles}

/-- The object as far as its own position goes. -/
def forget (f : HostOpenFile) : OpenFile := { file := f.file.ino, currentOffset := f.currentOffset }

@[simp] theorem forget_currentOffset (f : HostOpenFile) :
    f.forget.currentOffset = f.currentOffset := rfl

theorem seek_forget (f : HostOpenFile) (files : HostFiles) {pos : Int} (h : pos ≤ maxFileSize) :
    (f.seek files pos).map (fun r => (r.1.forget, r.2)) =
      (f.forget.seek pos).map fun g => (g, pos) := by
  unfold seek OpenFile.seek
  rw [HostDescriptor.lseek_seekSet h]
  by_cases hpos : 0 ≤ pos
  · have htell : ∀ fd : HostDescriptor, ({ fd with pos := pos.toNat } : HostDescriptor).tell files =
        ({ fd with pos := pos.toNat }, pos) := by
      intro fd
      rw [HostDescriptor.tell_eq (by simp only; omega)]
      simp only [Int.toNat_of_nonneg hpos]
    simp only [lseek_of_nonneg hpos, Option.map_some, Option.bind_eq_bind, Option.bind_some, htell,
      Option.pure_def, forget, Int.toNat_of_nonneg hpos]
  · simp only [lseek_of_neg hpos, Option.map_none, Option.bind_eq_bind, Option.bind_none]

theorem readAt_forget (f : HostOpenFile) (files : HostFiles) (numBytes : Int) {position : Int}
    (h : position ≤ maxFileSize) :
    (f.readAt files numBytes position).map (fun r => (r.1.forget, r.2)) =
      (f.forget.readAt files numBytes position).map fun r => (f.forget, r) := by
  unfold readAt OpenFile.readAt
  rw [HostDescriptor.lseek_seekSet h]
  cases lseek position with
  | none => rfl
  | some pos =>
    simp only [Option.map_some, Option.bind_eq_bind, Option.bind_some,
      HostDescriptor.readPartial, HostDescriptor.unixRead]
    split <;> rfl

theorem writeAt_forget (f : HostOpenFile) (files : HostFiles) (buffer : Nat → BitVec 8)
    (numBytes : Int) {position : Int} (h : position ≤ maxFileSize) :
    (f.writeAt files buffer numBytes position).map (fun r => (r.1.forget, r.2)) =
      (f.forget.writeAt files buffer numBytes position).map fun r => (f.forget, r) := by
  unfold writeAt OpenFile.writeAt
  rw [HostDescriptor.lseek_seekSet h]
  cases lseek position with
  | none => rfl
  | some pos =>
    simp only [Option.map_some, Option.bind_eq_bind, Option.bind_some, HostDescriptor.writeFile_eq]
    split
    · split <;> rfl
    · split <;> rfl

/-- What `Read` and `Write` add to `ReadAt` and `WriteAt`. -/
def advance {β : Type} (f : OpenFile) (answer : β × Int) : OpenFile × β × Int :=
  ({ f with currentOffset := f.currentOffset + answer.2 }, answer)

theorem map_advance {β : Type} {f : HostOpenFile} {x : Option (HostOpenFile × β × Int)}
    {y : Option (β × Int)}
    (h : x.map (fun r => (r.1.forget, r.2)) = y.map fun answer => (f.forget, answer)) :
    x.map (fun r => advance r.1.forget r.2) = y.map (advance f.forget) := by
  have hmap := congrArg (Option.map fun r => advance r.1 r.2) h
  rwa [Option.map_map, Option.map_map] at hmap

/-- Nothing that `Read` does depends on where the descriptor was. -/
theorem read_forget (f : HostOpenFile) (files : HostFiles) (numBytes : Int)
    (h : f.currentOffset ≤ maxFileSize) :
    (f.read files numBytes).map (fun r => (r.1.forget, r.2)) = f.forget.read files numBytes := by
  calc
    _ = (f.readAt files numBytes f.currentOffset).map fun r => advance r.1.forget r.2 := by
      unfold read
      cases f.readAt files numBytes f.currentOffset <;> rfl
    _ = (f.forget.readAt files numBytes f.currentOffset).map (advance f.forget) :=
      map_advance (f.readAt_forget files numBytes h)
    _ = _ := by
      unfold OpenFile.read
      show _ = (f.forget.readAt files numBytes f.currentOffset).bind _
      cases f.forget.readAt files numBytes f.currentOffset <;> rfl

/-- Nor what `Write` does. -/
theorem write_forget (f : HostOpenFile) (files : HostFiles) (buffer : Nat → BitVec 8)
    (numBytes : Int) (h : f.currentOffset ≤ maxFileSize) :
    (f.write files buffer numBytes).map (fun r => (r.1.forget, r.2)) =
      f.forget.write files buffer numBytes := by
  calc
    _ = (f.writeAt files buffer numBytes f.currentOffset).map fun r => advance r.1.forget r.2 := by
      unfold write
      cases f.writeAt files buffer numBytes f.currentOffset <;> rfl
    _ = (f.forget.writeAt files buffer numBytes f.currentOffset).map (advance f.forget) :=
      map_advance (f.writeAt_forget files buffer numBytes h)
    _ = _ := by
      unfold OpenFile.write
      show _ = (f.forget.writeAt files buffer numBytes f.currentOffset).bind _
      cases f.forget.writeAt files buffer numBytes f.currentOffset <;> rfl

/-- `Length` moves the descriptor and leaves the position of the object alone. -/
theorem length_forget (f : HostOpenFile) (files : HostFiles) :
    (f.length files).map (fun r => (r.1.forget, r.2)) =
      (f.forget.length files).map fun length => (f.forget, length) := by
  let fd : HostDescriptor := { f.file with pos := (files f.file.ino).length }
  by_cases h : (files f.file.ino).length ≤ maxFileSize
  · have htell : fd.tell files = (fd, ((files f.file.ino).length : Int)) := HostDescriptor.tell_eq h
    have hlength : f.forget.length files = some ((files f.file.ino).length : Int) := if_pos h
    rw [length, HostDescriptor.lseek_seekEnd h, hlength]
    simp only [Option.bind_eq_bind, Option.bind_some, htell, fd]
    rfl
  · have hlength : f.forget.length files = none := if_neg h
    rw [length, HostDescriptor.lseek_seekEnd_eq_none h, hlength]
    rfl

/-- What is known of an object from what is known of it without its descriptor. -/
theorem of_map_forget {β : Type} {x : Option (HostOpenFile × β)} {g : OpenFile} {answer : β}
    (h : x.map (fun r => (r.1.forget, r.2)) = some (g, answer)) :
    ∃ f, x = some (f, answer) ∧ f.file.ino = g.file ∧ f.currentOffset = g.currentOffset := by
  obtain ⟨⟨f, answer'⟩, hx, heq⟩ := Option.map_eq_some_iff.mp h
  obtain ⟨hforget, hanswer⟩ := Prod.mk.inj heq
  refine ⟨f, ?_, congrArg OpenFile.file hforget, congrArg OpenFile.currentOffset hforget⟩
  rw [hx, ← hanswer]

section Inside

variable {f : HostOpenFile} (files : HostFiles) {numBytes : Int} (hoff : 0 ≤ f.currentOffset)
  (hmax : f.currentOffset ≤ maxFileSize)

include hoff hmax

theorem read_inside (hnum : 0 ≤ numBytes) :
    let bytes := hostRead (files f.file.ino) f.currentOffset.toNat numBytes.toNat
    ∃ f', f.read files numBytes = some (f', bytes, (bytes.length : Int)) ∧
      f'.file.ino = f.file.ino ∧ f'.currentOffset = f.currentOffset + bytes.length := by
  have hforget := f.read_forget files numBytes hmax
  rw [OpenFile.read_of_nonneg hoff hnum] at hforget
  exact of_map_forget hforget

theorem write_inside (buffer : Nat → BitVec 8) (hnum : 0 ≤ numBytes)
    (hroom : f.currentOffset.toNat + numBytes.toNat ≤ maxFileSize) :
    let content := hostWrite (files f.file.ino) f.currentOffset.toNat
      (bufferBytes buffer numBytes.toNat)
    ∃ f', f.write files buffer numBytes =
        some (f', Function.update files f.file.ino content, numBytes) ∧
      f'.file.ino = f.file.ino ∧ f'.currentOffset = f.currentOffset + numBytes := by
  have hforget := f.write_forget files buffer numBytes hmax
  rw [OpenFile.write_of_nonneg hoff hnum, forget_currentOffset, if_pos hroom] at hforget
  exact of_map_forget hforget

theorem write_beyond (buffer : Nat → BitVec 8) (hnum : 0 ≤ numBytes)
    (hroom : ¬ f.currentOffset.toNat + numBytes.toNat ≤ maxFileSize) :
    f.write files buffer numBytes = none := by
  have hforget := f.write_forget files buffer numBytes hmax
  rw [OpenFile.write_of_nonneg hoff hnum, forget_currentOffset, if_neg hroom] at hforget
  exact Option.map_eq_none_iff.mp hforget

end Inside

theorem seek_inside (f : HostOpenFile) (files : HostFiles) {pos : Int} (hpos : 0 ≤ pos)
    (hmax : pos ≤ maxFileSize) :
    ∃ f', f.seek files pos = some (f', pos) ∧ f'.file.ino = f.file.ino ∧
      f'.currentOffset = pos := by
  have hforget := f.seek_forget files hmax
  rw [OpenFile.seek, lseek_of_nonneg hpos, Option.bind_eq_bind, Option.bind_some, Option.pure_def,
    Option.map_some, Int.toNat_of_nonneg hpos] at hforget
  exact of_map_forget hforget

theorem length_inside (f : HostOpenFile) (h : (files f.file.ino).length ≤ maxFileSize) :
    ∃ f', f.length files = some (f', ((files f.file.ino).length : Int)) ∧
      f'.file.ino = f.file.ino ∧ f'.currentOffset = f.currentOffset := by
  have hlength : f.forget.length files = some ((files f.file.ino).length : Int) := if_pos h
  have hforget := f.length_forget files
  rw [hlength, Option.map_some] at hforget
  exact of_map_forget hforget

/-- `SysSeek` asks for the length once or twice, and moves the object only to a position inside. -/
theorem sysSeek_inside (f : HostOpenFile) (pos : Int)
    (h : (files f.file.ino).length ≤ maxFileSize) :
    let length : Int := (files f.file.ino).length
    let target := if pos = -1 then length else pos
    ∃ f', f'.file.ino = f.file.ino ∧
      (0 ≤ target ∧ target ≤ length →
        f.sysSeek files pos = some (f', target) ∧ f'.currentOffset = target) ∧
      (¬ (0 ≤ target ∧ target ≤ length) →
        f.sysSeek files pos = some (f', -1) ∧ f'.currentOffset = f.currentOffset) := by
  intro length target
  -- the object behind the first call of `Length`, if there is one
  obtain ⟨f₁, hfirst, hfile₁, hcursor₁⟩ : ∃ f₁ : HostOpenFile,
      (if pos = -1 then f.length files else some (f, pos)) = some (f₁, target) ∧
      f₁.file.ino = f.file.ino ∧ f₁.currentOffset = f.currentOffset := by
    by_cases hpos : pos = -1
    · simp only [hpos, if_true, target]
      exact f.length_inside h
    · simp only [hpos, if_false, target]
      exact ⟨f, rfl, rfl, rfl⟩
  rw [← hfile₁] at h
  obtain ⟨f₂, hsecond, hfile₂, hcursor₂⟩ := f₁.length_inside h
  have hlength : ((files f₁.file.ino).length : Int) = length := by rw [hfile₁]
  rw [hlength] at hsecond
  unfold sysSeek
  rw [hfirst]
  simp only [Option.bind_eq_bind, Option.bind_some, hsecond]
  by_cases hin : 0 ≤ target ∧ target ≤ length
  · obtain ⟨f₃, hseek, hfile₃, hcursor₃⟩ := f₂.seek_inside files hin.1 (by omega)
    refine ⟨f₃, by rw [hfile₃, hfile₂, hfile₁], fun _ => ?_, fun hnot => absurd hin hnot⟩
    rw [if_neg (by omega), hseek]
    exact ⟨rfl, hcursor₃⟩
  · refine ⟨f₂, by rw [hfile₂, hfile₁], fun h => absurd h hin, fun _ => ?_⟩
    rw [if_pos (by omega)]
    exact ⟨rfl, hcursor₂.trans hcursor₁⟩

end HostOpenFile

/-! ## Any number of open files -/

/-- A call on the object `i`. -/
inductive FileOp (ι : Type*) where
  | read (i : ι) (numBytes : Int)
  | write (i : ι) (buffer : Nat → BitVec 8) (numBytes : Int)
  | seek (i : ι) (pos : Int)
  | sysSeek (i : ι) (pos : Int)
  | length (i : ι)

/-- The host's files and the objects that have opened them. -/
structure OpenFiles (ι : Type*) where
  files : HostFiles
  objects : ι → HostOpenFile

/-- Files that are lists of bytes, and for each object the file it has opened and its cursor. -/
structure CursorFiles (ι : Type*) where
  content : Ino → List (BitVec 8)
  file : ι → Ino
  cursor : ι → Nat

variable {ι : Type*} [DecidableEq ι]

namespace OpenFiles

/-- Object `i` has come out of the call as `f`. -/
def put (s : OpenFiles ι) (i : ι) (f : HostOpenFile) (files : HostFiles) : OpenFiles ι :=
  { files := files, objects := Function.update s.objects i f }

/-- The bytes that were read, if any, and the answer. A failed assertion is `none`. -/
def step (s : OpenFiles ι) : FileOp ι → Option (OpenFiles ι × List (BitVec 8) × Int)
  | .read i numBytes =>
    ((s.objects i).read s.files numBytes).map fun (f, bytes, numRead) =>
      (s.put i f s.files, bytes, numRead)
  | .write i buffer numBytes =>
    ((s.objects i).write s.files buffer numBytes).map fun (f, files, numWritten) =>
      (s.put i f files, [], numWritten)
  | .seek i pos => ((s.objects i).seek s.files pos).map fun (f, pos) => (s.put i f s.files, [], pos)
  | .sysSeek i pos =>
    ((s.objects i).sysSeek s.files pos).map fun (f, pos) => (s.put i f s.files, [], pos)
  | .length i =>
    ((s.objects i).length s.files).map fun (f, length) => (s.put i f s.files, [], length)

/-- The object `i` has just opened the file `file i`, for each `i`. -/
def start (files : HostFiles) (file : ι → Ino) : OpenFiles ι :=
  { files := files, objects := fun i => .new (file i) }

end OpenFiles

namespace CursorFiles

/-- The file that `i` has opened. -/
def bytes (a : CursorFiles ι) (i : ι) : List (BitVec 8) := a.content (a.file i)

def moveTo (a : CursorFiles ι) (i : ι) (pos : Nat) : CursorFiles ι :=
  { a with cursor := Function.update a.cursor i pos }

/-- The bytes from the cursor on are replaced, as far as there are any, and the rest is added. -/
def overwrite (a : CursorFiles ι) (i : ι) (new : List (BitVec 8)) : CursorFiles ι :=
  { a with
    content := Function.update a.content (a.file i)
      ((a.bytes i).take (a.cursor i) ++ new ++ (a.bytes i).drop (a.cursor i + new.length)) }

/-- What a call should do: the bytes that were read, if any, and the answer. -/
def step (a : CursorFiles ι) : FileOp ι → CursorFiles ι × List (BitVec 8) × Int
  | .read i numBytes =>
    let count := min numBytes.toNat ((a.bytes i).length - a.cursor i)
    (a.moveTo i (a.cursor i + count), ((a.bytes i).drop (a.cursor i)).take count, count)
  | .write i buffer numBytes =>
    ((a.overwrite i (bufferBytes buffer numBytes.toNat)).moveTo i (a.cursor i + numBytes.toNat), [],
      numBytes)
  | .seek i pos => (a.moveTo i pos.toNat, [], pos)
  | .sysSeek i pos =>
    let pos := if pos = -1 then ((a.bytes i).length : Int) else pos
    if 0 ≤ pos ∧ pos ≤ (a.bytes i).length then (a.moveTo i pos.toNat, [], pos) else (a, [], -1)
  | .length i => (a, [], (a.bytes i).length)

/-- The sizes are not negative, and `Seek` is called with a position inside the file. -/
def Admissible (a : CursorFiles ι) : FileOp ι → Prop
  | .read _ numBytes => 0 ≤ numBytes
  | .write _ _ numBytes => 0 ≤ numBytes
  | .seek i pos => 0 ≤ pos ∧ pos ≤ (a.bytes i).length
  | .sysSeek _ _ => True
  | .length _ => True

/-- The host lets the file grow that far. -/
def Fits (a : CursorFiles ι) : FileOp ι → Prop
  | .write i _ numBytes => a.cursor i + numBytes.toNat ≤ maxFileSize
  | _ => True

/-- `P` holds of every call of the sequence, in the state in which it is made. -/
abbrev Along (P : CursorFiles ι → FileOp ι → Prop) (a : CursorFiles ι) (es : List (FileOp ι)) :
    Prop :=
  AllSteps (fun a e => some (a.step e).1) P a es

/-- The files as they were opened. -/
def start (content : Ino → List (BitVec 8)) (file : ι → Ino) : CursorFiles ι :=
  { content := content, file := file, cursor := fun _ => 0 }

end CursorFiles

/-! ## The refinement -/

namespace OpenFiles

/-- Every object is at a position inside its file. -/
structure Valid (s : OpenFiles ι) : Prop where
  nonneg : ∀ i, 0 ≤ (s.objects i).currentOffset
  inside : ∀ i, (s.objects i).currentOffset ≤ (s.files (s.objects i).file.ino).length
  fits : ∀ i, (s.files (s.objects i).file.ino).length ≤ maxFileSize

/-- The position of the descriptors is forgotten. -/
def cursors (s : OpenFiles ι) : CursorFiles ι where
  content := s.files
  file := fun i => (s.objects i).file.ino
  cursor := fun i => (s.objects i).currentOffset.toNat

variable {s : OpenFiles ι} {i : ι} {f : HostOpenFile} {files : HostFiles}

theorem cursors_put (hfile : f.file.ino = (s.objects i).file.ino) :
    (s.put i f files).cursors =
      { s.cursors.moveTo i f.currentOffset.toNat with content := files } := by
  have hfiles : (s.put i f files).cursors.file = s.cursors.file := by
    funext j
    by_cases hj : j = i
    · rw [hj]
      simpa [cursors, put] using hfile
    · simp [cursors, put, hj]
  have hcursor : (s.put i f files).cursors.cursor =
      Function.update s.cursors.cursor i f.currentOffset.toNat := by
    funext j
    by_cases hj : j = i
    · simp [cursors, put, hj]
    · simp [cursors, put, hj]
  rw [CursorFiles.moveTo, ← hcursor, ← hfiles]
  rfl

/-- Files only grow, and `i` stays inside its own. -/
theorem Valid.put (h : s.Valid) (hfile : f.file.ino = (s.objects i).file.ino)
    (hnonneg : 0 ≤ f.currentOffset) (hinside : f.currentOffset ≤ (files f.file.ino).length)
    (hgrow : ∀ j, (s.files (s.objects j).file.ino).length ≤ (files (s.objects j).file.ino).length)
    (hfits : ∀ j, (files (s.objects j).file.ino).length ≤ maxFileSize) :
    (s.put i f files).Valid := by
  constructor
  · intro j
    by_cases hj : j = i
    · simpa [OpenFiles.put, hj] using hnonneg
    · simpa [OpenFiles.put, hj] using h.nonneg j
  · intro j
    by_cases hj : j = i
    · simpa [OpenFiles.put, hj] using hinside
    · have hold := h.inside j
      have hnew := hgrow j
      simp only [OpenFiles.put, Function.update_of_ne hj]
      omega
  · intro j
    by_cases hj : j = i
    · rw [hj]
      simpa [OpenFiles.put, hfile] using hfits i
    · simpa [OpenFiles.put, hj] using hfits j

/-- `i` has moved inside its file. -/
theorem Valid.move (h : s.Valid) (hfile : f.file.ino = (s.objects i).file.ino)
    (hnonneg : 0 ≤ f.currentOffset)
    (hinside : f.currentOffset ≤ (s.files (s.objects i).file.ino).length) :
    (s.put i f s.files).Valid ∧
      (s.put i f s.files).cursors = s.cursors.moveTo i f.currentOffset.toNat := by
  rw [← hfile] at hinside
  exact ⟨h.put hfile hnonneg hinside (fun _ => Nat.le_refl _) h.fits, cursors_put hfile⟩

/-- The call is answered as it is by the cursors, and leaves what they leave. -/
def Agrees (s : OpenFiles ι) (e : FileOp ι) : Prop :=
  ∃ t, s.step e = some (t, (s.cursors.step e).2) ∧ t.Valid ∧ t.cursors = (s.cursors.step e).1

omit [DecidableEq ι] in
theorem Valid.le_max (h : s.Valid) (i : ι) : (s.objects i).currentOffset ≤ maxFileSize := by
  have hinside := h.inside i
  have hfits := h.fits i
  omega

theorem read_agrees (h : s.Valid) (i : ι) {numBytes : Int} (hnum : 0 ≤ numBytes) :
    s.Agrees (.read i numBytes) := by
  have hoff := h.nonneg i
  have hin := h.inside i
  obtain ⟨f, hread, hfile, hcursor⟩ :=
    HostOpenFile.read_inside s.files hoff (h.le_max i) hnum
  let count := min numBytes.toNat ((s.cursors.bytes i).length - s.cursors.cursor i)
  have hcount : (hostRead (s.files (s.objects i).file.ino) (s.objects i).currentOffset.toNat
      numBytes.toNat).length = count := length_hostRead _ _ _
  have hbytes : hostRead (s.files (s.objects i).file.ino) (s.objects i).currentOffset.toNat
      numBytes.toNat = ((s.cursors.bytes i).drop (s.cursors.cursor i)).take count := by
    unfold hostRead
    rw [List.take_eq_take_min, List.length_drop]
    rfl
  rw [hcount] at hread hcursor
  have hle : count ≤ (s.files (s.objects i).file.ino).length - (s.objects i).currentOffset.toNat :=
    Nat.min_le_right _ _
  obtain ⟨hvalid, hcursors⟩ := h.move hfile (by omega) (by omega)
  refine ⟨_, ?_, hvalid, ?_⟩
  · simp only [step, hread, Option.map_some, hbytes]
    rfl
  · have hsum : f.currentOffset.toNat = s.cursors.cursor i + count := by
      show f.currentOffset.toNat = (s.objects i).currentOffset.toNat + count
      omega
    rw [hcursors, hsum]
    rfl

theorem seek_agrees (h : s.Valid) (i : ι) {pos : Int} (hpos : 0 ≤ pos)
    (hle : pos ≤ (s.cursors.bytes i).length) : s.Agrees (.seek i pos) := by
  have hfits : (s.cursors.bytes i).length ≤ maxFileSize := h.fits i
  obtain ⟨f, hseek, hfile, hcursor⟩ := (s.objects i).seek_inside s.files hpos (by omega)
  obtain ⟨hvalid, hcursors⟩ := h.move hfile (by omega) (by rw [hcursor]; exact hle)
  refine ⟨_, ?_, hvalid, ?_⟩
  · simp only [step, hseek, Option.map_some]
    rfl
  · rw [hcursors, hcursor]
    rfl

/-- A call that leaves the object where it was. -/
theorem Valid.stay (h : s.Valid) (hfile : f.file.ino = (s.objects i).file.ino)
    (hcursor : f.currentOffset = (s.objects i).currentOffset) :
    (s.put i f s.files).Valid ∧ (s.put i f s.files).cursors = s.cursors := by
  have hnonneg := h.nonneg i
  have hinside := h.inside i
  obtain ⟨hvalid, hcursors⟩ := h.move hfile (by omega) (by omega)
  refine ⟨hvalid, ?_⟩
  have hsame : f.currentOffset.toNat = s.cursors.cursor i := by rw [hcursor]; rfl
  rw [hcursors, hsame, CursorFiles.moveTo, Function.update_eq_self]

theorem length_agrees (h : s.Valid) (i : ι) : s.Agrees (.length i) := by
  obtain ⟨f, hlength, hfile, hcursor⟩ := (s.objects i).length_inside (h.fits i)
  obtain ⟨hvalid, hcursors⟩ := h.stay hfile hcursor
  refine ⟨_, ?_, hvalid, hcursors⟩
  simp only [step, hlength, Option.map_some]
  rfl

theorem sysSeek_agrees (h : s.Valid) (i : ι) (pos : Int) : s.Agrees (.sysSeek i pos) := by
  obtain ⟨f, hfile, hmoved, hrefused⟩ := (s.objects i).sysSeek_inside pos (h.fits i)
  let target : Int := if pos = -1 then ((s.cursors.bytes i).length : Int) else pos
  by_cases hin : 0 ≤ target ∧ target ≤ (s.cursors.bytes i).length
  · obtain ⟨hseek, hcursor⟩ := hmoved hin
    obtain ⟨hvalid, hcursors⟩ := h.move hfile (hcursor ▸ hin.1) (hcursor ▸ hin.2)
    have hstep : s.cursors.step (.sysSeek i pos) = (s.cursors.moveTo i target.toNat, [], target) :=
      if_pos hin
    refine ⟨_, ?_, hvalid, ?_⟩
    · simp only [step, hseek, Option.map_some, hstep]
      rfl
    · rw [hstep, hcursors, hcursor]
      rfl
  · obtain ⟨hseek, hcursor⟩ := hrefused hin
    obtain ⟨hvalid, hcursors⟩ := h.stay hfile hcursor
    have hstep : s.cursors.step (.sysSeek i pos) = (s.cursors, [], -1) := if_neg hin
    refine ⟨_, ?_, hvalid, ?_⟩
    · simp only [step, hseek, Option.map_some, hstep]
    · rw [hstep, hcursors]

theorem write_agrees (h : s.Valid) (i : ι) (buffer : Nat → BitVec 8) {numBytes : Int}
    (hnum : 0 ≤ numBytes) (hroom : s.cursors.cursor i + numBytes.toNat ≤ maxFileSize) :
    s.Agrees (.write i buffer numBytes) := by
  have hoff := h.nonneg i
  have hin := h.inside i
  let ino := (s.objects i).file.ino
  let pos := (s.objects i).currentOffset.toNat
  let bytes := bufferBytes buffer numBytes.toNat
  have hpos : pos ≤ (s.files ino).length := by
    show (s.objects i).currentOffset.toNat ≤ (s.files (s.objects i).file.ino).length
    omega
  have hcount : bytes.length = numBytes.toNat := length_bufferBytes buffer numBytes.toNat
  have hlength : (hostWrite (s.files ino) pos bytes).length
      = max (s.files ino).length (pos + numBytes.toNat) := by
    rw [hostWrite_length hpos, hcount]
  obtain ⟨f, hwrite, hfile, hcursor⟩ :=
    HostOpenFile.write_inside s.files hoff (h.le_max i) buffer hnum hroom
  let files := Function.update s.files ino (hostWrite (s.files ino) pos bytes)
  have hlengths : ∀ j, (s.files (s.objects j).file.ino).length
      ≤ (files (s.objects j).file.ino).length ∧
      (files (s.objects j).file.ino).length ≤ maxFileSize := by
    intro j
    have hfits := h.fits j
    by_cases hj : (s.objects j).file.ino = ino
    · rw [hj] at hfits ⊢
      have hself : files ino = hostWrite (s.files ino) pos bytes := Function.update_self _ _ _
      rw [hself, hlength]
      exact ⟨Nat.le_max_left _ _, Nat.max_le.mpr ⟨hfits, hroom⟩⟩
    · have hother : files (s.objects j).file.ino = s.files (s.objects j).file.ino :=
        Function.update_of_ne hj _ _
      rw [hother]
      exact ⟨Nat.le_refl _, hfits⟩
  have hinside : f.currentOffset ≤ (files f.file.ino).length := by
    have hself : files f.file.ino = hostWrite (s.files ino) pos bytes := by
      rw [hfile]
      exact Function.update_self _ _ _
    rw [hself, hlength, hcursor]
    have hnat : (s.objects i).currentOffset = pos := (Int.toNat_of_nonneg hoff).symm
    omega
  have hvalid : (s.put i f files).Valid :=
    h.put hfile (by omega) hinside (fun j => (hlengths j).1) fun j => (hlengths j).2
  refine ⟨_, ?_, hvalid, ?_⟩
  · simp only [step, hwrite, Option.map_some]
    rfl
  · have hsum : f.currentOffset.toNat = s.cursors.cursor i + numBytes.toNat := by
      show f.currentOffset.toNat = (s.objects i).currentOffset.toNat + numBytes.toNat
      omega
    have hcontent : files = (s.cursors.overwrite i bytes).content := by
      show Function.update s.files ino _ = Function.update s.files ino _
      rw [hostWrite_eq hpos]
      rfl
    rw [cursors_put hfile, hsum, hcontent]
    rfl

/-- The host refuses to let the file grow, and the assertion fails. -/
theorem write_ends (h : s.Valid) (i : ι) (buffer : Nat → BitVec 8) {numBytes : Int}
    (hnum : 0 ≤ numBytes) (hroom : ¬ s.cursors.cursor i + numBytes.toNat ≤ maxFileSize) :
    s.step (.write i buffer numBytes) = none := by
  have hwrite := HostOpenFile.write_beyond s.files (h.nonneg i) (h.le_max i) buffer hnum hroom
  simp only [step, hwrite, Option.map_none]

omit [DecidableEq ι] in
theorem valid_start {files : HostFiles} {file : ι → Ino}
    (hopen : ∀ i, (files (file i)).length ≤ maxFileSize) : (start files file).Valid :=
  ⟨fun _ => Int.le_refl 0, fun _ => Int.natCast_nonneg _, hopen⟩

/-- From any state that is reached. -/
theorem Valid.run_refines (h : s.Valid) {es : List (FileOp ι)}
    (hes : s.cursors.Along CursorFiles.Admissible es) :
    (s.cursors.Along CursorFiles.Fits es →
      ∃ u, runReplies step s es = some (u, (runAnswers CursorFiles.step s.cursors es).2) ∧
        u.Valid ∧ u.cursors = (runAnswers CursorFiles.step s.cursors es).1) ∧
    (¬ s.cursors.Along CursorFiles.Fits es → runReplies step s es = none) := by
  refine runReplies_simulation ?_ ?_ h hes
  · intro s e h hadmissible hfits
    cases e with
    | read i numBytes => exact read_agrees h i hadmissible
    | write i buffer numBytes => exact write_agrees h i buffer hadmissible hfits
    | seek i pos => exact seek_agrees h i hadmissible.1 hadmissible.2
    | sysSeek i pos => exact sysSeek_agrees h i pos
    | length i => exact length_agrees h i
  · intro s e h hadmissible hfits
    cases e with
    | write i buffer numBytes => exact write_ends h i buffer hadmissible hfits
    | read | seek | sysSeek | length => exact absurd trivial hfits

/-- `Length` makes no difference to what the calls behind it answer and write. -/
theorem Valid.length_undisturbing (h : s.Valid) (i : ι) {es : List (FileOp ι)}
    (hes : s.cursors.Along CursorFiles.Admissible es) :
    ∃ t length, s.step (.length i) = some (t, [], length) ∧
      (runReplies step t es).map (fun r => (r.1.files, r.2)) =
        (runReplies step s es).map fun r => (r.1.files, r.2) := by
  obtain ⟨t, hstep, hvalid, hcursors⟩ := length_agrees h i
  refine ⟨t, _, hstep, ?_⟩
  have hsame : t.cursors = s.cursors := hcursors
  obtain ⟨hgo, hend⟩ := h.run_refines hes
  obtain ⟨hgo', hend'⟩ := hvalid.run_refines (hsame ▸ hes)
  rw [hsame] at hgo' hend'
  by_cases hfits : s.cursors.Along CursorFiles.Fits es
  · obtain ⟨u, hu, _, hcontent⟩ := hgo hfits
    obtain ⟨u', hu', _, hcontent'⟩ := hgo' hfits
    have hfiles : u'.files = u.files := by
      have := hcontent'.trans hcontent.symm
      exact congrArg CursorFiles.content this
    rw [hu, hu', Option.map_some, Option.map_some, hfiles]
  · rw [hend hfits, hend' hfits]

end OpenFiles

/--
**Open files are cursors over lists of bytes.**

Any objects open any files, several of them perhaps the same one, and are called in any order with
sizes that are not negative and with positions inside the file. Every answer, and every file in the
end, is what the cursors say. The kernel ends in an assertion exactly when a file would become
longer than the host allows.
-/
theorem openFiles_refine {files : HostFiles} {file : ι → Ino}
    (hopen : ∀ i, (files (file i)).length ≤ maxFileSize) {es : List (FileOp ι)}
    (hes : (CursorFiles.start files file).Along CursorFiles.Admissible es) :
    ((CursorFiles.start files file).Along CursorFiles.Fits es →
      ∃ u, runReplies OpenFiles.step (.start files file) es =
          some (u, (runAnswers CursorFiles.step (.start files file) es).2) ∧
        u.files = (runAnswers CursorFiles.step (.start files file) es).1.content) ∧
    (¬ (CursorFiles.start files file).Along CursorFiles.Fits es →
      runReplies OpenFiles.step (.start files file) es = none) := by
  obtain ⟨hgo, hend⟩ := (OpenFiles.valid_start hopen).run_refines hes
  refine ⟨?_, hend⟩
  intro hfits
  obtain ⟨u, hu, _, hcursors⟩ := hgo hfits
  exact ⟨u, hu, congrArg CursorFiles.content hcursors⟩

/-- Two objects on the file 1, 2, 3: one reads and asks for the length, the other one writes. -/
theorem openFiles_refine_shared :
    ∃ u, runReplies OpenFiles.step (.start (fun _ => [1, 2, 3]) fun _ : Bool => 7)
        [.read false 2, .length false, .write true (fun _ => 9) 4, .read false 5] =
      some (u, [([1, 2], 2), ([], 3), ([], 4), ([9, 9], 2)]) ∧ u.files 7 = [9, 9, 9, 9] := by
  let a := CursorFiles.start (fun _ => [1, 2, 3]) fun _ : Bool => 7
  have hopen : ∀ i, (a.bytes i).length ≤ maxFileSize := by decide
  have hes : a.Along CursorFiles.Admissible
      [.read false 2, .length false, .write true (fun _ => 9) 4, .read false 5] := by
    simp [CursorFiles.Along, AllSteps, CursorFiles.Admissible]
  have hfits : a.Along CursorFiles.Fits
      [.read false 2, .length false, .write true (fun _ => 9) 4, .read false 5] := by
    simp [CursorFiles.Along, AllSteps, CursorFiles.Fits, CursorFiles.step, CursorFiles.moveTo,
      CursorFiles.start, a, maxFileSize]
  obtain ⟨u, hrun, hfiles⟩ := (openFiles_refine hopen hes).1 hfits
  refine ⟨u, hrun.trans rfl, ?_⟩
  rw [hfiles]
  rfl

end Nachos
