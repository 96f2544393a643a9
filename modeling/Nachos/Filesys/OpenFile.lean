import Mathlib.Data.List.Basic
import Mathlib.Data.BitVec
import Mathlib.Logic.Function.Basic

/-!
# Open files on the host (`filesys/openfile.h`, `filesys/filesys.h`, `lib/sysdep.cc`)

The stub file system keeps its files on the host. An `OpenFile` owns one descriptor of the host and
the position of the next access. Every access is led by an `Lseek`, so the position of the
descriptor itself never matters and is left out.

Host files are regular files: `lseek`, `read` and `write` behave as on UNIX with a 32-bit `off_t`.
A failed `ASSERT` aborts the kernel; here it is `none`.

* `OpenFile` — with `seek`, `read`, `write` and `length`
* `FileSystem` — the table `openFiles` and the types of its slots
-/

namespace Nachos

/-! ## The host -/

/-- A file of the host. -/
abbrev Ino := Nat

/-- The contents of the host's files. -/
abbrev HostFiles := Ino → List (BitVec 8)

/-- The longest file whose positions fit the `off_t`. -/
def maxFileSize : Nat := 2 ^ 31 - 1

/-- The bytes that `read` finds from `offset` on. -/
def hostRead (content : List (BitVec 8)) (offset count : Nat) : List (BitVec 8) :=
  (content.drop offset).take count

/-- The contents after a `write` at `offset`. A gap behind the old end is filled with zeros. -/
def hostWrite (content : List (BitVec 8)) (offset : Nat) (bytes : List (BitVec 8)) :
    List (BitVec 8) :=
  if bytes = [] then content
  else content.take offset ++ List.replicate (offset - content.length) 0 ++ bytes
    ++ content.drop (offset + bytes.length)

/-- `Lseek` to an absolute position, with its assertion. -/
def lseek (offset : Int) : Option Nat := if 0 ≤ offset then some offset.toNat else none

/-- The first `count` bytes of a buffer. -/
def bufferBytes (buffer : Nat → BitVec 8) (count : Nat) : List (BitVec 8) :=
  (List.range count).map buffer

/-! ## Lemmas about the host -/

theorem length_bufferBytes (buffer : Nat → BitVec 8) (count : Nat) :
    (bufferBytes buffer count).length = count := by
  simp [bufferBytes]

theorem length_hostRead (content : List (BitVec 8)) (offset count : Nat) :
    (hostRead content offset count).length = min count (content.length - offset) := by
  rw [hostRead, List.length_take, List.length_drop]

theorem length_hostRead_of_le {content : List (BitVec 8)} {offset count : Nat}
    (h : offset + count ≤ content.length) : (hostRead content offset count).length = count := by
  rw [length_hostRead]
  omega

theorem length_hostWrite_le (content : List (BitVec 8)) (offset : Nat) (bytes : List (BitVec 8)) :
    (hostWrite content offset bytes).length ≤ max content.length (offset + bytes.length) := by
  unfold hostWrite
  split
  · exact Nat.le_max_left _ _
  · simp only [List.length_append, List.length_take, List.length_replicate, List.length_drop]
    omega

/-- A write inside the file, or behind its last byte. -/
theorem hostWrite_eq {content bytes : List (BitVec 8)} {offset : Nat}
    (h : offset ≤ content.length) :
    hostWrite content offset bytes
      = content.take offset ++ bytes ++ content.drop (offset + bytes.length) := by
  unfold hostWrite
  split
  · next hnil =>
    rw [hnil, List.length_nil, Nat.add_zero, List.append_nil, List.take_append_drop]
  · have hgap : offset - content.length = 0 := by omega
    rw [hgap, List.replicate_zero, List.append_nil]

theorem hostWrite_length {content bytes : List (BitVec 8)} {offset : Nat}
    (h : offset ≤ content.length) :
    (hostWrite content offset bytes).length = max content.length (offset + bytes.length) := by
  rw [hostWrite_eq h]
  simp only [List.length_append, List.length_take, List.length_drop]
  omega

/-- What was written is read back. -/
theorem hostRead_hostWrite {content bytes : List (BitVec 8)} {offset : Nat}
    (h : offset ≤ content.length) :
    hostRead (hostWrite content offset bytes) offset bytes.length = bytes := by
  have hlen : (content.take offset).length = offset := by
    rw [List.length_take]
    omega
  rw [hostWrite_eq h, hostRead, List.append_assoc, List.drop_append, hlen,
    List.drop_of_length_le (by omega), Nat.sub_self, List.drop_zero, List.nil_append,
    List.take_append_of_le_length (le_refl _), List.take_length]

/-! ## OpenFile -/

/-- The class `OpenFile`. -/
structure OpenFile where
  file : Ino
  currentOffset : Int
deriving DecidableEq

namespace OpenFile

/-- `OpenFile::OpenFile`. -/
def new (f : Ino) : OpenFile := { file := f, currentOffset := 0 }

/-- `OpenFile::Seek`. -/
def seek (f : OpenFile) (pos : Int) : Option OpenFile := do
  let pos ← lseek pos
  return { f with currentOffset := pos }

/--
`OpenFile::ReadAt`: the bytes that were read, and the answer.

The host answers -1 to a count that is negative as an `int`.
-/
def readAt (f : OpenFile) (files : HostFiles) (numBytes position : Int) :
    Option (List (BitVec 8) × Int) := do
  let pos ← lseek position
  if numBytes < 0 then return ([], -1)
  else
    let bytes := hostRead (files f.file) pos numBytes.toNat
    return (bytes, bytes.length)

/--
`OpenFile::WriteAt`.

`WriteFile` asserts that the host has written `numBytes` bytes. The host answers -1 to a negative
count, so the assertion lets the count -1 through.
-/
def writeAt (f : OpenFile) (files : HostFiles) (buffer : Nat → BitVec 8) (numBytes position : Int) :
    Option (HostFiles × Int) := do
  let pos ← lseek position
  if numBytes < 0 then
    if numBytes = -1 then return (files, numBytes) else none
  else if pos + numBytes.toNat ≤ maxFileSize then
    let content := hostWrite (files f.file) pos (bufferBytes buffer numBytes.toNat)
    return (Function.update files f.file content, numBytes)
  else none

/-- `OpenFile::Read`. -/
def read (f : OpenFile) (files : HostFiles) (numBytes : Int) :
    Option (OpenFile × List (BitVec 8) × Int) := do
  let (bytes, numRead) ← f.readAt files numBytes f.currentOffset
  return ({ f with currentOffset := f.currentOffset + numRead }, bytes, numRead)

/-- `OpenFile::Write`. -/
def write (f : OpenFile) (files : HostFiles) (buffer : Nat → BitVec 8) (numBytes : Int) :
    Option (OpenFile × HostFiles × Int) := do
  let (files, numWritten) ← f.writeAt files buffer numBytes f.currentOffset
  return ({ f with currentOffset := f.currentOffset + numWritten }, files, numWritten)

/-- `OpenFile::Length`. The assertion of `Lseek` fails on a file that is too long. -/
def length (f : OpenFile) (files : HostFiles) : Option Int :=
  if (files f.file).length ≤ maxFileSize then some (files f.file).length else none

section Transfers

variable {f : OpenFile} {files : HostFiles} {numBytes : Int}

theorem write_of_nonneg {buffer : Nat → BitVec 8}
    (hoff : 0 ≤ f.currentOffset) (hnum : 0 ≤ numBytes) :
    f.write files buffer numBytes =
      if f.currentOffset.toNat + numBytes.toNat ≤ maxFileSize then
        some ({ f with currentOffset := f.currentOffset + numBytes },
          Function.update files f.file (hostWrite (files f.file) f.currentOffset.toNat
            (bufferBytes buffer numBytes.toNat)), numBytes)
      else none := by
  have hneg : ¬ numBytes < 0 := by omega
  simp only [OpenFile.write, OpenFile.writeAt, lseek, hoff, if_true, hneg, if_false,
    Option.bind_eq_bind, Option.bind_some, Option.pure_def]
  split <;> rfl

theorem read_of_nonneg (hoff : 0 ≤ f.currentOffset)
    (hnum : 0 ≤ numBytes) :
    f.read files numBytes =
      some ({ f with
          currentOffset := f.currentOffset
            + (hostRead (files f.file) f.currentOffset.toNat numBytes.toNat).length },
        hostRead (files f.file) f.currentOffset.toNat numBytes.toNat,
        ((hostRead (files f.file) f.currentOffset.toNat numBytes.toNat).length : Int)) := by
  have hneg : ¬ numBytes < 0 := by omega
  simp only [OpenFile.read, OpenFile.readAt, lseek, hoff, if_true, hneg, if_false,
    Option.bind_eq_bind, Option.bind_some, Option.pure_def]

end Transfers

end OpenFile

/-! ## FileSystem -/

/-- The size of the arrays `openFiles` and `type`. -/
def numOpenFiles : Nat := 10

/-- The class `FileSystem` of the stub; `none` is the `NULL` pointer. -/
structure FileSystem where
  openFiles : Fin numOpenFiles → Option OpenFile
  type : Fin numOpenFiles → BitVec 32

/-- The host's files and the table of the open ones. -/
structure FileState where
  files : HostFiles
  fs : FileSystem

namespace FileSystem

/--
`FileSystem::FileSystem`.

`Create` has made the files `stdin` and `stdout` of the host, and asserted that it could open them
for reading and writing, so `Open` finds them.
-/
def new (stdin stdout : Ino) : FileSystem where
  openFiles := fun i =>
    if i.val = 0 then some (.new stdin) else if i.val = 1 then some (.new stdout) else none
  type := fun i => if i.val = 1 then 1 else 0

/-- `FileSystem::findFreeSlot`, with `none` for -1. -/
def findFreeSlot (fs : FileSystem) : Option (Fin numOpenFiles) :=
  (List.finRange numOpenFiles).find? fun i => decide (2 ≤ i.val) && (fs.openFiles i).isNone

/-- `openFiles[i] = f`. -/
def setFile (fs : FileSystem) (i : Fin numOpenFiles) (f : Option OpenFile) : FileSystem :=
  { fs with openFiles := Function.update fs.openFiles i f }

/-- `type[i] = type`. -/
def setType (fs : FileSystem) (i : Fin numOpenFiles) (type : BitVec 32) : FileSystem :=
  { fs with type := Function.update fs.type i type }

@[simp] theorem setFile_self (fs : FileSystem) (i : Fin numOpenFiles) (f : Option OpenFile) :
    (fs.setFile i f).openFiles i = f := by
  simp [setFile]

theorem findFreeSlot_eq_some {fs : FileSystem} {i : Fin numOpenFiles}
    (h : fs.findFreeSlot = some i) : 2 ≤ i.val ∧ fs.openFiles i = none := by
  have hi := List.find?_some h
  simpa using hi

end FileSystem

/-- The state that the constructor leaves: `Create` has truncated both console files. -/
def FileState.start (files : HostFiles) (stdin stdout : Ino) : FileState where
  files := Function.update (Function.update files stdin []) stdout []
  fs := .new stdin stdout

end Nachos
