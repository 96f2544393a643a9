import Nachos.Filesys.DirectoryMap
import Nachos.Filesys.FileArray

/-!
# What the file system is for

A file store binds names to arrays of bytes. A file is opened under its name, and read and written
through cursors, any number of them at a time. It keeps the length that it was created with. What a
new file holds is left open.

* `FileStore.Step` — the calls
* `FileStore.Permits` — what the caller has to see to
* `Step.lookup_of_ne` — a call leaves the other files alone
-/

namespace Nachos

open Base

/-- `ReadAt`, `WriteAt`, `Read` and `Write` of an open file. -/
inductive FileRequest where
  | readAt (fresh into : Buffer) (numBytes position : BitVec 32)
  | writeAt (fresh : Nat → Buffer) (data : Buffer) (numBytes position : BitVec 32)
  | read (fresh into : Buffer) (numBytes : BitVec 32)
  | write (fresh : Nat → Buffer) (data : Buffer) (numBytes : BitVec 32)

/-- `Read` and `Write` are `ReadAt` and `WriteAt` at `seekPosition`. -/
def FileRequest.transfer (seekPosition : BitVec 32) : FileRequest → Transfer
  | readAt fresh into numBytes position => .readAt fresh into 0 numBytes position
  | writeAt fresh data numBytes position => .writeAt fresh data numBytes position
  | read fresh into numBytes => .readAt fresh into 0 numBytes seekPosition
  | write fresh data numBytes => .writeAt fresh data numBytes seekPosition

/-- `seekPosition += result`, in `Read` and in `Write`. -/
def FileRequest.advance (seekPosition result : BitVec 32) : FileRequest → BitVec 32
  | readAt .. | writeAt .. => seekPosition
  | read .. | write .. => seekPosition + result

def TransferReply.result : TransferReply → BitVec 32
  | read _ result | written result => result

/-- A call of the file system, or of the object number `id` that it has made. -/
inductive StoreCall where
  | create (fresh : Nat → Buffer) (name : Buffer) (initialSize : BitVec 32)
  | remove (fresh : Nat → Buffer) (name : Buffer)
  | openFile (fresh : Nat → Buffer) (name : Buffer)
  | close (id : Nat)
  | seek (id : Nat) (position : BitVec 32)
  | request (id : Nat) (r : FileRequest)
  | length (id : Nat)

/-- What a call returns. -/
inductive StoreReply where
  | done (b : Bool)
  | opened (id : Option Nat)
  | transferred (r : TransferReply)
  | length (n : BitVec 32)
  | nothing

/-- A position in a file. When the file has been removed, it is a position in none. -/
structure FileCursor where
  file : Option NameKey
  position : BitVec 32

def FileCursor.forget (key : NameKey) (c : FileCursor) : FileCursor :=
  if c.file = some key then { c with file := none } else c

/-- Files under their names, the number of free sectors, and the cursors that are in use. -/
structure FileStore where
  files : Finmap fun _ : NameKey => FileArray
  room : Nat
  cursors : List (Option FileCursor)

namespace FileStore

/-- The sectors of a file, its header included. -/
def sectorsOf (bytes : FileArray) : Nat := 1 + divRoundUp bytes.length sectorSize

/-- The name is new and there is room for the file. -/
structure Admits (capacity : Nat) (s : FileStore) (key : NameKey) (size : BitVec 32) : Prop where
  absent : key ∉ s.files
  entry : s.files.keys.card < capacity
  sectors : 1 + FileHeader.sectorsFor size ≤ s.room

def created (s : FileStore) (key : NameKey) (bytes : FileArray) : FileStore where
  files := s.files.insert key bytes
  room := s.room - sectorsOf bytes
  cursors := s.cursors

def removed (s : FileStore) (key : NameKey) (bytes : FileArray) : FileStore where
  files := s.files.erase key
  room := s.room + sectorsOf bytes
  cursors := s.cursors.map (Option.map (FileCursor.forget key))

/-- The request `r` at the cursor `c`, which is number `id`, on the file `key` with these bytes. -/
def requested (s : FileStore) (id : Nat) (r : FileRequest) (c : FileCursor) (key : NameKey)
    (bytes : FileArray) : FileStore × TransferReply :=
  let (bytes, reply) := FileArray.step bytes (r.transfer c.position)
  ({ s with
      files := s.files.insert key bytes
      cursors := s.cursors.set id (some { c with position := r.advance c.position reply.result }) },
    reply)

/-- The calls. -/
inductive Step (capacity : Nat) : FileStore → StoreCall → StoreReply → FileStore → Prop
  | create {s : FileStore} {fresh : Nat → Buffer} {name : Buffer} {size : BitVec 32}
      {bytes : FileArray} : s.Admits capacity (nameKey name) size → bytes.length = size.toNat →
      Step capacity s (.create fresh name size) (.done true) (s.created (nameKey name) bytes)
  | createRefused {s : FileStore} {fresh : Nat → Buffer} {name : Buffer} {size : BitVec 32} :
      ¬ s.Admits capacity (nameKey name) size →
      Step capacity s (.create fresh name size) (.done false) s
  | remove {s : FileStore} {fresh : Nat → Buffer} {name : Buffer} {bytes : FileArray} :
      s.files.lookup (nameKey name) = some bytes →
      Step capacity s (.remove fresh name) (.done true) (s.removed (nameKey name) bytes)
  | removeRefused {s : FileStore} {fresh : Nat → Buffer} {name : Buffer} :
      nameKey name ∉ s.files → Step capacity s (.remove fresh name) (.done false) s
  | openFile {s : FileStore} {fresh : Nat → Buffer} {name : Buffer} : nameKey name ∈ s.files →
      Step capacity s (.openFile fresh name) (.opened (some s.cursors.length))
        { s with cursors := s.cursors ++ [some ⟨some (nameKey name), 0⟩] }
  | openRefused {s : FileStore} {fresh : Nat → Buffer} {name : Buffer} :
      nameKey name ∉ s.files → Step capacity s (.openFile fresh name) (.opened none) s
  | close {s : FileStore} {id : Nat} :
      Step capacity s (.close id) .nothing { s with cursors := s.cursors.set id none }
  | seek {s : FileStore} {id : Nat} {position : BitVec 32} {c : FileCursor} :
      s.cursors[id]? = some (some c) →
      Step capacity s (.seek id position) .nothing
        { s with cursors := s.cursors.set id (some { c with position := position }) }
  | request {s : FileStore} {id : Nat} {r : FileRequest} {c : FileCursor} {key : NameKey}
      {bytes : FileArray} : s.cursors[id]? = some (some c) → c.file = some key →
      s.files.lookup key = some bytes →
      Step capacity s (.request id r) (.transferred (s.requested id r c key bytes).2)
        (s.requested id r c key bytes).1
  | length {s : FileStore} {id : Nat} {c : FileCursor} {key : NameKey} {bytes : FileArray} :
      s.cursors[id]? = some (some c) → c.file = some key → s.files.lookup key = some bytes →
      Step capacity s (.length id) (.length (BitVec.ofNat 32 bytes.length)) s

/--
What the caller has to see to. A new file has a size that its header has room for. An object is used
until it is closed, and for requests until its file is removed. The position of a request is not
negative, and its end is an `int`.
-/
def Permits (s : FileStore) : StoreCall → Prop
  | .create _ _ size => 0 ≤ size.toInt ∧ FileHeader.sectorsFor size ≤ numDirect
  | .remove .. | .openFile .. => True
  | .close id | .seek id _ => ∃ c, s.cursors[id]? = some (some c)
  | .request id r => ∃ c key, s.cursors[id]? = some (some c) ∧ c.file = some key ∧
      (r.transfer c.position).InRange
  | .length id => ∃ c key, s.cursors[id]? = some (some c) ∧ c.file = some key

/-- The file that a call is about, if it can change one. -/
def subject (s : FileStore) : StoreCall → Option NameKey
  | .create _ name _ | .remove _ name => some (nameKey name)
  | .request id _ => (s.cursors[id]?.join).bind FileCursor.file
  | .openFile .. | .close _ | .seek .. | .length _ => none

variable {capacity : Nat} {s t : FileStore} {call : StoreCall} {reply : StoreReply} {key : NameKey}

/-- A call leaves the other files alone. -/
theorem Step.lookup_of_ne (h : Step capacity s call reply t) (hne : s.subject call ≠ some key) :
    t.files.lookup key = s.files.lookup key := by
  cases h with
  | create _ _ => exact Finmap.lookup_insert_of_ne _ fun heq => hne (congrArg some heq.symm)
  | remove _ => exact Finmap.lookup_erase_ne fun heq => hne (congrArg some heq.symm)
  | request hc hfile _ =>
    refine Finmap.lookup_insert_of_ne _ fun heq => hne ?_
    rw [subject, hc, heq]
    exact hfile
  | createRefused _ | removeRefused _ | openFile _ | openRefused _ | close | seek _
  | length _ _ _ => rfl

/-- A file keeps its length for as long as it exists. -/
theorem Step.length_eq (h : Step capacity s call reply t) {bytes bytes' : FileArray}
    (hs : s.files.lookup key = some bytes) (ht : t.files.lookup key = some bytes') :
    bytes'.length = bytes.length := by
  by_cases hne : s.subject call ≠ some key
  · rw [h.lookup_of_ne hne, hs] at ht
    rw [Option.some.inj ht]
  · cases h with
    | create hadmits _ =>
      obtain rfl := Option.some.inj (not_not.mp hne)
      exact absurd (Finmap.mem_of_lookup_eq_some hs) hadmits.absent
    | remove _ =>
      obtain rfl := Option.some.inj (not_not.mp hne)
      rw [removed, Finmap.lookup_erase] at ht
      cases ht
    | @request id r c key' old hc hfile hlookup =>
      have hkey : some key' = some key := by
        rw [subject, hc] at hne
        exact hfile.symm.trans (not_not.mp hne)
      obtain rfl := Option.some.inj hkey
      obtain rfl := Option.some.inj (hs.symm.trans hlookup)
      rw [requested, Finmap.lookup_insert] at ht
      rw [← Option.some.inj ht]
      cases r.transfer c.position with
      | readAt => rfl
      | writeAt => exact FileArray.length_writeAt ..
    | createRefused _ | removeRefused _ | openFile _ | openRefused _ | close | seek _
    | length _ _ _ =>
      rw [hs] at ht
      rw [Option.some.inj ht]

end FileStore

end Nachos
