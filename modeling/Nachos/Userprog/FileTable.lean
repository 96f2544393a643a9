import Nachos.Base.Run
import Nachos.Userprog.FileCalls

/-!
# The table of open files

The arrays `openFiles` and `type` belong to all processes. `SysOpen` writes the type of a slot
before it knows whether the file can be opened, and the other calls look at the two arrays one after
the other.

* `CallEffect` — everything that a call which returns can do
* `id_checked` — which calls keep to the bounds of the arrays
* `run_slots_keep_type` — a slot keeps its type, and type 1 protects the host's file
* `run_consoles_open_iff` — when the consoles stay open
-/

namespace Nachos

open Base CallOutcome

/-! ## The calls -/

/-- A file system call of some process: its memory, its arguments, and what the code leaves open. -/
inductive FileCall where
  | openFile {n : Nat} (m : Machine n) (addr type : BitVec 32) (junk : KernelBuf)
      (found : Option Ino)
  | closeFile (fileid : BitVec 32)
  | readFile {n : Nat} (m : Machine n) (virtualAddr charcount openFileId : BitVec 32)
      (junk : KernelBuf) (input : Nat → BitVec 8)
  | writeFile {n : Nat} (m : Machine n) (virtualAddr charcount openFileId : BitVec 32)
      (junk : KernelBuf)
  | seek (pos id : BitVec 32)

/-- What becomes of the call, as far as the file system is concerned. -/
def FileCall.outcome (s : FileState) : FileCall → CallOutcome (FileState × Int)
  | .openFile m addr type junk found => (sysOpen m s addr type junk found).map Prod.snd
  | .closeFile fileid => sysClose s fileid
  | .readFile m virtualAddr charcount openFileId junk input =>
    (sysRead m s virtualAddr charcount openFileId junk input).map Prod.snd
  | .writeFile m virtualAddr charcount openFileId junk =>
    (sysWrite m s virtualAddr charcount openFileId junk).map Prod.snd
  | .seek pos id => sysSeek s pos id

/-- The name that `SysOpen` copies from `addr` is `name`. -/
def Names {n : Nat} (m : Machine n) (addr : BitVec 32) (junk : KernelBuf)
    (name : List (BitVec 8)) : Prop :=
  ∃ m' buffer, user2System m addr 256 junk = .done (m', buffer) ∧ cString buffer 257 = name

/-- It is not the name of a console. -/
def NamesFile {n : Nat} (m : Machine n) (addr : BitVec 32) (junk : KernelBuf) : Prop :=
  ∃ name, Names m addr junk name ∧ name ≠ stdinName ∧ name ≠ stdoutName

/-- Everything that a call which returns can do to the file system, and its answer. -/
inductive CallEffect (s : FileState) : FileCall → FileState → Int → Prop where
  | openStdin {n : Nat} {m : Machine n} {addr type : BitVec 32} {junk : KernelBuf}
      {found : Option Ino} (hname : Names m addr junk stdinName) :
      CallEffect s (.openFile m addr type junk found) s 0
  | openStdout {n : Nat} {m : Machine n} {addr type : BitVec 32} {junk : KernelBuf}
      {found : Option Ino} (hname : Names m addr junk stdoutName) :
      CallEffect s (.openFile m addr type junk found) s 1
  | openFull {n : Nat} {m : Machine n} {addr type : BitVec 32} {junk : KernelBuf}
      {found : Option Ino} (hfile : NamesFile m addr junk) :
      CallEffect s (.openFile m addr type junk found) s (-1)
  | openFailed {n : Nat} {m : Machine n} {addr type : BitVec 32} {junk : KernelBuf}
      {found : Option Ino} {i : Fin numOpenFiles} (hfile : NamesFile m addr junk) (hi : 2 ≤ i.val)
      (hfree : s.fs.openFiles i = none) :
      CallEffect s (.openFile m addr type junk found) { s with fs := s.fs.setType i type } (-1)
  | openSlot {n : Nat} {m : Machine n} {addr type : BitVec 32} {junk : KernelBuf} {ino : Ino}
      {i : Fin numOpenFiles} (hfile : NamesFile m addr junk) (hi : 2 ≤ i.val)
      (hfree : s.fs.openFiles i = none) (htype : type = 0 ∨ type = 1) :
      CallEffect s (.openFile m addr type junk (some ino))
        { s with fs := (s.fs.setType i type).setFile i (some (.new ino)) } (i : Int)
  | closeRefused {fileid : BitVec 32} : CallEffect s (.closeFile fileid) s (-1)
  | closeSlot {fileid : BitVec 32} {i : Fin numOpenFiles} (hid : fileid.toInt = i)
      (hopen : (s.fs.openFiles i).isSome) :
      CallEffect s (.closeFile fileid) { s with fs := s.fs.setFile i none } 0
  | readNothing {n : Nat} {m : Machine n} {virtualAddr charcount openFileId : BitVec 32}
      {junk : KernelBuf} {input : Nat → BitVec 8} (r : Int) :
      CallEffect s (.readFile m virtualAddr charcount openFileId junk input) s r
  | readSlot {n : Nat} {m : Machine n} {virtualAddr charcount openFileId : BitVec 32}
      {junk : KernelBuf} {input : Nat → BitVec 8} {i : Fin numOpenFiles} {f : OpenFile}
      (hid : openFileId.toInt = i) (hopen : (s.fs.openFiles i).isSome) (r : Int) :
      CallEffect s (.readFile m virtualAddr charcount openFileId junk input)
        { s with fs := s.fs.setFile i (some f) } r
  | writeNothing {n : Nat} {m : Machine n} {virtualAddr charcount openFileId : BitVec 32}
      {junk : KernelBuf} (r : Int) :
      CallEffect s (.writeFile m virtualAddr charcount openFileId junk) s r
  | writeSlot {n : Nat} {m : Machine n} {virtualAddr charcount openFileId : BitVec 32}
      {junk : KernelBuf} {i : Fin numOpenFiles} {f : OpenFile} {files : HostFiles}
      (hid : openFileId.toInt = i) (hi : 2 ≤ i.val) (hopen : (s.fs.openFiles i).isSome)
      (htype : s.fs.type i ≠ 1) :
      CallEffect s (.writeFile m virtualAddr charcount openFileId junk)
        { files := files, fs := s.fs.setFile i (some f) } charcount.toInt
  | seekRefused {pos id : BitVec 32} : CallEffect s (.seek pos id) s (-1)
  | seekSlot {pos id : BitVec 32} {i : Fin numOpenFiles} {f : OpenFile} (hid : id.toInt = i)
      (hopen : (s.fs.openFiles i).isSome) (r : Int) :
      CallEffect s (.seek pos id) { s with fs := s.fs.setFile i (some f) } r

/-! ## Reading the calls -/

section Inversion

variable {α β : Type} {n : Nat} {s s' : FileState} {r : Int}

theorem ofAccess_eq_returned {a : Access α} {k : α → CallOutcome β} {b : β}
    (h : ofAccess a k = .returned b) : ∃ x, a = .done x ∧ k x = .returned b := by
  cases a with
  | done x => exact ⟨x, rfl, h⟩
  | raised e => simp [ofAccess] at h
  | aborted => simp [ofAccess] at h

theorem ofOption_eq_returned {a : Option α} {k : α → CallOutcome β} {b : β}
    (h : ofOption a k = .returned b) : ∃ x, a = some x ∧ k x = .returned b := by
  cases a with
  | none => simp [ofOption] at h
  | some x => exact ⟨x, rfl, h⟩

theorem atIndex_eq_returned {i : Int} {k : Fin numOpenFiles → CallOutcome β} {b : β}
    (h : atIndex i k = .returned b) : ∃ j : Fin numOpenFiles, i = j ∧ k j = .returned b := by
  unfold atIndex at h
  split at h
  · next hi => exact ⟨⟨i.toNat, by omega⟩, by simp only; omega, h⟩
  · simp at h

theorem map_snd_eq_returned {o : CallOutcome (α × β)} {b : β}
    (h : o.map Prod.snd = .returned b) : ∃ a, o = .returned (a, b) := by
  cases o with
  | returned x =>
    obtain ⟨a, b'⟩ := x
    simp only [CallOutcome.map, CallOutcome.returned.injEq] at h
    exact ⟨a, by rw [h]⟩
  | halted => simp [CallOutcome.map] at h
  | aborted => simp [CallOutcome.map] at h
  | wild => simp [CallOutcome.map] at h

theorem openSlot_effect {m m' m₀ : Machine n} {addr type : BitVec 32} {junk : KernelBuf}
    {found : Option Ino} (hfile : NamesFile m₀ addr junk)
    (h : openSlot m s type found = .returned (m', s', r)) :
    CallEffect s (.openFile m₀ addr type junk found) s' r := by
  unfold openSlot at h
  cases hslot : s.fs.findFreeSlot with
  | none =>
    simp only [hslot, CallOutcome.returned.injEq, Prod.mk.injEq] at h
    obtain ⟨_, rfl, rfl⟩ := h
    exact .openFull hfile
  | some i =>
    obtain ⟨hi, hfree⟩ := FileSystem.findFreeSlot_eq_some hslot
    simp only [hslot] at h
    split at h
    · next htype =>
      cases found with
      | some ino =>
        simp only [CallOutcome.returned.injEq, Prod.mk.injEq] at h
        obtain ⟨_, rfl, rfl⟩ := h
        exact .openSlot hfile hi hfree htype
      | none =>
        have h2 : type ≠ 2 := by rintro rfl; simp at htype
        have h3 : type ≠ 3 := by rintro rfl; simp at htype
        simp only [h2, h3, if_false, CallOutcome.returned.injEq, Prod.mk.injEq] at h
        obtain ⟨_, rfl, rfl⟩ := h
        -- the slot held no file before, and `NULL` is written over `NULL`
        have hsame : (s.fs.setType i type).setFile i (Option.map OpenFile.new none)
            = s.fs.setType i type := by
          simp only [FileSystem.setFile, FileSystem.setType, Option.map_none, ← hfree,
            Function.update_eq_self]
        rw [hsame]
        exact .openFailed hfile hi hfree
    · simp only [CallOutcome.returned.injEq, Prod.mk.injEq] at h
      obtain ⟨_, rfl, rfl⟩ := h
      exact .openFailed hfile hi hfree

theorem sysOpen_effect {m m' : Machine n} {addr type : BitVec 32} {junk : KernelBuf}
    {found : Option Ino} (h : sysOpen m s addr type junk found = .returned (m', s', r)) :
    CallEffect s (.openFile m addr type junk found) s' r := by
  obtain ⟨⟨m₁, name⟩, hname, h⟩ := ofAccess_eq_returned h
  simp only at h
  have hstdin : strcmp (cString name 257) stdinName = 0 ↔ cString name 257 = stdinName :=
    strcmp_eq_zero (cString_nonzero name 257) (by decide)
  have hstdout : strcmp (cString name 257) stdoutName = 0 ↔ cString name 257 = stdoutName :=
    strcmp_eq_zero (cString_nonzero name 257) (by decide)
  split at h
  · next hcmp =>
    simp only [CallOutcome.returned.injEq, Prod.mk.injEq] at h
    obtain ⟨_, rfl, rfl⟩ := h
    exact .openStdin ⟨_, _, hname, hstdin.mp hcmp⟩
  · next hnot =>
    split at h
    · next hcmp =>
      simp only [CallOutcome.returned.injEq, Prod.mk.injEq] at h
      obtain ⟨_, rfl, rfl⟩ := h
      exact .openStdout ⟨_, _, hname, hstdout.mp hcmp⟩
    · next hnot' =>
      refine openSlot_effect ⟨_, ⟨_, _, hname, rfl⟩, ?_, ?_⟩ h
      · exact fun heq => hnot (hstdin.mpr heq)
      · exact fun heq => hnot' (hstdout.mpr heq)

theorem sysClose_effect {fileid : BitVec 32} (h : sysClose s fileid = .returned (s', r)) :
    CallEffect s (.closeFile fileid) s' r := by
  unfold sysClose at h
  split at h
  · obtain ⟨i, hid, h⟩ := atIndex_eq_returned h
    cases hopen : s.fs.openFiles i with
    | none =>
      simp only [hopen, CallOutcome.returned.injEq, Prod.mk.injEq] at h
      obtain ⟨rfl, rfl⟩ := h
      exact .closeRefused
    | some f =>
      simp only [hopen, CallOutcome.returned.injEq, Prod.mk.injEq] at h
      obtain ⟨rfl, rfl⟩ := h
      exact .closeSlot hid (by rw [hopen]; rfl)
  · simp only [CallOutcome.returned.injEq, Prod.mk.injEq] at h
    obtain ⟨rfl, rfl⟩ := h
    exact .closeRefused

/-- An id that is neither 0 nor 1. -/
theorem two_le_of_ne {id : BitVec 32} {i : Fin numOpenFiles} (hid : id.toInt = i) (h0 : id ≠ 0)
    (h1 : id ≠ 1) : 2 ≤ i.val := by
  have h0' : id.toInt ≠ 0 := fun h => h0 (BitVec.eq_of_toInt_eq (by rw [h]; rfl))
  have h1' : id.toInt ≠ 1 := fun h => h1 (BitVec.eq_of_toInt_eq (by rw [h]; rfl))
  omega

theorem ne_console {id : BitVec 32} {i : Fin numOpenFiles} (hid : id.toInt = i) (hi : 2 ≤ i.val) :
    id ≠ 0 ∧ id ≠ 1 := by
  constructor
  · rintro rfl
    simp at hid
    omega
  · rintro rfl
    simp at hid
    omega

theorem state_of_returned {m m' : Machine n} {r' : Int}
    (h : CallOutcome.returned (m, s, r) = .returned (m', s', r')) : s' = s := by
  simp only [CallOutcome.returned.injEq, Prod.mk.injEq] at h
  exact h.2.1.symm

/-- A read leaves the file system alone or gets to an open file. -/
theorem sysRead_cases {m m' : Machine n} {virtualAddr charcount openFileId : BitVec 32}
    {junk : KernelBuf} {input : Nat → BitVec 8}
    (h : sysRead m s virtualAddr charcount openFileId junk input = .returned (m', s', r)) :
    s' = s ∨ ∃ (i : Fin numOpenFiles) (f : OpenFile), openFileId.toInt = i ∧ 2 ≤ i.val ∧
      s.fs.openFiles i = some f ∧ 0 ≤ (charcount + 1).toInt ∧
      readSlot m s virtualAddr charcount i f junk = .returned (m', s', r) := by
  unfold sysRead at h
  split at h
  · exact .inl (state_of_returned h)
  · obtain ⟨i, hid, h⟩ := atIndex_eq_returned h
    cases hopen : s.fs.openFiles i with
    | none =>
      simp only [hopen] at h
      exact .inl (state_of_returned h)
    | some f =>
      simp only [hopen] at h
      split at h
      · simp at h
      · next hsize =>
        split at h
        · obtain ⟨_, _, h⟩ := ofAccess_eq_returned h
          exact .inl (state_of_returned h)
        · next hid0 =>
          split at h
          · exact .inl (state_of_returned h)
          · next hid1 =>
            exact .inr ⟨i, f, hid, two_le_of_ne hid hid0 hid1, hopen, by omega, h⟩

theorem sysRead_effect {m m' : Machine n} {virtualAddr charcount openFileId : BitVec 32}
    {junk : KernelBuf} {input : Nat → BitVec 8}
    (h : sysRead m s virtualAddr charcount openFileId junk input = .returned (m', s', r)) :
    CallEffect s (.readFile m virtualAddr charcount openFileId junk input) s' r := by
  rcases sysRead_cases h with rfl | ⟨i, f, hid, _, hopen, _, h⟩
  · exact .readNothing r
  · have hisSome : (s.fs.openFiles i).isSome := by rw [hopen]; rfl
    obtain ⟨⟨f', bytes, size⟩, _, h⟩ := ofOption_eq_returned h
    simp only at h
    split at h
    · obtain ⟨_, _, h⟩ := ofAccess_eq_returned h
      simp only [CallOutcome.returned.injEq, Prod.mk.injEq] at h
      obtain ⟨_, rfl, rfl⟩ := h
      exact .readSlot hid hisSome size
    · simp only [CallOutcome.returned.injEq, Prod.mk.injEq] at h
      obtain ⟨_, rfl, rfl⟩ := h
      exact .readSlot hid hisSome (-3)

/-- A write that passes the assertions has written all it was asked to. -/
theorem write_size {f f' : OpenFile} {files files' : HostFiles} {buffer : KernelBuf}
    {numBytes size : Int} (h : f.write files buffer numBytes = some (f', files', size)) :
    size = numBytes := by
  simp only [OpenFile.write, OpenFile.writeAt, Option.bind_eq_bind, Option.bind_eq_some_iff] at h
  obtain ⟨⟨files₁, size₁⟩, ⟨pos, _, h₁⟩, h⟩ := h
  simp only [Option.pure_def, Option.some.injEq, Prod.mk.injEq] at h h₁
  obtain ⟨_, _, rfl⟩ := h
  split at h₁
  · split at h₁
    · exact (Prod.mk.inj (Option.some.inj h₁)).2.symm
    · simp at h₁
  · split at h₁
    · exact (Prod.mk.inj (Option.some.inj h₁)).2.symm
    · simp at h₁

/-- A write leaves the file system alone or gets to an open file whose type is not 1. -/
theorem sysWrite_cases {m m' : Machine n} {virtualAddr charcount openFileId : BitVec 32}
    {junk : KernelBuf}
    (h : sysWrite m s virtualAddr charcount openFileId junk = .returned (m', s', r)) :
    s' = s ∨ ∃ (i : Fin numOpenFiles) (f : OpenFile) (m₁ : Machine n) (sysBuff : KernelBuf),
      openFileId.toInt = i ∧ 2 ≤ i.val ∧ s.fs.openFiles i = some f ∧ s.fs.type i ≠ 1 ∧
      writeSlot m₁ s charcount i f sysBuff = .returned (m', s', r) := by
  unfold sysWrite at h
  split at h
  · exact .inl (state_of_returned h)
  · obtain ⟨i, hid, h⟩ := atIndex_eq_returned h
    cases hopen : s.fs.openFiles i with
    | none =>
      simp only [hopen] at h
      exact .inl (state_of_returned h)
    | some f =>
      simp only [hopen] at h
      split at h
      · exact .inl (state_of_returned h)
      · next htype =>
        obtain ⟨⟨m₁, sysBuff⟩, _, h⟩ := ofAccess_eq_returned h
        simp only at h
        split at h
        · exact .inl (state_of_returned h)
        · next hid1 =>
          split at h
          · exact .inl (state_of_returned h)
          · next hid0 =>
            exact .inr ⟨i, f, m₁, sysBuff, hid, two_le_of_ne hid hid0 hid1, hopen, htype, h⟩

theorem sysWrite_effect {m m' : Machine n} {virtualAddr charcount openFileId : BitVec 32}
    {junk : KernelBuf}
    (h : sysWrite m s virtualAddr charcount openFileId junk = .returned (m', s', r)) :
    CallEffect s (.writeFile m virtualAddr charcount openFileId junk) s' r := by
  rcases sysWrite_cases h with rfl | ⟨i, f, m₁, sysBuff, hid, hi, hopen, htype, h⟩
  · exact .writeNothing r
  · obtain ⟨⟨f', files, size⟩, hwrite, h⟩ := ofOption_eq_returned h
    simp only [CallOutcome.returned.injEq, Prod.mk.injEq] at h
    obtain ⟨_, rfl, rfl⟩ := h
    rw [write_size hwrite]
    exact .writeSlot hid hi (by rw [hopen]; rfl) htype

/-- A seek is refused or gets to an open file. -/
theorem sysSeek_cases {pos id : BitVec 32} (h : sysSeek s pos id = .returned (s', r)) :
    (s' = s ∧ r = -1) ∨ ∃ (i : Fin numOpenFiles) (f f' : OpenFile) (length target : Int),
      id.toInt = i ∧ s.fs.openFiles i = some f ∧ f.length s.files = some length ∧
      target ≤ length ∧ f.seek target = some f' ∧
      s' = { s with fs := s.fs.setFile i (some f') } ∧ r = target := by
  have hrefused : CallOutcome.returned (s, -1) = .returned (s', r) → s' = s ∧ r = -1 := by
    intro h
    simp only [CallOutcome.returned.injEq, Prod.mk.injEq] at h
    exact ⟨h.1.symm, h.2.symm⟩
  unfold sysSeek at h
  split at h
  · exact .inl (hrefused h)
  · obtain ⟨i, hid, h⟩ := atIndex_eq_returned h
    cases hopen : s.fs.openFiles i with
    | none =>
      simp only [hopen] at h
      exact .inl (hrefused h)
    | some f =>
      simp only [hopen] at h
      split at h
      · exact .inl (hrefused h)
      · obtain ⟨length, hlength, h⟩ := ofOption_eq_returned h
        generalize (if pos.toInt = -1 then length else pos.toInt) = target at h
        simp only at h
        split at h
        · exact .inl (hrefused h)
        · next hrange =>
          obtain ⟨f', hseek, h⟩ := ofOption_eq_returned h
          simp only [CallOutcome.returned.injEq, Prod.mk.injEq] at h
          exact .inr ⟨i, f, f', length, target, hid, hopen, hlength, by omega, hseek, h.1.symm,
            h.2.symm⟩

theorem sysSeek_effect {pos id : BitVec 32} (h : sysSeek s pos id = .returned (s', r)) :
    CallEffect s (.seek pos id) s' r := by
  rcases sysSeek_cases h with ⟨rfl, rfl⟩ | ⟨i, f, f', length, target, hid, hopen, _, _, _, rfl, rfl⟩
  · exact .seekRefused
  · exact .seekSlot hid (by rw [hopen]; rfl) _

/-- A call that returns has one of the effects. -/
theorem outcome_effect {c : FileCall} (h : c.outcome s = .returned (s', r)) :
    CallEffect s c s' r := by
  cases c with
  | openFile m addr type junk found =>
    obtain ⟨m', h⟩ := map_snd_eq_returned h
    exact sysOpen_effect h
  | closeFile fileid => exact sysClose_effect h
  | readFile m virtualAddr charcount openFileId junk input =>
    obtain ⟨m', h⟩ := map_snd_eq_returned h
    exact sysRead_effect h
  | writeFile m virtualAddr charcount openFileId junk =>
    obtain ⟨m', h⟩ := map_snd_eq_returned h
    exact sysWrite_effect h
  | seek pos id => exact sysSeek_effect h

end Inversion

/-! ## The bounds of the arrays -/

/--
The call accesses no array outside its bounds, and refuses an id outside the table with a negative
answer, in the state it was called in.
-/
def IdChecked {α : Type} (id : BitVec 32) (o : CallOutcome α) (refused : Int → α) : Prop :=
  o ≠ .wild ∧
    (¬ (0 ≤ id.toInt ∧ id.toInt ≤ 9) → ∃ r, r < 0 ∧ o = .returned (refused r))

section Bounds

variable {α β : Type} {n : Nat}

theorem returned_ne_wild (a : α) : returned a ≠ .wild := nofun

theorem ofAccess_ne_wild {a : Access α} {k : α → CallOutcome β} (h : ∀ x, k x ≠ .wild) :
    ofAccess a k ≠ .wild := by
  cases a with
  | done x => exact h x
  | raised e => simp [ofAccess]
  | aborted => simp [ofAccess]

theorem ofOption_ne_wild {a : Option α} {k : α → CallOutcome β} (h : ∀ x, k x ≠ .wild) :
    ofOption a k ≠ .wild := by
  cases a with
  | none => simp [ofOption]
  | some x => exact h x

theorem atIndex_of_eq {i : Int} {j : Fin numOpenFiles} (h : i = j)
    (k : Fin numOpenFiles → CallOutcome β) : atIndex i k = k j := by
  have hj := j.isLt
  rw [atIndex, dif_pos ⟨by omega, by omega⟩]
  congr 1
  exact Fin.ext (by simp only; omega)

theorem atIndex_of_le {i : Int} (h : 0 ≤ i ∧ i ≤ 9) (k : Fin numOpenFiles → CallOutcome β) :
    ∃ j : Fin numOpenFiles, i = j ∧ atIndex i k = k j := by
  have hi : i.toNat < numOpenFiles := by unfold numOpenFiles; omega
  have heq : i = ((⟨i.toNat, hi⟩ : Fin numOpenFiles) : Nat) := by simp only; omega
  exact ⟨⟨i.toNat, hi⟩, heq, atIndex_of_eq heq k⟩

theorem atIndex_ne_wild {i : Int} (h : 0 ≤ i ∧ i ≤ 9) {k : Fin numOpenFiles → CallOutcome β}
    (hk : ∀ j, k j ≠ .wild) : atIndex i k ≠ .wild := by
  obtain ⟨j, _, heq⟩ := atIndex_of_le h k
  rw [heq]
  exact hk j

theorem sysClose_id_checked (s : FileState) (fileid : BitVec 32) :
    IdChecked fileid (sysClose s fileid) (fun r => (s, r)) := by
  unfold IdChecked sysClose
  by_cases hid : 0 ≤ fileid.toInt ∧ fileid.toInt ≤ 9
  · rw [if_pos hid]
    refine ⟨atIndex_ne_wild hid ?_, fun h => absurd hid h⟩
    intro j
    cases s.fs.openFiles j with
    | none => exact returned_ne_wild _
    | some f => exact returned_ne_wild _
  · rw [if_neg hid]
    exact ⟨returned_ne_wild _, fun _ => ⟨-1, by omega, rfl⟩⟩

theorem sysRead_id_checked (m : Machine n) (s : FileState)
    (virtualAddr charcount openFileId : BitVec 32) (junk : KernelBuf) (input : Nat → BitVec 8) :
    IdChecked openFileId (sysRead m s virtualAddr charcount openFileId junk input)
      (fun r => (m, s, r)) := by
  unfold IdChecked sysRead
  by_cases hid : 0 ≤ openFileId.toInt ∧ openFileId.toInt ≤ 9
  · rw [if_neg (by omega)]
    refine ⟨atIndex_ne_wild hid ?_, fun h => absurd hid h⟩
    intro j
    cases s.fs.openFiles j with
    | none => exact returned_ne_wild _
    | some f =>
      simp only
      split
      · exact nofun
      · split
        · exact ofAccess_ne_wild fun _ => returned_ne_wild _
        · split
          · exact returned_ne_wild _
          · refine ofOption_ne_wild fun ⟨f, bytes, size⟩ => ?_
            simp only
            split
            · exact ofAccess_ne_wild fun _ => returned_ne_wild _
            · exact returned_ne_wild _
  · rw [if_pos (by omega)]
    exact ⟨returned_ne_wild _, fun _ => ⟨-1, by omega, rfl⟩⟩

theorem sysWrite_id_checked (m : Machine n) (s : FileState)
    (virtualAddr charcount openFileId : BitVec 32) (junk : KernelBuf) :
    IdChecked openFileId (sysWrite m s virtualAddr charcount openFileId junk)
      (fun r => (m, s, r)) := by
  unfold IdChecked sysWrite
  by_cases hid : 0 ≤ openFileId.toInt ∧ openFileId.toInt ≤ 9
  · rw [if_neg (by omega)]
    refine ⟨atIndex_ne_wild hid ?_, fun h => absurd hid h⟩
    intro j
    cases s.fs.openFiles j with
    | none => exact returned_ne_wild _
    | some f =>
      simp only
      split
      · exact returned_ne_wild _
      · refine ofAccess_ne_wild fun x => ?_
        split
        · exact returned_ne_wild _
        · split
          · exact returned_ne_wild _
          · exact ofOption_ne_wild fun _ => returned_ne_wild _
  · rw [if_pos (by omega)]
    exact ⟨returned_ne_wild _, fun _ => ⟨-1, by omega, rfl⟩⟩

/-- `SysSeek` lets the ids 10 to 14 through to an array of 10 entries. -/
theorem sysSeek_id_checked_iff (s : FileState) (pos id : BitVec 32) :
    IdChecked id (sysSeek s pos id) (fun r => (s, r)) ↔ ¬ (10 ≤ id.toInt ∧ id.toInt ≤ 14) := by
  unfold IdChecked sysSeek
  by_cases hid : 0 ≤ id.toInt ∧ id.toInt ≤ 9
  · rw [if_neg (by omega)]
    refine iff_of_true ⟨atIndex_ne_wild hid ?_, fun h => absurd hid h⟩ (by omega)
    intro j
    cases s.fs.openFiles j with
    | none => exact returned_ne_wild _
    | some f =>
      simp only
      split
      · exact returned_ne_wild _
      · refine ofOption_ne_wild fun length => ?_
        generalize (if pos.toInt = -1 then length else pos.toInt) = target
        simp only
        split
        · exact returned_ne_wild _
        · exact ofOption_ne_wild fun _ => returned_ne_wild _
  · by_cases hwild : 10 ≤ id.toInt ∧ id.toInt ≤ 14
    · rw [if_neg (by omega)]
      refine iff_of_false (fun h => h.1 ?_) (fun h => h hwild)
      rw [atIndex, dif_neg]
      unfold numOpenFiles
      omega
    · rw [if_pos (by omega)]
      exact iff_of_true ⟨returned_ne_wild _, fun _ => ⟨-1, by omega, rfl⟩⟩ hwild

/-- A write through an open slot whose type is not 1 gets to the file. -/
theorem sysWrite_of_open {m : Machine n} {s : FileState}
    {virtualAddr charcount id : BitVec 32} {junk : KernelBuf} {i : Fin numOpenFiles} {f : OpenFile}
    (hid : id.toInt = i) (hi : 2 ≤ i.val) (hopen : s.fs.openFiles i = some f)
    (htype : s.fs.type i ≠ 1) :
    sysWrite m s virtualAddr charcount id junk =
      ofAccess (user2System m virtualAddr (charcount + 1) junk) fun x =>
        writeSlot x.1 s charcount i f x.2 := by
  have hlt : (i : Nat) < 10 := i.isLt
  obtain ⟨h0, h1⟩ := ne_console hid hi
  simp only [sysWrite, atIndex_of_eq hid, hopen, htype, h0, h1, if_false]
  rw [if_neg (by omega)]

/--
**Which ids reach the arrays.**

`Close`, `Read` and `Write` check the id against the size of the table, whatever stands in the
registers. `Seek` checks it against 14, and goes outside the arrays exactly on the ids from 10 to
14.
-/
theorem ids_in_range_iff (m : Machine n) (s : FileState) (r₄ r₅ id : BitVec 32) (junk : KernelBuf)
    (input : Nat → BitVec 8) :
    IdChecked id (sysClose s id) (fun r => (s, r)) ∧
    IdChecked id (sysRead m s r₄ r₅ id junk input) (fun r => (m, s, r)) ∧
    IdChecked id (sysWrite m s r₄ r₅ id junk) (fun r => (m, s, r)) ∧
    (IdChecked id (sysSeek s r₄ id) (fun r => (s, r)) ↔
      ¬ (10 ≤ id.toInt ∧ id.toInt ≤ 14)) :=
  ⟨sysClose_id_checked s id, sysRead_id_checked m s r₄ r₅ id junk input,
    sysWrite_id_checked m s r₄ r₅ id junk, sysSeek_id_checked_iff s r₄ id⟩

/-- `Seek(0, 12)` on the table as the constructor leaves it. -/
theorem seek_outside_table :
    ¬ IdChecked 12 (sysSeek (.start (fun _ => []) 0 1) 0 12)
      (fun r => (FileState.start (fun _ => []) 0 1, r)) := by
  intro h
  exact h.1 rfl

end Bounds

/-! ## The table in use -/

/--
The file system, and for each slot the type with which the `Open` that returned it was called, until
the slot is closed.
-/
structure FileRun where
  st : FileState
  opened : Fin numOpenFiles → Option (BitVec 32)

/-- What the answer of a call says about the slots. -/
def FileCall.note (answer : Int) (opened : Fin numOpenFiles → Option (BitVec 32)) :
    FileCall → Fin numOpenFiles → Option (BitVec 32)
  | .openFile _ _ type _ _, i => if 2 ≤ i.val ∧ answer = i then some type else opened i
  | .closeFile fileid, i => if answer = 0 ∧ fileid.toInt = i then none else opened i
  | _, i => opened i

namespace FileRun

/-- The file system as the constructor leaves it. -/
def start (files : HostFiles) (stdin stdout : Ino) : FileRun :=
  { st := .start files stdin stdout, opened := fun _ => none }

/-- One call that returns. -/
def step (r : FileRun) (c : FileCall) : Option FileRun :=
  match c.outcome r.st with
  | .returned (s, answer) => some { st := s, opened := c.note answer r.opened }
  | _ => none

theorem step_eq_some {r u : FileRun} {c : FileCall} (h : r.step c = some u) :
    ∃ s answer, c.outcome r.st = .returned (s, answer) ∧
      u = { st := s, opened := c.note answer r.opened } := by
  unfold step at h
  split at h
  · next s answer hout => exact ⟨s, answer, hout, (Option.some.inj h).symm⟩
  · simp at h

/-- Every open slot behind the consoles has the type it was opened with, and that is 0 or 1. -/
def Recorded (r : FileRun) : Prop :=
  ∀ i : Fin numOpenFiles, 2 ≤ i.val →
    r.opened i = (r.st.fs.openFiles i).map (fun _ => r.st.fs.type i) ∧
    ((r.st.fs.openFiles i).isSome → r.st.fs.type i = 0 ∨ r.st.fs.type i = 1)

theorem recorded_start (files : HostFiles) (stdin stdout : Ino) :
    (start files stdin stdout).Recorded := by
  intro i hi
  have h0 : i.val ≠ 0 := by omega
  have h1 : i.val ≠ 1 := by omega
  simp [start, FileState.start, FileSystem.new, h0, h1]

/-- Slot `i` is as it was. -/
def SameSlot (r u : FileRun) (i : Fin numOpenFiles) : Prop :=
  u.opened i = r.opened i ∧ (u.st.fs.openFiles i).isSome = (r.st.fs.openFiles i).isSome ∧
    ((r.st.fs.openFiles i).isSome → u.st.fs.type i = r.st.fs.type i)

theorem map_const_eq_ite {α β : Type} (o : Option α) (b : β) :
    (o.map fun _ => b) = if o.isSome then some b else none := by
  cases o <;> rfl

theorem recorded_of_sameSlot {r u : FileRun} {i : Fin numOpenFiles} (hi : 2 ≤ i.val)
    (h : r.Recorded) (hsame : SameSlot r u i) :
    u.opened i = (u.st.fs.openFiles i).map (fun _ => u.st.fs.type i) ∧
      ((u.st.fs.openFiles i).isSome → u.st.fs.type i = 0 ∨ u.st.fs.type i = 1) := by
  obtain ⟨hopened, hopen, htype⟩ := hsame
  obtain ⟨hrec, h01⟩ := h i hi
  rw [map_const_eq_ite] at hrec ⊢
  rw [hopened, hrec, hopen]
  by_cases hsome : (r.st.fs.openFiles i).isSome
  · rw [htype hsome]
    exact ⟨rfl, h01⟩
  · simp [hsome]

/-- What a step does to a slot behind the consoles: nothing, open it, or close it. -/
theorem slot_cases {r u : FileRun} {c : FileCall} (h : r.step c = some u) (i : Fin numOpenFiles)
    (hi : 2 ≤ i.val) :
    SameSlot r u i ∨
    (∃ type, u.opened i = some type ∧ (type = 0 ∨ type = 1) ∧ r.st.fs.openFiles i = none ∧
      (u.st.fs.openFiles i).isSome ∧ u.st.fs.type i = type) ∨
    (∃ fileid, c = .closeFile fileid ∧ fileid.toInt = i ∧ u.opened i = none ∧
      u.st.fs.openFiles i = none) := by
  obtain ⟨s, answer, hout, rfl⟩ := step_eq_some h
  cases outcome_effect hout with
  | openStdin | openStdout | openFull =>
    refine .inl ⟨?_, rfl, fun _ => rfl⟩
    simp only [FileCall.note]
    rw [if_neg (by omega)]
  | @openFailed _ _ _ _ _ _ j hfile hj hfree =>
    refine .inl ⟨?_, rfl, ?_⟩
    · simp only [FileCall.note]
      rw [if_neg (by omega)]
    · intro hopen
      have hij : i ≠ j := by
        rintro rfl
        rw [hfree] at hopen
        simp at hopen
      simp only [FileSystem.setType, Function.update_of_ne hij]
  | @openSlot _ _ _ type _ _ j hfile hj hfree htype =>
    by_cases hij : i = j
    · obtain rfl := hij
      refine .inr (.inl ⟨type, ?_, htype, hfree, ?_, ?_⟩)
      · simp [FileCall.note, hi]
      · simp [FileSystem.setFile]
      · simp [FileSystem.setFile, FileSystem.setType]
    · have hval : ((j : Nat) : Int) ≠ (i : Nat) := by
        intro h
        exact hij (Fin.ext (by omega))
      refine .inl ⟨?_, ?_, ?_⟩
      · simp only [FileCall.note]
        rw [if_neg (fun h => hval h.2)]
      · simp only [FileSystem.setFile, FileSystem.setType, Function.update_of_ne hij]
      · intro _
        simp only [FileSystem.setFile, FileSystem.setType, Function.update_of_ne hij]
  | closeRefused =>
    refine .inl ⟨?_, rfl, fun _ => rfl⟩
    simp only [FileCall.note]
    rw [if_neg (by omega)]
  | @closeSlot fileid j hid hopen =>
    by_cases hij : i = j
    · obtain rfl := hij
      refine .inr (.inr ⟨fileid, rfl, hid, ?_, ?_⟩)
      · simp [FileCall.note, hid]
      · simp [FileSystem.setFile]
    · have hval : fileid.toInt ≠ (i : Nat) := by
        rw [hid]
        intro h
        exact hij (Fin.ext (by omega))
      refine .inl ⟨?_, ?_, fun _ => rfl⟩
      · simp only [FileCall.note]
        rw [if_neg (fun h => hval h.2)]
      · simp only [FileSystem.setFile, Function.update_of_ne hij]
  | readNothing | writeNothing | seekRefused => exact .inl ⟨rfl, rfl, fun _ => rfl⟩
  | @readSlot _ _ _ _ _ _ _ j f hid hopen | @writeSlot _ _ _ _ _ _ j f files hid hj hopen htype
  | @seekSlot _ _ j f hid hopen =>
    refine .inl ⟨rfl, ?_, fun _ => rfl⟩
    by_cases hij : i = j
    · obtain rfl := hij
      simp [FileSystem.setFile, hopen]
    · simp only [FileSystem.setFile, Function.update_of_ne hij]

theorem recorded_step {r u : FileRun} {c : FileCall} (h : r.Recorded) (hs : r.step c = some u) :
    u.Recorded := by
  intro i hi
  rcases slot_cases hs i hi with hsame | ⟨type, hopened, h01, _, hopen, htype⟩ |
    ⟨_, _, _, hopened, hclosed⟩
  · exact recorded_of_sameSlot hi h hsame
  · rw [map_const_eq_ite, if_pos hopen, htype]
    exact ⟨hopened, fun _ => h01⟩
  · rw [hopened, hclosed]
    exact ⟨rfl, by simp⟩

/-! ## What every call keeps to -/

/-- What `Open` may answer, and what it may do to the slots. -/
def OpenAnswer {n : Nat} (m : Machine n) (addr : BitVec 32) (junk : KernelBuf) (s s' : FileState)
    (answer : Int) : Prop :=
  (answer = 0 ∧ Names m addr junk stdinName ∧ s' = s) ∨
  (answer = 1 ∧ Names m addr junk stdoutName ∧ s' = s) ∨
  (answer = -1 ∧ NamesFile m addr junk ∧ s'.fs.openFiles = s.fs.openFiles) ∨
  ∃ i : Fin numOpenFiles, answer = i ∧ 2 ≤ i.val ∧ NamesFile m addr junk ∧
    s.fs.openFiles i = none ∧ (s'.fs.openFiles i).isSome ∧
    ∀ j, j ≠ i → s'.fs.openFiles j = s.fs.openFiles j ∧ s'.fs.type j = s.fs.type j

/--
The discipline of one call `c` that leads from `r` to `s'`.

`answered`: `Open` answers -1, a console, or a slot that was free, and touches no other slot.
`kept`: an open slot stays open with its type unless it is this one that is closed.
`guarded`: a host file changes only through an id that was opened with type 0.
`served`: a write of a positive size through such an id is not refused.
-/
structure Discipline (r : FileRun) (c : FileCall) (s' : FileState) (answer : Int) : Prop where
  answered : ∀ {n : Nat} (m : Machine n) addr type junk found,
    c = .openFile m addr type junk found → OpenAnswer m addr junk r.st s' answer
  kept : ∀ i : Fin numOpenFiles, 2 ≤ i.val → (r.st.fs.openFiles i).isSome →
    (∀ fileid, c = .closeFile fileid → fileid.toInt ≠ i) →
    (s'.fs.openFiles i).isSome ∧ s'.fs.type i = r.st.fs.type i
  guarded : s'.files ≠ r.st.files → ∃ (n : Nat) (m : Machine n) (virtualAddr charcount id : _)
    (junk : _) (i : Fin numOpenFiles), c = .writeFile m virtualAddr charcount id junk ∧
      id.toInt = i ∧ 2 ≤ i.val ∧ r.opened i = some 0
  served : ∀ {n : Nat} (m : Machine n) virtualAddr charcount id junk (i : Fin numOpenFiles),
    c = .writeFile m virtualAddr charcount id junk → id.toInt = i → 2 ≤ i.val →
    r.opened i = some 0 → 0 < charcount.toInt → answer ≠ -2 ∧ answer ≠ -4

theorem openAnswer_of_effect {n : Nat} {m : Machine n} {addr type : BitVec 32} {junk : KernelBuf}
    {found : Option Ino} {s s' : FileState} {answer : Int}
    (h : CallEffect s (.openFile m addr type junk found) s' answer) :
    OpenAnswer m addr junk s s' answer := by
  cases h with
  | openStdin hname => exact .inl ⟨rfl, hname, rfl⟩
  | openStdout hname => exact .inr (.inl ⟨rfl, hname, rfl⟩)
  | openFull hfile => exact .inr (.inr (.inl ⟨rfl, hfile, rfl⟩))
  | openFailed hfile hi hfree => exact .inr (.inr (.inl ⟨rfl, hfile, rfl⟩))
  | @openSlot _ _ _ _ _ _ i hfile hi hfree htype =>
    refine .inr (.inr (.inr ⟨i, rfl, hi, hfile, hfree, by simp [FileSystem.setFile], ?_⟩))
    intro j hj
    simp only [FileSystem.setFile, FileSystem.setType, Function.update_of_ne hj, and_self]

/-- A slot opened with type 0 is open, and its type is still 0. -/
theorem Recorded.of_opened {r : FileRun} (h : r.Recorded) {i : Fin numOpenFiles} (hi : 2 ≤ i.val)
    {type : BitVec 32} (hopened : r.opened i = some type) :
    ∃ f, r.st.fs.openFiles i = some f ∧ r.st.fs.type i = type := by
  obtain ⟨hrec, _⟩ := h i hi
  rw [hopened] at hrec
  cases hopen : r.st.fs.openFiles i with
  | none =>
    rw [hopen] at hrec
    simp at hrec
  | some f =>
    rw [hopen] at hrec
    exact ⟨f, rfl, (Option.some.inj hrec).symm⟩

theorem discipline_of_step {r : FileRun} {c : FileCall} {s' : FileState} {answer : Int}
    (h : r.Recorded) (hout : c.outcome r.st = .returned (s', answer)) :
    Discipline r c s' answer where
  answered := by
    rintro n m addr type junk found rfl
    exact openAnswer_of_effect (outcome_effect hout)
  kept := by
    intro i hi hopen hnot
    have hstep : r.step c = some { st := s', opened := c.note answer r.opened } := by
      simp only [step, hout]
    rcases slot_cases hstep i hi with ⟨_, hsame, htype⟩ | ⟨_, _, _, hfree, _⟩ |
      ⟨fileid, hc, hid, _⟩
    · exact ⟨by rw [hsame]; exact hopen, htype hopen⟩
    · rw [hfree] at hopen
      simp at hopen
    · exact absurd hid (hnot fileid hc)
  guarded := by
    intro hne
    cases outcome_effect hout with
    | @writeSlot n m virtualAddr charcount id junk i f files hid hi hopen htype =>
      refine ⟨n, m, virtualAddr, charcount, id, junk, i, rfl, hid, hi, ?_⟩
      obtain ⟨hrec, h01⟩ := h i hi
      rw [map_const_eq_ite, if_pos hopen] at hrec
      rw [hrec]
      rcases h01 hopen with h0 | h1
      · rw [h0]
      · exact absurd h1 htype
    | _ => exact absurd rfl hne
  served := by
    rintro n m virtualAddr charcount id junk i rfl hid hi hopened hpos
    obtain ⟨f, hopen, htype⟩ := h.of_opened hi hopened
    obtain ⟨m', hout⟩ := map_snd_eq_returned hout
    rw [sysWrite_of_open hid hi hopen (by rw [htype]; decide)] at hout
    obtain ⟨⟨m₁, sysBuff⟩, _, hout⟩ := ofAccess_eq_returned hout
    obtain ⟨⟨f', files, size⟩, hwrite, hout⟩ := ofOption_eq_returned hout
    simp only [CallOutcome.returned.injEq, Prod.mk.injEq] at hout
    obtain ⟨_, _, rfl⟩ := hout
    rw [write_size hwrite]
    omega

/--
**The table of open files keeps its slots apart.**

Whatever file system calls any processes make, with whatever values in their registers, every call
that returns keeps the discipline, in every state that is reached. A `Seek` with an id outside the
table is the one call this does not speak of.
-/
theorem run_slots_keep_type {files : HostFiles} {stdin stdout : Ino} {cs : List FileCall}
    {r : FileRun} (h : run step (start files stdin stdout) cs = some r) :
    AllSteps step (fun r c => ∀ s' answer, c.outcome r.st = .returned (s', answer) →
      Discipline r c s' answer) (start files stdin stdout) cs ∧
    (∀ c s' answer, c.outcome r.st = .returned (s', answer) → Discipline r c s' answer) ∧
    r.Recorded := by
  have hall : AllSteps step (fun _ _ => True) (start files stdin stdout) cs :=
    allSteps_of_forall fun _ _ => trivial
  obtain ⟨hrec, hsteps⟩ := run_guarded
    (fun r c u hinv _ hs => ⟨recorded_step hinv hs, fun s' answer hout =>
      discipline_of_step hinv hout⟩)
    (recorded_start files stdin stdout) hall h
  exact ⟨hsteps, fun c s' answer hout => discipline_of_step hrec hout, hrec⟩

/-- A page of memory that holds the name `a`. -/
def namePage : Machine 1 where
  mainMemory := fun i => if i.val = 0 then 97 else 0
  tlb := none
  pageTable := some fun _ =>
    { virtualPage := 0, physicalPage := 0, valid := true, readOnly := false, use := false,
      dirty := false }

/-- `Open("a", 1)`, a refused write through it, `Close`, and `Open("a", 0)` into the same slot. -/
theorem run_slots_keep_type_reopened :
    ∃ r, run step (start (fun _ => []) 0 1)
        [.openFile namePage 0 1 (fun _ => 0) (some 7), .writeFile namePage 0 1 2 (fun _ => 0),
          .closeFile 2, .openFile namePage 0 0 (fun _ => 0) (some 7)] = some r ∧
      r.opened ⟨2, by decide⟩ = some 0 ∧ r.Recorded := by
  refine ⟨_, rfl, rfl, ?_⟩
  have hrun : run step (start (fun _ => []) 0 1)
      [.openFile namePage 0 1 (fun _ => 0) (some 7), .writeFile namePage 0 1 2 (fun _ => 0),
        .closeFile 2, .openFile namePage 0 0 (fun _ => 0) (some 7)] = some _ := rfl
  exact (run_slots_keep_type hrun).2.2

/-! ## The consoles -/

/-- Both consoles are open, and no read or write of them is answered with -4. -/
def ConsolesOpen (r : FileRun) : Prop :=
  (∀ i : Fin numOpenFiles, i.val < 2 → (r.st.fs.openFiles i).isSome) ∧
  ∀ {n : Nat} (m : Machine n) virtualAddr charcount id junk input s', id = 0 ∨ id = 1 →
    (FileCall.readFile m virtualAddr charcount id junk input).outcome r.st ≠ .returned (s', -4) ∧
    (FileCall.writeFile m virtualAddr charcount id junk).outcome r.st ≠ .returned (s', -4)

/-- The call does not close a console. -/
def LeavesConsoles (c : FileCall) : Prop := ∀ id, c = .closeFile id → id ≠ 0 ∧ id ≠ 1

theorem consolesOpen_of_isSome {r : FileRun}
    (h : ∀ i : Fin numOpenFiles, i.val < 2 → (r.st.fs.openFiles i).isSome) : r.ConsolesOpen := by
  refine ⟨h, ?_⟩
  intro n m virtualAddr charcount id junk input s' hid
  have hindex : ∃ i : Fin numOpenFiles, i.val < 2 ∧ id.toInt = i := by
    rcases hid with rfl | rfl
    · exact ⟨⟨0, by decide⟩, by decide, rfl⟩
    · exact ⟨⟨1, by decide⟩, by decide, rfl⟩
  obtain ⟨i, hi, hid'⟩ := hindex
  obtain ⟨f, hf⟩ := Option.isSome_iff_exists.mp (h i hi)
  have hrange : ¬ (id.toInt > 9 ∨ id.toInt < 0) := by omega
  constructor
  · intro hout
    obtain ⟨m', hout⟩ := map_snd_eq_returned hout
    simp only [sysRead, hrange, if_false, atIndex_of_eq hid', hf] at hout
    split at hout
    · simp at hout
    · split at hout
      · obtain ⟨_, _, hout⟩ := ofAccess_eq_returned hout
        simp only [CallOutcome.returned.injEq, Prod.mk.injEq] at hout
        omega
      · simp [hid.resolve_left ‹_›] at hout
  · intro hout
    obtain ⟨m', hout⟩ := map_snd_eq_returned hout
    simp only [sysWrite, hrange, if_false, atIndex_of_eq hid', hf] at hout
    split at hout
    · simp at hout
    · obtain ⟨x, _, hout⟩ := ofAccess_eq_returned hout
      split at hout
      · simp only [CallOutcome.returned.injEq, Prod.mk.injEq] at hout
        omega
      · simp [hid.resolve_right ‹_›] at hout

/-- What a step leaves of a console. -/
theorem console_step {r u : FileRun} {c : FileCall} (hs : r.step c = some u)
    (i : Fin numOpenFiles) (hi : i.val < 2) (hopen : (r.st.fs.openFiles i).isSome) :
    (u.st.fs.openFiles i).isSome ↔ ∀ id, c = .closeFile id → id.toInt ≠ i := by
  obtain ⟨s, answer, hout, rfl⟩ := step_eq_some hs
  have hkept : ∀ {j : Fin numOpenFiles} {f : OpenFile},
      ((r.st.fs.setFile j (some f)).openFiles i).isSome := by
    intro j f
    by_cases hij : i = j
    · simp [FileSystem.setFile, hij]
    · simp only [FileSystem.setFile, Function.update_of_ne hij]
      exact hopen
  cases outcome_effect hout with
  | openStdin | openStdout | openFull | openFailed | readNothing | writeNothing | seekRefused =>
    exact iff_of_true hopen (by simp)
  | readSlot | writeSlot | seekSlot => exact iff_of_true hkept (by simp)
  | @openSlot _ _ _ _ _ _ j hfile hj =>
    refine iff_of_true ?_ (by simp)
    have hij : i ≠ j := by
      rintro rfl
      omega
    simp only [FileSystem.setFile, FileSystem.setType, Function.update_of_ne hij]
    exact hopen
  | @closeRefused fileid =>
    refine iff_of_true hopen ?_
    rintro id hc hid
    obtain rfl := FileCall.closeFile.inj hc
    -- `Close` refuses only what is not open
    have hlt := i.isLt
    obtain ⟨f, hf⟩ := Option.isSome_iff_exists.mp hopen
    simp only [FileCall.outcome, sysClose, atIndex_of_eq hid, hf] at hout
    rw [if_pos (by omega)] at hout
    simp at hout
  | @closeSlot fileid j hid =>
    by_cases hij : i = j
    · refine iff_of_false (by simp [FileSystem.setFile, hij]) ?_
      intro h
      exact h fileid rfl (by rw [hid, hij])
    · refine iff_of_true ?_ ?_
      · simp only [FileSystem.setFile, Function.update_of_ne hij]
        exact hopen
      · intro id hc hid'
        obtain rfl := FileCall.closeFile.inj hc
        rw [hid] at hid'
        exact hij (Fin.ext (by omega))

theorem consolesOpen_step (r : FileRun) (c : FileCall) (u : FileRun) (h : r.ConsolesOpen)
    (hs : r.step c = some u) : u.ConsolesOpen ↔ LeavesConsoles c := by
  have hslot := fun i hi => console_step hs i hi (h.1 i hi)
  constructor
  · intro hu id hc
    have h0 := (hslot ⟨0, by decide⟩ (by decide)).mp (hu.1 _ (by decide)) id hc
    have h1 := (hslot ⟨1, by decide⟩ (by decide)).mp (hu.1 _ (by decide)) id hc
    constructor
    · rintro rfl
      exact h0 rfl
    · rintro rfl
      exact h1 rfl
  · intro hc
    refine consolesOpen_of_isSome fun i hi => (hslot i hi).mpr ?_
    intro id hid heq
    obtain ⟨h0, h1⟩ := hc id hid
    exact absurd (two_le_of_ne heq h0 h1) (by omega)

theorem consolesOpen_start (files : HostFiles) (stdin stdout : Ino) :
    (start files stdin stdout).ConsolesOpen := by
  refine consolesOpen_of_isSome ?_
  intro i hi
  have h01 : i.val = 0 ∨ i.val = 1 := by omega
  rcases h01 with h | h <;> simp [start, FileState.start, FileSystem.new, h]

/--
**When the consoles stay open.**

Nothing keeps a process from closing the ids 0 and 1, and `findFreeSlot` never gives them out again.
The consoles are open in every state of a run, for all processes, exactly when no call closes them.
-/
theorem run_consoles_open_iff {files : HostFiles} {stdin stdout : Ino} {cs : List FileCall}
    {r : FileRun} (h : run step (start files stdin stdout) cs = some r) :
    AllStates step ConsolesOpen (start files stdin stdout) cs ↔ ∀ c ∈ cs, LeavesConsoles c := by
  rw [allStates_iff_allSteps consolesOpen_step (consolesOpen_start files stdin stdout) h]
  exact allSteps_iff_forall h

/-- `Open("a", 0)` and `Close` of what it returned. -/
theorem run_consoles_open_file_closed :
    AllStates step ConsolesOpen (start (fun _ => []) 0 1)
      [.openFile namePage 0 0 (fun _ => 0) (some 7), .closeFile 2] := by
  refine (run_consoles_open_iff rfl).mpr ?_
  intro c hc id hid
  simp only [List.mem_cons, List.not_mem_nil, or_false] at hc
  rcases hc with rfl | rfl
  · simp at hid
  · obtain rfl := FileCall.closeFile.inj hid
    decide

/-- After `Close(0)` a read of the console is answered with -4. -/
theorem closed_console_not_usable :
    ∃ r, run step (start (fun _ => []) 0 1) [.closeFile 0] = some r ∧
      (FileCall.readFile namePage 0 1 0 (fun _ => 0) (fun _ => 0)).outcome r.st
        = .returned (r.st, -4) ∧
      ¬ r.ConsolesOpen := by
  refine ⟨_, rfl, rfl, ?_⟩
  intro h
  have := h.1 ⟨0, by decide⟩ (by decide)
  simp [FileSystem.setFile] at this

end FileRun

end Nachos
