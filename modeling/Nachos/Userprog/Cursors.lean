import Nachos.Userprog.FileBytes

/-!
# The cursor of an open file

`OpenFile::Read` and `OpenFile::Write` add what the host has answered to `currentOffset`, and the
host answers -1 to a transfer of size -1. `WriteFile` asserts that the answer is the size, and so it
is; every other negative size is caught by an assertion or by the allocation of the buffer.

* `outcome_cursors` — what a call that returns does to the cursors
* `run_cursorsFit` — no cursor leaves the range of `int`
* `cursors_safe_iff` — they stay good exactly as long as no transfer of size -1 gets to a file
-/

namespace Nachos

open Base CallOutcome

variable {n : Nat}

/-- The cursor of every open file is a position that `Lseek` accepts. -/
def CursorsValid (r : FileRun) : Prop :=
  ∀ i f, r.st.fs.openFiles i = some f → 0 ≤ f.currentOffset ∧ (lseek f.currentOffset).isSome

/-- Every file that was open is open, with the same cursor, and no other. -/
def SameCursors (s s' : FileState) : Prop :=
  ∀ i, (s'.fs.openFiles i).map OpenFile.currentOffset =
    (s.fs.openFiles i).map OpenFile.currentOffset

/-- A call with a negative answer leaves the cursors alone. -/
def FailureKeepsCursors (r : FileRun) (c : FileCall) : Prop :=
  ∀ s answer, c.outcome r.st = .returned (s, answer) → answer < 0 → SameCursors r.st s

/-- A transfer of size -1 that gets as far as an open file. -/
def FileCall.MovesBack (s : FileState) : FileCall → Prop
  | .readFile _ _ charcount openFileId _ _ =>
    charcount = -1 ∧ ∃ i : Fin numOpenFiles, openFileId.toInt = i ∧ 2 ≤ i.val ∧
      (s.fs.openFiles i).isSome
  | .writeFile _ _ charcount openFileId _ =>
    charcount = -1 ∧ ∃ i : Fin numOpenFiles, openFileId.toInt = i ∧ 2 ≤ i.val ∧
      (s.fs.openFiles i).isSome ∧ s.fs.type i ≠ 1
  | _ => False

theorem lseek_isSome_iff {offset : Int} : (lseek offset).isSome ↔ 0 ≤ offset := by
  unfold lseek
  split
  · next h => exact iff_of_true rfl h
  · next h => exact iff_of_false (by simp) h

/-! ## One transfer -/

section Transfer

variable {f f' : OpenFile} {files files' : HostFiles} {numBytes : Int}

/-- A read of a size that is not negative moves the cursor forward by what it answers. -/
theorem read_forward {bytes : List (BitVec 8)} {size : Int}
    (h : f.read files numBytes = some (f', bytes, size)) (hnum : 0 ≤ numBytes) :
    0 ≤ f.currentOffset ∧ f' = { f with currentOffset := f.currentOffset + size } ∧ 0 ≤ size := by
  by_cases hoff : 0 ≤ f.currentOffset
  · rw [OpenFile.read_of_nonneg hoff hnum] at h
    simp only [Option.some.injEq, Prod.mk.injEq] at h
    obtain ⟨rfl, rfl, rfl⟩ := h
    exact ⟨hoff, rfl, by omega⟩
  · simp [OpenFile.read, OpenFile.readAt, lseek, hoff] at h

/-- A write that passes the assertions, but for the size -1. -/
theorem write_forward {buffer : KernelBuf} {size : Int}
    (h : f.write files buffer numBytes = some (f', files', size)) (hnum : numBytes ≠ -1) :
    0 ≤ f.currentOffset ∧ f' = { f with currentOffset := f.currentOffset + size } ∧ 0 ≤ size := by
  by_cases hoff : 0 ≤ f.currentOffset
  · by_cases hneg : numBytes < 0
    · simp [OpenFile.write, OpenFile.writeAt, lseek, hoff, hneg, hnum] at h
    · rw [OpenFile.write_of_nonneg hoff (by omega)] at h
      split at h
      · simp only [Option.some.injEq, Prod.mk.injEq] at h
        obtain ⟨rfl, _, rfl⟩ := h
        exact ⟨hoff, rfl, by omega⟩
      · simp at h
  · simp [OpenFile.write, OpenFile.writeAt, lseek, hoff] at h

/-- The size -1 moves the cursor back. -/
theorem read_back (hoff : 0 ≤ f.currentOffset) :
    f.read files (-1) = some ({ f with currentOffset := f.currentOffset + -1 }, [], -1) := by
  simp [OpenFile.read, OpenFile.readAt, lseek, hoff]

theorem write_back (buffer : KernelBuf) (hoff : 0 ≤ f.currentOffset) :
    f.write files buffer (-1) =
      some ({ f with currentOffset := f.currentOffset + -1 }, files, -1) := by
  simp [OpenFile.write, OpenFile.writeAt, lseek, hoff]

theorem seek_eq_some {pos : Int} (h : f.seek pos = some f') : 0 ≤ pos ∧ f'.currentOffset = pos := by
  unfold OpenFile.seek lseek at h
  split at h
  · next hpos =>
    simp only [Option.bind_eq_bind, Option.bind_some, Option.pure_def, Option.some.injEq] at h
    rw [← h]
    exact ⟨hpos, Int.toNat_of_nonneg hpos⟩
  · simp at h

end Transfer

/-! ## One call -/

section Calls

variable {s s' : FileState} {c : FileCall} {answer : Int}

/-- The table is as it was, or one of its slots was given a good cursor and the call succeeded. -/
def CursorEffect (s s' : FileState) (answer : Int) : Prop :=
  s'.fs.openFiles = s.fs.openFiles ∨
  0 ≤ answer ∧ ∃ (i : Fin numOpenFiles) (f : Option OpenFile),
    s'.fs.openFiles = Function.update s.fs.openFiles i f ∧ ∀ g, f = some g → 0 ≤ g.currentOffset

theorem setFile_same {fs : FileSystem} {i : Fin numOpenFiles} {f : OpenFile}
    (h : fs.openFiles i = some f) : (fs.setFile i (some f)).openFiles = fs.openFiles := by
  simp only [FileSystem.setFile, ← h, Function.update_eq_self]

theorem readSlot_cursors {m m' : Machine n} {virtualAddr charcount : BitVec 32}
    {i : Fin numOpenFiles} {f : OpenFile} {sysBuff : KernelBuf} (hopen : s.fs.openFiles i = some f)
    (hsize : 0 ≤ charcount.toInt)
    (h : readSlot m s virtualAddr charcount i f sysBuff = .returned (m', s', answer)) :
    CursorEffect s s' answer := by
  obtain ⟨⟨f', bytes, size⟩, hread, h⟩ := ofOption_eq_returned h
  obtain ⟨hoff, rfl, hnonneg⟩ := read_forward hread hsize
  simp only at h
  split at h
  · obtain ⟨_, _, h⟩ := ofAccess_eq_returned h
    simp only [CallOutcome.returned.injEq, Prod.mk.injEq] at h
    obtain ⟨_, rfl, rfl⟩ := h
    refine .inr ⟨hnonneg, i, _, rfl, ?_⟩
    rintro g ⟨⟩
    exact Int.add_nonneg hoff hnonneg
  · -- nothing was read, and 0 is added to the cursor
    have hzero : size = 0 := by omega
    simp only [CallOutcome.returned.injEq, Prod.mk.injEq] at h
    obtain ⟨_, rfl, rfl⟩ := h
    refine .inl ?_
    rw [hzero, Int.add_zero]
    exact setFile_same hopen

theorem writeSlot_cursors {m m' : Machine n} {charcount : BitVec 32} {i : Fin numOpenFiles}
    {f : OpenFile} {sysBuff : KernelBuf} (hsize : charcount.toInt ≠ -1)
    (h : writeSlot m s charcount i f sysBuff = .returned (m', s', answer)) :
    CursorEffect s s' answer := by
  obtain ⟨⟨f', files, size⟩, hwrite, h⟩ := ofOption_eq_returned h
  obtain ⟨hoff, rfl, hnonneg⟩ := write_forward hwrite hsize
  simp only [CallOutcome.returned.injEq, Prod.mk.injEq] at h
  obtain ⟨_, rfl, rfl⟩ := h
  refine .inr ⟨hnonneg, i, _, rfl, ?_⟩
  rintro g ⟨⟩
  exact Int.add_nonneg hoff hnonneg

/-- When the buffer with one byte more can be allocated, only the size -1 is negative. -/
theorem size_of_add_one {charcount : BitVec 32} (h : 0 ≤ (charcount + 1).toInt)
    (hne : charcount ≠ -1) : 0 ≤ charcount.toInt := by
  by_contra hneg
  rw [toInt_add_one (by omega)] at h
  exact hne (BitVec.eq_of_toInt_eq (show charcount.toInt = -1 by omega))

/-- A call that moves nothing back. -/
theorem outcome_cursors (hout : c.outcome s = .returned (s', answer)) (hback : ¬ c.MovesBack s) :
    CursorEffect s s' answer := by
  cases c with
  | readFile m virtualAddr charcount openFileId junk input =>
    obtain ⟨m', h⟩ := map_snd_eq_returned hout
    rcases sysRead_cases h with rfl | ⟨i, f, hid, hi, hopen, hadd, h⟩
    · exact .inl rfl
    · have hsize : charcount ≠ -1 := fun hc => hback ⟨hc, i, hid, hi, by rw [hopen]; rfl⟩
      exact readSlot_cursors hopen (size_of_add_one hadd hsize) h
  | writeFile m virtualAddr charcount openFileId junk =>
    obtain ⟨m', h⟩ := map_snd_eq_returned hout
    rcases sysWrite_cases h with rfl | ⟨i, f, m₁, sysBuff, hid, hi, hopen, htype, h⟩
    · exact .inl rfl
    · refine writeSlot_cursors ?_ h
      intro hc
      exact hback ⟨BitVec.eq_of_toInt_eq hc, i, hid, hi, by rw [hopen]; rfl, htype⟩
  | seek pos id =>
    rcases sysSeek_cases hout with
      ⟨rfl, _⟩ | ⟨i, f, f', length, target, _, _, _, _, hseek, rfl, rfl⟩
    · exact .inl rfl
    · obtain ⟨hpos, hcursor⟩ := seek_eq_some hseek
      refine .inr ⟨hpos, i, _, rfl, ?_⟩
      rintro g ⟨⟩
      rw [hcursor]
      exact hpos
  | openFile m addr type junk found =>
    cases outcome_effect hout with
    | openStdin | openStdout | openFull | openFailed => exact .inl rfl
    | @openSlot _ _ _ _ _ _ i =>
      refine .inr ⟨by omega, i, _, rfl, ?_⟩
      rintro g ⟨⟩
      exact Int.le_refl 0
  | closeFile fileid =>
    cases outcome_effect hout with
    | closeRefused => exact .inl rfl
    | @closeSlot _ i => exact .inr ⟨Int.le_refl 0, i, none, rfl, by simp⟩

theorem CursorEffect.nonneg (h : CursorEffect s s' answer)
    (hs : ∀ i f, s.fs.openFiles i = some f → 0 ≤ f.currentOffset) :
    ∀ i f, s'.fs.openFiles i = some f → 0 ≤ f.currentOffset := by
  intro i f hf
  rcases h with hsame | ⟨_, j, g, hset, hg⟩
  · rw [hsame] at hf
    exact hs i f hf
  · rw [hset] at hf
    by_cases hij : i = j
    · rw [hij, Function.update_self] at hf
      exact hg f hf
    · rw [Function.update_of_ne hij] at hf
      exact hs i f hf

theorem CursorEffect.sameCursors (h : CursorEffect s s' answer) (hneg : answer < 0) :
    SameCursors s s' := by
  rcases h with hsame | ⟨hanswer, _⟩
  · intro i
    rw [hsame]
  · omega

end Calls

/-- A call that moves a good cursor back fails, and leaves that cursor changed. -/
theorem movesBack_fails {r : FileRun} {c : FileCall} (hr : CursorsValid r) (h : c.MovesBack r.st) :
    ¬ FailureKeepsCursors r c := by
  intro hkeeps
  -- the answer is negative, and slot `i` holds its file one position further back
  suffices hback : ∃ s answer i f, c.outcome r.st = .returned (s, answer) ∧ answer < 0 ∧
      r.st.fs.openFiles i = some f ∧
      s.fs.openFiles i = some { f with currentOffset := f.currentOffset + -1 } by
    obtain ⟨s, answer, i, f, hout, hneg, hf, hf'⟩ := hback
    have hsame := hkeeps s answer hout hneg i
    rw [hf, hf'] at hsame
    simp only [Option.map_some, Option.some.injEq] at hsame
    omega
  cases c with
  | readFile m virtualAddr charcount openFileId junk input =>
    obtain ⟨rfl, i, hid, hi, hopen⟩ := h
    obtain ⟨f, hf⟩ := Option.isSome_iff_exists.mp hopen
    let f' := { f with currentOffset := f.currentOffset + -1 }
    refine ⟨{ r.st with fs := r.st.fs.setFile i (some f') }, -3, i, f, ?_, by omega, hf,
      FileSystem.setFile_self r.st.fs i _⟩
    have hone : ¬ ((-1 : BitVec 32) + 1).toInt < 0 := by decide
    have hsize : (-1 : BitVec 32).toInt = -1 := by decide
    simp only [FileCall.outcome, sysRead_of_open hid hi hf, if_neg hone, readSlot, hsize,
      read_back (hr i f hf).1, ofOption]
    rfl
  | writeFile m virtualAddr charcount openFileId junk =>
    obtain ⟨rfl, i, hid, hi, hopen, htype⟩ := h
    obtain ⟨f, hf⟩ := Option.isSome_iff_exists.mp hopen
    let f' := { f with currentOffset := f.currentOffset + -1 }
    refine ⟨{ r.st with fs := r.st.fs.setFile i (some f') }, -1, i, f, ?_, by omega, hf,
      FileSystem.setFile_self r.st.fs i _⟩
    have hcopy : user2System m virtualAddr (-1 + 1) junk = .done (m, junk) := rfl
    have hsize : (-1 : BitVec 32).toInt = -1 := by decide
    simp only [FileCall.outcome, sysWrite_of_open hid hi hf htype, hcopy, ofAccess, writeSlot,
      hsize, write_back junk (hr i f hf).1, ofOption]
    rfl
  | openFile m addr type junk found => exact h.elim
  | closeFile fileid => exact h.elim
  | seek pos id => exact h.elim

/-- The consoles are opened at their start. -/
theorem start_cursor {files : HostFiles} {stdin stdout : Ino} {i : Fin numOpenFiles} {f : OpenFile}
    (hf : (FileRun.start files stdin stdout).st.fs.openFiles i = some f) : f.currentOffset = 0 := by
  simp only [FileRun.start, FileState.start, FileSystem.new] at hf
  split at hf
  · rw [← Option.some.inj hf]
    rfl
  · split at hf
    · rw [← Option.some.inj hf]
      rfl
    · simp at hf

/-! ## The range of `int` -/

section Range

variable {s s' : FileState} {answer : Int}

/-- Every file of the host has a length that fits the `off_t`, and every cursor is in that range. -/
def CursorsFit (s : FileState) : Prop :=
  (∀ ino, (s.files ino).length ≤ maxFileSize) ∧
  ∀ i f, s.fs.openFiles i = some f → f.currentOffset ≤ maxFileSize

theorem CursorsFit.setFile (h : CursorsFit s) {files : HostFiles}
    (hfiles : ∀ ino, (files ino).length ≤ maxFileSize) {i : Fin numOpenFiles} {f : Option OpenFile}
    (hf : ∀ g, f = some g → g.currentOffset ≤ maxFileSize) :
    CursorsFit { files := files, fs := s.fs.setFile i f } := by
  refine ⟨hfiles, ?_⟩
  intro j g hg
  by_cases hji : j = i
  · rw [hji, FileSystem.setFile_self] at hg
    exact hf g hg
  · simp only [FileSystem.setFile, Function.update_of_ne hji] at hg
    exact h.2 j g hg

/-- A read ends at the end of the file or where it began. -/
theorem read_cursor_le {f f' : OpenFile} {files : HostFiles} {numBytes size : Int}
    {bytes : List (BitVec 8)} (h : f.read files numBytes = some (f', bytes, size))
    (hlen : (files f.file).length ≤ maxFileSize) (hf : f.currentOffset ≤ maxFileSize) :
    f'.currentOffset ≤ maxFileSize := by
  by_cases hnum : 0 ≤ numBytes
  · obtain ⟨hoff, _⟩ := read_forward h hnum
    rw [OpenFile.read_of_nonneg hoff hnum] at h
    simp only [length_hostRead, Option.some.injEq, Prod.mk.injEq] at h
    rw [← h.1]
    simp only
    omega
  · simp only [OpenFile.read, OpenFile.readAt, Option.bind_eq_bind, Option.bind_eq_some_iff,
      Option.pure_def] at h
    obtain ⟨⟨bytes', numRead⟩, ⟨pos, _, hread⟩, h⟩ := h
    rw [if_pos (by omega)] at hread
    simp only [Option.some.injEq, Prod.mk.injEq] at h hread
    rw [← h.1, ← hread.2]
    simp only
    omega

/-- A write ends in the range of the `off_t`, and the file with it. -/
theorem write_fits {f f' : OpenFile} {files files' : HostFiles} {buffer : KernelBuf}
    {numBytes size : Int} (h : f.write files buffer numBytes = some (f', files', size))
    (hlen : ∀ ino, (files ino).length ≤ maxFileSize) (hf : f.currentOffset ≤ maxFileSize) :
    f'.currentOffset ≤ maxFileSize ∧ ∀ ino, (files' ino).length ≤ maxFileSize := by
  obtain rfl := write_size h
  by_cases hback : size = -1
  · simp only [hback, OpenFile.write, OpenFile.writeAt, Option.bind_eq_bind,
      Option.bind_eq_some_iff, Option.pure_def] at h
    obtain ⟨⟨files₁, numWritten⟩, ⟨pos, _, hwrite⟩, h⟩ := h
    rw [if_pos (by omega), if_pos trivial] at hwrite
    simp only [Option.some.injEq, Prod.mk.injEq] at h hwrite
    rw [← h.1, ← h.2.1, ← hwrite.1, ← hwrite.2]
    exact ⟨by simp only; omega, hlen⟩
  · obtain ⟨hoff, _, hnum⟩ := write_forward h hback
    rw [OpenFile.write_of_nonneg hoff hnum] at h
    split at h
    · next hroom =>
      simp only [Option.some.injEq, Prod.mk.injEq] at h
      rw [← h.1, ← h.2.1]
      refine ⟨by simp only; omega, ?_⟩
      intro ino
      by_cases hino : ino = f.file
      · have hle := length_hostWrite_le (files f.file) f.currentOffset.toNat
          (bufferBytes buffer size.toNat)
        rw [length_bufferBytes] at hle
        have hold := hlen f.file
        rw [hino, Function.update_self]
        omega
      · rw [Function.update_of_ne hino]
        exact hlen ino
    · simp at h

/-- No call leaves the range. -/
theorem outcome_cursorsFit {c : FileCall} (hout : c.outcome s = .returned (s', answer))
    (hs : CursorsFit s) : CursorsFit s' := by
  cases c with
  | readFile m virtualAddr charcount openFileId junk input =>
    obtain ⟨m', h⟩ := map_snd_eq_returned hout
    rcases sysRead_cases h with rfl | ⟨i, f, _, _, hopen, _, h⟩
    · exact hs
    · obtain ⟨⟨f', bytes, size⟩, hread, h⟩ := ofOption_eq_returned h
      have hcursor := read_cursor_le hread (hs.1 f.file) (hs.2 i f hopen)
      have hfit : CursorsFit { s with fs := s.fs.setFile i (some f') } :=
        hs.setFile hs.1 (by rintro g ⟨⟩; exact hcursor)
      simp only at h
      split at h
      · obtain ⟨_, _, h⟩ := ofAccess_eq_returned h
        simp only [CallOutcome.returned.injEq, Prod.mk.injEq] at h
        rw [← h.2.1]
        exact hfit
      · simp only [CallOutcome.returned.injEq, Prod.mk.injEq] at h
        rw [← h.2.1]
        exact hfit
  | writeFile m virtualAddr charcount openFileId junk =>
    obtain ⟨m', h⟩ := map_snd_eq_returned hout
    rcases sysWrite_cases h with rfl | ⟨i, f, m₁, sysBuff, _, _, hopen, _, h⟩
    · exact hs
    · obtain ⟨⟨f', files, size⟩, hwrite, h⟩ := ofOption_eq_returned h
      obtain ⟨hcursor, hfiles⟩ := write_fits hwrite hs.1 (hs.2 i f hopen)
      simp only [CallOutcome.returned.injEq, Prod.mk.injEq] at h
      rw [← h.2.1]
      exact hs.setFile hfiles (by rintro g ⟨⟩; exact hcursor)
  | seek pos id =>
    obtain ⟨rfl, _⟩ | ⟨i, f, f', length, target, _, _, hlength, hle, hseek, rfl, rfl⟩ :=
      sysSeek_cases hout
    · exact hs
    · obtain ⟨_, hcursor⟩ := seek_eq_some hseek
      have hlen := hs.1 f.file
      rw [OpenFile.length, if_pos hlen] at hlength
      have hlength := Option.some.inj hlength
      exact hs.setFile hs.1 (by rintro g ⟨⟩; omega)
  | openFile m addr type junk found =>
    cases outcome_effect hout with
    | openStdin | openStdout | openFull | openFailed => exact hs
    | @openSlot _ _ _ _ ino i =>
      exact hs.setFile hs.1 (by rintro g ⟨⟩; exact Int.natCast_nonneg _)
  | closeFile fileid =>
    cases outcome_effect hout with
    | closeRefused => exact hs
    | closeSlot => exact hs.setFile hs.1 (by simp)

/-- So no sum of a cursor and an answer leaves the range of `int`. -/
theorem run_cursorsFit {files : HostFiles} {stdin stdout : Ino} {cs : List FileCall} {r : FileRun}
    (hfiles : ∀ ino, (files ino).length ≤ maxFileSize)
    (h : run FileRun.step (.start files stdin stdout) cs = some r) : CursorsFit r.st := by
  have hstart : CursorsFit (FileRun.start files stdin stdout).st := by
    constructor
    · intro ino
      simp only [FileRun.start, FileState.start, Function.update_apply]
      split
      · exact Nat.zero_le _
      · split
        · exact Nat.zero_le _
        · exact hfiles ino
    · intro i f hf
      rw [start_cursor hf]
      exact Int.natCast_nonneg _
  have hstep : ∀ (r : FileRun) (c : FileCall) (u : FileRun), CursorsFit r.st →
      r.step c = some u → CursorsFit u.st := by
    intro r c u hr hs
    obtain ⟨s, answer, hout, rfl⟩ := FileRun.step_eq_some hs
    exact outcome_cursorsFit hout hr
  exact run_invariant hstep hstart h

end Range

/-! ## Runs -/

theorem cursorsValid_start (files : HostFiles) (stdin stdout : Ino) :
    CursorsValid (FileRun.start files stdin stdout) := by
  intro i f hf
  have hzero := start_cursor hf
  exact ⟨by omega, lseek_isSome_iff.mpr (by omega)⟩

/--
**When the cursors stay good.**

In a run of calls that the kernel has survived so far, every cursor is a position that `Lseek`
accepts and no failed call has moved one, exactly when no transfer of size -1 got to an open file.
-/
theorem cursors_safe_iff (files : HostFiles) (stdin stdout : Ino) (cs : List FileCall) :
    AllStates FileRun.step CursorsValid (.start files stdin stdout) cs ∧
      AllSteps FileRun.step FailureKeepsCursors (.start files stdin stdout) cs ↔
    AllSteps FileRun.step (fun r c => ¬ c.MovesBack r.st) (.start files stdin stdout) cs := by
  refine allStates_and_allSteps_iff ?_ ?_ (cursorsValid_start files stdin stdout) cs
  · intro r c hr hback
    refine ⟨fun s' answer hout => (outcome_cursors hout hback).sameCursors, ?_⟩
    intro u hu
    obtain ⟨s', answer, hout, rfl⟩ := FileRun.step_eq_some hu
    intro i f hf
    have hnonneg := (outcome_cursors hout hback).nonneg (fun i f hf => (hr i f hf).1) i f hf
    exact ⟨hnonneg, lseek_isSome_iff.mpr hnonneg⟩
  · exact fun r c hr hkeeps hback => movesBack_fails hr hback hkeeps

/--
`Open("a", 0)` and `Read(buf, -1, 2)`: the read fails and leaves the cursor at -1, and the kernel
does not survive the next read.
-/
theorem cursor_moved_back :
    ∃ r, run FileRun.step (.start (fun _ => []) 0 1)
        [.openFile FileRun.namePage 0 0 (fun _ => 0) (some 7),
          .readFile FileRun.namePage 0 (-1) 2 (fun _ => 0) (fun _ => 0)] = some r ∧
      r.st.fs.openFiles ⟨2, by decide⟩ = some { file := 7, currentOffset := -1 } ∧
      (FileCall.readFile FileRun.namePage 0 1 2 (fun _ => 0) (fun _ => 0)).outcome r.st = .aborted ∧
      ¬ CursorsValid r ∧
      ¬ AllSteps FileRun.step FailureKeepsCursors (.start (fun _ => []) 0 1)
        [.openFile FileRun.namePage 0 0 (fun _ => 0) (some 7),
          .readFile FileRun.namePage 0 (-1) 2 (fun _ => 0) (fun _ => 0)] := by
  refine ⟨_, rfl, rfl, rfl, ?_, ?_⟩
  · intro hvalid
    exact absurd (hvalid ⟨2, by decide⟩ _ rfl).1 (by decide)
  · intro hall
    have hsame := (hall.2 _ rfl).1 _ _ rfl (by decide) ⟨2, by decide⟩
    exact absurd (Option.some.inj hsame) (by decide)

end Nachos
