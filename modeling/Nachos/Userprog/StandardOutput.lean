import Nachos.Userprog.FileBytes

/-!
# Writing to standard output (`userprog/ksyscall.h`, `filesys/filesys.h`)

`SysWrite` prints what is written to id 1. But the constructor of the file system gives slot 1 the
type 1, which stands for a file that is opened for reading only, and `SysWrite` looks at the type
before it looks at the id.

* `sysWriteOutput` — `SysWrite` with the characters that it puts on the console
* `stdout_never_prints` — there are none
-/

namespace Nachos

open Base CallOutcome

variable {n : Nat}

/-- `SysWrite` with the characters that it puts on the console. -/
def sysWriteOutput (m : Machine n) (s : FileState) (virtualAddr charcount openFileId : BitVec 32)
    (junk : KernelBuf) : CallOutcome ((Machine n × FileState × Int) × List (BitVec 8)) :=
  if openFileId.toInt > 9 ∨ openFileId.toInt < 0 then .returned ((m, s, -1), [])
  else atIndex openFileId.toInt fun i =>
    match s.fs.openFiles i with
    | none => .returned ((m, s, -4), [])
    | some f =>
      if s.fs.type i = 1 then .returned ((m, s, -2), [])
      else ofAccess (user2System m virtualAddr (charcount + 1) junk) fun (m, sysBuff) =>
        if openFileId = 1 then
          .returned ((m, s, (cString sysBuff maxLength).length), cString sysBuff maxLength)
        else if openFileId = 0 then .returned ((m, s, -2), [])
        else (writeSlot m s charcount i f sysBuff).map fun answer => (answer, [])

theorem map_ofAccess {α β γ : Type} (a : Access α) (k : α → CallOutcome β) (f : β → γ) :
    (ofAccess a k).map f = ofAccess a fun x => (k x).map f := by
  cases a <;> rfl

theorem map_atIndex {β γ : Type} (i : Int) (k : Fin numOpenFiles → CallOutcome β) (f : β → γ) :
    (atIndex i k).map f = atIndex i fun j => (k j).map f := by
  unfold atIndex
  split <;> rfl

theorem map_map_fst {α β : Type} (o : CallOutcome α) (b : β) :
    (o.map fun a => (a, b)).map Prod.fst = o := by
  cases o <;> rfl

/-- But for the characters it is `SysWrite`. -/
theorem sysWriteOutput_fst (m : Machine n) (s : FileState)
    (virtualAddr charcount openFileId : BitVec 32) (junk : KernelBuf) :
    (sysWriteOutput m s virtualAddr charcount openFileId junk).map Prod.fst =
      sysWrite m s virtualAddr charcount openFileId junk := by
  unfold sysWriteOutput sysWrite
  split
  next => rfl
  next =>
    rw [map_atIndex]
    congr 1
    funext i
    cases s.fs.openFiles i with
    | none => rfl
    | some f =>
      dsimp only
      split
      next => rfl
      next =>
        rw [map_ofAccess]
        congr 1
        funext ⟨m, sysBuff⟩
        dsimp only
        split
        next => rfl
        next =>
          split
          next => rfl
          next => exact map_map_fst _ _

/-! ## The type of slot 1 -/

/-- The slot of standard output. -/
def stdoutSlot : Fin numOpenFiles := ⟨1, by decide⟩

namespace FileRun

/-- Standard output counts as a file for reading. -/
def StdoutReadOnly (r : FileRun) : Prop := r.st.fs.type stdoutSlot = 1

theorem stdoutReadOnly_start (files : HostFiles) (stdin stdout : Ino) :
    (start files stdin stdout).StdoutReadOnly := rfl

/-- No call changes the type: `Open` takes the slots from 2 on. -/
theorem stdoutReadOnly_step (r : FileRun) (c : FileCall) (u : FileRun) (h : r.StdoutReadOnly)
    (hs : r.step c = some u) : u.StdoutReadOnly := by
  obtain ⟨s, answer, hout, rfl⟩ := step_eq_some hs
  cases outcome_effect hout with
  | @openFailed _ _ _ _ _ _ i hfile hi hfree =>
    have hne : stdoutSlot ≠ i := fun heq => absurd (heq ▸ hi) (by decide)
    exact (Function.update_of_ne hne _ _).trans h
  | @openSlot _ _ _ _ _ _ i hfile hi hfree htype =>
    have hne : stdoutSlot ≠ i := fun heq => absurd (heq ▸ hi) (by decide)
    exact (Function.update_of_ne hne _ _).trans h
  | _ => exact h

theorem run_stdoutReadOnly {files : HostFiles} {stdin stdout : Ino} {cs : List FileCall}
    {r : FileRun} (h : run step (start files stdin stdout) cs = some r) : r.StdoutReadOnly :=
  run_invariant stdoutReadOnly_step (stdoutReadOnly_start files stdin stdout) h

end FileRun

/-- A write to standard output is refused as one to a file that is opened for reading. -/
theorem sysWriteOutput_stdout {m : Machine n} {s : FileState} (virtualAddr charcount : BitVec 32)
    (junk : KernelBuf) (hopen : (s.fs.openFiles stdoutSlot).isSome)
    (htype : s.fs.type stdoutSlot = 1) :
    sysWriteOutput m s virtualAddr charcount 1 junk = .returned ((m, s, -2), []) := by
  have hid : (1 : BitVec 32).toInt = (stdoutSlot : Nat) := rfl
  obtain ⟨f, hf⟩ := Option.isSome_iff_exists.mp hopen
  unfold sysWriteOutput
  rw [if_neg (by decide), atIndex_of_eq hid, hf]
  dsimp only
  rw [if_pos htype]

/-- `Write(buf, n, 1)` puts the `n` bytes of `d` on the console and answers `n`. -/
def WritePrints (m : Machine n) (s : FileState) (buf : BitVec 32) (d : List (BitVec 8))
    (junk : KernelBuf) : Prop :=
  ∃ after s', sysWriteOutput m s buf (BitVec.ofNat 32 d.length) 1 junk =
    .returned ((after, s', d.length), d)

/--
Whatever calls have been made, as long as standard output is open nothing that is written to it is
printed.
-/
theorem stdout_never_prints {files : HostFiles} {stdin stdout : Ino} {cs : List FileCall}
    {r : FileRun} (hrun : run FileRun.step (.start files stdin stdout) cs = some r)
    (hopen : (r.st.fs.openFiles stdoutSlot).isSome) (m : Machine n) (buf : BitVec 32)
    (d : List (BitVec 8)) (junk : KernelBuf) : ¬ WritePrints m r.st buf d junk := by
  rintro ⟨after, s', hprint⟩
  rw [sysWriteOutput_stdout _ _ _ hopen (FileRun.run_stdoutReadOnly hrun)] at hprint
  have hlength : (-2 : Int) = d.length := by
    simp only [CallOutcome.returned.injEq, Prod.mk.injEq] at hprint
    exact hprint.1.2.2
  omega

/-- The first call after the constructor. -/
theorem stdout_never_prints_start :
    ¬ WritePrints (bufferPage [97, 98]) (FileState.start (fun _ => []) 0 1) 0 [97, 98]
      (fun _ => 0) := by
  have hrun : run FileRun.step (.start (fun _ => []) 0 1) [] = some _ := run_nil _
  exact stdout_never_prints hrun rfl (bufferPage [97, 98]) 0 [97, 98] fun _ => 0

/-- It is refused, and nothing is printed. -/
theorem stdout_write_refused :
    ∃ after, sysWriteOutput (bufferPage [97, 98]) (FileState.start (fun _ => []) 0 1) 0 2 1
        (fun _ => 0) = .returned ((after, FileState.start (fun _ => []) 0 1, -2), []) ∧
      ¬ WritePrints (bufferPage [97, 98]) (FileState.start (fun _ => []) 0 1) 0 [97, 98]
        (fun _ => 0) := by
  refine ⟨_, rfl, ?_⟩
  rintro ⟨after, s', hprint⟩
  cases hprint

end Nachos
