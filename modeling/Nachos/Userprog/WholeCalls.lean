import Nachos.Userprog.SystemCalls
import Nachos.Userprog.StandardOutput

/-!
# Calls that are not preempted (`userprog/ksyscall.h`)

The body of a system call can be preempted at every question to the kernel. `Read` and `Write` put
their questions to the console and to the table of open files. When they get the answers at once,
their bodies come to what the functions `sysRead` and `sysWrite` come to.

* `CallBody.perform` — a body without a break
* `perform_sysReadBody`, `perform_sysWriteBody` — the two functions
-/

namespace Nachos

open Base CallOutcome

variable {n : Nat}

/-- The body without a break: the result, and what it leaves of the kernel. -/
def CallBody.perform {κ : Type} (kernel : κ → Query → CallOutcome (κ × KernelAnswer))
    (junk : KernelBuf) : CallBody → Machine n → κ → CallOutcome (Machine n × κ × BitVec 32)
  | .result value, m, k => .returned (m, k, value)
  | .halted, _, _ | .finished, _, _ => .halted
  | .request r next, m, k => (kernel k r).bind fun (k, a) => (next a).perform kernel junk m k
  | .allocate size next, m, k =>
    if size.toInt < 0 then .aborted else (next junk).perform kernel junk m k
  | .copyIn virtAddr limit next, m, k =>
    ofAccess (user2System m virtAddr limit junk) fun (m, buffer) =>
      (next buffer).perform kernel junk m k
  | .copyOut virtAddr len buffer next, m, k =>
    ofAccess (system2User m virtAddr len buffer) fun m => next.perform kernel junk m k

namespace CallBody

variable {κ : Type} (kernel : κ → Query → CallOutcome (κ × KernelAnswer)) (junk : KernelBuf)
  (m : Machine n) (k : κ)

@[simp] theorem perform_result (value : BitVec 32) :
    (result value).perform kernel junk m k = .returned (m, k, value) := rfl

@[simp] theorem perform_request (r : Query) (next : KernelAnswer → CallBody) :
    (request r next).perform kernel junk m k =
      (kernel k r).bind fun (k, a) => (next a).perform kernel junk m k := rfl

@[simp] theorem perform_allocate (size : BitVec 32) (next : KernelBuf → CallBody) :
    (allocate size next).perform kernel junk m k =
      if size.toInt < 0 then .aborted else (next junk).perform kernel junk m k := rfl

@[simp] theorem perform_copyIn (virtAddr limit : BitVec 32) (next : KernelBuf → CallBody) :
    (copyIn virtAddr limit next).perform kernel junk m k =
      ofAccess (user2System m virtAddr limit junk) fun (m, buffer) =>
        (next buffer).perform kernel junk m k := rfl

@[simp] theorem perform_copyOut (virtAddr : BitVec 32) (len : Int) (buffer : KernelBuf)
    (next : CallBody) :
    (copyOut virtAddr len buffer next).perform kernel junk m k =
      ofAccess (system2User m virtAddr len buffer) fun m => next.perform kernel junk m k := rfl

end CallBody

/-- The table of open files, and how many characters have been read from the console. -/
structure FileKernel where
  files : FileState
  taken : Nat

namespace FileKernel

/-- `openFiles[id]` when it is not null. -/
def atFile (k : FileKernel) (id : BitVec 32)
    (next : Fin numOpenFiles → OpenFile → CallOutcome (FileKernel × KernelAnswer)) :
    CallOutcome (FileKernel × KernelAnswer) :=
  atIndex id.toInt fun i =>
    match k.files.fs.openFiles i with
    | none => .wild
    | some f => next i f

/-- The answers to `Read` and `Write`. -/
def answer (input : Nat → BitVec 8) (k : FileKernel) :
    Query → CallOutcome (FileKernel × KernelAnswer)
  | .getChar => .returned ({ k with taken := k.taken + 1 }, ⟨(input k.taken).setWidth 32, []⟩)
  | .isOpen id => atIndex id.toInt fun i =>
    .returned (k, ⟨if (k.files.fs.openFiles i).isSome then 1 else 0, []⟩)
  | .type id => atIndex id.toInt fun i => .returned (k, ⟨k.files.fs.type i, []⟩)
  | .read id charcount => k.atFile id fun i f =>
    ofOption (f.read k.files.files charcount.toInt) fun (f, bytes, size) =>
      .returned ({ k with files := { k.files with fs := k.files.fs.setFile i (some f) } },
        ⟨BitVec.ofInt 32 size, bytes⟩)
  | .write id sysBuff charcount => k.atFile id fun i f =>
    ofOption (f.write k.files.files sysBuff charcount.toInt) fun (f, files, size) =>
      .returned ({ k with files := { files := files, fs := k.files.fs.setFile i (some f) } },
        ⟨BitVec.ofInt 32 size, []⟩)
  | _ => .returned (k, ⟨0, []⟩)

theorem atFile_of_some {k : FileKernel} {id : BitVec 32}
    (h : 0 ≤ id.toInt ∧ id.toInt < numOpenFiles)
    {f : OpenFile} (hfile : k.files.fs.openFiles ⟨id.toInt.toNat, by omega⟩ = some f)
    (next : Fin numOpenFiles → OpenFile → CallOutcome (FileKernel × KernelAnswer)) :
    k.atFile id next = next ⟨id.toInt.toNat, by omega⟩ f := by
  unfold atFile atIndex
  rw [dif_pos h]
  dsimp only
  rw [hfile]

end FileKernel

/-! ## Read -/

/-- What `Read` answers is an `int`. -/
theorem toInt_read {f f' : OpenFile} {files : HostFiles} {charcount : BitVec 32}
    {bytes : List (BitVec 8)} {size : Int}
    (h : f.read files charcount.toInt = some (f', bytes, size)) :
    (BitVec.ofInt 32 size).toInt = size := by
  have hrange : -1 ≤ size ∧ size ≤ max (-1) charcount.toInt := by
    unfold OpenFile.read OpenFile.readAt at h
    simp only [Option.bind_eq_bind, Option.bind_eq_some_iff] at h
    obtain ⟨⟨_, _⟩, ⟨pos, _, hread⟩, heq⟩ := h
    split at hread
    · cases hread
      cases heq
      exact ⟨le_rfl, le_max_left _ _⟩
    · cases hread
      cases heq
      have hle := List.length_take_le charcount.toInt.toNat ((files f.file).drop pos)
      unfold hostRead
      omega
  have hlt := BitVec.toInt_lt (x := charcount)
  exact BitVec.toInt_ofInt_eq_self (by decide) (by omega) (by omega)

/-- What is left behind a call: the machine, the table and the result. -/
def FileKernel.done (r : Machine n × FileKernel × BitVec 32) : Machine n × FileState × BitVec 32 :=
  (r.1, r.2.1.files, r.2.2)

/-- The result in register 2. -/
def inRegister (r : Machine n × FileState × Int) : Machine n × FileState × BitVec 32 :=
  (r.1, r.2.1, BitVec.ofInt 32 r.2.2)

section Bodies

variable (input : Nat → BitVec 8) (junk : KernelBuf) (m : Machine n) (s : FileState)
  (regs : Registers)

theorem perform_readChars (next : KernelBuf → Nat → CallBody) (sysBuff : KernelBuf) (idx k : Nat) :
    ∃ taken, (CallBody.readChars next sysBuff idx k).perform (FileKernel.answer input) junk m
        ⟨s, idx⟩ =
      (next (readConsole input sysBuff idx k).1 (readConsole input sysBuff idx k).2).perform
        (FileKernel.answer input) junk m ⟨s, taken⟩ := by
  induction k generalizing sysBuff idx with
  | zero => exact ⟨idx, rfl⟩
  | succ k ih =>
    have hch : ((input idx).setWidth 32).setWidth 8 = input idx := by
      rw [BitVec.setWidth_setWidth_of_le _ (by decide), BitVec.setWidth_eq]
    unfold CallBody.readChars readConsole
    simp only [CallBody.perform_request, FileKernel.answer, bind_returned, hch, endsLine,
      Bool.or_eq_true, beq_iff_eq]
    split
    · exact ⟨idx + 1, rfl⟩
    · exact ih (Function.update sysBuff idx (input idx)) (idx + 1)

/-- Without a break the body of `Read` is `sysRead`. -/
theorem perform_sysReadBody :
    ((sysReadBody regs).perform (FileKernel.answer input) junk m ⟨s, 0⟩).map FileKernel.done =
      (sysRead m s (regs.gp 4) (regs.gp 5) (regs.gp 6) junk input).map inRegister := by
  unfold sysReadBody sysRead
  dsimp only
  split
  · rfl
  next hid =>
    have hslot : 0 ≤ (regs.gp 6).toInt ∧ (regs.gp 6).toInt < numOpenFiles := by
      unfold numOpenFiles
      omega
    simp only [CallBody.perform_request, FileKernel.answer, atIndex, dif_pos hslot, bind_returned]
    cases hfile : s.fs.openFiles ⟨(regs.gp 6).toInt.toNat, by omega⟩ with
    | none => rfl
    | some f =>
      simp only [Option.isSome_some, if_true]
      rw [if_neg (by decide)]
      rw [CallBody.perform_allocate]
      split
      · rfl
      · split
        · -- the console
          unfold CallBody.takeLine
          obtain ⟨taken, hline⟩ := perform_readChars input junk m s
            (fun sysBuff idx => .copyOut (regs.gp 4) (regs.gp 5).toInt
              (Function.update sysBuff idx 0) (.result (BitVec.ofNat 32 idx)))
            junk 0 (regs.gp 5).toInt.toNat
          rw [hline, CallBody.perform_copyOut, map_ofAccess, map_ofAccess]
          rfl
        · split
          · rfl
          · rw [CallBody.perform_request]
            unfold readSlot
            simp only [FileKernel.answer]
            rw [FileKernel.atFile_of_some hslot hfile]
            cases hread : f.read s.files (regs.gp 5).toInt with
            | none => rfl
            | some r =>
              obtain ⟨f', bytes, size⟩ := r
              simp only [ofOption, bind_returned, toInt_read hread]
              split
              · rw [CallBody.perform_copyOut, map_ofAccess, map_ofAccess]
                rfl
              · rfl

/-- The loop of `PutChar` goes on up to the terminator. -/
theorem perform_putChars (next : Nat → CallBody) (sysBuff : KernelBuf) (k : FileKernel)
    (i j : Nat) :
    (CallBody.putChars next sysBuff i j).perform (FileKernel.answer input) junk m k =
      (next (i + (cString (fun l => sysBuff (i + l)) j).length)).perform
        (FileKernel.answer input) junk m k := by
  induction j generalizing i with
  | zero => rfl
  | succ j ih =>
    unfold CallBody.putChars
    simp only [cString_succ, Nat.add_zero]
    by_cases hzero : sysBuff i = 0
    · rw [if_pos hzero, if_pos hzero]
      rfl
    · rw [if_neg hzero, if_neg hzero]
      have hnext : (fun l => sysBuff (i + (l + 1))) = fun l => sysBuff (i + 1 + l) := by
        funext l
        rw [Nat.add_assoc, Nat.add_comm 1 l]
      simp only [CallBody.perform_request, FileKernel.answer, bind_returned, List.length_cons]
      rw [ih, hnext, Nat.add_assoc, Nat.add_comm 1]

/-- Without a break the body of `Write` is `sysWrite`. -/
theorem perform_sysWriteBody :
    ((sysWriteBody regs).perform (FileKernel.answer input) junk m ⟨s, 0⟩).map FileKernel.done =
      (sysWrite m s (regs.gp 4) (regs.gp 5) (regs.gp 6) junk).map inRegister := by
  unfold sysWriteBody sysWrite
  dsimp only
  split
  · rfl
  next hid =>
    have hslot : 0 ≤ (regs.gp 6).toInt ∧ (regs.gp 6).toInt < numOpenFiles := by
      unfold numOpenFiles
      omega
    simp only [CallBody.perform_request, FileKernel.answer, atIndex, dif_pos hslot, bind_returned]
    cases hfile : s.fs.openFiles ⟨(regs.gp 6).toInt.toNat, by omega⟩ with
    | none => rfl
    | some f =>
      simp only [Option.isSome_some, if_true]
      rw [if_neg (by decide), CallBody.perform_request]
      simp only [FileKernel.answer, atIndex, dif_pos hslot, bind_returned]
      split
      · rfl
      · rw [CallBody.perform_copyIn, map_ofAccess, map_ofAccess]
        congr 1
        funext copied
        obtain ⟨m', sysBuff⟩ := copied
        dsimp only
        split
        · rw [perform_putChars]
          simp only [Nat.zero_add]
          rfl
        · split
          · rfl
          · unfold CallBody.ask writeSlot
            simp only [CallBody.perform_request, FileKernel.answer]
            rw [FileKernel.atFile_of_some hslot hfile]
            cases f.write s.files sysBuff (regs.gp 5).toInt with
            | none => rfl
            | some r => rfl

end Bodies

/-- A body that is performed without a break is a run of the process that has called it. -/
theorem run_of_perform {κ : Type} {kernel : κ → Query → CallOutcome (κ × KernelAnswer)}
    {junk : KernelBuf} {body : CallBody} {m m' : Machine n} {k k' : κ} {value : BitVec 32}
    (h : body.perform kernel junk m k = .returned (m', k', value)) (code : SyscallCode)
    (regs : Registers) :
    ∃ events, Base.run Process.step ⟨regs, m, .call code body⟩ events =
      some ⟨code.return regs value, m', .user⟩ := by
  -- the step that all bodies but the last begin with
  have hcons : ∀ {p q r : Process n} {e : ProcessEvent}, p.step e = some q →
      (∃ events, Base.run Process.step q events = some r) →
      ∃ events, Base.run Process.step p events = some r := by
    rintro p q r e hstep ⟨events, hrun⟩
    exact ⟨e :: events, run_cons_eq_some.mpr ⟨q, hstep, hrun⟩⟩
  induction body generalizing m k with
  | result v =>
    cases h
    exact ⟨[.go ⟨0, []⟩ junk], rfl⟩
  | halted => cases h
  | finished => cases h
  | request r next ih =>
    rw [CallBody.perform_request] at h
    cases hanswer : kernel k r with
    | returned r =>
      rw [hanswer] at h
      exact hcons (e := .go r.2 junk) rfl (ih r.2 h)
    | halted | aborted | wild =>
      rw [hanswer] at h
      cases h
  | allocate size next ih =>
    rw [CallBody.perform_allocate] at h
    split at h
    · cases h
    · next hsize => exact hcons (e := .go ⟨0, []⟩ junk) (if_neg hsize) (ih junk h)
  | copyIn virtAddr limit next ih =>
    rw [CallBody.perform_copyIn] at h
    obtain ⟨⟨m₁, buffer⟩, hcopy, hrest⟩ := ofAccess_eq_returned h
    refine hcons (e := .go ⟨0, []⟩ junk) ?_ (ih buffer hrest)
    exact congrArg
      (Process.ofAccess ⟨regs, m, .call code (.copyIn virtAddr limit next)⟩ code next) hcopy
  | copyOut virtAddr len buffer next ih =>
    rw [CallBody.perform_copyOut] at h
    obtain ⟨m₁, hcopy, hrest⟩ := ofAccess_eq_returned h
    refine hcons (e := .go ⟨0, []⟩ junk) ?_ (ih hrest)
    unfold Process.step Process.serve
    dsimp only
    rw [hcopy]
    rfl

end Nachos
