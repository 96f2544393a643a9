import Nachos.Threads.Rendezvous

/-!
# The Exit and Join system calls (`userprog/ksyscall.h`, `userprog/exception.cc`)

`SysExit` calls `ExitUpdate` and finishes the thread only if the exit code is 0. With any other
code it comes back, `ExceptionHandler` moves the program counter on, and the process goes on with
the instruction after its `Exit`; nobody tells the parent.

The two processes of a `Pair` are looked at from their programs here: the child executes
instructions, and at some time the `Exit` system call with `code` in register 4.

* `sysExit` — the system call
* `exit_status_iff` — the status is delivered exactly when it is 0
-/

namespace Nachos

open Base

namespace Sys

/-- The thread executes its program. -/
def inProgram (s : Sys) (t : Tid) : Bool :=
  decide (s.status = .running) && (s.thread t).any fun th => decide (th.pc = .user)

end Sys

/-- The table, and what the child has executed. -/
structure ProgState where
  pair : PairState
  exitExecuted : Bool
  /-- The instructions that the child has executed after its `Exit`. -/
  instructions : Nat

/-- The child executes an instruction or `Exit`, or the kernel and the other processes go on. -/
inductive ProgEvent where
  | instruction
  | exit
  | join
  | runParent
  | runChild
  | other (e : SysEvent)

/-- What an event is for the table. -/
def ProgEvent.toPair : ProgEvent → Option PairEvent
  | .instruction => none
  | .exit => some .exit
  | .join => some .join
  | .runParent => some .runParent
  | .runChild => some .runChild
  | .other e => some (.other e)

namespace Pair

/-- `SysExit`: register 4 holds `code`. -/
def sysExit (π : Pair) (x : PairState) : Option PairState :=
  if π.code = 0 then π.step x .exit else some x

/-- A step that is not an instruction of the child. -/
def kernelStep (π : Pair) (x : ProgState) (e : PairEvent) : Option ProgState :=
  (π.step x.pair e).map fun p => { x with pair := p }

/-- One step. The child executes `Exit` once. -/
def progStep (π : Pair) (x : ProgState) : ProgEvent → Option ProgState
  | .instruction =>
    if x.pair.sys.inProgram π.child then
      some { x with instructions := if x.exitExecuted then x.instructions + 1 else x.instructions }
    else none
  | .exit =>
    if x.pair.sys.inProgram π.child && !x.exitExecuted then
      (π.sysExit x.pair).map fun p => { x with pair := p, exitExecuted := true }
    else none
  | .join => π.kernelStep x .join
  | .runParent => π.kernelStep x .runParent
  | .runChild => π.kernelStep x .runChild
  | .other e => π.kernelStep x (.other e)

/-- Neither has called anything yet. -/
def progStart (s : Sys) : ProgState :=
  { pair := start s, exitExecuted := false, instructions := 0 }

/-- The events of the table in a run of the programs. -/
def pairEvents (es : List ProgEvent) : List PairEvent := es.filterMap ProgEvent.toPair

/-- Nobody else uses the parent's PCB. -/
def ProgQuiet (π : Pair) (x : ProgState) (e : ProgEvent) : Prop :=
  ∀ e' ∈ ProgEvent.toPair e, π.Quiet x.pair e'

/--
The exit status is delivered: the child executes nothing after its `Exit`, what `Join` returns is
`code`, and the two calls come to their end if nobody else uses the parent's PCB.
-/
structure Delivered (π : Pair) (s : Sys) : Prop where
  silent : ∀ es x, run π.progStep (progStart s) es = some x → x.instructions = 0
  status : ∀ es x th, run π.progStep (progStart s) es = some x →
    x.pair.sys.thread π.parent = some th → x.pair.joinCalled = true → th.pc = .user →
    th.result = π.code
  ends : ∀ es x, run π.progStep (progStart s) es = some x →
    AllSteps π.progStep π.ProgQuiet (progStart s) es →
    (∀ P, s.heap π.parentPCB = some P → P.multex = .new 1) →
    ownSteps (pairEvents es) ≤ 30 ∧
      (¬ (π.Joined x.pair ∧ π.Exited x.pair) →
        ∃ e, e ≠ ProgEvent.instruction ∧ (∀ e', e ≠ .other e') ∧ (π.progStep x e).isSome)

/-! ## Exit with status 0 -/

section Zero

variable {π : Pair} {x y : ProgState}

/-- With status 0, a step of the programs is a step of the table, or none. -/
theorem step_toPair (hzero : π.code = 0) {e : ProgEvent} (h : π.progStep x e = some y) :
    (e.toPair = none ∧ y.pair = x.pair) ∨
      ∃ e', e.toPair = some e' ∧ π.step x.pair e' = some y.pair := by
  have hkernel {e' : PairEvent} (h : π.kernelStep x e' = some y) :
      π.step x.pair e' = some y.pair := by
    obtain ⟨p, hp, rfl⟩ := Option.map_eq_some_iff.mp h
    exact hp
  cases e with
  | instruction =>
    simp only [progStep] at h
    split at h
    · obtain rfl := Option.some.inj h
      exact Or.inl ⟨rfl, rfl⟩
    · cases h
  | exit =>
    simp only [progStep] at h
    split at h
    · obtain ⟨p, hp, rfl⟩ := Option.map_eq_some_iff.mp h
      rw [sysExit, if_pos hzero] at hp
      exact Or.inr ⟨.exit, rfl, hp⟩
    · cases h
  | join => exact Or.inr ⟨_, rfl, hkernel h⟩
  | runParent => exact Or.inr ⟨_, rfl, hkernel h⟩
  | runChild => exact Or.inr ⟨_, rfl, hkernel h⟩
  | other e => exact Or.inr ⟨_, rfl, hkernel h⟩

theorem run_pairEvents (hzero : π.code = 0) {es : List ProgEvent}
    (h : run π.progStep x es = some y) :
    run π.step x.pair (pairEvents es) = some y.pair ∧
      (AllSteps π.progStep π.ProgQuiet x es →
        AllSteps π.step π.Quiet x.pair (pairEvents es)) := by
  induction es generalizing x with
  | nil =>
    obtain rfl := Option.some.inj h
    exact ⟨rfl, fun _ => trivial⟩
  | cons e es ih =>
    obtain ⟨z, hz, hrest⟩ := run_cons_eq_some.mp h
    obtain ⟨hrun, hquiet⟩ := ih hrest
    -- an instruction leaves the table alone and drops out of the list
    rcases step_toPair hzero hz with ⟨he, hpair⟩ | ⟨e', he, hstep⟩
    · rw [pairEvents, List.filterMap_cons_none he]
      rw [hpair] at hrun hquiet
      exact ⟨hrun, fun hall => hquiet (hall.2 z hz)⟩
    · rw [pairEvents, List.filterMap_cons_some he]
      refine ⟨run_cons_eq_some.mpr ⟨_, hstep, hrun⟩, fun hall => ?_⟩
      exact (allSteps_cons hstep).mpr ⟨hall.1 e' he, hquiet (hall.2 z hz)⟩

/-- The child is in the table exactly where its program has called it. -/
structure Tracks (π : Pair) (x : ProgState) : Prop where
  inv : ∃ j k P C th, π.Inv x.pair j k P C th
  exit : x.exitExecuted = true ↔ x.pair.exitCalled = true
  instructions : x.instructions = 0

/-- Once `Exit` has been called the child is not in its program any more. -/
theorem Tracks.not_inProgram (h : Tracks π x) (hexit : x.exitExecuted = true) :
    x.pair.sys.inProgram π.child = false := by
  obtain ⟨j, k, P, C, th, hinv⟩ := h.inv
  have hcalled : x.pair.exitCalled = true := h.exit.mp hexit
  have hplace := hinv.exit
  unfold Sys.inProgram
  match k, hplace with
  | 0, hplace =>
    rw [hplace.1] at hcalled
    cases hcalled
  | 1, hplace | 2, hplace | 3, hplace | 4, hplace | 5, hplace | 6, hplace | 7, hplace =>
    obtain ⟨-, tc, htc, -, hpc⟩ := hplace
    simp [htc, hpc]
  | 8, hplace => simp [hplace.2]
  | _ + 9, hplace => exact hplace.elim

/-- Only `Exit` marks the call. -/
theorem step_exitCalled {p p' : PairState} {e : PairEvent} (h : π.step p e = some p') :
    p'.exitCalled = true ↔ p.exitCalled = true ∨ e = .exit := by
  cases e with
  | join =>
    simp only [step] at h
    split at h
    · cases h
    · obtain ⟨s, -, rfl⟩ := Option.map_eq_some_iff.mp h
      simp
  | exit =>
    simp only [step] at h
    split at h
    · cases h
    · obtain ⟨s, -, rfl⟩ := Option.map_eq_some_iff.mp h
      simp
  | runParent =>
    obtain ⟨s, -, rfl⟩ := Option.map_eq_some_iff.mp h
    simp
  | runChild =>
    obtain ⟨s, -, rfl⟩ := Option.map_eq_some_iff.mp h
    simp
  | other e =>
    simp only [step] at h
    split at h
    · cases h
    · obtain ⟨s, -, hif⟩ := Option.bind_eq_some_iff.mp h
      split at hif
      · obtain rfl := Option.some.inj hif
        simp
      · cases hif

theorem Tracks.kernelStep (hv : π.Valid) (h : Tracks π x) {e : PairEvent} (he : e ≠ .exit)
    (hs : π.kernelStep x e = some y) : Tracks π y := by
  obtain ⟨p, hp, rfl⟩ := Option.map_eq_some_iff.mp hs
  obtain ⟨j, k, P, C, th, hinv⟩ := h.inv
  obtain ⟨j', k', P', C', th', hinv', -⟩ := pair_step hv hinv hp
  refine ⟨⟨j', k', P', C', th', hinv'⟩, ?_, h.instructions⟩
  show x.exitExecuted = true ↔ p.exitCalled = true
  rw [step_exitCalled hp, h.exit]
  simp [he]

theorem Tracks.progStep (hv : π.Valid) (hzero : π.code = 0) (e : ProgEvent) (h : Tracks π x)
    (hs : π.progStep x e = some y) : Tracks π y := by
  cases e with
  | instruction =>
    simp only [Pair.progStep] at hs
    split at hs
    · next hin =>
      obtain rfl := Option.some.inj hs
      have hnot : x.exitExecuted ≠ true := by
        intro hexit
        rw [h.not_inProgram hexit] at hin
        cases hin
      refine ⟨h.inv, h.exit, ?_⟩
      show (if x.exitExecuted = true then _ else _) = 0
      rw [if_neg hnot]
      exact h.instructions
    · cases hs
  | exit =>
    simp only [Pair.progStep] at hs
    split at hs
    · obtain ⟨p, hp, rfl⟩ := Option.map_eq_some_iff.mp hs
      rw [sysExit, if_pos hzero] at hp
      obtain ⟨j, k, P, C, th, hinv⟩ := h.inv
      obtain ⟨j', k', P', C', th', hinv', -⟩ := pair_step hv hinv hp
      exact ⟨⟨j', k', P', C', th', hinv'⟩, by simp [step_exitCalled hp], h.instructions⟩
    · cases hs
  | join => exact h.kernelStep hv (by simp) hs
  | runParent => exact h.kernelStep hv (by simp) hs
  | runChild => exact h.kernelStep hv (by simp) hs
  | other e => exact h.kernelStep hv (by simp) hs

theorem tracks_run {s : Sys} (hready : π.Ready s) (hzero : π.code = 0) {es : List ProgEvent}
    (h : run π.progStep (progStart s) es = some x) : Tracks π x := by
  obtain ⟨P, C, th, hinv, -⟩ := inv_start hready
  refine run_invariant (fun x e y hx hs => hx.progStep hready.valid hzero e hs) ?_ h
  exact ⟨⟨0, 0, P, C, th, hinv⟩, Iff.rfl, rfl⟩

/-- The parent gets the code that the child has stored. -/
theorem Tracks.status (h : Tracks π x) {th : Proc} (hth : x.pair.sys.thread π.parent = some th)
    (hcalled : x.pair.joinCalled = true) (hpc : th.pc = .user) : th.result = π.code := by
  obtain ⟨j, k, P, C, th', hinv⟩ := h.inv
  rw [hinv.parent_thread.1] at hth
  obtain rfl := Option.some.inj hth
  obtain rfl := hinv.join_place.2 hcalled hpc
  exact hinv.join.2.2

/-- A step of the table that is still to be made is one of the programs. -/
theorem Tracks.progStep_isSome (h : Tracks π x) (hzero : π.code = 0) {e : PairEvent}
    (he : e.own = 1) (hs : (π.step x.pair e).isSome) :
    ∃ e', e' ≠ ProgEvent.instruction ∧ (∀ e'', e' ≠ .other e'') ∧
      (π.progStep x e').isSome := by
  obtain ⟨p, hp⟩ := Option.isSome_iff_exists.mp hs
  have hkernel : (π.kernelStep x e).isSome = true := by
    rw [Pair.kernelStep, hp]
    rfl
  cases e with
  | join => exact ⟨.join, by simp, by simp, hkernel⟩
  | exit =>
    refine ⟨.exit, by simp, by simp, ?_⟩
    have hcalled := hp
    simp only [step] at hcalled
    split at hcalled
    · cases hcalled
    · next hnot =>
      obtain ⟨s, hs', -⟩ := Option.map_eq_some_iff.mp hcalled
      obtain ⟨tc, htc, hrunning, hpc, -⟩ := Sys.step_call_some hs'
      have hin : x.pair.sys.inProgram π.child = true := by simp [Sys.inProgram, htc, hrunning, hpc]
      have hexit : x.exitExecuted = false := by
        rw [← Bool.not_eq_true, h.exit]
        exact hnot
      simp only [Pair.progStep, hin, hexit, sysExit, if_pos hzero, hp]
      rfl
  | runParent => exact ⟨.runParent, by simp, by simp, hkernel⟩
  | runChild => exact ⟨.runChild, by simp, by simp, hkernel⟩
  | other e => cases he

theorem delivered_of_zero {s : Sys} (hready : π.Ready s) (hzero : π.code = 0) :
    π.Delivered s where
  silent := fun _ _ h => (tracks_run hready hzero h).instructions
  status := fun _ _ _ h hth hcalled hpc => (tracks_run hready hzero h).status hth hcalled hpc
  ends := by
    intro es x h hquiet hmultex
    have htracks := tracks_run hready hzero h
    obtain ⟨hrun, hall⟩ := run_pairEvents hzero h
    obtain ⟨hle, hgo⟩ := pair_ends hready hrun (hall hquiet) hmultex
    refine ⟨hle, fun hnot => ?_⟩
    obtain ⟨e, he, hs⟩ := hgo hnot
    exact htracks.progStep_isSome hzero he hs

/-- With any other status `SysExit` comes back, and the child goes on. -/
theorem run_exit_instruction {s : Sys} (hready : π.Ready s) (hcode : π.code ≠ 0) :
    run π.progStep (progStart s) [.exit, .instruction]
      = some { pair := start s, exitExecuted := true, instructions := 1 } := by
  obtain ⟨tc, htc, -, hpc⟩ := hready.child_thread
  have hin : s.inProgram π.child = true := by simp [Sys.inProgram, htc, hpc, hready.running]
  have hexit : π.progStep (progStart s) .exit
      = some { pair := start s, exitExecuted := true, instructions := 0 } := by
    simp [progStep, progStart, start, hin, sysExit, hcode]
  have hnext : π.progStep { pair := start s, exitExecuted := true, instructions := 0 } .instruction
      = some { pair := start s, exitExecuted := true, instructions := 1 } := by
    simp [progStep, start, hin]
  exact run_cons_eq_some.mpr ⟨_, hexit, run_cons_eq_some.mpr ⟨_, hnext, rfl⟩⟩

end Zero

/--
**The exit status is delivered exactly when it is 0.**

For every process that has a live parent, whatever the others do and in whatever order `Join` and
`Exit` come.
-/
theorem exit_status_iff {π : Pair} {s : Sys} (hready : π.Ready s) :
    π.Delivered s ↔ π.code = 0 := by
  refine ⟨fun h => ?_, delivered_of_zero hready⟩
  by_contra hcode
  have hone := h.silent _ _ (run_exit_instruction hready hcode)
  cases hone

/-- The first program that the main process executes is ready to exit. -/
theorem mainExec_ready (code : Int) : ∃ s, mainExec = some s ∧ (mainAndFirst code).Ready s := by
  refine ⟨_, rfl, ?_⟩
  exact {
    running := rfl
    threads := by show (0 : Nat) ≠ 1; decide
    pcbs := by show (0 : Nat) ≠ 1; decide
    parent_range := ⟨le_rfl, by show (0 : Int) < 10; decide⟩
    child_range := ⟨by show (0 : Int) < 1; decide, by show (1 : Int) < 10; decide⟩
    parent_thread := ⟨_, rfl, rfl, rfl⟩
    child_thread := ⟨_, rfl, rfl, rfl⟩
    parent_slot := rfl
    child_slot := rfl
    child_bit := by show Bitmap.test _ 1 = some true; rfl
    parent_pcb := ⟨_, rfl, rfl⟩
    child_pcb := ⟨_, rfl, rfl, rfl, rfl, rfl⟩ }

theorem exit_status_main_zero :
    ∃ s, mainExec = some s ∧ (mainAndFirst 0).Ready s ∧ (mainAndFirst 0).Delivered s := by
  obtain ⟨s, hs, hready⟩ := mainExec_ready 0
  exact ⟨s, hs, hready, (exit_status_iff hready).mpr rfl⟩

/-- `Exit(7)` comes back: the child executes the next instruction, and the parent is not told. -/
theorem exit_status_seven_ignored :
    ∃ s, mainExec = some s ∧ (mainAndFirst 7).Ready s ∧ ¬ (mainAndFirst 7).Delivered s := by
  obtain ⟨s, hs, hready⟩ := mainExec_ready 7
  refine ⟨s, hs, hready, fun h => ?_⟩
  have hone := h.silent _ _ (run_exit_instruction hready (by decide))
  cases hone

end Pair

end Nachos
