import Nachos.Machine.Registers
import Nachos.Threads.ThreadPlaces

/-!
# Context switches (`threads/scheduler.cc`, `threads/thread.cc`, `userprog/addrspace.cc`)

There is one set of machine registers and one page-table register, and the threads that run user
programs share them. `Scheduler::Run` saves the registers of the old thread before `SWITCH` and
restores them when the thread is back, both only if it has an address space. The page-table register
is not saved: `RestoreState` writes the page table of the address space.

The registers ride along with the scheduler. Between two steps of it the current thread may write to
the machine registers as it likes (`execute`: an instruction, or the result of a system call), it
may become a process (`start`), and the interrupt check may finish a delayed load.

* `CpuState.step` — one step
* `view` — the registers of a process, wherever they are kept
* `run_switch_transparent` — every process has its own registers
-/

namespace Nachos

open Base

/-- The part of the class `AddrSpace` that a context switch uses. `π` are the pointers to tables. -/
structure Space (π : Type) where
  pageTable : π
  numPages : Nat
deriving DecidableEq

/-- The part of the class `Machine` that user programs share. -/
structure Cpu (π : Type) where
  registers : Registers
  pageTable : π
  pageTableSize : Nat

/-- The scheduler with the machine, and `userRegisters` and `space` of every thread. -/
structure CpuState (σ π : Type) where
  sched : SchedState σ
  machine : Cpu π
  userRegisters : Nat → Registers
  space : Nat → Option (Space π)

/-- What is done to the machine by the thread that runs. -/
inductive CpuOp (π : Type) where
  | execute (registers : Registers)
  /-- `StartProcess_2` or `AddrSpace::Execute`, up to `Machine::Run`. -/
  | start (space : Space π)
  /-- `DelayedLoad(0, 0)` of `CheckIfDue`. -/
  | delayedLoad

inductive CpuEvent (σ π : Type) where
  | sched (e : SchedEvent σ)
  | op (op : CpuOp π)

/-- `InitRegisters` and `RestoreState`. -/
def Space.load {π : Type} (space : Space π) : Cpu π where
  registers := .initRegisters space.numPages
  pageTable := space.pageTable
  pageTableSize := space.numPages

/-- What an operation makes of the machine. `none`: `DelayedLoad` writes outside the registers. -/
def CpuOp.apply {π : Type} (m : Cpu π) : CpuOp π → Option (Cpu π)
  | .execute registers => some { m with registers := registers }
  | .start space => some space.load
  | .delayedLoad => (m.registers.delayedLoad 0 0).map fun regs => { m with registers := regs }

/-- The same for a machine of its own, which does not exist before the process is started. -/
def CpuOp.own {π : Type} (m : Option (Cpu π)) : CpuOp π → Option (Cpu π)
  | .start space => some space.load
  | op => m.bind fun m => op.apply m

/-- The current thread is in its own code, or at the test of `P`. -/
def Mode.Runs {σ : Type} : Mode σ → Prop
  | .user | .test _ => True
  | _ => False

theorem Resume.mode_ne_switched {σ : Type} (r : Resume σ) : r.mode ≠ .switched := by
  cases r <;> simp [Resume.mode]

namespace CpuState

variable {σ π : Type} [DecidableEq σ]

/-! ## Run -/

/-- `SaveUserState` and `SaveState` in `Run`. -/
def saveState (s : CpuState σ π) (oldThread : Nat) : CpuState σ π :=
  match s.space oldThread with
  | none => s
  | some _ =>
    { s with userRegisters := Function.update s.userRegisters oldThread s.machine.registers }

/-- `RestoreUserState` and `RestoreState` in `Run`. -/
def restoreState (s : CpuState σ π) (oldThread : Nat) : CpuState σ π :=
  match s.space oldThread with
  | none => s
  | some space =>
    { s with machine := {
        registers := s.userRegisters oldThread
        pageTable := space.pageTable
        pageTableSize := space.numPages } }

/-- The current thread goes on at `Thread::Begin` and not in `Run`. -/
def begins (s : SchedState σ) : Bool :=
  (s.thread s.currentThread).map Thread.resume == some .begin

/-- The registers, when the scheduler goes on to `sched`. -/
def follow (s : CpuState σ π) (sched : SchedState σ) : CpuState σ π :=
  if s.sched.mode = .switched then
    if begins s.sched then { s with sched := sched }
    else { s.restoreState s.sched.currentThread with sched := sched }
  else if sched.mode = .switched then { s.saveState s.sched.currentThread with sched := sched }
  else { s with sched := sched }

/-- When an operation can happen. The interrupt check is also made in `Idle`. -/
def allowed (s : CpuState σ π) : CpuOp π → Bool
  | .delayedLoad =>
    match s.sched.mode with
    | .user | .idle _ => true
    | _ => false
  | _ => decide (s.sched.mode = .user)

/-- The space of the current thread after an operation. -/
def spaceAfter (s : CpuState σ π) : CpuOp π → Nat → Option (Space π)
  | .start space => Function.update s.space s.sched.currentThread (some space)
  | _ => s.space

def step (s : CpuState σ π) : CpuEvent σ π → Option (CpuState σ π)
  | .sched e => (s.sched.step e).map s.follow
  | .op op =>
    if s.allowed op then
      (op.apply s.machine).map fun m => { s with
        machine := m
        space := s.spaceAfter op }
    else none

/-- Nobody has an address space yet. -/
def start (value : σ → BitVec 32) (machine : Cpu π) (userRegisters : Nat → Registers) :
    CpuState σ π where
  sched := .start value
  machine := machine
  userRegisters := userRegisters
  space := fun _ => none

/-! ## The registers of a process -/

/-- The thread is in `Run`: it has been switched away from, and has not come back. -/
def InRun (t : Nat) (s : CpuState σ π) : Prop :=
  s.sched.currentThread ≠ t ∨ s.sched.mode = .switched

/-- The registers of a process with address space `space`. -/
def view (s : CpuState σ π) (t : Nat) (space : Space π) : Cpu π :=
  if s.sched.currentThread = t ∧ s.sched.mode ≠ .switched then s.machine
  else
    { registers := s.userRegisters t
      pageTable := space.pageTable
      pageTableSize := space.numPages }

/-- Who does what to the machine. -/
def ops (s : CpuState σ π) : CpuEvent σ π → List (Nat × CpuOp π)
  | .sched _ => []
  | .op op => [(s.sched.currentThread, op)]

/-- What a machine of its own would be after the operations of thread `t`, once it is a process. -/
def ownMachine (t : Nat) (log : List (Nat × CpuOp π)) : Option (Cpu π) :=
  log.foldl (fun m entry => if entry.1 = t then entry.2.own m else m) none

/-! ## What the scheduler does meanwhile -/

section Sched

variable {s s' : SchedState σ} {e : SchedEvent σ}

/-- Behind `SWITCH` the current thread stays, and is not behind `SWITCH` any more. -/
theorem moves_of_switched (hmoves : SchedState.Moves s e s') (hmode : s.mode = .switched) :
    s'.currentThread = s.currentThread ∧ s'.mode ≠ .switched := by
  cases hmoves with
  | resume th h ht hnone hresume => exact ⟨rfl, th.resume.mode_ne_switched⟩
  | destroy d th h ht hd hne hresume => exact ⟨rfl, th.resume.mode_ne_switched⟩
  | v x h hqueue => exact absurd hmode h
  | wake x t rest th h hqueue ht => exact absurd hmode h
  | _ => simp_all

/-- The current thread changes in `Run` only. -/
theorem moves_of_not_switched (hmoves : SchedState.Moves s e s') (hmode : s'.mode ≠ .switched) :
    s'.currentThread = s.currentThread := by
  cases hmoves with
  | yield => exact absurd rfl hmode
  | dispatch => exact absurd rfl hmode
  | _ => rfl

theorem next_le_of_moves (hmoves : SchedState.Moves s e s') : s.next ≤ s'.next := by
  cases hmoves with
  | create => exact Nat.le_succ _
  | _ => exact le_rfl

/-- A thread that will go on at `Thread::Begin`: it has never run. -/
def Unborn (s : SchedState σ) (t : Nat) : Prop :=
  ∃ th, s.thread t = some th ∧ th.resume = .begin ∧ (t = s.currentThread → ¬ s.mode.Runs)

omit [DecidableEq σ] in
/-- One thread is changed, and it is not new afterwards if it was not before. -/
theorem Unborn.of_update {t u : Nat} (hunborn : Unborn s' t) {th' : Thread σ}
    (hthread : s'.thread = Function.update s.thread u (some th'))
    (hold : th'.resume = .begin → Unborn s u)
    (hmode : t ≠ u → t = s.currentThread → s.mode.Runs →
      t = s'.currentThread ∧ s'.mode.Runs) : Unborn s t := by
  obtain ⟨th, ht, hbegin, hruns⟩ := hunborn
  rw [hthread] at ht
  by_cases htu : t = u
  · rw [htu, Function.update_self] at ht
    rw [← Option.some.inj ht] at hbegin
    rw [htu]
    exact hold hbegin
  · rw [Function.update_of_ne htu] at ht
    refine ⟨th, ht, hbegin, fun hcur hr => ?_⟩
    obtain ⟨hcur', hr'⟩ := hmode htu hcur hr
    exact hruns hcur' hr'

/-- A thread that has run never becomes new again. -/
theorem unborn_of_moves (h : s.Inv) (hmoves : SchedState.Moves s e s') {t : Nat}
    (hunborn : Unborn s' t) : s.next ≤ t ∨ Unborn s t := by
  have hframe : s'.thread = s.thread → s'.currentThread = s.currentThread →
      (s.mode.Runs → s'.mode.Runs) → Unborn s t := by
    intro hthread hcur hmode
    obtain ⟨th, ht, hbegin, hruns⟩ := hunborn
    rw [hthread] at ht
    exact ⟨th, ht, hbegin, fun hc hr => hruns (hc.trans hcur.symm) (hmode hr)⟩
  -- a thread whose status changes and that is not the running one
  have hother : ∀ {u : Nat} {th : Thread σ}, s.thread u = some th → s.place u ≠ .cpu →
      th.resume = .begin → Unborn s u := by
    intro u th hu hcpu hbegin
    refine ⟨th, hu, hbegin, fun hcur hruns => hcpu ?_⟩
    have hc := h.current
    rw [hcur]
    cases hm : s.mode with
    | user | test x => rw [hm] at hc; exact hc
    | _ => rw [hm] at hruns; exact hruns.elim
  cases hmoves with
  | create hmode =>
    by_cases htn : t = s.next
    · exact Or.inl htn.ge
    · obtain ⟨th, ht, hbegin, hruns⟩ := hunborn
      exact Or.inr ⟨th, (Function.update_of_ne htn ..).symm.trans ht, hbegin, hruns⟩
  | fork u th hmode hu hnew =>
    have hcreated := th.place_of_justCreated hnew (h.place_ne_lost hu)
    have hp : s.place u = .created := (SchedState.place_of_thread hu).trans hcreated
    exact Or.inr (hunborn.of_update rfl (fun hb => hother hu (by rw [hp]; simp) hb)
      fun _ hc hr => ⟨hc, hr⟩)
  | alone hmode hlist => exact Or.inr hunborn
  | yield n rest th thn hmode hlist ht hn =>
    have hp : s.place n = .ready := (hlist ▸ h.ready).head
    obtain ⟨th', ht', hbegin, -⟩ := hunborn
    by_cases htn : t = n
    · rw [htn] at ht' ⊢
      have hth := (Function.update_self ..).symm.trans ht'
      rw [← Option.some.inj hth] at hbegin
      exact Or.inr (hother hn (by rw [hp]; simp) hbegin)
    · have ht₁ := (Function.update_of_ne htn ..).symm.trans ht'
      by_cases htc : t = s.currentThread
      · rw [htc] at ht₁
        have hth := (Function.update_self ..).symm.trans ht₁
        rw [← Option.some.inj hth] at hbegin
        cases hbegin
      · have ht₂ := (Function.update_of_ne htc ..).symm.trans ht₁
        exact Or.inr ⟨th', ht₂, hbegin, fun hc => absurd hc htc⟩
  | p x hmode => exact Or.inr (hframe rfl rfl fun _ => trivial)
  | v x hmode hqueue => exact Or.inr (hframe rfl rfl id)
  | wake x u rest th hmode hqueue hu =>
    have hp : s.place u = .waiting x := (hqueue ▸ h.queue x).head
    exact Or.inr (hunborn.of_update rfl (fun hb => hother hu (by rw [hp]; simp) hb)
      fun _ hc hr => ⟨hc, hr⟩)
  | finish th hmode ht =>
    exact Or.inr (hunborn.of_update rfl (by simp) fun hne hc => absurd hc hne)
  | take x hmode hvalue => exact Or.inr (hframe rfl rfl fun _ => trivial)
  | block x th hmode hvalue ht =>
    exact Or.inr (hunborn.of_update rfl (by simp) fun hne hc => absurd hc hne)
  | idle finishing hmode hlist => exact Or.inr (hframe rfl rfl (by simp [hmode, Mode.Runs]))
  | dispatch finishing n rest thn hmode hlist hn =>
    have hp : s.place n = .ready := (hlist ▸ h.ready).head
    exact Or.inr (hunborn.of_update rfl (fun hb => hother hn (by rw [hp]; simp) hb)
      (by simp [hmode, Mode.Runs]))
  | look finishing hmode => exact Or.inr (hframe rfl rfl (by simp [hmode, Mode.Runs]))
  | resume th hmode ht hnone hresume =>
    exact Or.inr (hframe rfl rfl (by simp [hmode, Mode.Runs]))
  | destroy d th hmode ht hd hne hresume =>
    obtain ⟨th', ht', hbegin, -⟩ := hunborn
    have htd : t ≠ d := by
      rintro rfl
      cases (Function.update_self ..).symm.trans ht'
    refine Or.inr ⟨th', (Function.update_of_ne htd ..).symm.trans ht', hbegin, fun _ hr => ?_⟩
    rw [hmode] at hr
    exact hr

end Sched

/-! ## The invariant -/

structure Inv (s : CpuState σ π) (log : List (Nat × CpuOp π)) : Prop where
  sched : s.sched.Inv
  /-- The page-table register is that of the current thread, so that it need not be saved. -/
  loaded : s.sched.mode ≠ .switched → ∀ space, s.space s.sched.currentThread = some space →
    s.machine.pageTable = space.pageTable ∧ s.machine.pageTableSize = space.numPages
  fresh : ∀ t, s.sched.next ≤ t → s.space t = none
  /-- A thread that goes on at `Begin`, where nothing is restored, is not a process yet. -/
  unborn : ∀ t, Unborn s.sched t → s.space t = none
  own : ∀ t space, s.space t = some space → ownMachine t log = some (s.view t space)

section Views

variable {s s' : CpuState σ π} {t : Nat} {space : Space π} {log : List (Nat × CpuOp π)}

theorem view_of_current (hcur : s.sched.currentThread = t) (hmode : s.sched.mode ≠ .switched) :
    s.view t space = s.machine := if_pos ⟨hcur, hmode⟩

theorem view_of_inRun (h : s.InRun t) :
    s.view t space = ⟨s.userRegisters t, space.pageTable, space.numPages⟩ := by
  refine if_neg fun ⟨hcur, hmode⟩ => ?_
  rcases h with h | h
  · exact h hcur
  · exact hmode h

theorem ownMachine_append (t : Nat) (log : List (Nat × CpuOp π)) (u : Nat) (op : CpuOp π) :
    ownMachine t (log ++ [(u, op)])
      = if u = t then op.own (ownMachine t log) else ownMachine t log := by
  rw [ownMachine, List.foldl_append]
  rfl

end Views

/-! ## Operations of the current thread -/

section Ops

variable {s s' : CpuState σ π} {log : List (Nat × CpuOp π)} {op : CpuOp π}

theorem mode_of_allowed (h : s.allowed op) : s.sched.mode ≠ .switched := by
  intro hmode
  cases op <;> simp [allowed, hmode] at h

omit [DecidableEq σ] in
/-- Only a process that starts gets other tables. -/
theorem tables_of_apply {m m' : Cpu π} (h : op.apply m = some m') :
    (∃ space, op = .start space ∧ m' = space.load) ∨
      (s.spaceAfter op = s.space ∧ m'.pageTable = m.pageTable ∧
        m'.pageTableSize = m.pageTableSize ∧ ∀ o, op.own o = o.bind fun m => op.apply m) := by
  cases op with
  | execute registers =>
    obtain rfl := Option.some.inj h
    exact Or.inr ⟨rfl, rfl, rfl, fun _ => rfl⟩
  | start space => exact Or.inl ⟨space, rfl, (Option.some.inj h).symm⟩
  | delayedLoad =>
    obtain ⟨regs, -, rfl⟩ := Option.map_eq_some_iff.mp h
    exact Or.inr ⟨rfl, rfl, rfl, fun _ => rfl⟩

/-- `Run` is called in a step of the scheduler. -/
theorem step_eq_follow {e : CpuEvent σ π} (hmode : s.sched.mode ≠ .switched)
    (hs : s.step e = some s') (hmode' : s'.sched.mode = .switched) :
    ∃ e sched, s.sched.step e = some sched ∧ s' = s.follow sched := by
  cases e with
  | sched e =>
    obtain ⟨sched, hsched, rfl⟩ := Option.map_eq_some_iff.mp hs
    exact ⟨e, sched, hsched, rfl⟩
  | op op =>
    simp only [CpuState.step] at hs
    split at hs
    · obtain ⟨m, -, rfl⟩ := Option.map_eq_some_iff.mp hs
      exact absurd hmode' hmode
    · cases hs

omit [DecidableEq σ] in
theorem spaceAfter_of_ne {t : Nat} (h : t ≠ s.sched.currentThread) :
    s.spaceAfter op t = s.space t := by
  cases op with
  | start space => exact Function.update_of_ne h ..
  | _ => rfl

theorem mode_of_start {space : Space π} (h : s.allowed (.start space)) : s.sched.mode = .user := by
  simpa [allowed] using h

/-- What the current thread does is done to the registers of its process and to no others. -/
theorem Inv.operate (h : s.Inv log) (hallowed : s.allowed op) {m : Cpu π}
    (hm : op.apply s.machine = some m) (hs' : s' = { s with
      machine := m
      space := s.spaceAfter op }) : s'.Inv (log ++ [(s.sched.currentThread, op)]) := by
  have hmode := mode_of_allowed hallowed
  have hsched : s'.sched = s.sched := by rw [hs']
  have hspace : s'.space = s.spaceAfter op := by rw [hs']
  have hmachine : s'.machine = m := by rw [hs']
  have hregs : s'.userRegisters = s.userRegisters := by rw [hs']
  refine {
    sched := hsched ▸ h.sched
    loaded := fun _ space hcur => ?_
    fresh := fun t ht => ?_
    unborn := fun t ht => ?_
    own := fun t space ht => ?_ }
  · rw [hsched, hspace] at hcur
    rw [hmachine]
    rcases tables_of_apply (s := s) hm with ⟨space', rfl, rfl⟩ | ⟨hsame, htable, hsize, -⟩
    · rw [spaceAfter, Function.update_self] at hcur
      obtain rfl := Option.some.inj hcur
      exact ⟨rfl, rfl⟩
    · rw [hsame] at hcur
      rw [htable, hsize]
      exact h.loaded hmode space hcur
  · rw [hsched] at ht
    rw [hspace]
    have hne : t ≠ s.sched.currentThread := (h.sched.current_lt.trans_le ht).ne'
    rw [spaceAfter_of_ne hne]
    exact h.fresh t ht
  · rw [hsched] at ht
    rw [hspace]
    rcases tables_of_apply (s := s) hm with ⟨space', rfl, -⟩ | ⟨hsame, -⟩
    · have hne : t ≠ s.sched.currentThread := by
        intro hcur
        obtain ⟨th, -, -, hruns⟩ := ht
        refine hruns hcur ?_
        rw [mode_of_start hallowed]
        trivial
      rw [spaceAfter_of_ne hne]
      exact h.unborn t ht
    · rw [hsame]
      exact h.unborn t ht
  · rw [hspace] at ht
    rw [ownMachine_append]
    by_cases hcur : s.sched.currentThread = t
    · rw [if_pos hcur, view_of_current (hsched ▸ hcur) (hsched ▸ hmode), hmachine]
      rcases tables_of_apply (s := s) hm with ⟨space', rfl, rfl⟩ | ⟨hsame, -, -, hown⟩
      · rfl
      · rw [hsame] at ht
        rw [h.own t space ht, view_of_current hcur hmode, hown]
        exact hm
    · rw [if_neg hcur, view_of_inRun (Or.inl (hsched ▸ hcur)), hregs]
      rw [spaceAfter_of_ne (Ne.symm hcur)] at ht
      rw [h.own t space ht, view_of_inRun (Or.inl hcur)]

end Ops

/-! ## Steps of the scheduler -/

section Follow

variable {s s' : CpuState σ π} {log : List (Nat × CpuOp π)} {sched : SchedState σ}
  {e : SchedEvent σ}

@[simp] theorem follow_sched (s : CpuState σ π) (sched : SchedState σ) :
    (s.follow sched).sched = sched := by
  unfold follow
  split_ifs <;> rfl

omit [DecidableEq σ] in
@[simp] theorem saveState_space (s : CpuState σ π) (t : Nat) : (s.saveState t).space = s.space := by
  unfold saveState
  split <;> rfl

omit [DecidableEq σ] in
@[simp] theorem restoreState_space (s : CpuState σ π) (t : Nat) :
    (s.restoreState t).space = s.space := by
  unfold restoreState
  split <;> rfl

@[simp] theorem follow_space (s : CpuState σ π) (sched : SchedState σ) :
    (s.follow sched).space = s.space := by
  unfold follow
  split_ifs <;> simp

section

omit [DecidableEq σ]

theorem saveState_userRegisters_of_ne {t u : Nat} (h : t ≠ u) :
    (s.saveState u).userRegisters t = s.userRegisters t := by
  unfold saveState
  split
  · rfl
  · exact Function.update_of_ne h ..

theorem saveState_userRegisters {t : Nat} {space : Space π} (h : s.space t = some space) :
    (s.saveState t).userRegisters t = s.machine.registers := by
  simp [saveState, h]

theorem restoreState_userRegisters (s : CpuState σ π) (t : Nat) :
    (s.restoreState t).userRegisters = s.userRegisters := by
  unfold restoreState
  split <;> rfl

theorem restoreState_machine {t : Nat} {space : Space π} (h : s.space t = some space) :
    (s.restoreState t).machine = ⟨s.userRegisters t, space.pageTable, space.numPages⟩ := by
  simp [restoreState, h]

end

/-- A process does not go on at `Begin`. -/
theorem Inv.not_begins (h : s.Inv log) (hmode : s.sched.mode = .switched) {space : Space π}
    (hspace : s.space s.sched.currentThread = some space) : begins s.sched = false := by
  by_contra hbegins
  simp only [begins, beq_eq_false_iff_ne, ne_eq, not_not] at hbegins
  obtain ⟨th, ht, hresume⟩ := Option.map_eq_some_iff.mp hbegins
  have hunborn : Unborn s.sched s.sched.currentThread :=
    ⟨th, ht, hresume, fun _ hruns => by rw [hmode] at hruns; exact hruns⟩
  rw [h.unborn _ hunborn] at hspace
  cases hspace

/-- Behind `SWITCH` the process that comes back gets its registers. -/
theorem Inv.machine_follow (h : s.Inv log) (hmode : s.sched.mode = .switched) {space : Space π}
    (hspace : s.space s.sched.currentThread = some space) :
    (s.follow sched).machine
      = ⟨s.userRegisters s.sched.currentThread, space.pageTable, space.numPages⟩ := by
  rw [CpuState.follow, if_pos hmode, h.not_begins hmode hspace]
  exact restoreState_machine hspace

/-- The thread that calls `Run` puts its registers aside, and nobody else's are touched. -/
theorem follow_userRegisters {t : Nat}
    (h : s.sched.mode = .switched ∨ sched.mode ≠ .switched ∨ t ≠ s.sched.currentThread) :
    (s.follow sched).userRegisters t = s.userRegisters t := by
  unfold follow
  split_ifs with hmode hbegins hmode'
  · rfl
  · exact congrFun (restoreState_userRegisters ..) t
  · rcases h with h | h | h
    · exact absurd h hmode
    · exact absurd hmode' h
    · exact saveState_userRegisters_of_ne h
  · rfl

theorem follow_machine (hmode : s.sched.mode ≠ .switched) (hmode' : sched.mode ≠ .switched) :
    (s.follow sched).machine = s.machine := by
  rw [follow, if_neg hmode, if_neg hmode']

/-- A step of the scheduler leaves the registers of every process as they are. -/
theorem Inv.view_follow (h : s.Inv log) (hmoves : SchedState.Moves s.sched e sched) {t : Nat}
    {space : Space π} (hspace : s.space t = some space) :
    (s.follow sched).view t space = s.view t space := by
  by_cases hmode : s.sched.mode = .switched
  · -- the current thread comes back, and what was put aside goes into the machine
    obtain ⟨hcur, hne⟩ := moves_of_switched hmoves hmode
    rw [view_of_inRun (Or.inr hmode)]
    by_cases ht : s.sched.currentThread = t
    · rw [view_of_current (by rw [follow_sched, hcur, ht]) (by rwa [follow_sched])]
      subst ht
      exact h.machine_follow hmode hspace
    · rw [view_of_inRun (Or.inl (by rwa [follow_sched, hcur])), follow_userRegisters (Or.inl hmode)]
  · by_cases hmode' : sched.mode = .switched
    · -- the current thread calls `Run`, and puts aside what is in the machine
      rw [view_of_inRun (Or.inr (by rwa [follow_sched]))]
      by_cases ht : s.sched.currentThread = t
      · subst ht
        -- the page-table register is not saved, but `RestoreState` will write the same to it
        obtain ⟨htable, hsize⟩ := h.loaded hmode space hspace
        have hsave : (s.follow sched).userRegisters s.sched.currentThread
            = s.machine.registers := by
          rw [CpuState.follow, if_neg hmode, if_pos hmode']
          exact saveState_userRegisters hspace
        rw [view_of_current rfl hmode, hsave, ← htable, ← hsize]
      · rw [follow_userRegisters (Or.inr (Or.inr (Ne.symm ht))), view_of_inRun (Or.inl ht)]
    · have hcur := moves_of_not_switched hmoves hmode'
      by_cases ht : s.sched.currentThread = t
      · rw [view_of_current (by rw [follow_sched, hcur, ht]) (by rwa [follow_sched]),
          view_of_current ht hmode, follow_machine hmode hmode']
      · rw [view_of_inRun (Or.inl (by rwa [follow_sched, hcur])), view_of_inRun (Or.inl ht),
          follow_userRegisters (Or.inr (Or.inl hmode'))]

theorem Inv.follow (h : s.Inv log) (hmoves : SchedState.Moves s.sched e sched) :
    (s.follow sched).Inv log := by
  refine {
    sched := by rw [follow_sched]; exact h.sched.moves hmoves
    loaded := fun hmode' space hspace => ?_
    fresh := fun t ht => ?_
    unborn := fun t ht => ?_
    own := fun t space hspace => ?_ }
  · rw [follow_sched] at hmode' hspace
    rw [follow_space] at hspace
    by_cases hmode : s.sched.mode = .switched
    · rw [(moves_of_switched hmoves hmode).1] at hspace
      rw [h.machine_follow hmode hspace]
      exact ⟨rfl, rfl⟩
    · rw [moves_of_not_switched hmoves hmode'] at hspace
      rw [follow_machine hmode hmode']
      exact h.loaded hmode space hspace
  · rw [follow_sched] at ht
    rw [follow_space]
    exact h.fresh t ((next_le_of_moves hmoves).trans ht)
  · -- a new thread gets a number that nobody had, and there is no space for it
    rw [follow_sched] at ht
    rw [follow_space]
    rcases unborn_of_moves h.sched hmoves ht with hfresh | hunborn
    · exact h.fresh t hfresh
    · exact h.unborn t hunborn
  · rw [follow_space] at hspace
    rw [h.view_follow hmoves hspace]
    exact h.own t space hspace

end Follow

/-! ## Whole runs -/

section Runs

variable {s s' : CpuState σ π} {t : Nat} {log : List (Nat × CpuOp π)}

theorem Inv.step (s : CpuState σ π) (e : CpuEvent σ π) (s' : CpuState σ π)
    (log : List (Nat × CpuOp π)) (h : s.Inv log) (hs : s.step e = some s') :
    s'.Inv (log ++ s.ops e) := by
  cases e with
  | sched e =>
    obtain ⟨sched, hsched, rfl⟩ := Option.map_eq_some_iff.mp hs
    rw [ops, List.append_nil]
    exact h.follow (h.sched.moves_of_step hsched)
  | op op =>
    simp only [CpuState.step] at hs
    split at hs
    · next hallowed =>
      obtain ⟨m, hm, hs'⟩ := Option.map_eq_some_iff.mp hs
      exact h.operate hallowed hm hs'.symm
    · cases hs

theorem inv_start (value : σ → BitVec 32) (machine : Cpu π) (userRegisters : Nat → Registers) :
    (start value machine userRegisters).Inv [] where
  sched := SchedState.inv_start value
  loaded := fun _ _ hspace => by cases hspace
  fresh := fun _ _ => rfl
  unborn := fun _ _ => rfl
  own := fun _ _ hspace => by cases hspace

/-- While a thread is in `Run`, nobody gives it an address space or touches its registers. -/
theorem Inv.away {e : CpuEvent σ π} (h : s.Inv log) (haway : s.InRun t) (hs : s.step e = some s') :
    s'.space t = s.space t ∧
      ∀ space, s.space t = some space → s'.view t space = s.view t space := by
  cases e with
  | sched e =>
    obtain ⟨sched, hsched, rfl⟩ := Option.map_eq_some_iff.mp hs
    exact ⟨by rw [follow_space], fun _ => h.view_follow (h.sched.moves_of_step hsched)⟩
  | op op =>
    simp only [CpuState.step] at hs
    split at hs
    · next hallowed =>
      obtain ⟨m, hm, rfl⟩ := Option.map_eq_some_iff.mp hs
      have hcur : s.sched.currentThread ≠ t := haway.resolve_right (mode_of_allowed hallowed)
      refine ⟨spaceAfter_of_ne (Ne.symm hcur), fun space _ => ?_⟩
      rw [view_of_inRun haway]
      exact view_of_inRun (Or.inl hcur)
    · cases hs

theorem Inv.run_away {es : List (CpuEvent σ π)} (h : s.Inv log)
    (haway : AllSteps CpuState.step (fun u _ => u.InRun t) s es)
    (hrun : Base.run CpuState.step s es = some s') :
    s'.space t = s.space t ∧
      ∀ space, s.space t = some space → s'.view t space = s.view t space := by
  induction es generalizing s log with
  | nil =>
    obtain rfl := Option.some.inj hrun
    exact ⟨rfl, fun _ _ => rfl⟩
  | cons e es ih =>
    obtain ⟨u, hu, hrest⟩ := run_cons_eq_some.mp hrun
    obtain ⟨haway, hall⟩ := (allSteps_cons hu).mp haway
    obtain ⟨hspace, hview⟩ := h.away haway hu
    obtain ⟨hspace', hview'⟩ := ih (Inv.step s e u log h hu) hall hrest
    refine ⟨hspace'.trans hspace, fun space ht => ?_⟩
    rw [hview' space (hspace.trans ht), hview space ht]

end Runs

/--
A context switch is transparent.

When `Run` returns to a thread that has an address space, the machine registers and the page-table
register are what they were when the thread called `Run`, whatever the others have done meanwhile.
So every process has the registers that its own operations have made, as if it had a machine of its
own: none of them is lost, and none has hit another process.
-/
theorem run_switch_transparent {value : σ → BitVec 32} {machine : Cpu π}
    {userRegisters : Nat → Registers} {es : List (CpuEvent σ π)} {s : CpuState σ π}
    (hrun : Base.run CpuState.step (start value machine userRegisters) es = some s) :
    (∀ e s' es' d, s.sched.mode ≠ .switched → s.step e = some s' → s'.sched.mode = .switched →
      Base.run CpuState.step s' es' = some d →
      AllSteps CpuState.step (fun u _ => u.InRun s.sched.currentThread) s' es' →
      ¬ d.InRun s.sched.currentThread → d.space s.sched.currentThread ≠ none →
      d.machine = s.machine) ∧
    ∀ t space, s.space t = some space →
      ownMachine t (observed ops CpuState.step (start value machine userRegisters) es)
        = some (s.view t space) := by
  have h := run_observed Inv.step (inv_start value machine userRegisters) hrun
  rw [List.nil_append] at h
  refine ⟨fun e s' es' d hmode hs hmode' hrun' haway hback hd => ?_, h.own⟩
  obtain ⟨e, sched, hsched, rfl⟩ := step_eq_follow hmode hs hmode'
  have hmoves := h.sched.moves_of_step hsched
  obtain ⟨hspace, hview⟩ := (h.follow hmoves).run_away haway hrun'
  obtain ⟨space, ht⟩ := Option.ne_none_iff_exists'.mp hd
  rw [hspace] at ht
  unfold InRun at hback
  rw [not_or, not_not] at hback
  calc d.machine = d.view s.sched.currentThread space := (view_of_current hback.1 hback.2).symm
    _ = (s.follow sched).view s.sched.currentThread space := hview space ht
    _ = s.view s.sched.currentThread space := h.view_follow hmoves (follow_space s sched ▸ ht)
    _ = s.machine := view_of_current rfl hmode

/-- The main thread becomes a process, forks a thread and gets as far as the `Sleep` in `P`. -/
def untilSleep (registers : Registers) : List (CpuEvent Unit Nat) :=
  [.op (.start ⟨100, 10⟩), .sched .create, .sched (.fork 1), .op (.execute registers),
    .sched (.p ()), .sched .go]

/-- The new thread becomes a process too, changes registers, wakes the main thread and finishes. -/
def whileAway (registers : Registers) : List (CpuEvent Unit Nat) :=
  [.sched .go, .op (.start ⟨200, 20⟩), .op (.execute registers), .sched (.v ()), .sched .finish,
    .sched .go, .sched .go]

theorem run_switch_transparent_two_processes :
    ∃ s s' d : CpuState Unit Nat,
      Base.run CpuState.step (start (fun _ => 0) ⟨fun _ => 0, 0, 0⟩ fun _ _ => 0)
        (untilSleep fun _ => 7) = some s ∧
      s.step (.sched .go) = some s' ∧
      Base.run CpuState.step s' (whileAway fun _ => 8) = some d ∧
      d.sched.currentThread = 0 ∧ d.space 1 = some ⟨200, 20⟩ ∧ d.machine = s.machine := by
  obtain ⟨s, s', d, hrun, hmode, hcur, hs, hmode', hrun', haway, hback, hmoded, hspace, hspace₁⟩ :
      ∃ s s' d : CpuState Unit Nat,
        Base.run CpuState.step (start (fun _ => 0) ⟨fun _ => 0, 0, 0⟩ fun _ _ => 0)
          (untilSleep fun _ => 7) = some s ∧ s.sched.mode = .sleep false ∧
        s.sched.currentThread = 0 ∧ s.step (.sched .go) = some s' ∧ s'.sched.mode = .switched ∧
        Base.run CpuState.step s' (whileAway fun _ => 8) = some d ∧
        AllSteps CpuState.step (fun u _ => u.InRun 0) s' (whileAway fun _ => 8) ∧
        d.sched.currentThread = 0 ∧ d.sched.mode = .test () ∧ d.space 0 = some ⟨100, 10⟩ ∧
        d.space 1 = some ⟨200, 20⟩ := by
    refine ⟨_, _, _, rfl, rfl, rfl, rfl, rfl, rfl, ?_, rfl, rfl, rfl, rfl⟩
    have hother : ∀ {u : CpuState Unit Nat}, u.sched.currentThread = 1 → u.InRun 0 := by
      intro u hu
      refine Or.inl ?_
      rw [hu]
      decide
    refine (allSteps_cons rfl).mpr ⟨hother rfl, (allSteps_cons rfl).mpr ⟨hother rfl, ?_⟩⟩
    refine (allSteps_cons rfl).mpr ⟨hother rfl, (allSteps_cons rfl).mpr ⟨hother rfl, ?_⟩⟩
    refine (allSteps_cons rfl).mpr ⟨hother rfl, (allSteps_cons rfl).mpr ⟨hother rfl, ?_⟩⟩
    exact (allSteps_cons rfl).mpr ⟨Or.inr rfl, trivial⟩
  refine ⟨s, s', d, hrun, hs, hrun', hback, hspace₁, ?_⟩
  refine (run_switch_transparent hrun).1 _ s' _ d (by simp [hmode]) hs hmode' hrun' ?_ ?_ ?_
  · rwa [hcur]
  · rw [hcur, InRun, hback, hmoded]
    simp
  · rw [hcur, hspace]
    simp

end CpuState

end Nachos
