import Nachos.Threads.TableInvariant

/-!
# ExecUpdate is atomic (`threads/ptable.cc`, `threads/pcb.cc`)

A call of `ExecUpdate` goes through several steps, and other threads run in between: they join, they
exit, they remove their PCBs from the table, and they wait for `bmsem`. `run_exec_atomic_iff` takes
the whole call, from `SysExec` to the return, in any run.

`FileName` has room for 31 characters and the terminator. `SysExec` cuts a name off at 33, and the
32nd and the 33rd go into `parentID`, which is set right behind the name.

* `FileNameKept` — which names are read back as they were given
* `Entering`, `Leaving` — where the thread is before and after the slot is chosen
* `Creates` — what the step that takes the slot does, and what is never changed afterwards
* `run_exec_atomic_iff` — when a call does all that it is meant to do
-/

namespace Nachos

open Base

namespace ProcPc

/-- In `ExecUpdate`. -/
def InExecUpdate : ProcPc → Prop
  | .execP _ _ | .execBody _ _ | .execFork _ _ | .execMultexV _ _ | .execBmV _ => True
  | _ => False

/-- In `ExecUpdate`, before anything is decided. -/
def Entering (name : Option CStr) (getName : CStr) : ProcPc → Prop
  | .execP n g | .execBody n g => n = name ∧ g = getName
  | _ => False

/-- In `ExecUpdate`, which is going to return `id`. -/
def Leaving (id : Int) (child : Tid) : ProcPc → Prop
  | .execFork i c | .execMultexV i c => i = id ∧ c = child
  | .execBmV r => r = id
  | _ => False

theorem Leaving.inExec {id : Int} {child : Tid} {pc : ProcPc} (h : pc.Leaving id child) :
    pc.InExec := by
  cases pc <;> trivial

theorem Leaving.inExecUpdate {id : Int} {child : Tid} {pc : ProcPc} (h : pc.Leaving id child) :
    pc.InExecUpdate := by
  cases pc <;> trivial

theorem Entering.inExecUpdate {name : Option CStr} {getName : CStr} {pc : ProcPc}
    (h : pc.Entering name getName) : pc.InExecUpdate := by
  cases pc <;> trivial

end ProcPc

/-! ## The name in the PCB -/

/--
The name is read back from a PCB with this `parentID`: it fits, or what does not fit is what the
low byte of `parentID` looks like.
-/
def FileNameKept (fileName : CStr) (parentID : Int) : Prop :=
  fileName.chars.length < fileNameSize ∨
    fileName.chars.drop fileNameSize = if parentID = 0 then [] else [.ofInt 8 parentID]

/-- What stands in memory where a small `parentID` does. -/
theorem ofBytes_bytesOf {parentID : Int} (h : 0 ≤ parentID) (hlt : parentID < maxProcess) :
    (CStr.ofBytes (bytesOf (.ofInt 32 parentID))).chars =
      if parentID = 0 then [] else [.ofInt 8 parentID] := by
  have hall : ∀ n < maxProcess, (CStr.ofBytes (bytesOf (.ofInt 32 n))).chars =
      if (n : Int) = 0 then [] else [.ofInt 8 n] := by decide
  obtain ⟨n, rfl⟩ := Int.eq_ofNat_of_zero_le h
  exact hall n (by exact_mod_cast hlt)

theorem getFileName_newPCB_iff {t : Tid} {id current : Int} {name : CStr} (h : 0 ≤ current)
    (hlt : current < maxProcess) :
    (Sys.newPCB t id current name).getFileName = name ↔ FileNameKept name current := by
  have hread : (Sys.newPCB t id current name).getFileName =
      .ofBytes ((name.overwrite ((PCB.new id current).fileName ++
        bytesOf (.ofInt 32 (PCB.new id current).parentID))).take fileNameSize ++
          bytesOf (.ofInt 32 current)) := rfl
  rw [hread]
  by_cases hfits : name.chars.length < fileNameSize
  · rw [CStr.ofBytes_overwrite_of_lt hfits]
    exact iff_of_true rfl (.inl hfits)
  · have hchars := CStr.ofBytes_overwrite_of_le (not_lt.mp hfits)
      ((PCB.new id current).fileName ++ bytesOf (.ofInt 32 (PCB.new id current).parentID))
      (bytesOf (.ofInt 32 current))
    rw [ofBytes_bytesOf h hlt] at hchars
    rw [CStr.ext_iff, hchars, FileNameKept, or_iff_right hfits]
    have hsplit := List.take_append_drop fileNameSize name.chars
    constructor
    · intro heq
      exact (List.append_cancel_left (heq.trans hsplit.symm)).symm
    · intro hdrop
      rw [← hdrop]
      exact hsplit

namespace Sys

/-- Thread `t` is in `ExecUpdate`. -/
def InExecUpdate (t : Tid) (s : Sys) : Prop := ∃ th, s.thread t = some th ∧ th.pc.InExecUpdate

/-- The step, if it is one of thread `t`, changes neither the bitmap nor `pcb[]`. -/
def Quiet (t : Tid) (s : Sys) (e : SysEvent) : Prop :=
  e.tid = t → ∀ s', s.step e = some s' → s'.bm = s.bm ∧ s'.pcb = s.pcb

/-- The process with the PCB and the thread `child` is known under the number `id`. -/
structure Born (child : Tid) (id : Int) (fileName : CStr) (parent : Int) (s : Sys) : Prop where
  lt : child < s.next
  slot : ∀ k : Nat, s.pcb k = some child → (k : Int) = id
  pcb : ∃ p, s.heap child = some p ∧ p.getFileName = fileName ∧ p.parentID = parent

/--
In state `x` thread `t` makes a process: the number `id` is one that no process has, and after the
step there is a PCB with the file name and the parent, and whenever there is a thread, it has the
number.
-/
structure Creates (x : Sys) (t : Tid) (id : Int) (fileName : CStr) (parent : Int) : Prop where
  pos : 1 ≤ id
  lt : id < maxProcess
  unused : x.deref id = none
  fresh : ∀ u tu, x.thread u = some tu → tu.processID ≠ id
  no_thread : x.thread x.next = none
  born : ∀ es z, run Sys.step x (.run t :: es) = some z →
    (∃ p, z.heap x.next = some p ∧ p.getFileName = fileName ∧ p.parentID = parent) ∧
      ∀ tz, z.thread x.next = some tz → tz.processID = id

section Others

variable {s s' : Sys} {t : Tid} {th : Proc} {e : SysEvent}

/-! ## What other threads do meanwhile -/

/-- A step of another thread leaves a thread where it is. -/
theorem Table.thread_other (h : s.Table) (hs : s.step e = some s') (hne : e.tid ≠ t)
    (ht : s.thread t = some th) : s'.thread t = some th := by
  obtain ⟨tu, hu, -, hmoves⟩ := h.moves_of_step hs
  cases hmoves with
  | crash | halt => exact ht
  | go th' hl hgoes hsem => exact (hl.thread_of_ne hne.symm).trans ht
  | enter name getName hpc hv hl hsem => exact (hl.thread_of_ne hne.symm).trans ht
  | refuse name getName hpc hwhy => exact (Function.update_of_ne hne.symm ..).trans ht
  | create getName fileName bm i hpc hnot hfirst hnum hbits =>
    exact (created_thread_of_ne hne.symm).trans ht
  | fork id child p hpc hp =>
    have hplace := h.place _ tu hu
    simp only [Place, hpc] at hplace
    obtain ⟨-, -, -, hnone, -⟩ := hplace
    have htc : t ≠ child := by
      rintro rfl
      rw [ht] at hnone
      cases hnone
    rw [goto_thread, Function.update_of_ne hne.symm]
    exact (Function.update_of_ne htc ..).trans ht
  | forked id child hpc hl hsem => exact (hl.thread_of_ne hne.symm).trans ht
  | leave r hpc => exact (Function.update_of_ne hne.symm ..).trans ht
  | remove bm p k hpc hk hnum hbits hp => exact (removed_thread_of_ne hne.symm).trans ht
  | finish hpc hbit => exact (Function.update_of_ne hne.symm ..).trans ht

/-- While a thread holds `bmsem`, no other thread makes a process. -/
theorem Table.next_other (h : s.Table) (hs : s.step e = some s') (hne : e.tid ≠ t)
    (ht : s.Holds t) : s'.next = s.next := by
  obtain ⟨tu, hu, -, hmoves⟩ := h.moves_of_step hs
  cases hmoves with
  | go th' hl hgoes hsem => exact hl.next
  | enter name getName hpc hv hl hsem => exact hl.next
  | forked id child hpc hl hsem => exact hl.next
  | create getName fileName bm i hpc hnot hfirst hnum hbits =>
    exact absurd (h.holds_unique ht ⟨tu, hu, by rw [hpc]; trivial⟩) hne
  | _ => rfl

theorem quiet_of_ne (hne : e.tid ≠ t) : s.Quiet t e := fun heq => absurd heq hne

theorem quiet_of_step (hs : s.step e = some s') (hbm : s'.bm = s.bm) (hpcb : s'.pcb = s.pcb) :
    s.Quiet t e := by
  intro _ s'' hs''
  rw [hs] at hs''
  obtain rfl := Option.some.inj hs''
  exact ⟨hbm, hpcb⟩

theorem running_of_step (hs : s.step e = some s') : s.status = .running := by
  cases e with
  | call t c =>
    obtain ⟨-, -, hrunning, -⟩ := step_call_some hs
    exact hrunning
  | run t =>
    obtain ⟨-, -, hrunning, -⟩ := step_run_some hs
    exact hrunning

/-- A kernel that runs has been running. -/
theorem running_of_run {c : Sys} {es : List SysEvent} (hrun : run Sys.step s es = some c)
    (hc : c.status = .running) : s.status = .running := by
  cases es with
  | nil =>
    obtain rfl := Option.some.inj hrun
    exact hc
  | cons e es =>
    obtain ⟨s', hs, -⟩ := run_cons_eq_some.mp hrun
    exact running_of_step hs

end Others

/-! ## After the slot is chosen -/

section Leaving

variable {s s' : Sys} {t child : Tid} {th : Proc} {e : SysEvent} {id : Int}

/-- A step of the thread itself, from which it has not returned. -/
theorem Table.step_leaving (h : s.Table) (hs : s.step e = some s') (he : e.tid = t)
    (ht : s.thread t = some th) (hpc : th.pc.Leaving id child) (hrunning : s'.status = .running)
    (hin : s'.InExecUpdate t) :
    (∃ th', s'.thread t = some th' ∧ th'.pc.Leaving id child) ∧ s'.next = s.next ∧
      s'.bm = s.bm ∧ s'.pcb = s.pcb := by
  subst he
  obtain ⟨tu, hu, -, hmoves⟩ := h.moves_of_step hs
  rw [ht] at hu
  obtain rfl := Option.some.inj hu
  cases hmoves with
  | crash | halt => cases hrunning
  | go th' hl hgoes hsem =>
    refine ⟨⟨th', hl.thread_self, ?_⟩, hl.next, hl.bm, hl.pcb⟩
    generalize th'.pc = pc at hgoes ⊢
    cases hgoes with
    | sleep => exact hpc
    | _ => simp_all [ProcPc.Leaving]
  | fork i c p hpc' hp =>
    rw [hpc'] at hpc
    exact ⟨⟨_, Function.update_self .., hpc⟩, rfl, rfl, rfl⟩
  | forked i c hpc' hl hsem =>
    rw [hpc'] at hpc
    exact ⟨⟨_, hl.thread_self, hpc.1⟩, hl.next, hl.bm, hl.pcb⟩
  | leave r hpc' =>
    obtain ⟨th', hth', hex⟩ := hin
    have hself : (s.execBmV e.tid th r).thread e.tid = some { th with pc := .user, result := r } :=
      Function.update_self ..
    rw [hself] at hth'
    rw [← Option.some.inj hth'] at hex
    exact hex.elim
  | _ => simp_all [ProcPc.Leaving]

/-- Until the return nothing is changed any more. -/
theorem Table.run_leaving {c : Sys} {es : List SysEvent} (h : s.Table)
    (ht : s.thread t = some th) (hpc : th.pc.Leaving id child)
    (hrun : run Sys.step s es = some c) (hin : AllStates Sys.step (InExecUpdate t) s es)
    (hc : c.status = .running) :
    (∃ th', c.thread t = some th' ∧ th'.pc.Leaving id child) ∧ c.next = s.next ∧
      AllSteps Sys.step (Quiet t) s es := by
  induction es generalizing s th with
  | nil =>
    obtain rfl := Option.some.inj hrun
    exact ⟨⟨th, ht, hpc⟩, rfl, trivial⟩
  | cons e es ih =>
    obtain ⟨s', hs, hrest⟩ := run_cons_eq_some.mp hrun
    have hin' := hin.2 s' hs
    have h' : s'.Table := Table.step s e s' h hs
    obtain ⟨⟨th', ht', hpc'⟩, hnext, hquiet⟩ : (∃ th', s'.thread t = some th' ∧
        th'.pc.Leaving id child) ∧ s'.next = s.next ∧ s.Quiet t e := by
      by_cases he : e.tid = t
      · obtain ⟨hth', hnext, hbm, hpcb⟩ := h.step_leaving hs he ht hpc (running_of_run hrest hc)
          hin'.head
        exact ⟨hth', hnext, quiet_of_step hs hbm hpcb⟩
      · exact ⟨⟨th, h.thread_other hs he ht, hpc⟩, h.next_other hs he ⟨th, ht, hpc.inExec⟩,
          quiet_of_ne he⟩
    obtain ⟨hth, hnext', hall⟩ := ih h' ht' hpc' hrest hin'
    exact ⟨hth, hnext'.trans hnext, (allSteps_cons hs).mpr ⟨hquiet, hall⟩⟩

end Leaving

/-! ## The new process -/

section Born

variable {s s' : Sys} {t child : Tid} {th : Proc} {e : SysEvent} {id parent : Int}
  {fileName : CStr}

theorem Born.sameTable (h : Born child id fileName parent s) (hsame : SameTable s s')
    (hfiles : ∀ a, (s'.heap a).map PCB.fileName = (s.heap a).map PCB.fileName)
    (hnext : s'.next = s.next) : Born child id fileName parent s' where
  lt := by rw [hnext]; exact h.lt
  slot := by rw [hsame.pcb]; exact h.slot
  pcb := by
    obtain ⟨p, hp, hfile, hparent⟩ := h.pcb
    obtain ⟨q, hq, hqparent⟩ := hsame.isParent ⟨p, hp, hparent⟩
    have hqfile := hfiles child
    rw [hq, hp, Option.map_some, Option.map_some] at hqfile
    have hread : q.getFileName = p.getFileName := by
      rw [PCB.getFileName, PCB.getFileName, Option.some.inj hqfile, hqparent, hparent]
    exact ⟨q, hq, hread.trans hfile, hqparent⟩

/-- Nobody moves the PCB to another slot or writes to its file name and parent. -/
theorem Table.born_step (h : s.Table) (hb : Born child id fileName parent s)
    (hs : s.step e = some s') : Born child id fileName parent s' := by
  obtain ⟨th, ht, -, hmoves⟩ := h.moves_of_step hs
  have hframe : ∀ {s' : Sys}, s'.pcb = s.pcb → s'.heap = s.heap → s'.next = s.next →
      Born child id fileName parent s' := fun hpcb hheap hnext =>
    hb.sameTable ⟨hpcb, fun a => by rw [hheap]⟩ (fun a => by rw [hheap]) hnext
  cases hmoves with
  | crash | halt => exact hframe rfl rfl rfl
  | go th' hl hgoes hsem => exact hb.sameTable hl.toSameTable hl.files hl.next
  | enter name getName hpc hv hl hsem => exact hb.sameTable hl.toSameTable hl.files hl.next
  | refuse name getName hpc hwhy => exact hframe rfl rfl rfl
  | create getName fileName' bm i hpc hnot hfirst hnum hbits =>
    obtain ⟨p, hp, hfields⟩ := hb.pcb
    refine ⟨Nat.lt_succ_of_lt hb.lt, fun k hk => ?_, p, ?_, hfields⟩
    · by_cases hki : k = i
      · have hnew : s.next = child := by simpa [Sys.created, hki] using hk
        exact absurd hb.lt (by rw [hnew]; exact lt_irrefl _)
      · have hk' : s.pcb k = some child := by simpa [Sys.created, hki] using hk
        exact hb.slot k hk'
    · exact (created_heap_of_ne hb.lt.ne).trans hp
  | fork i c p hpc hp =>
    -- `Fork` writes the parent that was there, and not the file name
    obtain ⟨hheap, -⟩ := live?_eq_some.mp hp
    refine hb.sameTable (h.sameTable_fork ht hpc hp rfl) (fun a => ?_) rfl
    rw [goto_heap]
    show Option.map _ (Function.update s.heap c _ a) = _
    by_cases hac : a = c
    · rw [hac, Function.update_self, hheap]
      rfl
    · rw [Function.update_of_ne hac]
  | forked i c hpc hl hsem => exact hb.sameTable hl.toSameTable hl.files hl.next
  | leave r hpc => exact hframe rfl rfl rfl
  | remove bm p k hpc hk hnum hbits hp =>
    refine ⟨hb.lt, hb.slot, ?_⟩
    obtain ⟨q, hq, hfields⟩ := hb.pcb
    by_cases hc : child = e.tid
    · subst hc
      rw [hp] at hq
      obtain rfl := Option.some.inj hq
      exact ⟨_, Function.update_self .., hfields⟩
    · exact ⟨q, (Function.update_of_ne hc ..).trans hq, hfields⟩
  | finish hpc hbit => exact hframe rfl rfl rfl

theorem Table.born_run {z : Sys} {es : List SysEvent} (h : s.Table)
    (hb : Born child id fileName parent s) (hrun : run Sys.step s es = some z) :
    (∃ p, z.heap child = some p ∧ p.getFileName = fileName ∧ p.parentID = parent) ∧
      ∀ tz, z.thread child = some tz → tz.processID = id := by
  have hstep : ∀ (s : Sys) e s', s.Table ∧ Born child id fileName parent s →
      s.step e = some s' → s'.Table ∧ Born child id fileName parent s' :=
    fun s e s' hs hstep => ⟨Table.step s e s' hs.1 hstep, hs.1.born_step hs.2 hstep⟩
  obtain ⟨hz, hbz⟩ := run_invariant hstep ⟨h, hb⟩ hrun
  refine ⟨hbz.pcb, fun tz htz => ?_⟩
  obtain ⟨h0, -, hpcb, -⟩ := deref_eq_some.mp (hz.thread child tz htz)
  rw [← hbz.slot _ hpcb, Int.toNat_of_nonneg h0]

/-- A free slot gives a number that no process has. -/
theorem Table.creates (h : s.Table) {bm : Bitmap} {i : Nat} (hfree : i ∈ s.bm.free)
    (hs : s.step (.run t) = some (s.created t th bm i fileName)) :
    s.Creates t i (newPCB t i th.processID fileName).getFileName th.processID where
  pos := by exact_mod_cast h.free_pos hfree
  lt := by
    have hlt := (Bitmap.mem_free.mp hfree).1
    rw [h.numBits] at hlt
    exact_mod_cast hlt
  unused := h.deref_free hfree
  fresh := by
    intro u tu hu hid
    have hslot := h.thread u tu hu
    rw [hid, h.deref_free hfree] at hslot
    cases hslot
  no_thread := h.thread_next
  born := by
    intro es z hrun
    obtain ⟨y, hy, hrest⟩ := run_cons_eq_some.mp hrun
    rw [hs] at hy
    obtain rfl := Option.some.inj hy
    refine (Table.step _ _ _ h hs).born_run ⟨Nat.lt_succ_self _, fun k hk => ?_, ?_⟩ hrest
    · by_cases hki : k = i
      · rw [hki]
      · have hk' : s.pcb k = some s.next := by simpa [Sys.created, hki] using hk
        exact absurd (h.pcb_lt k _ hk') (lt_irrefl _)
    · exact ⟨_, created_heap_next, rfl, rfl⟩

end Born

/-! ## Before the slot is chosen -/

section Entering

variable {s s' : Sys} {t : Tid} {th : Proc} {e : SysEvent} {name : Option CStr}
  {getName : CStr}

/-- How the choice ends: a refusal, or a new process. -/
inductive Decides (s : Sys) (t : Tid) (th : Proc) (name : Option CStr) (getName : CStr) :
    Sys → Prop where
  | wait {s' : Sys} (th' : Proc) (hth' : s'.thread t = some th')
      (hpid : th'.processID = th.processID) (hpc : th'.pc.Entering name getName)
      (hbm : s'.bm = s.bm) (hpcb : s'.pcb = s.pcb) :
      Decides s t th name getName s'
  | refuse (hpc : th.pc = .execBody name getName) (hwhy : s.Refuses name getName) :
      Decides s t th name getName (s.goto t th (.execBmV (-1)))
  | create (fileName : CStr) (bm : Bitmap) (i : Nat) (hpc : th.pc = .execBody name getName)
      (hname : name = some fileName) (hnot : ¬ s.Refuses name getName) (hfree : i ∈ s.bm.free) :
      Decides s t th name getName (s.created t th bm i fileName)

theorem Table.step_entering (h : s.Table) (hs : s.step e = some s') (he : e.tid = t)
    (ht : s.thread t = some th) (hpc : th.pc.Entering name getName)
    (hrunning : s'.status = .running) : Decides s t th name getName s' := by
  subst he
  obtain ⟨tu, hu, -, hmoves⟩ := h.moves_of_step hs
  rw [ht] at hu
  obtain rfl := Option.some.inj hu
  cases hmoves with
  | crash | halt => cases hrunning
  | go th' hl hgoes hsem =>
    refine .wait th' hl.thread_self hl.pid ?_ hl.bm hl.pcb
    generalize th'.pc = pc at hgoes ⊢
    cases hgoes with
    | sleep => exact hpc
    | _ => simp_all [ProcPc.Entering]
  | enter n g hpc' hv hl hsem =>
    rw [hpc'] at hpc
    exact .wait _ hl.thread_self hl.pid hpc hl.bm hl.pcb
  | refuse n g hpc' hwhy =>
    rw [hpc'] at hpc
    obtain ⟨rfl, rfl⟩ := hpc
    exact .refuse hpc' hwhy
  | create g fileName bm i hpc' hnot hfirst hnum hbits =>
    rw [hpc'] at hpc
    obtain ⟨rfl, rfl⟩ := hpc
    exact .create fileName bm i hpc' rfl hnot (List.mem_of_head? hfirst)
  | _ => simp_all [ProcPc.Entering]

/-- A thread inside a call does not make another one. -/
theorem eq_run_of_step (hs : s.step e = some s') (he : e.tid = t) (ht : s.thread t = some th)
    (hpc : th.pc ≠ .user) : e = .run t := by
  cases e with
  | run u =>
    obtain rfl : u = t := he
    rfl
  | call u c =>
    obtain rfl : u = t := he
    obtain ⟨tu, hu, -, huser, -⟩ := step_call_some hs
    rw [ht] at hu
    rw [Option.some.inj hu] at hpc
    exact absurd huser hpc

/-- The run takes a step of thread `t` in state `x`. -/
def StepAt (s : Sys) (es : List SysEvent) (t : Tid) (x : Sys) : Prop :=
  ∃ es₁ es₂, es = es₁ ++ .run t :: es₂ ∧ run Sys.step s es₁ = some x

theorem stepAt_head (es : List SysEvent) : s.StepAt (.run t :: es) t s := ⟨[], es, rfl, rfl⟩

theorem StepAt.cons {es : List SysEvent} {x : Sys} (h : s'.StepAt es t x)
    (hs : s.step e = some s') : s.StepAt (e :: es) t x := by
  obtain ⟨es₁, es₂, rfl, hrun⟩ := h
  exact ⟨e :: es₁, es₂, rfl, run_cons_eq_some.mpr ⟨s', hs, hrun⟩⟩

/-- The step is one that the run goes through. -/
theorem StepAt.run_step {es : List SysEvent} {x c : Sys} (h : s.StepAt es t x)
    (hrun : run Sys.step s es = some c) : ∃ z, run Sys.step x [.run t] = some z := by
  obtain ⟨es₁, es₂, rfl, hx⟩ := h
  obtain ⟨x', hx', hrest⟩ := run_append_eq_some.mp hrun
  rw [hx] at hx'
  obtain rfl := Option.some.inj hx'
  obtain ⟨y, hy, -⟩ := run_cons_eq_some.mp hrest
  exact ⟨y, run_cons_eq_some.mpr ⟨y, hy, rfl⟩⟩

/-- In state `x` of the run thread `t` has `bmsem` and is going to check the name. -/
def ChecksAt (s : Sys) (es : List SysEvent) (t : Tid) (name : Option CStr) (getName : CStr)
    (x : Sys) : Prop :=
  s.StepAt es t x ∧ ∃ th, x.thread t = some th ∧ th.pc = .execBody name getName

theorem ChecksAt.cons {es : List SysEvent} {x : Sys} (h : s'.ChecksAt es t name getName x)
    (hs : s.step e = some s') : s.ChecksAt (e :: es) t name getName x := ⟨h.1.cons hs, h.2⟩

/-- Where the thread is after a part of its call. -/
inductive Midway (s : Sys) (es : List SysEvent) (t : Tid) (current : Int) (name : Option CStr)
    (getName : CStr) (c : Sys) : Prop where
  | wait (th' : Proc) (hth' : c.thread t = some th') (hpc : th'.pc.Entering name getName)
  | refuse (th' : Proc) (x : Sys) (hth' : c.thread t = some th') (hpc : th'.pc.Leaving (-1) 0)
      (hat : s.ChecksAt es t name getName x) (hwhy : x.Refuses name getName)
      (hquiet : AllSteps Sys.step (Quiet t) s es)
  | create (fileName : CStr) (id : Int) (th' : Proc) (x : Sys) (hname : name = some fileName)
      (hth' : c.thread t = some th') (hpc : th'.pc.Leaving id x.next) (hnext : c.next = x.next + 1)
      (hat : s.ChecksAt es t name getName x) (hnot : ¬ x.Refuses name getName)
      (hcreates : x.Creates t id (newPCB t id current fileName).getFileName current)

theorem Midway.cons {es : List SysEvent} {current : Int} {c : Sys} (hs : s.step e = some s')
    (hquiet : s.Quiet t e) (h : Midway s' es t current name getName c) :
    Midway s (e :: es) t current name getName c := by
  cases h with
  | wait th' hth' hpc => exact .wait th' hth' hpc
  | refuse th' x hth' hpc hat hwhy hall =>
    exact .refuse th' x hth' hpc (hat.cons hs) hwhy ((allSteps_cons hs).mpr ⟨hquiet, hall⟩)
  | create fileName id th' x hname hth' hpc hnext hat hnot hcreates =>
    exact .create fileName id th' x hname hth' hpc hnext (hat.cons hs) hnot hcreates

theorem Table.run_entering {c : Sys} {es : List SysEvent} (h : s.Table)
    (ht : s.thread t = some th) (hpc : th.pc.Entering name getName)
    (hrun : run Sys.step s es = some c) (hin : AllStates Sys.step (InExecUpdate t) s es)
    (hc : c.status = .running) : Midway s es t th.processID name getName c := by
  induction es generalizing s th with
  | nil =>
    obtain rfl := Option.some.inj hrun
    exact .wait th ht hpc
  | cons e es ih =>
    obtain ⟨s', hs, hrest⟩ := run_cons_eq_some.mp hrun
    have hin' := hin.2 s' hs
    have h' : s'.Table := Table.step s e s' h hs
    by_cases he : e.tid = t
    · have hrunning := running_of_run hrest hc
      have huser : th.pc ≠ .user := by
        intro hu
        rw [hu] at hpc
        exact hpc
      obtain rfl := eq_run_of_step hs he ht huser
      cases h.step_entering hs he ht hpc hrunning with
      | wait th' ht' hpid hpc' hbm hpcb =>
        have hmid := ih h' ht' hpc' hrest hin'
        rw [hpid] at hmid
        exact hmid.cons hs (quiet_of_step hs hbm hpcb)
      | refuse hbody hwhy =>
        have ht' : (s.goto t th (.execBmV (-1))).thread t
            = some { th with pc := .execBmV (-1) } := Function.update_self ..
        have hpc' : ProcPc.Leaving (-1) 0 (.execBmV (-1)) := rfl
        obtain ⟨⟨thc, hthc, hpcc⟩, -, hall⟩ := h'.run_leaving ht' hpc' hrest hin' hc
        exact .refuse thc s hthc hpcc ⟨stepAt_head es, th, ht, hbody⟩ hwhy
          ((allSteps_cons hs).mpr ⟨quiet_of_step hs rfl rfl, hall⟩)
      | create fileName bm i hbody hname hnot hfree =>
        obtain ⟨⟨thc, hthc, hpcc⟩, hnext, -⟩ :=
          h'.run_leaving created_thread_self ⟨rfl, rfl⟩ hrest hin' hc
        exact .create fileName i thc s hname hthc hpcc hnext ⟨stepAt_head es, th, ht, hbody⟩ hnot
          (h.creates hfree hs)
    · exact (ih h' (h.thread_other hs he ht) hpc hrest hin').cons hs (quiet_of_ne he)

end Entering

/-! ## A whole call -/

section Call

variable {s s' : Sys} {t : Tid} {th th' : Proc} {e : SysEvent}

/-- A thread in `ExecUpdate` comes back to its program through `bmsem->V()`. -/
theorem Table.returns (h : s.Table) (ht : s.thread t = some th) (hin : th.pc.InExecUpdate)
    (hs : s.step e = some s') (ht' : s'.thread t = some th') (huser : th'.pc = .user) :
    e = .run t ∧ th.pc = .execBmV th'.result ∧ s' = s.execBmV t th th'.result := by
  have hnot : ¬ th'.pc.InExecUpdate := by rw [huser]; exact id
  have hmoved : th' ≠ th := by
    rintro rfl
    exact hnot hin
  have he : e.tid = t := by
    by_contra he
    rw [h.thread_other hs he ht] at ht'
    exact hmoved (Option.some.inj ht').symm
  have hrun := eq_run_of_step hs he ht fun hu => by rw [hu] at hin; exact hin
  subst hrun
  obtain ⟨tu, hu, -, hmoves⟩ := h.moves_of_step hs
  rw [show SysEvent.tid (.run t) = t from rfl] at hu hmoves
  rw [ht] at hu
  obtain rfl := Option.some.inj hu
  -- every other step leaves the thread inside, or ends it
  have hinside : ∀ {pc}, s'.thread t = some { th with pc := pc } → pc ≠ .user → False := by
    intro pc hself hne
    rw [ht'] at hself
    rw [Option.some.inj hself] at huser
    exact hne huser
  cases hmoves with
  | leave r hpc =>
    have hself : (s.execBmV t th r).thread t = some { th with pc := .user, result := r } :=
      Function.update_self ..
    rw [hself] at ht'
    obtain rfl := Option.some.inj ht'
    exact ⟨rfl, hpc, rfl⟩
  | crash => exact absurd (Option.some.inj (ht'.symm.trans ht)) hmoved
  | halt => exact absurd (Option.some.inj (ht'.symm.trans ht)) hmoved
  | go th'' hl hgoes hsem =>
    rw [hl.thread_self] at ht'
    obtain rfl := Option.some.inj ht'
    generalize th''.pc = pc at hgoes huser
    cases hgoes <;> simp_all [ProcPc.InExecUpdate]
  | enter name getName hpc hv hl hsem => exact (hinside hl.thread_self (by simp)).elim
  | refuse name getName hpc hwhy => exact (hinside (Function.update_self ..) (by simp)).elim
  | create getName fileName bm i hpc hnot hfirst hnum hbits =>
    exact (hinside created_thread_self (by simp)).elim
  | fork id child p hpc hp => exact (hinside (Function.update_self ..) (by simp)).elim
  | forked id child hpc hl hsem => exact (hinside hl.thread_self (by simp)).elim
  | remove bm p k hpc hk hnum hbits hp =>
    rw [hpc] at hin
    exact hin.elim
  | finish hpc hbit =>
    rw [hpc] at hin
    exact hin.elim

/--
What `ExecUpdate` is meant to do, from its call in state `a` to its return in state `d`, when it
checks the name in state `x`.

`bmsem` is free. If the result is -1, the name was refused, and no step of the call has changed the
bitmap or `pcb[]`. Otherwise the step in `x` has made a process under the number that is returned,
which no process had; whoever has the number in the end is that process.
-/
def ExecAtomic (a x d : Sys) (es : List SysEvent) (t : Tid) (current result : Int)
    (name : Option CStr) (getName : CStr) : Prop :=
  d.bmsem.value = 1 ∧
    ((result = -1 ∧ AllSteps Sys.step (Quiet t) a (.call t (.exec name getName) :: es) ∧
        x.Refuses name getName) ∨
      ∃ fileName, name = some fileName ∧ x.Creates t result fileName current ∧
        ∀ u tu, d.thread u = some tu → tu.processID = result → u = x.next)

/-- The process has the file name that was given to it exactly if the name is kept. -/
theorem Table.creates_iff {x : Sys} {t : Tid} {id current : Int} {fileName : CStr}
    (h : 0 ≤ current) (hlt : current < maxProcess) {es : List SysEvent} {z : Sys}
    (hrun : run Sys.step x (.run t :: es) = some z)
    (hcreates : x.Creates t id (newPCB t id current fileName).getFileName current) :
    x.Creates t id fileName current ↔ FileNameKept fileName current := by
  have hread : (newPCB t id current fileName).getFileName = fileName ↔
      FileNameKept fileName current := getFileName_newPCB_iff h hlt
  rw [← hread]
  constructor
  · intro hgiven
    obtain ⟨⟨p, hp, hname, -⟩, -⟩ := hcreates.born es z hrun
    obtain ⟨⟨q, hq, hname', -⟩, -⟩ := hgiven.born es z hrun
    obtain rfl : p = q := Option.some.inj (hp.symm.trans hq)
    exact hname.symm.trans hname'
  · intro hkept
    rw [hkept] at hcreates
    exact hcreates

/-- Where `ExecUpdate` returns `id`, the process with this number is the last one made. -/
theorem Table.next_of_processID {id : Int} (h : s.Table) (ht : s.thread t = some th)
    (hpc : th.pc = .execBmV id) (hid : 0 < id) {u : Tid} (hu : s.deref id = some u) :
    s.next = u + 1 := by
  have hplace := h.place t th ht
  simp only [Place, hpc] at hplace
  rcases hplace with hneg | ⟨-, -, hlast⟩
  · rw [hneg] at hid
    exact absurd hid (by decide)
  · exact (hlast u hu).symm

/--
**When `ExecUpdate` does what it is meant to do**, in any run.

Thread `t` calls it in state `a`, is inside it from `b` to `c`, and is back in its program in `d`.
In state `x` it has `bmsem` and checks the name. Whatever the other threads do meanwhile: the call
refuses the name there, or the name has to be one that a PCB of this caller keeps.
-/
theorem run_exec_atomic_iff {s₀ a b c d : Sys} {es₀ es : List SysEvent} {name : Option CStr}
    {getName : CStr} (hnew : Sys.new = some s₀) (hrun : run Sys.step s₀ es₀ = some a)
    (ht : a.thread t = some th) (hcall : a.step (.call t (.exec name getName)) = some b)
    (hinside : run Sys.step b es = some c) (hin : AllStates Sys.step (InExecUpdate t) b es)
    (hret : c.step e = some d) (hback : d.thread t = some th') (huser : th'.pc = .user) :
    ∃ x, b.ChecksAt es t name getName x ∧
      (ExecAtomic a x d (es ++ [e]) t th.processID th'.result name getName ↔
        x.Refuses name getName ∨
          ∀ fileName, name = some fileName → FileNameKept fileName th.processID) := by
  have ha : a.Table := table_run hnew hrun
  have hb : b.Table := Table.step _ _ _ ha hcall
  have hc : c.Table := run_invariant Table.step hb hinside
  have hd : d.Table := Table.step _ _ _ hc hret
  obtain ⟨h0, hlt, -⟩ := deref_eq_some.mp (ha.thread t th ht)
  obtain ⟨th₀, ht₀, -, -, rfl⟩ := step_call_some hcall
  rw [ht] at ht₀
  obtain rfl := Option.some.inj ht₀
  have hbt : (a.goto t th (.execP name getName)).thread t
      = some { th with pc := .execP name getName } := Function.update_self ..
  have hmid := hb.run_entering hbt ⟨rfl, rfl⟩ hinside hin (running_of_step hret)
  cases hmid with
  | wait thc hthc hpc =>
    obtain ⟨-, hpcc, -⟩ := hc.returns hthc hpc.inExecUpdate hret hback huser
    rw [hpcc] at hpc
    exact hpc.elim
  | refuse thc x hthc hpc hat hwhy hquiet =>
    obtain ⟨rfl, hpcc, rfl⟩ := hc.returns hthc hpc.inExecUpdate hret hback huser
    rw [hpcc] at hpc
    refine ⟨x, hat, iff_of_true ⟨(hc.leave hthc hpcc).2, .inl ⟨hpc, ?_, hwhy⟩⟩ (.inl hwhy)⟩
    refine (allSteps_cons hcall).mpr ⟨quiet_of_step hcall rfl rfl, ?_⟩
    exact (allSteps_append hinside).mpr ⟨hquiet, quiet_of_step hret rfl rfl, fun _ _ => trivial⟩
  | create fileName id thc x hname hthc hpc hnext hat hnot hcreates =>
    obtain ⟨rfl, hpcc, rfl⟩ := hc.returns hthc hpc.inExecUpdate hret hback huser
    rw [hpcc] at hpc
    obtain rfl : th'.result = id := hpc
    obtain ⟨z, hz⟩ := hat.1.run_step hinside
    have hiff := Table.creates_iff h0 hlt hz hcreates
    refine ⟨x, hat, ?_⟩
    constructor
    · rintro ⟨-, ⟨hminus, -⟩ | ⟨fileName', hname', hcreates', -⟩⟩
      · exact absurd hcreates.pos (by rw [hminus]; decide)
      · refine .inr fun n hn => ?_
        obtain rfl : fileName' = n := Option.some.inj (hname'.symm.trans hn)
        obtain rfl : fileName = fileName' := Option.some.inj (hname.symm.trans hname')
        exact hiff.mp hcreates'
    · rintro (hwhy | hkept)
      · exact absurd hwhy hnot
      · refine ⟨(hc.leave hthc hpcc).2, .inr ⟨fileName, hname, hiff.mpr (hkept fileName hname), ?_⟩⟩
        intro u tu hu hid
        have hslot : c.deref th'.result = some u := by
          rw [← hid]
          exact hd.thread u tu hu
        have hu' := hc.next_of_processID hthc hpcc hcreates.pos hslot
        rw [hnext] at hu'
        exact (Nat.succ.inj hu').symm

/-- The new process calls `Exit` before the `Exec` that has made it returns. -/
def childFirst : List SysEvent := [.run 0, .run 0, .run 0, .call 1 (.exit 7), .run 0]

theorem run_exec_atomic_child_first :
    ∃ a b c d x th', Sys.new = some a ∧
      a.step (.call 0 (.exec (some nameA) nameMain)) = some b ∧
      run Sys.step b childFirst = some c ∧ AllStates Sys.step (InExecUpdate 0) b childFirst ∧
      c.step (.run 0) = some d ∧ d.thread 0 = some th' ∧ th'.result = 1 ∧
      ExecAtomic a x d (childFirst ++ [.run 0]) 0 0 1 (some nameA) nameMain := by
  obtain ⟨a, b, c, d, th, th', hnew, ht, hcall, hinside, hin, hret, hback, huser, hresult, hpid⟩ :
      ∃ a b c d th th', Sys.new = some a ∧ a.thread 0 = some th ∧
        a.step (.call 0 (.exec (some nameA) nameMain)) = some b ∧
        run Sys.step b childFirst = some c ∧ AllStates Sys.step (InExecUpdate 0) b childFirst ∧
        c.step (.run 0) = some d ∧ d.thread 0 = some th' ∧ th'.pc = .user ∧ th'.result = 1 ∧
        th.processID = 0 := by
    refine ⟨_, _, _, _, _, _, rfl, rfl, rfl, rfl, ?_, rfl, rfl, rfl, rfl, rfl⟩
    unfold childFirst
    refine (allStates_cons rfl).mpr ⟨⟨_, rfl, trivial⟩, ?_⟩
    refine (allStates_cons rfl).mpr ⟨⟨_, rfl, trivial⟩, ?_⟩
    refine (allStates_cons rfl).mpr ⟨⟨_, rfl, trivial⟩, ?_⟩
    refine (allStates_cons rfl).mpr ⟨⟨_, rfl, trivial⟩, ?_⟩
    refine (allStates_cons rfl).mpr ⟨⟨_, rfl, trivial⟩, ?_⟩
    exact ⟨_, rfl, trivial⟩
  obtain ⟨x, -, hiff⟩ :=
    run_exec_atomic_iff hnew (run_nil a) ht hcall hinside hin hret hback huser
  rw [hresult, hpid] at hiff
  refine ⟨a, b, c, d, x, th', hnew, hcall, hinside, hin, hret, hback, hresult, hiff.mpr (.inr ?_)⟩
  rintro _ ⟨⟩
  exact .inl (by decide)

/-- A name of 32 characters, as `SysExec` can hand it over. -/
def name32 : CStr := { chars := List.replicate 32 97, nonzero := by decide }

/-- Process 1 executes a program with such a name. Behind it stands the number of process 1. -/
theorem exec_name32_not_kept :
    ∃ s₀ s, Sys.new = some s₀ ∧
      run Sys.step s₀ (execAll 0 nameA nameMain ++ execAll 1 name32 nameA) = some s ∧
      (s.thread 1).map (·.result) = some 2 ∧ (s.heap 2).map (·.parentID) = some 1 ∧
      (s.heap 2).map (·.getFileName.chars) = some (name32.chars ++ [1]) :=
  ⟨_, _, rfl, rfl, rfl, rfl, rfl⟩

end Call

end Sys

end Nachos
