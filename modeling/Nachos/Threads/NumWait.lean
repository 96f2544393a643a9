import Nachos.Threads.ExecUpdate
import Nachos.Threads.Parenthood

/-!
# What numwait counts (`threads/pcb.cc`, `threads/ptable.cc`)

`JoinUpdate` calls `IncNumWait` on the PCB of the caller before it waits for the child, and
`ExitUpdate` calls `DecNumWait` on the PCB of the parent before it lets the parent go on. So
`numwait` should be the number of `Join`s whose child has not exited yet. But `DecNumWait` leaves a
counter of zero alone, and it does not ask whether the parent has joined the process that exits.
`InOrder` says when the two calls do what they are for, and `run_counts_iff` that the counter is
right in every state of a run exactly when all the steps of the run are of this kind.

A run is taken together with a log of the calls of `IncNumWait` and `DecNumWait` that are done, each
with the parent, the child, and what has happened to the counter (`Tallied`).

* `Counts` — the counter is right, and the two calls for a child cancel each other
* `Book` — the invariant: who is in which call, for which child
* `Happens` — what a step does to the counters
-/

namespace Nachos

open Base

/-- A call of `IncNumWait` or `DecNumWait` on the PCB of `parent` that is done. -/
inductive NumWaitCall where
  /-- `parent` has joined `child`. -/
  | inc (parent child : Tid)
  /-- `child` exits, and `change` is added to the counter of `parent`. -/
  | dec (parent child : Tid) (change : Int)
deriving DecidableEq

namespace NumWaitCall

/-- The `Join`s, each with the process that has called it and its child. -/
def joins (log : List NumWaitCall) : List (Tid × Tid) :=
  log.filterMap fun call =>
    match call with
    | .inc parent child => some (parent, child)
    | .dec _ _ _ => none

/-- The processes that have passed `DecNumWait`. -/
def exited (log : List NumWaitCall) : List Tid :=
  log.filterMap fun call =>
    match call with
    | .inc _ _ => none
    | .dec _ child _ => some child

/-- The number of `Join`s by `a` whose child has not exited yet. -/
def pending (log : List NumWaitCall) (a : Tid) : Nat :=
  (joins log).countP fun j => decide (j.1 = a ∧ j.2 ∉ exited log)

/-- What the call adds to the counter of `a` on account of `c`. -/
def changeFor (a c : Tid) : NumWaitCall → Int
  | .inc parent child => if parent = a ∧ child = c then 1 else 0
  | .dec parent child change => if parent = a ∧ child = c then change else 0

/-- What the `Join`s of `c` by `a` and the `Exit` of `c` have added to the counter of `a`. -/
def net (log : List NumWaitCall) (a c : Tid) : Int := (log.map (changeFor a c)).sum

section Log

variable {log : List NumWaitCall} {a b c : Tid} {d : Int}

@[simp] theorem joins_inc (log : List NumWaitCall) (a c : Tid) :
    joins (log ++ [.inc a c]) = joins log ++ [(a, c)] := by
  simp [joins]

@[simp] theorem joins_dec (log : List NumWaitCall) (a c : Tid) (d : Int) :
    joins (log ++ [.dec a c d]) = joins log := by
  simp [joins]

@[simp] theorem exited_inc (log : List NumWaitCall) (a c : Tid) :
    exited (log ++ [.inc a c]) = exited log := by
  simp [exited]

@[simp] theorem exited_dec (log : List NumWaitCall) (a c : Tid) (d : Int) :
    exited (log ++ [.dec a c d]) = exited log ++ [c] := by
  simp [exited]

@[simp] theorem net_append_singleton (log : List NumWaitCall) (call : NumWaitCall) (a c : Tid) :
    net (log ++ [call]) a c = net log a c + call.changeFor a c := by
  simp [net]

/-- `IncNumWait` for a child that has not exited: one more `Join` is pending. -/
theorem pending_inc (hc : c ∉ exited log) (a : Tid) :
    pending (log ++ [.inc b c]) a = pending log a + if b = a then 1 else 0 := by
  simp [pending, List.countP_append, List.countP_singleton, hc]

/-- `IncNumWait` for a child that has exited. -/
theorem pending_inc_exited (hc : c ∈ exited log) (a : Tid) :
    pending (log ++ [.inc b c]) a = pending log a := by
  simp [pending, List.countP_append, hc]

theorem countP_add_count (js : List (Tid × Tid)) {gone : List Tid} (hc : c ∉ gone) (a : Tid) :
    js.countP (fun j => decide (j.1 = a ∧ j.2 ∉ gone ++ [c])) + js.count (a, c)
      = js.countP fun j => decide (j.1 = a ∧ j.2 ∉ gone) := by
  induction js with
  | nil => rfl
  | cons j js ih =>
    obtain ⟨p, k⟩ := j
    rw [List.countP_cons, List.countP_cons, List.count_cons]
    by_cases hp : p = a
    · by_cases hk : k = c
      · subst hp hk
        simp [hc] at ih ⊢
        omega
      · simp [hp, hk] at ih ⊢
        omega
    · simp [hp] at ih ⊢
      omega

/-- `DecNumWait`: the `Join`s of the child are not pending any more. -/
theorem pending_dec (hc : c ∉ exited log) (a : Tid) :
    pending (log ++ [.dec b c d]) a + (joins log).count (a, c) = pending log a := by
  unfold pending
  rw [joins_dec, exited_dec]
  exact countP_add_count (joins log) hc a

/-- Before the child exits, only `Join`s have changed the counter on its account. -/
theorem net_eq_count (hc : c ∉ exited log) (a : Tid) :
    net log a c = (joins log).count (a, c) := by
  induction log using List.reverseRecOn with
  | nil => rfl
  | append_singleton log call ih =>
    cases call with
    | inc p k =>
      rw [exited_inc] at hc
      rw [net_append_singleton, ih hc, joins_inc, List.count_append, List.count_singleton]
      simp [changeFor]
    | dec p k change =>
      rw [exited_dec, List.mem_append, not_or, List.mem_singleton] at hc
      rw [net_append_singleton, ih hc.1, joins_dec]
      simp [changeFor, Ne.symm hc.2]

end Log

end NumWaitCall

open NumWaitCall

/-! ## Runs with a log -/

/-- The processes together with the log. `joining` has the child that a thread has joined last. -/
structure Tallied where
  sys : Sys
  joining : Tid → Option Tid
  log : List NumWaitCall

namespace Tallied

/-- The state of the kernel, before any call. -/
def start (s : Sys) : Tallied where
  sys := s
  joining := fun _ => none
  log := []

/-- `Join` names the child by its slot. -/
def joiningAfter (x : Tallied) : SysEvent → Tid → Option Tid
  | .call t (.join id) => Function.update x.joining t (x.sys.deref id)
  | _ => x.joining

/-- The call of `IncNumWait` or `DecNumWait` that thread `t` ends when it goes on from there. -/
def callsAt (x : Tallied) (t : Tid) : ProcPc → List NumWaitCall
  | .joinIncV _ _ => (x.joining t).toList.map fun child => .inc t child
  | .exitDecV parent => (x.sys.live? parent).toList.map fun p =>
      .dec parent t (p.decNumWait.numwait - p.numwait)
  | _ => []

def calls (x : Tallied) : SysEvent → List NumWaitCall
  | .call _ _ => []
  | .run t => ((x.sys.thread t).map fun th => x.callsAt t th.pc).getD []

/-- One step of one thread, and what it adds to the log. -/
def step (x : Tallied) (e : SysEvent) : Option Tallied :=
  (x.sys.step e).map fun s' =>
    { sys := s', joining := x.joiningAfter e, log := x.log ++ x.calls e }

/--
Every counter is the number of `Join`s by its process whose child has not exited, and a child that
was joined once and has exited has left the counter of its parent as it was.
-/
structure Counts (x : Tallied) : Prop where
  numwait : ∀ a p, x.sys.live? a = some p → p.numwait = pending x.log a
  pair : ∀ a c, (joins x.log).count (a, c) = 1 → c ∈ exited x.log → net x.log a c = 0

/--
`IncNumWait` is not called for a child that has already passed `DecNumWait`; and a process that its
parent has not joined passes `DecNumWait` only while the counter of the parent is zero.
-/
def InOrder (x : Tallied) : SysEvent → Prop
  | .call _ _ => True
  | .run t => ∀ th, x.sys.thread t = some th →
      (∀ id self child, th.pc = .joinIncV id self → x.joining t = some child →
        child ∉ exited x.log) ∧
      ∀ parent p, th.pc = .exitDecV parent → x.sys.live? parent = some p →
        p.numwait = 0 ∨ (parent, t) ∈ joins x.log

theorem step_eq_some {x x' : Tallied} {e : SysEvent} :
    x.step e = some x' ↔ x.sys.step e = some x'.sys ∧ x'.joining = x.joiningAfter e ∧
      x'.log = x.log ++ x.calls e := by
  unfold step
  rw [Option.map_eq_some_iff]
  constructor
  · rintro ⟨s', hs, rfl⟩
    exact ⟨hs, rfl, rfl⟩
  · rintro ⟨hs, hjoining, hlog⟩
    exact ⟨x'.sys, hs, by rw [← hjoining, ← hlog]⟩

/-- The log does not keep the kernel from any step. -/
theorem run_of_sys {x : Tallied} {s : Sys} {es : List SysEvent}
    (h : run Sys.step x.sys es = some s) : ∃ x', run step x es = some x' ∧ x'.sys = s := by
  induction es generalizing x with
  | nil => exact ⟨x, rfl, Option.some.inj h⟩
  | cons e es ih =>
    obtain ⟨s', hs, hrest⟩ := run_cons_eq_some.mp h
    obtain ⟨x', hx', heq⟩ := @ih { sys := s', joining := x.joiningAfter e, log := _ } hrest
    exact ⟨x', run_cons_eq_some.mpr ⟨_, step_eq_some.mpr ⟨hs, rfl, rfl⟩, hx'⟩, heq⟩

end Tallied

/-! ## What every step keeps -/

namespace Sys

/-- The PCB `a` was made and is destroyed. -/
def Dead (s : Sys) (a : Tid) : Prop := a < s.next ∧ s.live? a = none

/--
What a step of thread `t` keeps: numbers, parents, destroyed PCBs, and the other threads. A PCB that
leaves its slot is destroyed by its own thread.
-/
structure Keeps (s : Sys) (t : Tid) (s' : Sys) : Prop where
  next : s.next ≤ s'.next
  deref : ∀ k a, s.deref k = some a → s'.deref k = some a ∨
    s'.Dead a ∧ ∃ th, s.thread a = some th ∧ th.pc = .exitRemove
  isParent : ∀ a q, s.IsParent a q → s'.IsParent a q
  dead : ∀ a, s.Dead a → s'.Dead a
  other : ∀ u tu, u ≠ t → s.thread u = some tu → s'.thread u = some tu
  back : ∀ u tu, u ≠ t → s'.thread u = some tu → s.thread u = some tu ∨ tu.pc = .user

section Keeps

variable {s s' : Sys} {t : Tid} {th th' : Proc}

theorem live?_eq_none {a : Tid} :
    s.live? a = none ↔ ∀ p, s.heap a = some p → p.alive = false := by
  rw [Option.eq_none_iff_forall_ne_some]
  constructor
  · intro h p hp
    by_contra halive
    exact h p (live?_eq_some.mpr ⟨hp, by simpa using halive⟩)
  · intro h p hp
    obtain ⟨hheap, halive⟩ := live?_eq_some.mp hp
    rw [h p hheap] at halive
    cases halive

theorem SameTable.dead (h : SameTable s s') {a : Tid} (ha : s.live? a = none) :
    s'.live? a = none := by
  rw [live?_eq_none] at ha ⊢
  intro p' hp'
  obtain ⟨p, hp, htie⟩ := h.heap_some hp'
  have halive : p.alive = p'.alive := congrArg Prod.fst htie
  rw [← halive]
  exact ha p hp

theorem Keeps.of_same (h : SameTable s s') (hnext : s'.next = s.next)
    (hother : ∀ u tu, u ≠ t → s.thread u = some tu → s'.thread u = some tu)
    (hback : ∀ u tu, u ≠ t → s'.thread u = some tu → s.thread u = some tu ∨ tu.pc = .user) :
    Keeps s t s' where
  next := hnext.ge
  deref := fun k _ hk => Or.inl ((h.deref k).trans hk)
  isParent := fun _ _ => h.isParent
  dead := fun a ha => ⟨by rw [hnext]; exact ha.1, h.dead ha.2⟩
  other := hother
  back := hback

theorem Local.keeps (hl : Local s t th th' s') : Keeps s t s' := by
  refine .of_same hl.toSameTable hl.next (fun u tu hu htu => ?_) fun u tu hu htu => Or.inl ?_
  · exact (hl.thread_of_ne hu).trans htu
  · exact (hl.thread_of_ne hu).symm.trans htu

theorem Table.keeps_created (h : s.Table) {bm : Bitmap} {i : Nat} {fileName : CStr}
    (hfree : i ∈ s.bm.free) : Keeps s t (s.created t th bm i fileName) where
  next := Nat.le_succ _
  deref := fun k a hk => Or.inl (h.deref_created_of_some hfree hk)
  isParent := fun _ _ hq => h.isParent_created hq
  dead := by
    rintro a ⟨ha, hdead⟩
    refine ⟨Nat.lt_succ_of_lt ha, ?_⟩
    rw [live?_eq_none, created_heap_of_ne ha.ne]
    exact live?_eq_none.mp hdead
  other := fun u tu hu htu => (created_thread_of_ne hu).trans htu
  back := fun u tu hu htu => Or.inl ((created_thread_of_ne hu).symm.trans htu)

theorem removed_dead {bm : Bitmap} {p : PCB} : (s.removed t bm p).live? t = none := by
  rw [live?_eq_none]
  intro q hq
  have hq' := (Function.update_self ..).symm.trans hq
  rw [← Option.some.inj hq']

theorem Table.keeps_removed (h : s.Table) (ht : s.thread t = some th) (hpc : th.pc = .exitRemove)
    {bm : Bitmap} {p : PCB} (hp : s.heap t = some p) : Keeps s t (s.removed t bm p) := by
  refine ⟨le_rfl, fun k a hk => ?_, fun _ _ => (isParent_removed hp).mpr, ?_, ?_, ?_⟩
  · by_cases hat : a = t
    · rw [hat]
      exact Or.inr ⟨⟨h.thread_lt ht, removed_dead⟩, th, ht, hpc⟩
    · exact Or.inl (h.deref_removed_of_some ht hk hat)
  · rintro a ⟨hlt, hold⟩
    refine ⟨hlt, ?_⟩
    by_cases hat : a = t
    · rw [hat]
      exact removed_dead
    · rw [live?_eq_none, removed_heap_of_ne hat]
      exact live?_eq_none.mp hold
  · exact fun u tu hu htu => (removed_thread_of_ne hu).trans htu
  · exact fun u tu hu htu => Or.inl ((removed_thread_of_ne hu).symm.trans htu)

/-- Every step keeps this. -/
theorem Table.keeps (h : s.Table) {e : SysEvent} (hs : s.step e = some s') :
    Keeps s e.tid s' := by
  have hother : ∀ u tu, u ≠ e.tid → s.thread u = some tu → s'.thread u = some tu :=
    fun u tu hu htu => h.thread_other hs hu.symm htu
  obtain ⟨th, ht, -, hmoves⟩ := h.moves_of_step hs
  cases hmoves with
  | crash | halt =>
    exact .of_same ⟨rfl, fun _ => rfl⟩ rfl hother fun u tu _ htu => Or.inl htu
  | go th' hl hgoes hsem => exact hl.keeps
  | enter name getName hpc hv hl hsem => exact hl.keeps
  | refuse name getName hpc hwhy =>
    exact .of_same ⟨rfl, fun _ => rfl⟩ rfl hother fun u tu hu htu =>
      Or.inl ((Function.update_of_ne hu ..).symm.trans htu)
  | create getName fileName bm i hpc hnot hfirst hnum hbits =>
    exact h.keeps_created (List.mem_of_head? hfirst)
  | fork id child p hpc hp =>
    refine .of_same (h.sameTable_fork ht hpc hp rfl) rfl hother fun u tu hu htu => ?_
    rcases thread_of_fork rfl htu with ⟨heq, -⟩ | ⟨-, rfl⟩ | hold
    · exact absurd heq hu
    · exact Or.inr rfl
    · exact Or.inl hold
  | forked id child hpc hl hsem => exact hl.keeps
  | leave r hpc =>
    exact .of_same ⟨rfl, fun _ => rfl⟩ rfl hother fun u tu hu htu =>
      Or.inl ((Function.update_of_ne hu ..).symm.trans htu)
  | remove bm p k hpc hk hnum hbits hp => exact h.keeps_removed ht hpc hp
  | finish hpc hbit =>
    rw [h.test_of_deref (h.thread _ th ht)] at hbit
    cases hbit

end Keeps

/-! ## Steps that count nothing -/

/--
No counter changes, a new PCB starts with zero, and `JoinRelease` is called on a PCB only by its own
thread.
-/
def SameCounts (s s' : Sys) : Prop := ∀ a p', s'.heap a = some p' →
  (∃ p, s.heap a = some p ∧ p'.numwait = p.numwait ∧ (p'.joinsem.value ≠ 0 →
    p.joinsem.value ≠ 0 ∨ ∃ th, s.thread a = some th ∧ th.pc = .exitRelease)) ∨
  (s.next ≤ a ∧ p'.numwait = 0 ∧ p'.joinsem.value = 0)

section SameCounts

variable {s s' : Sys} {t : Tid} {th : Proc}

theorem sameCounts_of_heap (h : s'.heap = s.heap) : SameCounts s s' := by
  intro a p hp
  rw [h] at hp
  exact Or.inl ⟨p, hp, rfl, Or.inl⟩

theorem sameCounts_of_pcb (p' : PCB) {a : Tid} {p : PCB} (hp : s.heap a = some p)
    (hnum : p'.numwait = p.numwait)
    (hsem : p'.joinsem.value ≠ 0 →
      p.joinsem.value ≠ 0 ∨ ∃ th, s.thread a = some th ∧ th.pc = .exitRelease)
    (hheap : s'.heap = Function.update s.heap a (some p')) : SameCounts s s' := by
  intro b q hq
  rw [hheap] at hq
  by_cases hb : b = a
  · subst hb
    rw [Function.update_self] at hq
    obtain rfl := Option.some.inj hq
    exact Or.inl ⟨p, hp, hnum, hsem⟩
  · rw [Function.update_of_ne hb] at hq
    exact Or.inl ⟨q, hq, rfl, Or.inl⟩

theorem sameCounts_crash : SameCounts s s.crash := sameCounts_of_heap rfl

theorem sameCounts_semP (a : Tid) (x : PcbSem) (pc : ProcPc) :
    SameCounts s ((s.semP t th a x pc).getD s.crash) := by
  cases hp : s.live? a with
  | none =>
    rw [semP, hp]
    exact sameCounts_crash
  | some p =>
    obtain ⟨hheap, -⟩ := live?_eq_some.mp hp
    have hnum : ∀ sem, (p.setSem x sem).numwait = p.numwait := by intro sem; cases x <;> rfl
    by_cases hv : (p.sem x).value = 0
    · rw [semP_sleep hp hv]
      refine sameCounts_of_pcb _ hheap (hnum _) (fun hv' => Or.inl ?_) rfl
      cases x <;> exact hv'
    · rw [semP_take hp hv]
      refine sameCounts_of_pcb _ hheap (hnum _) (fun hv' => Or.inl ?_) rfl
      cases x with
      | joinsem => exact hv
      | exitsem | multex => exact hv'

/-- The new PCB is the one with the next number. -/
theorem sameCounts_of_next (p' : PCB) (hnum : p'.numwait = 0) (hsem : p'.joinsem.value = 0)
    (hheap : s'.heap = Function.update s.heap s.next (some p')) : SameCounts s s' := by
  intro b q hq
  rw [hheap] at hq
  by_cases hb : b = s.next
  · rw [hb, Function.update_self] at hq
    obtain rfl := Option.some.inj hq
    exact Or.inr ⟨hb.ge, hnum, hsem⟩
  · rw [Function.update_of_ne hb] at hq
    exact Or.inl ⟨q, hq, rfl, Or.inl⟩

theorem sameCounts_execBody (name : Option CStr) (getName : CStr) :
    SameCounts s ((s.execBody t th name getName).getD s.crash) := by
  unfold Sys.execBody
  cases name with
  | none => exact sameCounts_of_heap rfl
  | some name =>
    simp only
    split
    · exact sameCounts_of_heap rfl
    · cases hfree : s.bm.free with
      | nil =>
        rw [Bitmap.findAndSet_of_free_nil hfree]
        exact sameCounts_of_heap rfl
      | cons i rest =>
        obtain ⟨bm, hfind, -⟩ := Bitmap.findAndSet_of_free_cons hfree
        rw [hfind]
        simp only [Option.bind_eq_bind, Option.bind_some, show ¬ ((i : Int) < 0) by omega, if_false]
        exact sameCounts_of_next (newPCB t i th.processID name) rfl rfl rfl

theorem sameCounts_execFork (id : Int) (child : Tid) :
    SameCounts s ((s.execFork t th id child).getD s.crash) := by
  unfold Sys.execFork
  cases hp : s.live? child with
  | none => exact sameCounts_crash
  | some p =>
    exact sameCounts_of_pcb { p with thread := some child, parentID := th.processID }
      (live?_eq_some.mp hp).1 rfl Or.inl rfl

theorem sameCounts_execMultexV (id : Int) (child : Tid) :
    SameCounts s ((s.execMultexV t th id child).getD s.crash) := by
  unfold Sys.execMultexV
  cases hp : s.live? child with
  | none =>
    rw [semV, hp]
    exact sameCounts_crash
  | some p =>
    rw [semV_eq hp]
    exact sameCounts_of_pcb (p.setSem .multex p.multex.v) (live?_eq_some.mp hp).1 rfl Or.inl rfl

theorem sameCounts_execP (name : Option CStr) (getName : CStr) :
    SameCounts s (s.execP t th name getName) := by
  unfold Sys.execP
  split
  · exact sameCounts_of_heap rfl
  · exact sameCounts_of_heap rfl

theorem sameCounts_joinWait (id : Int) : SameCounts s ((s.joinWait t th id).getD s.crash) := by
  unfold Sys.joinWait
  cases s.deref id with
  | none => exact sameCounts_crash
  | some child => exact sameCounts_of_heap rfl

theorem sameCounts_joinGet (id : Int) : SameCounts s ((s.joinGet t th id).getD s.crash) := by
  unfold Sys.joinGet
  cases hid : s.deref id with
  | none => exact sameCounts_crash
  | some child =>
    obtain ⟨p, hp⟩ := live_of_deref hid
    simp only [Option.bind_eq_bind, Option.bind_some, hp]
    exact sameCounts_of_heap rfl

theorem sameCounts_joinRelease (id ec : Int) :
    SameCounts s ((s.joinRelease t th id ec).getD s.crash) := by
  unfold Sys.joinRelease
  cases hid : s.deref id with
  | none => exact sameCounts_crash
  | some child =>
    obtain ⟨p, hp⟩ := live_of_deref hid
    simp only [Option.bind_eq_bind, Option.bind_some, semV_eq hp]
    exact sameCounts_of_pcb (p.setSem .exitsem p.exitsem.v) (live?_eq_some.mp hp).1 rfl Or.inl rfl

theorem sameCounts_exitDec : SameCounts s ((s.exitDec t th).getD s.crash) := by
  unfold Sys.exitDec
  cases hid : s.deref th.processID with
  | none => exact sameCounts_crash
  | some self =>
    obtain ⟨p, hp⟩ := live_of_deref hid
    simp only [Option.bind_eq_bind, Option.bind_some, hp]
    cases s.deref p.parentID with
    | none => exact sameCounts_crash
    | some parent => exact sameCounts_of_heap rfl

/-- `JoinRelease`: the PCB is the thread's own. -/
theorem sameCounts_exitRelease (ht : s.thread t = some th)
    (hslot : s.deref th.processID = some t) (hpc : th.pc = .exitRelease) :
    SameCounts s ((s.exitRelease t th).getD s.crash) := by
  unfold Sys.exitRelease
  obtain ⟨p, hp⟩ := live_of_deref hslot
  simp only [Option.bind_eq_bind, Option.bind_some, hslot, semV_eq hp]
  exact sameCounts_of_pcb (p.setSem .joinsem p.joinsem.v) (live?_eq_some.mp hp).1 rfl
    (fun _ => Or.inr ⟨th, ht, hpc⟩) rfl

theorem sameCounts_exitWait : SameCounts s ((s.exitWait t th).getD s.crash) := by
  unfold Sys.exitWait
  cases s.deref th.processID with
  | none => exact sameCounts_crash
  | some self => exact sameCounts_of_heap rfl

theorem sameCounts_remove : SameCounts s ((s.remove t th).getD s.crash) := by
  unfold Sys.remove
  cases s.bm.clear th.processID with
  | none => exact sameCounts_crash
  | some bm =>
    simp only [Option.bind_eq_bind, Option.bind_some]
    cases s.pcb th.processID.toNat with
    | none => exact sameCounts_of_heap rfl
    | some a =>
      cases hp : s.live? a with
      | none =>
        simp only [hp, Option.bind_none]
        exact sameCounts_crash
      | some p =>
        simp only [hp, Option.bind_some]
        exact sameCounts_of_pcb { p with alive := false } (live?_eq_some.mp hp).1 rfl Or.inl rfl

theorem sameCounts_exitUpdate (exitcode : Int) :
    SameCounts s ((s.exitUpdate t th exitcode).getD s.crash) := by
  unfold Sys.exitUpdate
  split
  · exact sameCounts_of_heap rfl
  · cases s.bm.test th.processID with
    | none => exact sameCounts_crash
    | some b =>
      cases b with
      | false => exact sameCounts_of_heap rfl
      | true =>
        cases hid : s.deref th.processID with
        | none => exact sameCounts_crash
        | some self =>
          obtain ⟨p, hp⟩ := live_of_deref hid
          simp only [Option.bind_eq_bind, Option.bind_some, if_true, hp]
          exact sameCounts_of_pcb { p with exitcode := exitcode } (live?_eq_some.mp hp).1 rfl
            Or.inl rfl

theorem sameCounts_doCall (c : SysCall) : SameCounts s ((s.doCall t th c).getD s.crash) := by
  cases c with
  | exec name getName => exact sameCounts_of_heap rfl
  | exit exitcode => exact sameCounts_exitUpdate exitcode
  | join id =>
    rcases joinUpdate_getD s t th id with heq | heq | ⟨self, heq⟩
    all_goals
      rw [Sys.doCall, heq]
      exact sameCounts_of_heap rfl

/-- Only the ends of `IncNumWait` and `DecNumWait` count. -/
theorem sameCounts_doRun (ht : s.thread t = some th) (hslot : s.deref th.processID = some t)
    (hinc : ∀ id self, th.pc ≠ .joinIncV id self) (hdec : ∀ parent, th.pc ≠ .exitDecV parent) :
    SameCounts s ((s.doRun t th).getD s.crash) := by
  unfold Sys.doRun
  cases hpc : th.pc with
  | user => exact sameCounts_of_heap rfl
  | execP name getName => exact sameCounts_execP name getName
  | execBody name getName => exact sameCounts_execBody name getName
  | execFork id child => exact sameCounts_execFork id child
  | execMultexV id child => exact sameCounts_execMultexV id child
  | execBmV r => exact sameCounts_of_heap rfl
  | joinIncP id self => exact sameCounts_semP self _ _
  | joinIncV id self => exact absurd hpc (hinc id self)
  | joinWait id => exact sameCounts_joinWait id
  | joinP id child => exact sameCounts_semP child _ _
  | joinGet id => exact sameCounts_joinGet id
  | joinRelease id ec => exact sameCounts_joinRelease id ec
  | exitDec => exact sameCounts_exitDec
  | exitDecP parent => exact sameCounts_semP parent _ _
  | exitDecV parent => exact absurd hpc (hdec parent)
  | exitRelease => exact sameCounts_exitRelease ht hslot hpc
  | exitWait => exact sameCounts_exitWait
  | exitP self => exact sameCounts_semP self _ _
  | exitRemove => exact sameCounts_remove

end SameCounts

/-! ## The end of a process and of a Join -/

section Ends

variable {s s' : Sys} {t : Tid} {th : Proc} {e : SysEvent}

/-- A process that is past `DecNumWait` goes on to its end. -/
theorem Goes.done {pc : ProcPc} (hgoes : Goes s t th pc) (h : th.pc.Done) : pc.Done := by
  cases hgoes with
  | sleep => exact h
  | exitWait | exitP | exitRemove => trivial
  | _ => simp_all [ProcPc.Done]

theorem Table.done_step (h : s.Table) (hs : s.step e = some s') {c : Tid} (hc : s.Done c) :
    s'.Done c ∨ s'.Dead c := by
  obtain ⟨tc, htc, hdone⟩ := hc
  by_cases hct : c = e.tid
  · obtain ⟨th, ht, -, hmoves⟩ := h.moves_of_step hs
    subst hct
    rw [ht] at htc
    obtain rfl := Option.some.inj htc
    cases hmoves with
    | crash | halt => exact Or.inl ⟨th, ht, hdone⟩
    | go th' hl hgoes hsem => exact Or.inl ⟨th', hl.thread_self, hgoes.done hdone⟩
    | remove bm p k hpc hk hnum hbits hp =>
      exact Or.inr ⟨h.thread_lt ht, removed_dead⟩
    | _ => simp_all [ProcPc.Done]
  · exact Or.inl ⟨tc, h.thread_other hs (Ne.symm hct) htc, hdone⟩

theorem joinWait_step (ht : s.thread t = some th) {id : Int} {c : Tid}
    (hpc : th.pc = .joinWait id) (hid : s.deref id = some c) (hs : s.step (.run t) = some s') :
    s'.thread t = some { th with pc := .joinP id c } := by
  obtain ⟨th₀, ht₀, -, -, -, rfl⟩ := step_run_some hs
  rw [ht] at ht₀
  obtain rfl := Option.some.inj ht₀
  simp [Sys.doRun, hpc, Sys.joinWait, hid]

/-- `JoinWait` ends only when `joinsem` is not zero. -/
theorem joinP_step (ht : s.thread t = some th) {id : Int} {c : Tid} (hpc : th.pc = .joinP id c)
    (hs : s.step (.run t) = some s') :
    s'.thread t = some th ∨ ∃ p, s.heap c = some p ∧ p.joinsem.value ≠ 0 := by
  obtain ⟨th₀, ht₀, -, -, -, rfl⟩ := step_run_some hs
  rw [ht] at ht₀
  obtain rfl := Option.some.inj ht₀
  simp only [Sys.doRun, hpc]
  cases hp : s.live? c with
  | none =>
    rw [semP, hp]
    exact Or.inl ht
  | some p =>
    by_cases hv : (p.sem .joinsem).value = 0
    · rw [semP_sleep hp hv]
      exact Or.inl ht
    · exact Or.inr ⟨p, (live?_eq_some.mp hp).1, hv⟩

end Ends

end Sys

namespace Tallied

/-! ## The invariant -/

/-- Thread `a` waits for its child `c`. -/
def Waits (x : Tallied) (a c : Tid) : Prop :=
  ∃ th id, x.sys.thread a = some th ∧ (th.pc = .joinWait id ∨ th.pc = .joinP id c) ∧
    x.sys.deref id = some c ∧ x.sys.IsParent c th.processID

/-- What thread `u` with process id `q` knows about its child or its parent. -/
def Knows (x : Tallied) (u : Tid) (q : Int) : ProcPc → Prop
  | .joinIncP id self | .joinIncV id self => self = u ∧ ∃ c, x.joining u = some c ∧
      (c ∉ exited x.log → x.sys.deref id = some c ∧ x.sys.IsParent c q)
  | .exitDecP b | .exitDecV b =>
    ∀ r, x.sys.IsParent u r → x.sys.deref r = some b ∨ x.sys.Dead b
  | .exitRelease | .exitWait | .exitP _ | .exitRemove => u ∈ exited x.log
  | _ => True

structure Book (x : Tallied) : Prop extends Counts x where
  table : x.sys.Table
  released : ∀ c p, x.sys.heap c = some p → p.joinsem.value ≠ 0 → c ∈ exited x.log
  parent_lt : ∀ a c, (a, c) ∈ joins x.log → a < x.sys.next
  once : ∀ a c, c ∉ exited x.log → (joins x.log).count (a, c) ≤ 1
  gone : ∀ c ∈ exited x.log, x.sys.Done c ∨ x.sys.Dead c
  knows : ∀ u tu, x.sys.thread u = some tu → x.Knows u tu.processID tu.pc
  waits : ∀ a c, (a, c) ∈ joins x.log → c ∉ exited x.log → x.Waits a c

/-! ## What a step does to the counters -/

/-- The step counts nothing, or ends `IncNumWait`, or ends `DecNumWait`. -/
inductive Happens (x : Tallied) : SysEvent → Tallied → Prop where
  | nothing {e : SysEvent} {x' : Tallied} (hlog : x'.log = x.log)
      (hsame : x.sys.SameCounts x'.sys) (horder : x.InOrder e)
      (hdec : ∀ th b, x.sys.thread e.tid = some th → th.pc = .exitDecV b →
        x'.sys.thread e.tid = some th) : Happens x e x'
  | inc {t : Tid} {x' : Tallied} (th : Proc) (id : Int) (c : Tid) (p : PCB)
      (ht : x.sys.thread t = some th) (hpc : th.pc = .joinIncV id t) (hc : x.joining t = some c)
      (hp : x.sys.live? t = some p) (hlog : x'.log = x.log ++ [.inc t c])
      (hsys : x'.sys = (x.sys.setPCB t p.incNumWait).goto t th (.joinWait id)) :
      Happens x (.run t) x'
  | dec {t : Tid} {x' : Tallied} (th : Proc) (b : Tid) (p : PCB)
      (ht : x.sys.thread t = some th) (hpc : th.pc = .exitDecV b)
      (hp : x.sys.live? b = some p)
      (hlog : x'.log = x.log ++ [.dec b t (p.decNumWait.numwait - p.numwait)])
      (hsys : x'.sys = (x.sys.setPCB b p.decNumWait).goto t th .exitRelease) :
      Happens x (.run t) x'

section Happens

variable {x x' : Tallied} {t : Tid} {th : Proc} {e : SysEvent}

/-- Inside a call the child that the thread has joined last is the same. -/
theorem joiningAfter_of_thread {s' : Sys} (hs : x.sys.step e = some s') {u : Tid} {tu : Proc}
    (hu : x.sys.thread u = some tu) (hpc : tu.pc ≠ .user) : x.joiningAfter e u = x.joining u := by
  cases e with
  | run t => rfl
  | call t c =>
    cases c with
    | exec name getName => rfl
    | exit exitcode => rfl
    | join id =>
      refine Function.update_of_ne ?_ ..
      rintro rfl
      obtain ⟨th, ht, -, huser, -⟩ := Sys.step_call_some hs
      rw [hu] at ht
      rw [Option.some.inj ht] at hpc
      exact hpc huser

theorem calls_run (ht : x.sys.thread t = some th) : x.calls (.run t) = x.callsAt t th.pc := by
  rw [calls, ht, Option.map_some, Option.getD_some]

/-- Elsewhere there is nothing to do in order. -/
theorem inOrder_of_pc (ht : x.sys.thread t = some th)
    (hinc : ∀ id self, th.pc ≠ .joinIncV id self) (hdec : ∀ b, th.pc ≠ .exitDecV b) :
    x.InOrder (.run t) := by
  intro th' ht'
  rw [ht] at ht'
  obtain rfl := Option.some.inj ht'
  exact ⟨fun id self _ hpc => absurd hpc (hinc id self), fun b _ hpc => absurd hpc (hdec b)⟩

theorem inOrder_inc (ht : x.sys.thread t = some th) {id : Int} {self c : Tid}
    (hpc : th.pc = .joinIncV id self) (hjoin : x.joining t = some c) (hc : c ∉ exited x.log) :
    x.InOrder (.run t) := by
  intro th' ht'
  rw [ht] at ht'
  obtain rfl := Option.some.inj ht'
  refine ⟨fun id' self' c' _ hjoin' => ?_, fun b p hpc' => ?_⟩
  · rw [hjoin] at hjoin'
    rw [← Option.some.inj hjoin']
    exact hc
  · rw [hpc] at hpc'
    cases hpc'

theorem inOrder_dec (ht : x.sys.thread t = some th) {b : Tid} (hpc : th.pc = .exitDecV b)
    (h : ∀ p, x.sys.live? b = some p → p.numwait = 0 ∨ (b, t) ∈ joins x.log) :
    x.InOrder (.run t) := by
  intro th' ht'
  rw [ht] at ht'
  obtain rfl := Option.some.inj ht'
  refine ⟨fun id self c hpc' => ?_, fun b' p hpc' => ?_⟩
  · rw [hpc] at hpc'
    cases hpc'
  · rw [hpc] at hpc'
    cases hpc'
    exact h p

/-- A step that ends neither of the two calls. -/
theorem happens_nothing (h : x.Book) (ht : x.sys.thread t = some th)
    (hinc : ∀ id self, th.pc ≠ .joinIncV id self) (hdec : ∀ b, th.pc ≠ .exitDecV b)
    (hlog : x'.log = x.log ++ x.calls (.run t))
    (hsys : x'.sys = (x.sys.doRun t th).getD x.sys.crash) : x.Happens (.run t) x' := by
  refine .nothing ?_ ?_ (inOrder_of_pc ht hinc hdec) ?_
  · rw [hlog, calls_run ht]
    cases hp : th.pc with
    | joinIncV id self => exact absurd hp (hinc id self)
    | exitDecV b => exact absurd hp (hdec b)
    | _ => exact List.append_nil _
  · rw [hsys]
    exact Sys.sameCounts_doRun ht (h.table.thread t th ht) hinc hdec
  · intro th' b ht' hp
    rw [show x.sys.thread t = some th' from ht'] at ht
    rw [Option.some.inj ht] at hp
    exact absurd hp (hdec b)

theorem Book.happens (h : x.Book) (hs : x.step e = some x') : x.Happens e x' := by
  obtain ⟨hsys, hjoining, hlog⟩ := step_eq_some.mp hs
  cases e with
  | call t c =>
    obtain ⟨th, ht, -, hpc, heq⟩ := Sys.step_call_some hsys
    refine .nothing (by rw [hlog]; exact List.append_nil _) ?_ trivial ?_
    · rw [heq]
      exact Sys.sameCounts_doCall c
    · intro th' b ht' hp
      rw [show x.sys.thread t = some th' from ht'] at ht
      rw [Option.some.inj ht, hpc] at hp
      cases hp
  | run t =>
    obtain ⟨th, ht, -, -, -, heq⟩ := Sys.step_run_some hsys
    cases hpc : th.pc with
    | joinIncV id self =>
      obtain ⟨rfl, c, hc, -⟩ : x.Knows t th.processID (.joinIncV id self) := hpc ▸ h.knows t th ht
      obtain ⟨p, hp⟩ := Sys.live_of_deref (h.table.thread self th ht)
      refine .inc th id c p ht hpc hc hp ?_ ?_
      · rw [hlog, calls_run ht, hpc, callsAt, hc]
        rfl
      · rw [heq]
        simp [Sys.doRun, hpc, Sys.joinIncV, hp]
    | exitDecV b =>
      cases hp : x.sys.live? b with
      | none =>
        have hcrash : x'.sys = x.sys.crash := by
          rw [heq]
          simp [Sys.doRun, hpc, Sys.exitDecV, hp]
        refine .nothing ?_ ?_ ?_ ?_
        · rw [hlog, calls_run ht, hpc, callsAt, hp]
          exact List.append_nil _
        · rw [hcrash]
          exact Sys.sameCounts_crash
        · refine inOrder_dec ht hpc fun p hp' => ?_
          rw [hp] at hp'
          cases hp'
        · intro th' b' ht' _
          rw [hcrash]
          exact ht'
      | some p =>
        refine .dec th b p ht hpc hp ?_ ?_
        · rw [hlog, calls_run ht, hpc, callsAt, hp]
          rfl
        · rw [heq]
          simp [Sys.doRun, hpc, Sys.exitDecV, hp]
    | _ => exact happens_nothing h ht (by simp [hpc]) (by simp [hpc]) hlog heq

end Happens

/-! ## What the threads know stays known -/

section Keep

variable {x x' : Tallied} {t : Tid} {th : Proc} {e : SysEvent}

/-- A child that has not exited stays in its slot. -/
theorem Book.deref_keep (h : x.Book) (hk : x.sys.Keeps t x'.sys) {c : Tid} {id : Int}
    (hc : c ∉ exited x.log) (hid : x.sys.deref id = some c) : x'.sys.deref id = some c := by
  rcases hk.deref id c hid with hkept | ⟨-, tc, htc, hpc⟩
  · exact hkept
  · have hknows := h.knows c tc htc
    rw [hpc] at hknows
    exact absurd hknows hc

/-- A thread that stays where it is. -/
theorem Book.knows_keep (h : x.Book) (hk : x.sys.Keeps t x'.sys)
    (hsub : exited x.log ⊆ exited x'.log) {u : Tid} {tu : Proc} (hu : x.sys.thread u = some tu)
    (hj : tu.pc ≠ .user → x'.joining u = x.joining u) : x'.Knows u tu.processID tu.pc := by
  have hknows := h.knows u tu hu
  cases hpc : tu.pc with
  | joinIncP id self | joinIncV id self =>
    rw [hpc] at hknows
    obtain ⟨hself, c, hc, hchild⟩ := hknows
    refine ⟨hself, c, (hj (by simp [hpc])).trans hc, fun hnot => ?_⟩
    have hnot' : c ∉ exited x.log := fun hmem => hnot (hsub hmem)
    obtain ⟨hid, hparent⟩ := hchild hnot'
    exact ⟨h.deref_keep hk hnot' hid, hk.isParent _ _ hparent⟩
  | exitDecP b | exitDecV b =>
    rw [hpc] at hknows
    intro r hr
    obtain ⟨p, hp⟩ := Sys.live_of_deref (h.table.thread u tu hu)
    have hold : x.sys.IsParent u p.parentID := ⟨p, (Sys.live?_eq_some.mp hp).1, rfl⟩
    rw [hr.unique (hk.isParent _ _ hold)]
    rcases hknows _ hold with hb | hdead
    · exact (hk.deref _ b hb).imp_right And.left
    · exact Or.inr (hk.dead b hdead)
  | exitRelease | exitWait | exitP self | exitRemove =>
    rw [hpc] at hknows
    exact hsub hknows
  | _ => trivial

theorem Book.waits_keep (h : x.Book) (hk : x.sys.Keeps t x'.sys) {a c : Tid} {th th' : Proc}
    {id : Int} (hth' : x'.sys.thread a = some th') (hpid : th'.processID = th.processID)
    (hpc : th'.pc = .joinWait id ∨ th'.pc = .joinP id c) (hid : x.sys.deref id = some c)
    (hparent : x.sys.IsParent c th.processID) (hc : c ∉ exited x.log) : x'.Waits a c := by
  refine ⟨th', id, hth', hpc, h.deref_keep hk hc hid, ?_⟩
  rw [hpid]
  exact hk.isParent _ _ hparent

/-- A thread that waits for a child that has not exited goes on to wait. -/
theorem Book.waits_self (h : x.Book) (hs : x.sys.step e = some x'.sys) {c : Tid}
    (hw : x.Waits e.tid c) (hc : c ∉ exited x.log) : x'.Waits e.tid c := by
  obtain ⟨th, id, ht, hpc, hid, hparent⟩ := hw
  have hk := h.table.keeps hs
  cases e with
  | call t call =>
    obtain ⟨th₀, ht₀, -, huser, -⟩ := Sys.step_call_some hs
    rw [show x.sys.thread t = some th from ht] at ht₀
    rw [← Option.some.inj ht₀] at huser
    rcases hpc with hpc | hpc
    all_goals
      rw [huser] at hpc
      cases hpc
  | run t =>
    rcases hpc with hpc | hpc
    · exact h.waits_keep hk (Sys.joinWait_step ht hpc hid hs) rfl (Or.inr rfl) hid hparent hc
    · rcases Sys.joinP_step ht hpc hs with hsame | ⟨p, hp, hv⟩
      · exact h.waits_keep hk hsame rfl (Or.inr hpc) hid hparent hc
      · exact absurd (h.released c p hp hv) hc

/-- The end of a step that counts nothing. -/
theorem Book.knows_goes (h : x.Book) {th' : Proc} (ht : x.sys.thread t = some th)
    (hl : x.sys.Local t th th' x'.sys) (hgoes : x.sys.Goes t th th'.pc)
    (hkeep : x'.Knows t th.processID th.pc)
    (hjoin : ∀ id self, th.pc = .user → th'.pc = .joinIncP id self →
      x'.joining t = x.sys.deref id)
    (hdec : ∀ b, th.pc = .exitDecV b → th'.pc = .exitDecV b) :
    x'.Knows t th.processID th'.pc := by
  generalize th'.pc = pc at hgoes hjoin hdec ⊢
  cases hgoes with
  | sleep => exact hkeep
  | callJoin id child p self hpc hid hp hparent hself =>
    rw [hparent, h.table.thread t th ht] at hself
    refine ⟨(Option.some.inj hself).symm, child, (hjoin id self hpc rfl).trans hid, fun _ => ?_⟩
    exact ⟨(hl.deref id).trans hid, hl.isParent ⟨p, hp, hparent⟩⟩
  | joinIncV id self hpc => rw [hpc] at hkeep; exact hkeep
  | exitDecP p parent hpc hp hparent =>
    intro r hr
    rw [hr.unique (hl.isParent ⟨p, hp, rfl⟩)]
    exact Or.inl ((hl.deref _).trans hparent)
  | exitDecV parent hpc => rw [hpc] at hkeep; exact hkeep
  | exitRelease parent hpc => cases hdec parent hpc
  | exitWait hpc => rw [hpc] at hkeep; exact hkeep
  | exitP hpc => rw [hpc] at hkeep; exact hkeep
  | exitRemove hpc => rw [hpc] at hkeep; exact hkeep
  | _ => trivial

theorem Book.knows_self (h : x.Book) (hs : x.step e = some x') (hlog : x'.log = x.log)
    (hdec : ∀ th b, x.sys.thread e.tid = some th → th.pc = .exitDecV b →
      x'.sys.thread e.tid = some th)
    {tu : Proc} (hu : x'.sys.thread e.tid = some tu) : x'.Knows e.tid tu.processID tu.pc := by
  obtain ⟨hsys, hjoining, -⟩ := step_eq_some.mp hs
  obtain ⟨s', joining', log'⟩ := x'
  simp only at hsys hjoining hlog hdec hu
  subst hjoining hlog
  have hkeep : ∀ {tu}, x.sys.thread e.tid = some tu →
      Knows ⟨s', x.joiningAfter e, x.log⟩ e.tid tu.processID tu.pc := by
    intro tu hu
    refine h.knows_keep (t := e.tid) ?_ ?_ hu (joiningAfter_of_thread hsys hu)
    · exact h.table.keeps hsys
    · exact List.Subset.refl _
  obtain ⟨th, ht, -, hmoves⟩ := h.table.moves_of_step hsys
  cases hmoves with
  | crash | halt => exact hkeep hu
  | go th' hl hgoes hsem =>
    rw [hl.thread_self] at hu
    obtain rfl := Option.some.inj hu
    rw [hl.pid]
    refine h.knows_goes ht hl hgoes (hkeep ht) ?_ ?_
    · intro id self huser hself
      rw [Sys.call_join_of_place hsys ht hl.thread_self huser hself]
      exact Function.update_self ..
    · intro b hpc
      have hsame := hdec th b ht hpc
      rw [hl.thread_self] at hsame
      rw [Option.some.inj hsame]
      exact hpc
  | enter name getName hpc hv hl hsem =>
    rw [hl.thread_self] at hu
    rw [← Option.some.inj hu]
    trivial
  | forked id child hpc hl hsem =>
    rw [hl.thread_self] at hu
    rw [← Option.some.inj hu]
    trivial
  | create getName fileName bm i hpc hnot hfirst hnum hbits =>
    rw [Sys.created_thread_self] at hu
    rw [← Option.some.inj hu]
    trivial
  | refuse name getName hpc hwhy =>
    have hu' := (Function.update_self ..).symm.trans hu
    rw [← Option.some.inj hu']
    trivial
  | fork id child p hpc hp =>
    have hu' := (Function.update_self ..).symm.trans hu
    rw [← Option.some.inj hu']
    trivial
  | leave r hpc =>
    have hu' := (Function.update_self ..).symm.trans hu
    rw [← Option.some.inj hu']
    trivial
  | remove bm p k hpc hk hnum hbits hp =>
    rw [Sys.removed_thread_self] at hu
    cases hu
  | finish hpc hbit =>
    rw [h.table.test_of_deref (h.table.thread _ th ht)] at hbit
    cases hbit

theorem Book.knows_other (h : x.Book) (hs : x.step e = some x')
    (hsub : exited x.log ⊆ exited x'.log) {u : Tid} {tu : Proc} (hne : u ≠ e.tid)
    (hu : x'.sys.thread u = some tu) : x'.Knows u tu.processID tu.pc := by
  obtain ⟨hsys, hjoining, -⟩ := step_eq_some.mp hs
  have hk := h.table.keeps hsys
  rcases hk.back u tu hne hu with hold | huser
  · refine h.knows_keep hk hsub hold fun hpc => ?_
    rw [hjoining]
    exact joiningAfter_of_thread hsys hold hpc
  · rw [huser]
    trivial

theorem Book.waits_step (h : x.Book) (hs : x.sys.step e = some x'.sys) {a c : Tid}
    (hmem : (a, c) ∈ joins x.log) (hc : c ∉ exited x.log) : x'.Waits a c := by
  have hw := h.waits a c hmem hc
  by_cases hat : a = e.tid
  · subst hat
    exact h.waits_self hs hw hc
  · obtain ⟨th, id, ht, hpc, hid, hparent⟩ := hw
    have hk := h.table.keeps hs
    exact h.waits_keep hk (hk.other a th hat ht) rfl hpc hid hparent hc

theorem Book.gone_step (h : x.Book) (hs : x.sys.step e = some x'.sys) {c : Tid}
    (hc : c ∈ exited x.log) : x'.sys.Done c ∨ x'.sys.Dead c := by
  rcases h.gone c hc with hdone | hdead
  · exact h.table.done_step hs hdone
  · exact Or.inr ((h.table.keeps hs).dead c hdead)

/-- A new process has joined nobody. -/
theorem Book.pending_next (h : x.Book) {a : Tid} (ha : x.sys.next ≤ a) : pending x.log a = 0 := by
  unfold pending
  rw [List.countP_eq_zero]
  rintro ⟨b, c⟩ hmem
  have hne : b ≠ a := ((h.parent_lt b c hmem).trans_le ha).ne
  simp [hne]

end Keep

/-! ## A step that counts nothing -/

section Steps

variable {x x' : Tallied} {t : Tid} {th : Proc} {e : SysEvent}

theorem Book.nothing (h : x.Book) (hs : x.step e = some x') (hlog : x'.log = x.log)
    (hsame : x.sys.SameCounts x'.sys)
    (hdec : ∀ th b, x.sys.thread e.tid = some th → th.pc = .exitDecV b →
      x'.sys.thread e.tid = some th) : x'.Book := by
  obtain ⟨hsys, -, -⟩ := step_eq_some.mp hs
  have hk := h.table.keeps hsys
  exact {
    numwait := by
      intro a p' hp'
      obtain ⟨hheap', -⟩ := Sys.live?_eq_some.mp hp'
      rw [hlog]
      rcases hsame a p' hheap' with ⟨p, hp, hnum, -⟩ | ⟨hnew, hnum, -⟩
      · rw [hnum]
        refine h.numwait a p ?_
        -- a PCB that is alive was not dead before
        rcases hlive : x.sys.live? a with _ | q
        · have hdead := (hk.dead a ⟨h.table.heap_lt a p hp, hlive⟩).2
          rw [hp'] at hdead
          cases hdead
        · rw [← hp, (Sys.live?_eq_some.mp hlive).1]
      · rw [hnum, h.pending_next hnew]
        rfl
    pair := by rw [hlog]; exact h.pair
    table := Sys.Table.step _ _ _ h.table hsys
    released := by
      intro c p' hp' hv
      rw [hlog]
      rcases hsame c p' hp' with ⟨p, hp, -, hsem⟩ | ⟨-, -, hzero⟩
      · rcases hsem hv with hold | ⟨tc, htc, hpc⟩
        · exact h.released c p hp hold
        · have hknows := h.knows c tc htc
          rw [hpc] at hknows
          exact hknows
      · exact absurd hzero hv
    parent_lt := fun a c hmem => by
      rw [hlog] at hmem
      exact (h.parent_lt a c hmem).trans_le hk.next
    once := by rw [hlog]; exact h.once
    gone := fun c hc => by
      rw [hlog] at hc
      exact h.gone_step hsys hc
    knows := by
      intro u tu hu
      by_cases hut : u = e.tid
      · subst hut
        exact h.knows_self hs hlog hdec hu
      · exact h.knows_other hs (by rw [hlog]; exact List.Subset.refl _) hut hu
    waits := fun a c hmem hc => by
      rw [hlog] at hmem hc
      exact h.waits_step hsys hmem hc }

/-! ## IncNumWait and DecNumWait -/

/-- One PCB is written. -/
theorem live?_of_pcb (q : PCB) {s s' : Sys} {b : Tid} (halive : q.alive = true)
    (hheap : s'.heap = Function.update s.heap b (some q)) (a : Tid) :
    s'.live? a = if a = b then some q else s.live? a := by
  unfold Sys.live?
  rw [hheap]
  split
  · next hab => rw [hab, Function.update_self, Option.filter_some, if_pos halive]
  · next hab => rw [Function.update_of_ne hab]

theorem Book.released_of_pcb (h : x.Book) (q : PCB) {b : Tid} {p : PCB}
    (hp : x.sys.live? b = some p) (hsem : q.joinsem = p.joinsem)
    (hheap : x'.sys.heap = Function.update x.sys.heap b (some q)) {c : Tid} {p' : PCB}
    (hp' : x'.sys.heap c = some p') (hv : p'.joinsem.value ≠ 0) : c ∈ exited x.log := by
  rw [hheap] at hp'
  by_cases hcb : c = b
  · subst hcb
    rw [Function.update_self] at hp'
    rw [← Option.some.inj hp', hsem] at hv
    exact h.released c p (Sys.live?_eq_some.mp hp).1 hv
  · rw [Function.update_of_ne hcb] at hp'
    exact h.released c p' hp' hv

/-- A thread that is in `IncNumWait` has no `Join` that is pending. -/
theorem Book.not_mem_joins (h : x.Book) (ht : x.sys.thread t = some th) {id : Int} {self : Tid}
    (hpc : th.pc = .joinIncV id self) {c : Tid} (hc : c ∉ exited x.log) :
    (t, c) ∉ joins x.log := by
  intro hmem
  obtain ⟨th₀, id', ht₀, hpc', -⟩ := h.waits t c hmem hc
  rw [ht] at ht₀
  rw [← Option.some.inj ht₀, hpc] at hpc'
  rcases hpc' with hpc' | hpc' <;> cases hpc'

/-- One more `Join` is pending, and the counter is one more. -/
theorem Book.counts_inc (h : x.Book) {c : Tid} {p : PCB} (hp : x.sys.live? t = some p)
    (hlog : x'.log = x.log ++ [.inc t c])
    (hheap : x'.sys.heap = Function.update x.sys.heap t (some p.incNumWait))
    (hc : c ∉ exited x.log) : x'.Counts where
  numwait := by
    intro a p' hp'
    have halive : p.incNumWait.alive = true := (Sys.live?_eq_some.mp hp).2
    rw [live?_of_pcb _ halive hheap] at hp'
    rw [hlog, pending_inc hc]
    split at hp'
    · next hat =>
      obtain rfl := Option.some.inj hp'
      rw [hat, if_pos rfl, Nat.cast_add, Nat.cast_one, ← h.numwait t p hp]
      rfl
    · next hat => rw [if_neg (Ne.symm hat), Nat.add_zero, h.numwait a p' hp']
  pair := by
    intro a d hcount hd
    rw [hlog, exited_inc] at hd
    have hne : c ≠ d := fun heq => hc (heq ▸ hd)
    rw [hlog, joins_inc, List.count_append] at hcount
    rw [hlog, net_append_singleton]
    have hold := h.pair a d (by simpa [hne] using hcount) hd
    simp [hold, changeFor, hne]

theorem Book.inc (h : x.Book) (hs : x.step (.run t) = some x') {id : Int} {c : Tid} {p : PCB}
    (ht : x.sys.thread t = some th) (hpc : th.pc = .joinIncV id t) (hjoin : x.joining t = some c)
    (hp : x.sys.live? t = some p) (hlog : x'.log = x.log ++ [.inc t c])
    (hsys' : x'.sys = (x.sys.setPCB t p.incNumWait).goto t th (.joinWait id))
    (hc : c ∉ exited x.log) : x'.Book := by
  obtain ⟨hsys, -, -⟩ := step_eq_some.mp hs
  have hk := h.table.keeps hsys
  have hheap : x'.sys.heap = Function.update x.sys.heap t (some p.incNumWait) := by
    rw [hsys']
    rfl
  have hself : x'.sys.thread t = some { th with pc := .joinWait id } := by
    rw [hsys']
    exact Function.update_self ..
  exact {
    toCounts := h.counts_inc hp hlog hheap hc
    table := Sys.Table.step _ _ _ h.table hsys
    released := fun d p' hp' hv => by
      rw [hlog, exited_inc]
      exact h.released_of_pcb p.incNumWait hp rfl hheap hp' hv
    parent_lt := by
      intro a d hmem
      rw [hlog, joins_inc, List.mem_append, List.mem_singleton] at hmem
      rcases hmem with hold | hnew
      · exact (h.parent_lt a d hold).trans_le hk.next
      · cases hnew
        exact (h.table.thread_lt ht).trans_le hk.next
    once := by
      intro a d hd
      rw [hlog, exited_inc] at hd
      rw [hlog, joins_inc, List.count_append, List.count_singleton]
      by_cases heq : (t, c) = (a, d)
      · cases heq
        rw [List.count_eq_zero.mpr (h.not_mem_joins ht hpc hc)]
        simp
      · simpa [heq] using h.once a d hd
    gone := fun d hd => by
      rw [hlog, exited_inc] at hd
      exact h.gone_step hsys hd
    knows := by
      intro u tu hu
      by_cases hut : u = t
      · rw [hut, hself] at hu
        rw [← Option.some.inj hu]
        trivial
      · exact h.knows_other hs (by rw [hlog, exited_inc]; exact List.Subset.refl _) hut hu
    waits := by
      intro a d hmem hd
      rw [hlog, exited_inc] at hd
      rw [hlog, joins_inc, List.mem_append, List.mem_singleton] at hmem
      rcases hmem with hold | hnew
      · exact h.waits_step hsys hold hd
      · cases hnew
        have hknows := h.knows t th ht
        rw [hpc] at hknows
        obtain ⟨-, c', hc', hchild⟩ := hknows
        rw [hjoin] at hc'
        obtain rfl := Option.some.inj hc'
        obtain ⟨hid, hparent⟩ := hchild hc
        exact h.waits_keep hk hself rfl (Or.inl rfl) hid hparent hc }

/-- A thread that is in `DecNumWait` has not passed it. -/
theorem Book.not_mem_exited (h : x.Book) (ht : x.sys.thread t = some th) {b : Tid}
    (hpc : th.pc = .exitDecV b) : t ∉ exited x.log := by
  intro hmem
  rcases h.gone t hmem with ⟨th₀, ht₀, hdone⟩ | ⟨-, hdead⟩
  · rw [ht] at ht₀
    rw [← Option.some.inj ht₀, hpc] at hdone
    exact hdone
  · obtain ⟨p, hp⟩ := Sys.live_of_deref (h.table.thread t th ht)
    rw [hp] at hdead
    cases hdead

/-- Who has joined a process that is in `DecNumWait` is the process with the counter. -/
theorem Book.parent_of_join (h : x.Book) (ht : x.sys.thread t = some th) {b : Tid} {p : PCB}
    (hpc : th.pc = .exitDecV b) (hp : x.sys.live? b = some p) {a : Tid}
    (hmem : (a, t) ∈ joins x.log) : a = b := by
  obtain ⟨ta, id, hta, -, -, hparent⟩ := h.waits a t hmem (h.not_mem_exited ht hpc)
  have hknows := h.knows t th ht
  rw [hpc] at hknows
  rcases hknows _ hparent with hb | ⟨-, hdead⟩
  · rw [h.table.thread a ta hta] at hb
    exact Option.some.inj hb
  · rw [hp] at hdead
    cases hdead

/-- A process that was joined was joined once. -/
theorem Book.count_of_mem (h : x.Book) {a c : Tid} (hc : c ∉ exited x.log)
    (hmem : (a, c) ∈ joins x.log) : (joins x.log).count (a, c) = 1 :=
  le_antisymm (h.once a c hc) (List.count_pos_iff.mpr hmem)

/-- `DecNumWait` for a process that was joined takes one from the counter. -/
theorem Book.decNumWait_of_mem (h : x.Book) {b c : Tid} {p : PCB} (hp : x.sys.live? b = some p)
    (hc : c ∉ exited x.log) (hmem : (b, c) ∈ joins x.log) :
    p.decNumWait.numwait = p.numwait - 1 := by
  have hpending := @pending_dec x.log b c 0 hc b
  rw [h.count_of_mem hc hmem] at hpending
  have hnum := h.numwait b p hp
  have hpos : 0 < p.numwait := by omega
  simp [PCB.decNumWait, hpos]

/--
The `Join` of the process that exits is not pending any more, and the counter is one less; or there
was no such `Join`, and the counter stays zero.
-/
theorem Book.counts_dec (h : x.Book) (ht : x.sys.thread t = some th) {b : Tid} {p : PCB}
    (hpc : th.pc = .exitDecV b) (hp : x.sys.live? b = some p)
    (hlog : x'.log = x.log ++ [.dec b t (p.decNumWait.numwait - p.numwait)])
    (hheap : x'.sys.heap = Function.update x.sys.heap b (some p.decNumWait))
    (horder : p.numwait = 0 ∨ (b, t) ∈ joins x.log) : x'.Counts where
  numwait := by
    intro a p' hp'
    have halive : p.decNumWait.alive = true := (Sys.live?_eq_some.mp hp).2
    have hnot : t ∉ exited x.log := h.not_mem_exited ht hpc
    have hpending := @pending_dec x.log b t (p.decNumWait.numwait - p.numwait) hnot a
    rw [live?_of_pcb _ halive hheap] at hp'
    rw [hlog]
    split at hp'
    · next hab =>
      subst hab
      obtain rfl := Option.some.inj hp'
      have hnum := h.numwait a p hp
      by_cases hmem : (a, t) ∈ joins x.log
      · rw [h.count_of_mem hnot hmem] at hpending
        have hdec := h.decNumWait_of_mem hp hnot hmem
        omega
      · -- the counter is zero, and stays so
        have hzero : p.numwait = 0 := horder.resolve_right hmem
        rw [List.count_eq_zero.mpr hmem] at hpending
        have hstay : p.decNumWait.numwait = p.numwait := by simp [PCB.decNumWait, hzero]
        omega
    · next hab =>
      have hmem : (a, t) ∉ joins x.log := fun hmem => hab (h.parent_of_join ht hpc hp hmem)
      rw [List.count_eq_zero.mpr hmem] at hpending
      rw [h.numwait a p' hp', ← hpending, Nat.add_zero]
  pair := by
    intro a c hcount hc
    have hnot : t ∉ exited x.log := h.not_mem_exited ht hpc
    rw [hlog, joins_dec] at hcount
    rw [hlog, net_append_singleton]
    by_cases hct : c = t
    · -- the child that exits was joined by the process with the counter
      subst hct
      have hmem : (a, c) ∈ joins x.log := List.count_pos_iff.mp (by omega)
      obtain rfl := h.parent_of_join ht hpc hp hmem
      rw [net_eq_count hnot, hcount, h.decNumWait_of_mem hp hnot hmem]
      simp [changeFor]
    · rw [hlog, exited_dec, List.mem_append, List.mem_singleton] at hc
      rw [h.pair a c hcount (hc.resolve_right hct)]
      simp [changeFor, Ne.symm hct]

theorem Book.dec (h : x.Book) (hs : x.step (.run t) = some x') {b : Tid} {p : PCB}
    (ht : x.sys.thread t = some th) (hpc : th.pc = .exitDecV b) (hp : x.sys.live? b = some p)
    (hlog : x'.log = x.log ++ [.dec b t (p.decNumWait.numwait - p.numwait)])
    (hsys' : x'.sys = (x.sys.setPCB b p.decNumWait).goto t th .exitRelease)
    (horder : p.numwait = 0 ∨ (b, t) ∈ joins x.log) : x'.Book := by
  obtain ⟨hsys, -, -⟩ := step_eq_some.mp hs
  have hk := h.table.keeps hsys
  have hheap : x'.sys.heap = Function.update x.sys.heap b (some p.decNumWait) := by
    rw [hsys']
    rfl
  have hself : x'.sys.thread t = some { th with pc := .exitRelease } := by
    rw [hsys']
    exact Function.update_self ..
  have hsub : exited x.log ⊆ exited x'.log := by
    rw [hlog, exited_dec]
    exact List.subset_append_left _ _
  have hexited : ∀ {c}, c ∉ exited x'.log → c ∉ exited x.log := fun hc hmem => hc (hsub hmem)
  have hjoins : joins x'.log = joins x.log := by rw [hlog, joins_dec]
  exact {
    toCounts := h.counts_dec ht hpc hp hlog hheap horder
    table := Sys.Table.step _ _ _ h.table hsys
    released := fun c p' hp' hv =>
      hsub (h.released_of_pcb p.decNumWait hp rfl hheap hp' hv)
    parent_lt := fun a c hmem => by
      rw [hjoins] at hmem
      exact (h.parent_lt a c hmem).trans_le hk.next
    once := fun a c hc => by
      rw [hjoins]
      exact h.once a c (hexited hc)
    gone := by
      intro c hc
      rw [hlog, exited_dec, List.mem_append, List.mem_singleton] at hc
      rcases hc with hold | rfl
      · exact h.gone_step hsys hold
      · exact Or.inl ⟨_, hself, trivial⟩
    knows := by
      intro u tu hu
      by_cases hut : u = t
      · rw [hut, hself] at hu
        rw [← Option.some.inj hu, hut]
        show t ∈ exited x'.log
        rw [hlog, exited_dec]
        exact List.mem_append_right _ (List.mem_singleton_self t)
      · exact h.knows_other hs hsub hut hu
    waits := fun a c hmem hc => by
      rw [hjoins] at hmem
      exact h.waits_step hsys hmem (hexited hc) }

/-! ## Whole runs -/

theorem Book.step (x : Tallied) (e : SysEvent) (x' : Tallied) (h : x.Book)
    (hs : x.step e = some x') (horder : x.InOrder e) : x'.Book := by
  cases h.happens hs with
  | nothing hlog hsame _ hdec => exact h.nothing hs hlog hsame hdec
  | inc th id c p ht hpc hc hp hlog hsys =>
    exact h.inc hs ht hpc hc hp hlog hsys ((horder th ht).1 id _ c hpc hc)
  | dec th b p ht hpc hp hlog hsys =>
    exact h.dec hs ht hpc hp hlog hsys ((horder th ht).2 b p hpc hp)

/-- If the child has exited, the counter goes up and no `Join` more is pending. -/
theorem Book.not_mem_of_counts (h : x.Book) {c : Tid} {p : PCB} (hp : x.sys.live? t = some p)
    (hlog : x'.log = x.log ++ [.inc t c])
    (hheap : x'.sys.heap = Function.update x.sys.heap t (some p.incNumWait))
    (hcounts : x'.Counts) : c ∉ exited x.log := by
  intro hmem
  have halive : p.incNumWait.alive = true := (Sys.live?_eq_some.mp hp).2
  have hlive : x'.sys.live? t = some p.incNumWait := by
    rw [live?_of_pcb _ halive hheap, if_pos rfl]
  have hnum := hcounts.numwait t _ hlive
  rw [hlog, pending_inc_exited hmem, ← h.numwait t p hp] at hnum
  have hinc : p.incNumWait.numwait = p.numwait + 1 := rfl
  omega

/-- If the process was not joined, the counter goes down and the same `Join`s are pending. -/
theorem Book.joined_of_counts (h : x.Book) (ht : x.sys.thread t = some th) {b : Tid} {p : PCB}
    (hpc : th.pc = .exitDecV b) (hp : x.sys.live? b = some p)
    (hlog : x'.log = x.log ++ [.dec b t (p.decNumWait.numwait - p.numwait)])
    (hheap : x'.sys.heap = Function.update x.sys.heap b (some p.decNumWait))
    (hcounts : x'.Counts) : p.numwait = 0 ∨ (b, t) ∈ joins x.log := by
  by_contra hnot
  obtain ⟨hne, hmem⟩ := not_or.mp hnot
  have halive : p.decNumWait.alive = true := (Sys.live?_eq_some.mp hp).2
  have hlive : x'.sys.live? b = some p.decNumWait := by
    rw [live?_of_pcb _ halive hheap, if_pos rfl]
  have hnum := hcounts.numwait b _ hlive
  have hold := h.numwait b p hp
  have hpending := @pending_dec x.log b t (p.decNumWait.numwait - p.numwait)
    (h.not_mem_exited ht hpc) b
  rw [List.count_eq_zero.mpr hmem] at hpending
  rw [hlog] at hnum
  have hpos : 0 < p.numwait := by omega
  have hdec : p.decNumWait.numwait = p.numwait - 1 := by simp [PCB.decNumWait, hpos]
  omega

/-- A step that is not in order makes a counter wrong. -/
theorem Book.inOrder_of_counts (x : Tallied) (e : SysEvent) (x' : Tallied) (h : x.Book)
    (hs : x.step e = some x') (hcounts : x'.Counts) : x.InOrder e := by
  cases h.happens hs with
  | nothing _ _ horder _ => exact horder
  | inc th id c p ht hpc hc hp hlog hsys =>
    exact inOrder_inc ht hpc hc (h.not_mem_of_counts hp hlog (by rw [hsys]; rfl) hcounts)
  | dec th b p ht hpc hp hlog hsys =>
    refine inOrder_dec ht hpc fun q hq => ?_
    rw [hp] at hq
    rw [← Option.some.inj hq]
    exact h.joined_of_counts ht hpc hp hlog (by rw [hsys]; rfl) hcounts

/-- At the beginning there is the main process, which has joined nobody. -/
theorem book_start {s : Sys} (hnew : Sys.new = some s) : (start s).Book := by
  have hheap : ∀ a p, s.heap a = some p → p.numwait = 0 ∧ p.joinsem.value = 0 := by
    intro a p hp
    obtain rfl := Option.some.inj hnew
    obtain ⟨-, rfl⟩ := Sys.update_none_eq_some.mp hp
    exact ⟨rfl, rfl⟩
  have huser : ∀ t th, s.thread t = some th → th.pc = .user := by
    intro t th ht
    obtain rfl := Option.some.inj hnew
    obtain ⟨-, rfl⟩ := Sys.update_none_eq_some.mp ht
    rfl
  exact {
    numwait := fun a p hp => (hheap a p (Sys.live?_eq_some.mp hp).1).1
    pair := fun a c hcount _ => by cases hcount
    table := Sys.table_new hnew
    released := fun c p hp hv => absurd (hheap c p hp).2 hv
    parent_lt := fun a c hmem => by cases hmem
    once := fun a c _ => Nat.zero_le 1
    gone := fun c hc => by cases hc
    knows := fun u tu hu => by
      rw [huser u tu hu]
      trivial
    waits := fun a c hmem => by cases hmem }

/--
In a run of the kernel the counters are right in every state exactly when every step is in order: no
`IncNumWait` for a child that has already passed `DecNumWait`, and no `DecNumWait` by a child that
was not joined while the counter of the parent is not zero.
-/
theorem run_counts_iff {s₀ s : Sys} {es : List SysEvent} (hnew : Sys.new = some s₀)
    (hrun : run Sys.step s₀ es = some s) :
    AllStates step Counts (start s₀) es ↔ AllSteps step InOrder (start s₀) es := by
  obtain ⟨x, hx, -⟩ := @run_of_sys (start s₀) s es hrun
  exact allStates_iff_allSteps_of (fun _ h => h.toCounts) Book.step Book.inOrder_of_counts
    (book_start hnew) hx

/-- The main process joins its child, and then the child exits. -/
def joinsFirst : List SysEvent :=
  Sys.execAll 0 Sys.nameA Sys.nameMain ++
    ([.call 0 (.join 1), .run 0, .run 0, .run 0] ++ Sys.exitAll 1)

theorem run_counts_iff_joinsFirst :
    ∃ s₀ s, Sys.new = some s₀ ∧ run Sys.step s₀ joinsFirst = some s ∧
      AllStates step Counts (start s₀) joinsFirst := by
  obtain ⟨s₀, s, hnew, hrun, horder⟩ : ∃ s₀ s, Sys.new = some s₀ ∧
      run Sys.step s₀ joinsFirst = some s ∧ AllSteps step InOrder (start s₀) joinsFirst := by
    refine ⟨_, _, rfl, rfl, ?_⟩
    unfold joinsFirst Sys.execAll Sys.exitAll
    refine (allSteps_cons rfl).mpr ⟨trivial, ?_⟩
    iterate 5
      refine (allSteps_cons rfl).mpr ⟨inOrder_of_pc rfl (by rintro _ _ ⟨⟩) (by rintro _ ⟨⟩), ?_⟩
    refine (allSteps_cons rfl).mpr ⟨trivial, ?_⟩
    refine (allSteps_cons rfl).mpr ⟨inOrder_of_pc rfl (by rintro _ _ ⟨⟩) (by rintro _ ⟨⟩), ?_⟩
    -- `IncNumWait`: nobody has exited yet
    refine (allSteps_cons rfl).mpr ⟨inOrder_inc rfl rfl rfl List.not_mem_nil, ?_⟩
    refine (allSteps_cons rfl).mpr ⟨inOrder_of_pc rfl (by rintro _ _ ⟨⟩) (by rintro _ ⟨⟩), ?_⟩
    refine (allSteps_cons rfl).mpr ⟨trivial, ?_⟩
    iterate 2
      refine (allSteps_cons rfl).mpr ⟨inOrder_of_pc rfl (by rintro _ _ ⟨⟩) (by rintro _ ⟨⟩), ?_⟩
    -- `DecNumWait`: the main process has joined the child
    refine (allSteps_cons rfl).mpr
      ⟨inOrder_dec rfl rfl fun _ _ => Or.inr (List.mem_singleton_self (0, 1)), ?_⟩
    iterate 3
      refine (allSteps_cons rfl).mpr ⟨inOrder_of_pc rfl (by rintro _ _ ⟨⟩) (by rintro _ ⟨⟩), ?_⟩
    trivial
  exact ⟨s₀, s, hnew, hrun, (run_counts_iff hnew hrun).mpr horder⟩

/--
The child exits before the main process has joined it: its `DecNumWait` leaves the counter at zero,
and the `IncNumWait` that follows stays for ever.
-/
theorem exit_first_miscounts :
    ∃ s₀ x p, Sys.new = some s₀ ∧ run step (start s₀) Sys.mainJoins = some x ∧
      (joins x.log).count (0, 1) = 1 ∧ 1 ∈ exited x.log ∧ net x.log 0 1 = 1 ∧
      x.sys.live? 0 = some p ∧ p.numwait = 1 ∧ pending x.log 0 = 0 ∧ ¬ x.Counts := by
  obtain ⟨s₀, x, p, hnew, hrun, hcount, hexit, hnet, hp, hnum, hpending⟩ : ∃ s₀ x p,
      Sys.new = some s₀ ∧ run step (start s₀) Sys.mainJoins = some x ∧
      (joins x.log).count (0, 1) = 1 ∧ 1 ∈ exited x.log ∧ net x.log 0 1 = 1 ∧
      x.sys.live? 0 = some p ∧ p.numwait = 1 ∧ pending x.log 0 = 0 := by
    exact ⟨_, _, _, rfl, rfl, rfl, List.mem_singleton_self 1, rfl, rfl, rfl, rfl⟩
  refine ⟨s₀, x, p, hnew, hrun, hcount, hexit, hnet, hp, hnum, hpending, fun h => ?_⟩
  have hzero := h.numwait 0 p hp
  omega

end Steps

end Tallied

end Nachos
