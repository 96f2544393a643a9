import Nachos.Threads.PTable

/-!
# Join and Exit meet (`PTable::JoinUpdate`, `PTable::ExitUpdate`)

A parent that joins a child and the child that exits go through a handshake of two semaphores of
the child's PCB: `joinsem` tells the parent that the exit code is there, `exitsem` tells the child
that the parent is done with the PCB. This file takes the two calls out of the system, lets them
interleave with each other and with whatever other processes do on other slots, and shows that
the handshake works in every order.

The places of the two calls are numbered: the parent goes from 0 (not called) to 7 (returned),
the child from 0 (not called) to 8 (removed). `Sems` says what the semaphores hold at each pair
of places.

* `pair_step` — every step keeps the invariant, and every step of the two calls uses up a part of
  a finite budget
* `join_exit_rendezvous` — what the two calls see of each other
-/

namespace Nachos

open Base

/-- A parent and its child: their threads, their PCB objects, their slots, and the exit code. -/
structure Pair where
  parent : Tid
  child : Tid
  parentPCB : Tid
  childPCB : Tid
  p : Int
  c : Int
  code : Int

/--
A process table in which the live process `p` has created the child `c`.

Neither is in a call, and the semaphores of the handshake are as the constructor of the PCB made
them. `multex` of the parent can be in any state: other children of `p` use it too.
-/
structure Pair.Ready (π : Pair) (s : Sys) : Prop where
  running : s.status = .running
  threads : π.parent ≠ π.child
  pcbs : π.parentPCB ≠ π.childPCB
  parent_range : 0 ≤ π.p ∧ π.p < maxProcess
  child_range : 0 < π.c ∧ π.c < maxProcess
  parent_thread : ∃ th, s.thread π.parent = some th ∧ th.processID = π.p ∧ th.pc = .user
  child_thread : ∃ th, s.thread π.child = some th ∧ th.processID = π.c ∧ th.pc = .user
  parent_slot : s.pcb π.p.toNat = some π.parentPCB
  child_slot : s.pcb π.c.toNat = some π.childPCB
  child_bit : s.bm.test π.c = some true
  parent_pcb : ∃ P, s.heap π.parentPCB = some P ∧ P.alive = true
  child_pcb : ∃ C, s.heap π.childPCB = some C ∧ C.alive = true ∧ C.parentID = π.p ∧
    C.joinsem = .new 0 ∧ C.exitsem = .new 0

/--
The step leaves the two threads, their slots and the child's PCB alone. It may use `multex` and
`numwait` of the parent's PCB, as the exit of another child does, but does not destroy it.
-/
def Pair.Elsewhere (π : Pair) (s s' : Sys) : Prop :=
  s'.status = s.status ∧ s'.thread π.parent = s.thread π.parent ∧
    s'.thread π.child = s.thread π.child ∧ s'.pcb π.p.toNat = s.pcb π.p.toNat ∧
    s'.pcb π.c.toNat = s.pcb π.c.toNat ∧ (s'.live? π.parentPCB).isSome ∧
    s'.heap π.childPCB = s.heap π.childPCB ∧ s'.bm.test π.c = s.bm.test π.c

instance (π : Pair) (s s' : Sys) : Decidable (π.Elsewhere s s') :=
  inferInstanceAs (Decidable (_ ∧ _))

/-- The system, and which of the two calls have been made. -/
structure PairState where
  sys : Sys
  joinCalled : Bool
  exitCalled : Bool

/-- The two calls and their steps, and the steps of other processes. -/
inductive PairEvent where
  | join
  | exit
  | runParent
  | runChild
  | other (e : SysEvent)

/-- A step of one of the two calls. -/
def PairEvent.own : PairEvent → Nat
  | .other _ => 0
  | _ => 1

namespace Pair

/-- `p` calls `JoinUpdate(c)` once, `c` calls `ExitUpdate(code)` once, others work elsewhere. -/
def step (π : Pair) (x : PairState) : PairEvent → Option PairState
  | .join =>
    if x.joinCalled then none
    else (x.sys.step (.call π.parent (.join π.c))).map fun s =>
      { x with sys := s, joinCalled := true }
  | .exit =>
    if x.exitCalled then none
    else (x.sys.step (.call π.child (.exit π.code))).map fun s =>
      { x with sys := s, exitCalled := true }
  | .runParent => (x.sys.step (.run π.parent)).map fun s => { x with sys := s }
  | .runChild => (x.sys.step (.run π.child)).map fun s => { x with sys := s }
  | .other e =>
    if e.tid = π.parent ∨ e.tid = π.child then none
    else (x.sys.step e).bind fun s =>
      if π.Elsewhere x.sys s then some { x with sys := s } else none

/-- Nobody has called anything yet. -/
def start (s : Sys) : PairState := { sys := s, joinCalled := false, exitCalled := false }

/-- A step of another process that does not use the parent's PCB, or a step of the two calls. -/
def Quiet (π : Pair) (x : PairState) : PairEvent → Prop
  | .other e => ∀ s, x.sys.step e = some s → s.heap π.parentPCB = x.sys.heap π.parentPCB
  | _ => True

/-- `JoinUpdate` has been called and has returned. -/
def Joined (π : Pair) (x : PairState) : Prop :=
  x.joinCalled = true ∧ ∃ th, x.sys.thread π.parent = some th ∧ th.pc = .user

/-- `ExitUpdate` has been called and the child is gone. -/
def Exited (π : Pair) (x : PairState) : Prop :=
  x.exitCalled = true ∧ x.sys.thread π.child = none

/-! ## Places -/

/-- Place `j` of `JoinUpdate(c)` in the parent. -/
def JoinAt (π : Pair) (x : PairState) (th : Proc) : Nat → Prop
  | 0 => x.joinCalled = false ∧ th.pc = .user
  | 1 => x.joinCalled = true ∧ th.pc = .joinIncP π.c π.parentPCB
  | 2 => x.joinCalled = true ∧ th.pc = .joinIncV π.c π.parentPCB
  | 3 => x.joinCalled = true ∧ th.pc = .joinWait π.c
  | 4 => x.joinCalled = true ∧ th.pc = .joinP π.c π.childPCB
  | 5 => x.joinCalled = true ∧ th.pc = .joinGet π.c
  | 6 => x.joinCalled = true ∧ th.pc = .joinRelease π.c π.code
  | 7 => x.joinCalled = true ∧ th.pc = .user ∧ th.result = π.code
  | _ => False

/-- The child's thread is at `pc`. -/
def ChildPc (π : Pair) (x : PairState) (pc : ProcPc) : Prop :=
  ∃ th, x.sys.thread π.child = some th ∧ th.processID = π.c ∧ th.pc = pc

/-- Place `k` of `ExitUpdate(code)` in the child. -/
def ExitAt (π : Pair) (x : PairState) : Nat → Prop
  | 0 => x.exitCalled = false ∧ π.ChildPc x .user
  | 1 => x.exitCalled = true ∧ π.ChildPc x .exitDec
  | 2 => x.exitCalled = true ∧ π.ChildPc x (.exitDecP π.parentPCB)
  | 3 => x.exitCalled = true ∧ π.ChildPc x (.exitDecV π.parentPCB)
  | 4 => x.exitCalled = true ∧ π.ChildPc x .exitRelease
  | 5 => x.exitCalled = true ∧ π.ChildPc x .exitWait
  | 6 => x.exitCalled = true ∧ π.ChildPc x (.exitP π.childPCB)
  | 7 => x.exitCalled = true ∧ π.ChildPc x .exitRemove
  | 8 => x.exitCalled = true ∧ x.sys.thread π.child = none
  | _ => False

/--
What the semaphores of the handshake hold when the parent is at `j` and the child at `k`.

`joinsem` is given at the end of `k = 4` and taken at the end of `j = 4`. `exitsem` is given at
the end of `j = 6` and taken at the end of `k = 6`. A thread sleeps only while the other one has
still to give.
-/
structure Sems (π : Pair) (C : PCB) (j k : Nat) : Prop where
  joinsem : (j < 5 ∧ k < 5 ∧ C.joinsem.value = 0) ∨ (j < 5 ∧ 5 ≤ k ∧ C.joinsem.value = 1) ∨
    (5 ≤ j ∧ 5 ≤ k ∧ C.joinsem.value = 0)
  exitsem : (j < 7 ∧ k < 7 ∧ C.exitsem.value = 0) ∨ (j = 7 ∧ k < 7 ∧ C.exitsem.value = 1) ∨
    (j = 7 ∧ 7 ≤ k ∧ C.exitsem.value = 0)
  joinsem_queue : C.joinsem.queue = [] ∨ (j = 4 ∧ k < 5 ∧ C.joinsem.queue = [π.parent])
  exitsem_queue : C.exitsem.queue = [] ∨ (j < 7 ∧ k = 6 ∧ C.exitsem.queue = [π.child])

/-- `multex` of the parent when only the two calls use it: held at `j = 2` and at `k = 3`. -/
structure Multex (π : Pair) (P : PCB) (j k : Nat) : Prop where
  value : (j ≠ 2 ∧ k ≠ 3 ∧ P.multex.value = 1) ∨ (j = 2 ∧ k ≠ 3 ∧ P.multex.value = 0) ∨
    (j ≠ 2 ∧ k = 3 ∧ P.multex.value = 0)
  queue : P.multex.queue = [] ∨ (j = 2 ∧ k = 2 ∧ P.multex.queue = [π.child]) ∨
    (j = 1 ∧ k = 3 ∧ P.multex.queue = [π.parent])

/-- The invariant of the two calls at places `j` and `k`. -/
structure Inv (π : Pair) (x : PairState) (j k : Nat) (P C : PCB) (th : Proc) : Prop where
  running : x.sys.status = .running
  parent_slot : x.sys.pcb π.p.toNat = some π.parentPCB
  child_slot : x.sys.pcb π.c.toNat = some π.childPCB
  parent_pcb : x.sys.heap π.parentPCB = some P ∧ P.alive = true
  child_pcb : x.sys.heap π.childPCB = some C ∧ C.parentID = π.p
  child_alive : k < 8 → C.alive = true ∧ x.sys.bm.test π.c = some true
  parent_thread : x.sys.thread π.parent = some th ∧ th.processID = π.p
  join : π.JoinAt x th j
  exit : π.ExitAt x k
  sems : π.Sems C j k
  code : 1 ≤ k → C.exitcode = π.code

/-- What never changes about a pair. -/
structure Valid (π : Pair) : Prop where
  threads : π.parent ≠ π.child
  pcbs : π.parentPCB ≠ π.childPCB
  parent_range : 0 ≤ π.p ∧ π.p < maxProcess
  child_range : 0 < π.c ∧ π.c < maxProcess

/-- The threads of the pair that sleep. -/
def sleepers (P C : PCB) : Nat :=
  P.multex.queue.length + C.joinsem.queue.length + C.exitsem.queue.length

/-- What is left of the budget of the two calls: two for each place ahead, none for a sleeper. -/
def budget (j k : Nat) (P C : PCB) : Int := 2 * (15 - j - k) - sleepers P C

/-- The two calls are at new places, nearer to the end if nobody else uses the parent's PCB. -/
def Moves (π : Pair) (x : PairState) (j k : Nat) (P C : PCB) : Prop :=
  ∃ j' k' P' C' th', π.Inv x j' k' P' C' th' ∧
    (π.Multex P j k → π.Multex P' j' k' ∧ budget j' k' P' C' + 1 ≤ budget j k P C)

/-! ## Reading the invariant -/

variable {π : Pair} {x : PairState} {j k : Nat} {P C : PCB} {th : Proc}

theorem Inv.child_lt (h : π.Inv x j k P C th) (hj : j ≤ 6) : k < 8 := by
  have := h.sems.exitsem
  omega

theorem Inv.live_parent (h : π.Inv x j k P C th) : x.sys.live? π.parentPCB = some P :=
  Sys.live?_eq_some.mpr h.parent_pcb

theorem Inv.live_child (h : π.Inv x j k P C th) (hk : k < 8) :
    x.sys.live? π.childPCB = some C :=
  Sys.live?_eq_some.mpr ⟨h.child_pcb.1, (h.child_alive hk).1⟩

theorem Inv.deref_parent (hv : π.Valid) (h : π.Inv x j k P C th) :
    x.sys.deref π.p = some π.parentPCB :=
  Sys.deref_eq_some.mpr ⟨hv.parent_range.1, hv.parent_range.2, h.parent_slot, P, h.parent_pcb⟩

theorem Inv.deref_child (hv : π.Valid) (h : π.Inv x j k P C th) (hk : k < 8) :
    x.sys.deref π.c = some π.childPCB :=
  Sys.deref_eq_some.mpr ⟨by have := hv.child_range; omega, hv.child_range.2, h.child_slot, C,
    h.child_pcb.1, (h.child_alive hk).1⟩

theorem childPc_of {tc : Proc} {pc : ProcPc}
    (htc : x.sys.thread π.child = some { tc with pc := pc }) (hpid : tc.processID = π.c) :
    π.ChildPc x pc :=
  ⟨_, htc, hpid, rfl⟩

theorem joinAt_congr {x x' : PairState} (hcalled : x'.joinCalled = x.joinCalled) (j : Nat) :
    π.JoinAt x' th j ↔ π.JoinAt x th j := by
  unfold JoinAt
  rw [hcalled]

theorem exitAt_congr {x x' : PairState} (hcalled : x'.exitCalled = x.exitCalled)
    (hthread : x'.sys.thread π.child = x.sys.thread π.child) (k : Nat) :
    π.ExitAt x' k ↔ π.ExitAt x k := by
  unfold ExitAt ChildPc
  rw [hcalled, hthread]

/-! ## What the semaphores hold from place to place -/

/-- The parent goes on without a step on `joinsem` or `exitsem`. -/
theorem Sems.parent_next (h : π.Sems C j k) (hj : j < 6) (hj4 : j ≠ 4) : π.Sems C (j + 1) k where
  joinsem := by have := h.joinsem; omega
  exitsem := by have := h.exitsem; omega
  joinsem_queue := by
    rcases h.joinsem_queue with hq | ⟨hat, -⟩
    · exact Or.inl hq
    · exact absurd hat hj4
  exitsem_queue := by
    rcases h.exitsem_queue with hq | ⟨-, hk, hq⟩
    · exact Or.inl hq
    · exact Or.inr ⟨by omega, hk, hq⟩

/-- The child goes on without a step on `joinsem` or `exitsem`. -/
theorem Sems.child_next {C' : PCB} (h : π.Sems C j k) (hk4 : k ≠ 4) (hk6 : k ≠ 6)
    (hjoin : C'.joinsem = C.joinsem) (hexit : C'.exitsem = C.exitsem) : π.Sems C' j (k + 1) where
  joinsem := by rw [hjoin]; have := h.joinsem; omega
  exitsem := by rw [hexit]; have := h.exitsem; omega
  joinsem_queue := by
    rw [hjoin]
    rcases h.joinsem_queue with hq | ⟨hj, hk, hq⟩
    · exact Or.inl hq
    · exact Or.inr ⟨hj, by omega, hq⟩
  exitsem_queue := by
    rw [hexit]
    rcases h.exitsem_queue with hq | ⟨-, hat, -⟩
    · exact Or.inl hq
    · exact absurd hat hk6

/-- The parent goes to sleep in `JoinWait`: the child has still to come to `JoinRelease`. -/
theorem Sems.join_sleep (h : π.Sems C 4 k) (hz : C.joinsem.value = 0)
    (hq : π.parent ∉ C.joinsem.queue) :
    π.Sems { C with joinsem := { C.joinsem with queue := C.joinsem.queue ++ [π.parent] } } 4 k where
  joinsem := h.joinsem
  exitsem := h.exitsem
  joinsem_queue := by
    rcases h.joinsem_queue with hnil | ⟨-, -, hin⟩
    · refine Or.inr ⟨rfl, by have := h.joinsem; omega, ?_⟩
      rw [hnil]
      rfl
    · rw [hin] at hq
      exact absurd List.mem_cons_self hq
  exitsem_queue := h.exitsem_queue

/-- The parent takes `joinsem`. -/
theorem Sems.join_take (h : π.Sems C 4 k) (hz : C.joinsem.value ≠ 0) :
    π.Sems { C with joinsem := { C.joinsem with value := toInt32 (C.joinsem.value - 1) } } 5 k where
  joinsem := by
    have := h.joinsem
    simp only [toInt32_eq_self (x := C.joinsem.value - 1) (by omega) (by omega)]
    omega
  exitsem := by have := h.exitsem; simp only; omega
  joinsem_queue := by
    rcases h.joinsem_queue with hnil | ⟨-, hk, -⟩
    · exact Or.inl hnil
    · have := h.joinsem
      omega
  exitsem_queue := by
    rcases h.exitsem_queue with hq | ⟨-, hk, hq⟩
    · exact Or.inl hq
    · exact Or.inr ⟨by omega, hk, hq⟩

/-- The child gives `joinsem`, and wakes the parent if it sleeps. -/
theorem Sems.join_give (h : π.Sems C j 4) : π.Sems { C with joinsem := C.joinsem.v } j 5 where
  joinsem := by
    have := h.joinsem
    have hv : C.joinsem.v.value = 1 := Semaphore.v_value_of_zero (by omega)
    simp only [hv, and_true]
    omega
  exitsem := by have := h.exitsem; simp only; omega
  joinsem_queue := by
    refine Or.inl ?_
    rcases h.joinsem_queue with hq | ⟨-, -, hq⟩ <;> simp [hq]
  exitsem_queue := by
    rcases h.exitsem_queue with hq | ⟨-, hk, -⟩
    · exact Or.inl hq
    · omega

/-- The parent gives `exitsem`, and wakes the child if it sleeps. -/
theorem Sems.exit_give (h : π.Sems C 6 k) : π.Sems { C with exitsem := C.exitsem.v } 7 k where
  joinsem := by have := h.joinsem; simp only; omega
  exitsem := by
    have := h.exitsem
    have hv : C.exitsem.v.value = 1 := Semaphore.v_value_of_zero (by omega)
    simp only [hv, and_true, true_and]
    omega
  joinsem_queue := by
    rcases h.joinsem_queue with hq | ⟨hj, -⟩
    · exact Or.inl hq
    · omega
  exitsem_queue := by
    refine Or.inl ?_
    rcases h.exitsem_queue with hq | ⟨-, -, hq⟩ <;> simp [hq]

/-- The child goes to sleep in `ExitWait`: the parent has still to come to `ExitRelease`. -/
theorem Sems.exit_sleep (h : π.Sems C j 6) (hz : C.exitsem.value = 0)
    (hq : π.child ∉ C.exitsem.queue) :
    π.Sems { C with exitsem := { C.exitsem with queue := C.exitsem.queue ++ [π.child] } } j 6 where
  joinsem := h.joinsem
  exitsem := h.exitsem
  joinsem_queue := h.joinsem_queue
  exitsem_queue := by
    rcases h.exitsem_queue with hnil | ⟨-, -, hin⟩
    · refine Or.inr ⟨by have := h.exitsem; omega, rfl, ?_⟩
      rw [hnil]
      rfl
    · rw [hin] at hq
      exact absurd List.mem_cons_self hq

/-- The child takes `exitsem`. -/
theorem Sems.exit_take (h : π.Sems C j 6) (hz : C.exitsem.value ≠ 0) :
    π.Sems { C with exitsem := { C.exitsem with value := toInt32 (C.exitsem.value - 1) } } j 7 where
  joinsem := by have := h.joinsem; simp only; omega
  exitsem := by
    have := h.exitsem
    simp only [toInt32_eq_self (x := C.exitsem.value - 1) (by omega) (by omega)]
    omega
  joinsem_queue := by
    rcases h.joinsem_queue with hq | ⟨hj, hk, -⟩
    · exact Or.inl hq
    · omega
  exitsem_queue := by
    rcases h.exitsem_queue with hnil | ⟨hj, -⟩
    · exact Or.inl hnil
    · have := h.exitsem
      omega

/-- The parent goes on outside `IncNumWait`. -/
theorem Multex.parent_next (h : π.Multex P j k) (hj1 : j ≠ 1) (hj2 : j ≠ 2) :
    π.Multex P (j + 1) k where
  value := by have := h.value; omega
  queue := by
    rcases h.queue with hq | ⟨hj, -⟩ | ⟨hj, -⟩
    · exact Or.inl hq
    · exact absurd hj hj2
    · exact absurd hj hj1

/-- The child goes on outside `DecNumWait`. -/
theorem Multex.child_next (h : π.Multex P j k) (hk2 : k ≠ 2) (hk3 : k ≠ 3) :
    π.Multex P j (k + 1) where
  value := by have := h.value; omega
  queue := by
    rcases h.queue with hq | ⟨-, hk, -⟩ | ⟨-, hk, -⟩
    · exact Or.inl hq
    · exact absurd hk hk2
    · exact absurd hk hk3

/-- The parent finds the child inside `DecNumWait`. -/
theorem Multex.inc_sleep (h : π.Multex P 1 k) (hz : P.multex.value = 0)
    (hq : π.parent ∉ P.multex.queue) :
    π.Multex { P with multex := { P.multex with queue := P.multex.queue ++ [π.parent] } } 1 k where
  value := h.value
  queue := by
    rcases h.queue with hnil | ⟨hj, -⟩ | ⟨-, -, hin⟩
    · refine Or.inr (Or.inr ⟨rfl, by have := h.value; omega, ?_⟩)
      rw [hnil]
      rfl
    · omega
    · rw [hin] at hq
      exact absurd List.mem_cons_self hq

theorem Multex.inc_take (h : π.Multex P 1 k) (hz : P.multex.value ≠ 0) :
    π.Multex { P with multex := { P.multex with value := toInt32 (P.multex.value - 1) } } 2 k where
  value := by
    have := h.value
    simp only [toInt32_eq_self (x := P.multex.value - 1) (by omega) (by omega), true_and]
    omega
  queue := by
    rcases h.queue with hnil | ⟨hj, -⟩ | ⟨-, hk, -⟩
    · exact Or.inl hnil
    · omega
    · have := h.value
      omega

theorem Multex.inc_give (h : π.Multex P 2 k) : π.Multex P.incNumWait 3 k where
  value := by
    have := h.value
    have hv : P.multex.v.value = 1 := Semaphore.v_value_of_zero (by omega)
    simp only [PCB.incNumWait, hv, and_true]
    omega
  queue := by
    refine Or.inl ?_
    rcases h.queue with hq | ⟨-, -, hq⟩ | ⟨hj, -⟩
    · simp [PCB.incNumWait, hq]
    · simp [PCB.incNumWait, hq]
    · omega

/-- The child finds the parent inside `IncNumWait`. -/
theorem Multex.dec_sleep (h : π.Multex P j 2) (hz : P.multex.value = 0)
    (hq : π.child ∉ P.multex.queue) :
    π.Multex { P with multex := { P.multex with queue := P.multex.queue ++ [π.child] } } j 2 where
  value := h.value
  queue := by
    rcases h.queue with hnil | ⟨-, -, hin⟩ | ⟨-, hk, -⟩
    · refine Or.inr (Or.inl ⟨by have := h.value; omega, rfl, ?_⟩)
      rw [hnil]
      rfl
    · rw [hin] at hq
      exact absurd List.mem_cons_self hq
    · omega

theorem Multex.dec_take (h : π.Multex P j 2) (hz : P.multex.value ≠ 0) :
    π.Multex { P with multex := { P.multex with value := toInt32 (P.multex.value - 1) } } j 3 where
  value := by
    have := h.value
    simp only [toInt32_eq_self (x := P.multex.value - 1) (by omega) (by omega), true_and]
    omega
  queue := by
    rcases h.queue with hnil | ⟨hj, -⟩ | ⟨-, hk, -⟩
    · exact Or.inl hnil
    · have := h.value
      omega
    · omega

theorem Multex.dec_give (h : π.Multex P j 3) : π.Multex P.decNumWait j 4 where
  value := by
    have := h.value
    have hv : P.multex.v.value = 1 := Semaphore.v_value_of_zero (by omega)
    simp only [PCB.decNumWait, hv, and_true]
    omega
  queue := by
    refine Or.inl ?_
    rcases h.queue with hq | ⟨-, hk, -⟩ | ⟨-, -, hq⟩
    · simp [PCB.decNumWait, hq]
    · omega
    · simp [PCB.decNumWait, hq]

/-! ## The budget from place to place -/

variable {x' : PairState} (P' C' : PCB) (th' : Proc)

/-- The parent has come one place further. At most one sleeper was woken. -/
theorem Inv.moves_parent (h : π.Inv x' (j + 1) k P' C' th')
    (hmul : π.Multex P j k → π.Multex P' (j + 1) k)
    (hsleep : sleepers P C ≤ sleepers P' C' + 1) : π.Moves x' j k P C := by
  refine ⟨j + 1, k, P', C', th', h, fun hm => ⟨hmul hm, ?_⟩⟩
  unfold budget
  omega

/-- The child has come one place further. -/
theorem Inv.moves_child (h : π.Inv x' j (k + 1) P' C' th')
    (hmul : π.Multex P j k → π.Multex P' j (k + 1))
    (hsleep : sleepers P C ≤ sleepers P' C' + 1) : π.Moves x' j k P C := by
  refine ⟨j, k + 1, P', C', th', h, fun hm => ⟨hmul hm, ?_⟩⟩
  unfold budget
  omega

/-- One of the two has gone to sleep. -/
theorem Inv.moves_sleep (h : π.Inv x' j k P' C' th') (hmul : π.Multex P j k → π.Multex P' j k)
    (hsleep : sleepers P' C' = sleepers P C + 1) : π.Moves x' j k P C := by
  refine ⟨j, k, P', C', th', h, fun hm => ⟨hmul hm, ?_⟩⟩
  unfold budget
  omega

/-- A `V` wakes at most one thread. -/
theorem length_queue_le {s : Semaphore Tid} : s.queue.length ≤ s.v.queue.length + 1 := by
  rw [Semaphore.v_queue, List.length_tail]
  omega

/-! ## Steps of the parent -/

/-- What has to be checked after a step of the parent. -/
theorem Inv.parentMove {j' : Nat} {P' C' : PCB} {th' : Proc} {x' : PairState}
    (h : π.Inv x j k P C th)
    (hexit : x'.exitCalled = x.exitCalled) (hstatus : x'.sys.status = x.sys.status)
    (hpcb : x'.sys.pcb = x.sys.pcb) (hbm : x'.sys.bm = x.sys.bm)
    (hparent : x'.sys.heap π.parentPCB = some P') (halive : P'.alive = P.alive)
    (hchild : x'.sys.heap π.childPCB = some C') (hid : C'.parentID = C.parentID)
    (hcalive : C'.alive = C.alive) (hcode : C'.exitcode = C.exitcode)
    (hth : x'.sys.thread π.parent = some th') (hpid : th'.processID = th.processID)
    (hother : x'.sys.thread π.child = x.sys.thread π.child)
    (hjoin : π.JoinAt x' th' j') (hsems : π.Sems C' j' k) : π.Inv x' j' k P' C' th' where
  running := by rw [hstatus]; exact h.running
  parent_slot := by rw [hpcb]; exact h.parent_slot
  child_slot := by rw [hpcb]; exact h.child_slot
  parent_pcb := ⟨hparent, by rw [halive]; exact h.parent_pcb.2⟩
  child_pcb := ⟨hchild, by rw [hid]; exact h.child_pcb.2⟩
  child_alive := fun hk => by rw [hcalive, hbm]; exact h.child_alive hk
  parent_thread := ⟨hth, by rw [hpid]; exact h.parent_thread.2⟩
  join := hjoin
  exit := (exitAt_congr hexit hother k).mpr h.exit
  sems := hsems
  code := fun hk => by rw [hcode]; exact h.code hk

/-- `JoinUpdate` is called: the child is there and is a child of the caller. -/
theorem Inv.call_join (hv : π.Valid) (h : π.Inv x 0 k P C th) :
    ∃ s, x.sys.doCall π.parent th (.join π.c) = some s ∧
      π.Moves { x with sys := s, joinCalled := true } 0 k P C := by
  have hk : k < 8 := h.child_lt (by omega)
  have hc := hv.child_range
  refine ⟨x.sys.goto π.parent th (.joinIncP π.c π.parentPCB), ?_, ?_⟩
  · simp [Sys.doCall, Sys.joinUpdate, show ¬ π.c < 0 by omega, h.deref_child hv hk,
      h.live_child hk, h.child_pcb.2, h.parent_thread.2, h.deref_parent hv]
  · refine Inv.moves_parent P C { th with pc := .joinIncP π.c π.parentPCB } ?_
      (fun hm => hm.parent_next (by omega) (by omega)) (Nat.le_succ _)
    exact h.parentMove rfl rfl rfl rfl h.parent_pcb.1 rfl h.child_pcb.1 rfl rfl rfl (by simp) rfl
      (by simp [hv.threads.symm]) ⟨rfl, rfl⟩ (h.sems.parent_next (by omega) (by omega))

/-- `IncNumWait`: the pass through `multex->P()`. -/
theorem Inv.run_joinIncP (hv : π.Valid) (h : π.Inv x 1 k P C th)
    (hawake : x.sys.asleep π.parent th = false) :
    ∃ s, x.sys.doRun π.parent th = some s ∧ π.Moves { x with sys := s } 1 k P C := by
  obtain ⟨hcalled, hpc⟩ := h.join
  have hne := hv.pcbs.symm
  have hnp := hv.threads.symm
  have hq : π.parent ∉ P.multex.queue := by simpa [Sys.asleep, hpc, h.parent_pcb.1] using hawake
  have hdo : x.sys.doRun π.parent th
      = x.sys.semP π.parent th π.parentPCB .multex (.joinIncV π.c π.parentPCB) := by
    simp [Sys.doRun, hpc]
  rw [hdo]
  by_cases hz : P.multex.value = 0
  · -- somebody is inside `IncNumWait` or `DecNumWait`, so the parent goes to sleep
    refine ⟨_, Sys.semP_sleep h.live_parent hz, Inv.moves_sleep
      { P with multex := { P.multex with queue := P.multex.queue ++ [π.parent] } } C th ?_
      (fun hm => hm.inc_sleep hz hq) ?_⟩
    · exact h.parentMove rfl rfl rfl rfl (by simp [PCB.setSem, PCB.sem]) rfl
        (by simpa [hne] using h.child_pcb.1) rfl rfl rfl h.parent_thread.1 rfl rfl
        ⟨hcalled, hpc⟩ h.sems
    · simp only [sleepers, List.length_append, List.length_singleton]
      omega
  · refine ⟨_, Sys.semP_take h.live_parent hz, Inv.moves_parent
      { P with multex := { P.multex with value := toInt32 (P.multex.value - 1) } } C
      { th with pc := .joinIncV π.c π.parentPCB } ?_ (fun hm => hm.inc_take hz) (Nat.le_succ _)⟩
    exact h.parentMove rfl rfl rfl rfl (by simp [PCB.setSem, PCB.sem]) rfl
      (by simpa [hne] using h.child_pcb.1) rfl rfl rfl (by simp) rfl (by simp [hnp])
      ⟨hcalled, rfl⟩ (h.sems.parent_next (by omega) (by omega))

/-- `IncNumWait`: the increment and `multex->V()`. -/
theorem Inv.run_joinIncV (hv : π.Valid) (h : π.Inv x 2 k P C th) :
    ∃ s, x.sys.doRun π.parent th = some s ∧ π.Moves { x with sys := s } 2 k P C := by
  obtain ⟨hcalled, hpc⟩ := h.join
  refine ⟨(x.sys.setPCB π.parentPCB P.incNumWait).goto π.parent th (.joinWait π.c), ?_,
    Inv.moves_parent P.incNumWait C { th with pc := .joinWait π.c } ?_ (fun hm => hm.inc_give) ?_⟩
  · simp [Sys.doRun, hpc, Sys.joinIncV, h.live_parent]
  · exact h.parentMove rfl rfl rfl rfl (by simp) rfl
      (by simpa [hv.pcbs.symm] using h.child_pcb.1) rfl rfl rfl (by simp) rfl
      (by simp [hv.threads.symm]) ⟨hcalled, rfl⟩ (h.sems.parent_next (by omega) (by omega))
  · have hle := length_queue_le (s := P.multex)
    simp only [sleepers, PCB.incNumWait]
    omega

/-- The child's PCB is still there when the parent comes to `JoinWait`. -/
theorem Inv.run_joinWait (hv : π.Valid) (h : π.Inv x 3 k P C th) :
    ∃ s, x.sys.doRun π.parent th = some s ∧ π.Moves { x with sys := s } 3 k P C := by
  obtain ⟨hcalled, hpc⟩ := h.join
  refine ⟨x.sys.goto π.parent th (.joinP π.c π.childPCB), ?_,
    Inv.moves_parent P C { th with pc := .joinP π.c π.childPCB } ?_
      (fun hm => hm.parent_next (by omega) (by omega)) (Nat.le_succ _)⟩
  · simp [Sys.doRun, hpc, Sys.joinWait, h.deref_child hv (h.child_lt (by omega))]
  · exact h.parentMove rfl rfl rfl rfl h.parent_pcb.1 rfl h.child_pcb.1 rfl rfl rfl (by simp) rfl
      (by simp [hv.threads.symm]) ⟨hcalled, rfl⟩ (h.sems.parent_next (by omega) (by omega))

/-- `JoinWait`: the pass through `joinsem->P()`. -/
theorem Inv.run_joinP (hv : π.Valid) (h : π.Inv x 4 k P C th)
    (hawake : x.sys.asleep π.parent th = false) :
    ∃ s, x.sys.doRun π.parent th = some s ∧ π.Moves { x with sys := s } 4 k P C := by
  obtain ⟨hcalled, hpc⟩ := h.join
  have hlive := h.live_child (h.child_lt (by omega))
  have hq : π.parent ∉ C.joinsem.queue := by simpa [Sys.asleep, hpc, h.child_pcb.1] using hawake
  have hdo : x.sys.doRun π.parent th
      = x.sys.semP π.parent th π.childPCB .joinsem (.joinGet π.c) := by
    simp [Sys.doRun, hpc]
  rw [hdo]
  by_cases hz : C.joinsem.value = 0
  · -- the child has not come to `JoinRelease`, so the parent goes to sleep
    refine ⟨_, Sys.semP_sleep hlive hz, Inv.moves_sleep P
      { C with joinsem := { C.joinsem with queue := C.joinsem.queue ++ [π.parent] } } th ?_
      (fun hm => hm) ?_⟩
    · exact h.parentMove rfl rfl rfl rfl (by simpa [hv.pcbs] using h.parent_pcb.1) rfl
        (by simp [PCB.setSem, PCB.sem]) rfl rfl rfl h.parent_thread.1 rfl rfl
        ⟨hcalled, hpc⟩ (h.sems.join_sleep hz hq)
    · simp only [sleepers, List.length_append, List.length_singleton]
      omega
  · refine ⟨_, Sys.semP_take hlive hz, Inv.moves_parent P
      { C with joinsem := { C.joinsem with value := toInt32 (C.joinsem.value - 1) } }
      { th with pc := .joinGet π.c } ?_ (fun hm => hm.parent_next (by omega) (by omega))
      (Nat.le_succ _)⟩
    exact h.parentMove rfl rfl rfl rfl (by simpa [hv.pcbs] using h.parent_pcb.1) rfl
      (by simp [PCB.setSem, PCB.sem]) rfl rfl rfl (by simp) rfl (by simp [hv.threads.symm])
      ⟨hcalled, rfl⟩ (h.sems.join_take hz)

/-- `GetExitCode`: the code is already there. -/
theorem Inv.run_joinGet (hv : π.Valid) (h : π.Inv x 5 k P C th) :
    ∃ s, x.sys.doRun π.parent th = some s ∧ π.Moves { x with sys := s } 5 k P C := by
  obtain ⟨hcalled, hpc⟩ := h.join
  have hk : k < 8 := h.child_lt (by omega)
  have hcode : C.exitcode = π.code := h.code (by have := h.sems.joinsem; omega)
  refine ⟨x.sys.goto π.parent th (.joinRelease π.c π.code), ?_,
    Inv.moves_parent P C { th with pc := .joinRelease π.c π.code } ?_
      (fun hm => hm.parent_next (by omega) (by omega)) (Nat.le_succ _)⟩
  · simp [Sys.doRun, hpc, Sys.joinGet, h.deref_child hv hk, h.live_child hk, hcode]
  · exact h.parentMove rfl rfl rfl rfl h.parent_pcb.1 rfl h.child_pcb.1 rfl rfl rfl (by simp) rfl
      (by simp [hv.threads.symm]) ⟨hcalled, rfl⟩ (h.sems.parent_next (by omega) (by omega))

/-- `ExitRelease`, and the return. -/
theorem Inv.run_joinRelease (hv : π.Valid) (h : π.Inv x 6 k P C th) :
    ∃ s, x.sys.doRun π.parent th = some s ∧ π.Moves { x with sys := s } 6 k P C := by
  obtain ⟨hcalled, hpc⟩ := h.join
  have hk : k < 8 := h.child_lt (by omega)
  refine ⟨(x.sys.setPCB π.childPCB { C with exitsem := C.exitsem.v }).ret π.parent th π.code, ?_,
    Inv.moves_parent P { C with exitsem := C.exitsem.v }
      { th with pc := .user, result := π.code } ?_
      (fun hm => hm.parent_next (by omega) (by omega)) ?_⟩
  · simp [Sys.doRun, hpc, Sys.joinRelease, h.deref_child hv hk, Sys.semV_eq (h.live_child hk),
      PCB.setSem, PCB.sem]
  · exact h.parentMove rfl rfl rfl rfl (by simpa [hv.pcbs] using h.parent_pcb.1) rfl (by simp)
      rfl rfl rfl (by simp) rfl (by simp [hv.threads.symm]) ⟨hcalled, rfl, rfl⟩ h.sems.exit_give
  · have hle := length_queue_le (s := C.exitsem)
    simp only [sleepers]
    omega

/-! ## Steps of the child -/

/-- What has to be checked after a step of the child. -/
theorem Inv.childMove {k' : Nat} {P' C' : PCB} {x' : PairState} (h : π.Inv x j k P C th)
    (hjoin : x'.joinCalled = x.joinCalled) (hstatus : x'.sys.status = x.sys.status)
    (hpcb : x'.sys.pcb = x.sys.pcb)
    (hparent : x'.sys.heap π.parentPCB = some P') (halive : P'.alive = P.alive)
    (hchild : x'.sys.heap π.childPCB = some C') (hid : C'.parentID = C.parentID)
    (hcalive : k' < 8 → C'.alive = true ∧ x'.sys.bm.test π.c = some true)
    (hother : x'.sys.thread π.parent = x.sys.thread π.parent)
    (hexit : π.ExitAt x' k') (hsems : π.Sems C' j k') (hcode : C'.exitcode = π.code) :
    π.Inv x' j k' P' C' th where
  running := by rw [hstatus]; exact h.running
  parent_slot := by rw [hpcb]; exact h.parent_slot
  child_slot := by rw [hpcb]; exact h.child_slot
  parent_pcb := ⟨hparent, by rw [halive]; exact h.parent_pcb.2⟩
  child_pcb := ⟨hchild, by rw [hid]; exact h.child_pcb.2⟩
  child_alive := hcalive
  parent_thread := by rw [hother]; exact h.parent_thread
  join := (joinAt_congr hjoin j).mpr h.join
  exit := hexit
  sems := hsems
  code := fun _ => hcode

/-- `ExitUpdate` is called: the child has its bit, and the code is stored. -/
theorem Inv.call_exit (hv : π.Valid) (h : π.Inv x j 0 P C th) {tc : Proc}
    (hpid : tc.processID = π.c) :
    ∃ s, x.sys.doCall π.child tc (.exit π.code) = some s ∧
      π.Moves { x with sys := s, exitCalled := true } j 0 P C := by
  have hc := hv.child_range
  have hk : 0 < 8 := by omega
  refine ⟨(x.sys.setPCB π.childPCB { C with exitcode := π.code }).goto π.child tc .exitDec, ?_,
    Inv.moves_child P { C with exitcode := π.code } th ?_
      (fun hm => hm.child_next (by omega) (by omega)) (Nat.le_succ _)⟩
  · simp [Sys.doCall, Sys.exitUpdate, hpid, show π.c ≠ 0 by omega, (h.child_alive hk).2,
      h.deref_child hv hk, h.live_child hk]
  · exact h.childMove rfl rfl rfl (by simpa [hv.pcbs] using h.parent_pcb.1) rfl (by simp) rfl
      (fun _ => h.child_alive hk) (by simp [hv.threads]) ⟨rfl, childPc_of (by simp) hpid⟩
      (h.sems.child_next (by omega) (by omega) rfl rfl) rfl

/-- The parent's PCB is still there when the child comes to `DecNumWait`. -/
theorem Inv.run_exitDec (hv : π.Valid) (h : π.Inv x j 1 P C th) {tc : Proc}
    (hpid : tc.processID = π.c) (hpc : tc.pc = .exitDec) :
    ∃ s, x.sys.doRun π.child tc = some s ∧ π.Moves { x with sys := s } j 1 P C := by
  have hk : 1 < 8 := by omega
  refine ⟨x.sys.goto π.child tc (.exitDecP π.parentPCB), ?_,
    Inv.moves_child P C th ?_ (fun hm => hm.child_next (by omega) (by omega)) (Nat.le_succ _)⟩
  · simp [Sys.doRun, hpc, Sys.exitDec, hpid, h.deref_child hv hk, h.live_child hk,
      h.child_pcb.2, h.deref_parent hv]
  · exact h.childMove rfl rfl rfl h.parent_pcb.1 rfl h.child_pcb.1 rfl (fun _ => h.child_alive hk)
      (by simp [hv.threads]) ⟨h.exit.1, childPc_of (by simp) hpid⟩
      (h.sems.child_next (by omega) (by omega) rfl rfl) (h.code le_rfl)

/-- `DecNumWait`: the pass through `multex->P()`. -/
theorem Inv.run_exitDecP (hv : π.Valid) (h : π.Inv x j 2 P C th) {tc : Proc}
    (htc : x.sys.thread π.child = some tc) (hpid : tc.processID = π.c)
    (hpc : tc.pc = .exitDecP π.parentPCB) (hawake : x.sys.asleep π.child tc = false) :
    ∃ s, x.sys.doRun π.child tc = some s ∧ π.Moves { x with sys := s } j 2 P C := by
  have hk : 2 < 8 := by omega
  have hq : π.child ∉ P.multex.queue := by simpa [Sys.asleep, hpc, h.parent_pcb.1] using hawake
  have hdo : x.sys.doRun π.child tc
      = x.sys.semP π.child tc π.parentPCB .multex (.exitDecV π.parentPCB) := by
    simp [Sys.doRun, hpc]
  rw [hdo]
  by_cases hz : P.multex.value = 0
  · refine ⟨_, Sys.semP_sleep h.live_parent hz, Inv.moves_sleep
      { P with multex := { P.multex with queue := P.multex.queue ++ [π.child] } } C th ?_
      (fun hm => hm.dec_sleep hz hq) ?_⟩
    · exact h.childMove rfl rfl rfl (by simp [PCB.setSem, PCB.sem]) rfl
        (by simpa [hv.pcbs.symm] using h.child_pcb.1) rfl (fun _ => h.child_alive hk) rfl
        ⟨h.exit.1, _, htc, hpid, hpc⟩ h.sems (h.code (by omega))
    · simp only [sleepers, List.length_append, List.length_singleton]
      omega
  · refine ⟨_, Sys.semP_take h.live_parent hz, Inv.moves_child
      { P with multex := { P.multex with value := toInt32 (P.multex.value - 1) } } C th ?_
      (fun hm => hm.dec_take hz) (Nat.le_succ _)⟩
    exact h.childMove rfl rfl rfl (by simp [PCB.setSem, PCB.sem]) rfl
      (by simpa [hv.pcbs.symm] using h.child_pcb.1) rfl (fun _ => h.child_alive hk)
      (by simp [hv.threads]) ⟨h.exit.1, childPc_of (by simp) hpid⟩
      (h.sems.child_next (by omega) (by omega) rfl rfl) (h.code (by omega))

/-- `DecNumWait`: the decrement and `multex->V()`. -/
theorem Inv.run_exitDecV (hv : π.Valid) (h : π.Inv x j 3 P C th) {tc : Proc}
    (hpid : tc.processID = π.c) (hpc : tc.pc = .exitDecV π.parentPCB) :
    ∃ s, x.sys.doRun π.child tc = some s ∧ π.Moves { x with sys := s } j 3 P C := by
  have hk : 3 < 8 := by omega
  refine ⟨(x.sys.setPCB π.parentPCB P.decNumWait).goto π.child tc .exitRelease, ?_,
    Inv.moves_child P.decNumWait C th ?_ (fun hm => hm.dec_give) ?_⟩
  · simp [Sys.doRun, hpc, Sys.exitDecV, h.live_parent]
  · exact h.childMove rfl rfl rfl (by simp) rfl (by simpa [hv.pcbs.symm] using h.child_pcb.1) rfl
      (fun _ => h.child_alive hk) (by simp [hv.threads]) ⟨h.exit.1, childPc_of (by simp) hpid⟩
      (h.sems.child_next (by omega) (by omega) rfl rfl) (h.code (by omega))
  · have hle := length_queue_le (s := P.multex)
    simp only [sleepers, PCB.decNumWait]
    omega

/-- `JoinRelease`. -/
theorem Inv.run_exitRelease (hv : π.Valid) (h : π.Inv x j 4 P C th) {tc : Proc}
    (hpid : tc.processID = π.c) (hpc : tc.pc = .exitRelease) :
    ∃ s, x.sys.doRun π.child tc = some s ∧ π.Moves { x with sys := s } j 4 P C := by
  have hk : 4 < 8 := by omega
  refine ⟨(x.sys.setPCB π.childPCB { C with joinsem := C.joinsem.v }).goto π.child tc .exitWait,
    ?_, Inv.moves_child P { C with joinsem := C.joinsem.v } th ?_
      (fun hm => hm.child_next (by omega) (by omega)) ?_⟩
  · simp [Sys.doRun, hpc, Sys.exitRelease, hpid, h.deref_child hv hk,
      Sys.semV_eq (h.live_child hk), PCB.setSem, PCB.sem]
  · exact h.childMove rfl rfl rfl (by simpa [hv.pcbs] using h.parent_pcb.1) rfl (by simp) rfl
      (fun _ => h.child_alive hk) (by simp [hv.threads]) ⟨h.exit.1, childPc_of (by simp) hpid⟩
      h.sems.join_give (h.code (by omega))
  · have hle := length_queue_le (s := C.joinsem)
    simp only [sleepers]
    omega

theorem Inv.run_exitWait (hv : π.Valid) (h : π.Inv x j 5 P C th) {tc : Proc}
    (hpid : tc.processID = π.c) (hpc : tc.pc = .exitWait) :
    ∃ s, x.sys.doRun π.child tc = some s ∧ π.Moves { x with sys := s } j 5 P C := by
  have hk : 5 < 8 := by omega
  refine ⟨x.sys.goto π.child tc (.exitP π.childPCB), ?_,
    Inv.moves_child P C th ?_ (fun hm => hm.child_next (by omega) (by omega)) (Nat.le_succ _)⟩
  · simp [Sys.doRun, hpc, Sys.exitWait, hpid, h.deref_child hv hk]
  · exact h.childMove rfl rfl rfl h.parent_pcb.1 rfl h.child_pcb.1 rfl (fun _ => h.child_alive hk)
      (by simp [hv.threads]) ⟨h.exit.1, childPc_of (by simp) hpid⟩
      (h.sems.child_next (by omega) (by omega) rfl rfl) (h.code (by omega))

/-- `ExitWait`: the pass through `exitsem->P()`. -/
theorem Inv.run_exitP (hv : π.Valid) (h : π.Inv x j 6 P C th) {tc : Proc}
    (htc : x.sys.thread π.child = some tc) (hpid : tc.processID = π.c)
    (hpc : tc.pc = .exitP π.childPCB) (hawake : x.sys.asleep π.child tc = false) :
    ∃ s, x.sys.doRun π.child tc = some s ∧ π.Moves { x with sys := s } j 6 P C := by
  have hk : 6 < 8 := by omega
  have hq : π.child ∉ C.exitsem.queue := by simpa [Sys.asleep, hpc, h.child_pcb.1] using hawake
  have hdo : x.sys.doRun π.child tc
      = x.sys.semP π.child tc π.childPCB .exitsem .exitRemove := by
    simp [Sys.doRun, hpc]
  rw [hdo]
  by_cases hz : C.exitsem.value = 0
  · -- the parent has not come to `ExitRelease`, so the child goes to sleep
    refine ⟨_, Sys.semP_sleep (h.live_child hk) hz, Inv.moves_sleep P
      { C with exitsem := { C.exitsem with queue := C.exitsem.queue ++ [π.child] } } th ?_
      (fun hm => hm) ?_⟩
    · exact h.childMove rfl rfl rfl (by simpa [hv.pcbs] using h.parent_pcb.1) rfl
        (by simp [PCB.setSem, PCB.sem]) rfl (fun _ => h.child_alive hk) rfl
        ⟨h.exit.1, _, htc, hpid, hpc⟩ (h.sems.exit_sleep hz hq) (h.code (by omega))
    · simp only [sleepers, List.length_append, List.length_singleton]
      omega
  · refine ⟨_, Sys.semP_take (h.live_child hk) hz, Inv.moves_child P
      { C with exitsem := { C.exitsem with value := toInt32 (C.exitsem.value - 1) } } th ?_
      (fun hm => hm.child_next (by omega) (by omega)) (Nat.le_succ _)⟩
    exact h.childMove rfl rfl rfl (by simpa [hv.pcbs] using h.parent_pcb.1) rfl
      (by simp [PCB.setSem, PCB.sem]) rfl (fun _ => h.child_alive hk) (by simp [hv.threads])
      ⟨h.exit.1, childPc_of (by simp) hpid⟩ (h.sems.exit_take hz) (h.code (by omega))

/-- `Remove`: the parent has returned, so nobody needs the PCB any more. -/
theorem Inv.run_exitRemove (hv : π.Valid) (h : π.Inv x j 7 P C th) {tc : Proc}
    (hpid : tc.processID = π.c) (hpc : tc.pc = .exitRemove) :
    ∃ s, x.sys.doRun π.child tc = some s ∧ π.Moves { x with sys := s } j 7 P C := by
  have hk : 7 < 8 := by omega
  obtain ⟨bm, hbm⟩ : ∃ bm, x.sys.bm.clear π.c = some bm := by
    obtain ⟨hc0, hc1, -⟩ := Bitmap.test_eq_some (h.child_alive hk).2
    obtain ⟨bm, hbm, -⟩ := Bitmap.clear_natCast (b := x.sys.bm) (i := π.c.toNat) (by omega)
    rw [Int.toNat_of_nonneg hc0] at hbm
    exact ⟨bm, hbm⟩
  refine ⟨({ x.sys with bm := bm }.setPCB π.childPCB { C with alive := false }).finish π.child,
    ?_, Inv.moves_child P { C with alive := false } th ?_
      (fun hm => hm.child_next (by omega) (by omega)) (Nat.le_succ _)⟩
  · simp [Sys.doRun, hpc, Sys.remove, hpid, hbm, h.child_slot, h.live_child hk]
  · exact h.childMove rfl rfl rfl (by simpa [Sys.finish, hv.pcbs] using h.parent_pcb.1) rfl
      (by simp [Sys.finish]) rfl (by omega) (by simp [Sys.finish, hv.threads])
      ⟨h.exit.1, by simp [Sys.finish]⟩ (h.sems.child_next (by omega) (by omega) rfl rfl)
      (h.code (by omega))

/-! ## All steps -/

/-- A step of the parent inside `JoinUpdate`. -/
theorem Inv.run_parent (hv : π.Valid) (h : π.Inv x j k P C th) (hpc : th.pc ≠ .user)
    (hawake : x.sys.asleep π.parent th = false) :
    ∃ s, x.sys.doRun π.parent th = some s ∧ π.Moves { x with sys := s } j k P C := by
  match j, h with
  | 0, h => exact absurd h.join.2 hpc
  | 1, h => exact h.run_joinIncP hv hawake
  | 2, h => exact h.run_joinIncV hv
  | 3, h => exact h.run_joinWait hv
  | 4, h => exact h.run_joinP hv hawake
  | 5, h => exact h.run_joinGet hv
  | 6, h => exact h.run_joinRelease hv
  | 7, h => exact absurd h.join.2.1 hpc
  | _ + 8, h => exact h.join.elim

/-- A step of the child inside `ExitUpdate`. -/
theorem Inv.run_child (hv : π.Valid) (h : π.Inv x j k P C th) {tc : Proc}
    (htc : x.sys.thread π.child = some tc) (hpc : tc.pc ≠ .user)
    (hawake : x.sys.asleep π.child tc = false) :
    ∃ s, x.sys.doRun π.child tc = some s ∧ π.Moves { x with sys := s } j k P C := by
  -- the thread that the place speaks about is `tc`
  have hat {pc : ProcPc} (hat : π.ChildPc x pc) : tc.processID = π.c ∧ tc.pc = pc := by
    obtain ⟨tc', htc', hpid', hpc'⟩ := hat
    rw [htc] at htc'
    rw [Option.some.inj htc']
    exact ⟨hpid', hpc'⟩
  match k, h with
  | 0, h => exact absurd (hat h.exit.2).2 hpc
  | 1, h => exact h.run_exitDec hv (hat h.exit.2).1 (hat h.exit.2).2
  | 2, h => exact h.run_exitDecP hv htc (hat h.exit.2).1 (hat h.exit.2).2 hawake
  | 3, h => exact h.run_exitDecV hv (hat h.exit.2).1 (hat h.exit.2).2
  | 4, h => exact h.run_exitRelease hv (hat h.exit.2).1 (hat h.exit.2).2
  | 5, h => exact h.run_exitWait hv (hat h.exit.2).1 (hat h.exit.2).2
  | 6, h => exact h.run_exitP hv htc (hat h.exit.2).1 (hat h.exit.2).2 hawake
  | 7, h => exact h.run_exitRemove hv (hat h.exit.2).1 (hat h.exit.2).2
  | 8, h => rw [h.exit.2] at htc; cases htc
  | _ + 9, h => exact h.exit.elim

/-- A step of another process keeps the places. -/
theorem Inv.other {s : Sys} (h : π.Inv x j k P C th) (helse : π.Elsewhere x.sys s) :
    ∃ P', π.Inv { x with sys := s } j k P' C th ∧ s.heap π.parentPCB = some P' := by
  obtain ⟨hst, hpt, hct, hps, hcs, hp, hc, hbit⟩ := helse
  obtain ⟨P', hP'⟩ := Option.isSome_iff_exists.mp hp
  rw [Sys.live?_eq_some] at hP'
  refine ⟨P', ?_, hP'.1⟩
  exact {
    running := hst.trans h.running
    parent_slot := hps.trans h.parent_slot
    child_slot := hcs.trans h.child_slot
    parent_pcb := hP'
    child_pcb := ⟨hc.trans h.child_pcb.1, h.child_pcb.2⟩
    child_alive := fun hk => ⟨(h.child_alive hk).1, hbit.trans (h.child_alive hk).2⟩
    parent_thread := ⟨hpt.trans h.parent_thread.1, h.parent_thread.2⟩
    join := (joinAt_congr (x := x) rfl j).mpr h.join
    exit := by
      refine (exitAt_congr ?_ hct k).mpr h.exit
      rfl
    sems := h.sems
    code := h.code }

/--
One step: the invariant holds at the new places, and a step of the two calls uses up a part of
the budget as long as nobody else uses the parent's PCB.
-/
theorem pair_step {x' : PairState} {e : PairEvent} (hv : π.Valid) (h : π.Inv x j k P C th)
    (hstep : π.step x e = some x') :
    ∃ j' k' P' C' th', π.Inv x' j' k' P' C' th' ∧
      (π.Quiet x e → π.Multex P j k →
        π.Multex P' j' k' ∧ budget j' k' P' C' + e.own ≤ budget j k P C) := by
  have hown {x' : PairState} (hm : π.Moves x' j k P C) {q : Prop} :
      ∃ j' k' P' C' th', π.Inv x' j' k' P' C' th' ∧
        (q → π.Multex P j k →
          π.Multex P' j' k' ∧ budget j' k' P' C' + (1 : Nat) ≤ budget j k P C) := by
    obtain ⟨j', k', P', C', th', hinv, hbudget⟩ := hm
    exact ⟨j', k', P', C', th', hinv, fun _ hmul => hbudget hmul⟩
  cases e with
  | join =>
    simp only [step] at hstep
    split at hstep
    · cases hstep
    · next hcalled =>
      obtain ⟨s, hs, rfl⟩ := Option.map_eq_some_iff.mp hstep
      obtain ⟨th', hth', -, -, rfl⟩ := Sys.step_call_some hs
      rw [h.parent_thread.1] at hth'
      obtain rfl := Option.some.inj hth'
      obtain rfl : j = 0 := by
        match j, h with
        | 0, _ => rfl
        | 1, h | 2, h | 3, h | 4, h | 5, h | 6, h | 7, h => exact absurd h.join.1 hcalled
        | _ + 8, h => exact h.join.elim
      obtain ⟨s, hs, hmoves⟩ := h.call_join hv
      rw [hs]
      exact hown hmoves
  | exit =>
    simp only [step] at hstep
    split at hstep
    · cases hstep
    · next hcalled =>
      obtain ⟨s, hs, rfl⟩ := Option.map_eq_some_iff.mp hstep
      obtain ⟨tc, htc, -, -, rfl⟩ := Sys.step_call_some hs
      obtain rfl : k = 0 := by
        match k, h with
        | 0, _ => rfl
        | 1, h | 2, h | 3, h | 4, h | 5, h | 6, h | 7, h | 8, h => exact absurd h.exit.1 hcalled
        | _ + 9, h => exact h.exit.elim
      obtain ⟨tc', htc', hpid, -⟩ := h.exit.2
      rw [htc] at htc'
      obtain rfl := Option.some.inj htc'
      obtain ⟨s, hs, hmoves⟩ := h.call_exit hv hpid
      rw [hs]
      exact hown hmoves
  | runParent =>
    obtain ⟨s, hs, rfl⟩ := Option.map_eq_some_iff.mp hstep
    obtain ⟨th', hth', -, hpc, hawake, rfl⟩ := Sys.step_run_some hs
    rw [h.parent_thread.1] at hth'
    obtain rfl := Option.some.inj hth'
    obtain ⟨s, hs, hmoves⟩ := h.run_parent hv hpc hawake
    rw [hs]
    exact hown hmoves
  | runChild =>
    obtain ⟨s, hs, rfl⟩ := Option.map_eq_some_iff.mp hstep
    obtain ⟨tc, htc, -, hpc, hawake, rfl⟩ := Sys.step_run_some hs
    obtain ⟨s, hs, hmoves⟩ := h.run_child hv htc hpc hawake
    rw [hs]
    exact hown hmoves
  | other e =>
    simp only [step] at hstep
    split at hstep
    · cases hstep
    · obtain ⟨s, hs, hif⟩ := Option.bind_eq_some_iff.mp hstep
      split at hif
      · next helse =>
        obtain rfl := Option.some.inj hif
        obtain ⟨P', hinv, hP'⟩ := h.other helse
        refine ⟨j, k, P', C, th, hinv, fun hquiet hmul => ?_⟩
        have hsame : P' = P := by
          rw [hquiet s hs, h.parent_pcb.1] at hP'
          exact (Option.some.inj hP').symm
        rw [hsame]
        exact ⟨hmul, by simp [PairEvent.own]⟩
      · cases hif

/-! ## Whole runs -/

theorem Ready.valid {s : Sys} (h : π.Ready s) : π.Valid where
  threads := h.threads
  pcbs := h.pcbs
  parent_range := h.parent_range
  child_range := h.child_range

/-- The number of steps that the two calls make in a run. -/
def ownSteps (es : List PairEvent) : Nat := (es.map PairEvent.own).sum

theorem inv_start {s : Sys} (h : π.Ready s) :
    ∃ P C th, π.Inv (start s) 0 0 P C th ∧ s.heap π.parentPCB = some P := by
  obtain ⟨P, hP⟩ := h.parent_pcb
  obtain ⟨C, hC, hCalive, hCid, hCj, hCe⟩ := h.child_pcb
  obtain ⟨th, hth, hpid, hpc⟩ := h.parent_thread
  refine ⟨P, C, th, ?_, hP.1⟩
  exact {
    running := h.running
    parent_slot := h.parent_slot
    child_slot := h.child_slot
    parent_pcb := hP
    child_pcb := ⟨hC, hCid⟩
    child_alive := fun _ => ⟨hCalive, h.child_bit⟩
    parent_thread := ⟨hth, hpid⟩
    join := ⟨rfl, hpc⟩
    exit := ⟨rfl, h.child_thread⟩
    sems := by constructor <;> simp [hCj, hCe, Semaphore.new]
    code := fun hk => by omega }

/-- Every run keeps the invariant, and quiet runs stay inside the budget. -/
theorem pair_run {x x' : PairState} {es : List PairEvent} {j k : Nat} {P C : PCB} {th : Proc}
    (hv : π.Valid) (h : π.Inv x j k P C th) (hrun : run π.step x es = some x') :
    ∃ j' k' P' C' th', π.Inv x' j' k' P' C' th' ∧
      (AllSteps π.step π.Quiet x es → π.Multex P j k →
        π.Multex P' j' k' ∧ budget j' k' P' C' + ownSteps es ≤ budget j k P C) := by
  induction es generalizing x j k P C th with
  | nil =>
    obtain rfl := Option.some.inj hrun
    exact ⟨j, k, P, C, th, h, fun _ hmul => ⟨hmul, by simp [ownSteps]⟩⟩
  | cons e es ih =>
    obtain ⟨y, hy, hrest⟩ := run_cons_eq_some.mp hrun
    obtain ⟨j₁, k₁, P₁, C₁, th₁, hinv₁, hbudget₁⟩ := pair_step hv h hy
    obtain ⟨j', k', P', C', th', hinv', hbudget'⟩ := ih hinv₁ hrest
    refine ⟨j', k', P', C', th', hinv', fun hquiet hmul => ?_⟩
    obtain ⟨hmul₁, hle₁⟩ := hbudget₁ hquiet.1 hmul
    obtain ⟨hmul', hle'⟩ := hbudget' (hquiet.2 y hy) hmul₁
    refine ⟨hmul', ?_⟩
    simp only [ownSteps, List.map_cons, List.sum_cons, Nat.cast_add] at hle' ⊢
    omega

/-! ## Progress -/

theorem Inv.step_join_isSome (h : π.Inv x 0 k P C th) : (π.step x .join).isSome := by
  simp [step, h.join.1, Sys.step_call_eq h.parent_thread.1 h.running h.join.2]

theorem Inv.step_exit_isSome (h : π.Inv x j 0 P C th) : (π.step x .exit).isSome := by
  obtain ⟨hcalled, tc, htc, -, hpc⟩ := h.exit
  simp [step, hcalled, Sys.step_call_eq htc h.running hpc]

/-- The parent runs on, unless it sleeps in one of its two `P`s. -/
theorem Inv.step_runParent_isSome (h : π.Inv x j k P C th) (hj : 1 ≤ j ∧ j ≤ 6)
    (hm : j = 1 → π.parent ∉ P.multex.queue) (hs : j = 4 → π.parent ∉ C.joinsem.queue) :
    (π.step x .runParent).isSome := by
  have hpc : th.pc ≠ .user ∧ x.sys.asleep π.parent th = false := by
    match j, h, hj with
    | 1, h, _ => simpa [h.join.2, Sys.asleep, h.parent_pcb.1] using hm rfl
    | 2, h, _ | 3, h, _ | 5, h, _ | 6, h, _ => simp [h.join.2, Sys.asleep]
    | 4, h, _ => simpa [h.join.2, Sys.asleep, h.child_pcb.1] using hs rfl
  simp [step, Sys.step_run_eq h.parent_thread.1 h.running hpc.1 hpc.2]

/-- The child runs on, unless it sleeps in one of its two `P`s. -/
theorem Inv.step_runChild_isSome (h : π.Inv x j k P C th) (hk : 1 ≤ k ∧ k ≤ 7)
    (hm : k = 2 → π.child ∉ P.multex.queue) (hs : k = 6 → π.child ∉ C.exitsem.queue) :
    (π.step x .runChild).isSome := by
  obtain ⟨tc, htc, hpc, hawake⟩ : ∃ tc, x.sys.thread π.child = some tc ∧ tc.pc ≠ .user ∧
      x.sys.asleep π.child tc = false := by
    match k, h, hk with
    | 1, h, _ | 3, h, _ | 4, h, _ | 5, h, _ | 7, h, _ =>
      obtain ⟨-, tc, htc, -, hpc⟩ := h.exit
      exact ⟨tc, htc, by simp [hpc], by simp [Sys.asleep, hpc]⟩
    | 2, h, _ =>
      obtain ⟨-, tc, htc, -, hpc⟩ := h.exit
      exact ⟨tc, htc, by simp [hpc], by simpa [Sys.asleep, hpc, h.parent_pcb.1] using hm rfl⟩
    | 6, h, _ =>
      obtain ⟨-, tc, htc, -, hpc⟩ := h.exit
      exact ⟨tc, htc, by simp [hpc], by simpa [Sys.asleep, hpc, h.child_pcb.1] using hs rfl⟩
  simp [step, Sys.step_run_eq htc h.running hpc hawake]

theorem Inv.le_seven (h : π.Inv x j k P C th) : j ≤ 7 := by
  match j, h with
  | 0, _ | 1, _ | 2, _ | 3, _ | 4, _ | 5, _ | 6, _ | 7, _ => omega
  | _ + 8, h => exact h.join.elim

theorem Inv.le_eight (h : π.Inv x j k P C th) : k ≤ 8 := by
  match k, h with
  | 0, _ | 1, _ | 2, _ | 3, _ | 4, _ | 5, _ | 6, _ | 7, _ | 8, _ => omega
  | _ + 9, h => exact h.exit.elim

/-- While the two calls are not both over, one of them can go on. -/
theorem Inv.progress (h : π.Inv x j k P C th) (hmul : π.Multex P j k)
    (hnot : ¬ (j = 7 ∧ k = 8)) : ∃ e : PairEvent, e.own = 1 ∧ (π.step x e).isSome := by
  obtain ⟨hm, hmq⟩ := hmul
  obtain ⟨hjv, hev, hjq, heq⟩ := h.sems
  have hj := h.le_seven
  have hk := h.le_eight
  by_cases hj0 : j = 0
  · subst hj0
    exact ⟨.join, rfl, h.step_join_isSome⟩
  by_cases hpar : j ≤ 6 ∧ (j = 1 → π.parent ∉ P.multex.queue) ∧
      (j = 4 → π.parent ∉ C.joinsem.queue)
  · exact ⟨.runParent, rfl, h.step_runParent_isSome ⟨by omega, hpar.1⟩ hpar.2.1 hpar.2.2⟩
  -- the parent sleeps or has returned: nothing keeps the child from going on
  by_cases hk0 : k = 0
  · subst hk0
    exact ⟨.exit, rfl, h.step_exit_isSome⟩
  refine ⟨.runChild, rfl, h.step_runChild_isSome ⟨by omega, by omega⟩ ?_ ?_⟩
  · intro hk2 hin
    rcases hmq with hq | ⟨hj2, -, -⟩ | ⟨-, hk3, -⟩
    · rw [hq] at hin
      exact absurd hin List.not_mem_nil
    · exact hpar ⟨by omega, fun _ => by omega, fun _ => by omega⟩
    · omega
  · intro hk6 hin
    rcases heq with hq | ⟨hj7, -, -⟩
    · rw [hq] at hin
      exact absurd hin List.not_mem_nil
    · refine hpar ⟨by omega, fun _ hmem => ?_, fun _ hmem => ?_⟩
      · rcases hmq with hq | ⟨-, hk2, -⟩ | ⟨-, hk3, -⟩
        · rw [hq] at hmem
          exact absurd hmem List.not_mem_nil
        · omega
        · omega
      · rcases hjq with hq | ⟨-, hk5, -⟩
        · rw [hq] at hmem
          exact absurd hmem List.not_mem_nil
        · omega

/-! ## The rendezvous -/

/-- Where the parent is, from its program counter. -/
theorem Inv.join_place (h : π.Inv x j k P C th) :
    (th.pc = .joinGet π.c → j = 5) ∧ (x.joinCalled = true → th.pc = .user → j = 7) := by
  match j, h with
  | 0, h => simp [h.join.1, h.join.2]
  | 1, h | 2, h | 3, h | 4, h | 5, h | 6, h => simp [h.join.2]
  | 7, h => simp [h.join.2.1]
  | _ + 8, h => exact h.join.elim

theorem Inv.exit_called (h : π.Inv x j k P C th) (hk : 1 ≤ k) : x.exitCalled = true := by
  match k, h with
  | 1, h | 2, h | 3, h | 4, h | 5, h | 6, h | 7, h | 8, h => exact h.exit.1
  | _ + 9, h => exact h.exit.elim

/-- Sleepers have at least one place ahead of them. -/
theorem Inv.budget_nonneg (h : π.Inv x j k P C th) (hmul : π.Multex P j k) :
    0 ≤ budget j k P C := by
  have hj := h.le_seven
  have hk := h.le_eight
  have hmultex : P.multex.queue.length = 0 ∨ (P.multex.queue.length = 1 ∧ j ≤ 2) := by
    rcases hmul.queue with hq | ⟨hj, -, hq⟩ | ⟨hj, -, hq⟩
    · exact Or.inl (by rw [hq]; rfl)
    · exact Or.inr ⟨by rw [hq]; rfl, by omega⟩
    · exact Or.inr ⟨by rw [hq]; rfl, by omega⟩
  have hjoinsem : C.joinsem.queue.length = 0 ∨ (C.joinsem.queue.length = 1 ∧ j = 4) := by
    rcases h.sems.joinsem_queue with hq | ⟨hj, -, hq⟩
    · exact Or.inl (by rw [hq]; rfl)
    · exact Or.inr ⟨by rw [hq]; rfl, hj⟩
  have hexitsem : C.exitsem.queue.length = 0 ∨ (C.exitsem.queue.length = 1 ∧ j < 7 ∧ k = 6) := by
    rcases h.sems.exitsem_queue with hq | ⟨hj, hk, hq⟩
    · exact Or.inl (by rw [hq]; rfl)
    · exact Or.inr ⟨by rw [hq]; rfl, hj, hk⟩
  unfold budget sleepers
  omega

theorem Inv.joined (h : π.Inv x 7 k P C th) : π.Joined x :=
  ⟨h.join.1, th, h.parent_thread.1, h.join.2.1⟩

theorem Inv.exited (h : π.Inv x j k P C th) : π.Exited x ↔ k = 8 := by
  match k, h with
  | 0, h => simp [Exited, h.exit.1]
  | 1, h | 2, h | 3, h | 4, h | 5, h | 6, h | 7, h =>
    obtain ⟨-, tc, htc, -⟩ := h.exit
    simp [Exited, htc]
  | 8, h => simp [Exited, h.exit.1, h.exit.2]
  | _ + 9, h => exact h.exit.elim

/-- If nobody else uses the parent's PCB, the two calls come to their end. -/
theorem pair_ends {π : Pair} {s : Sys} {x : PairState} {es : List PairEvent}
    (hready : π.Ready s) (hrun : run π.step (start s) es = some x)
    (hquiet : AllSteps π.step π.Quiet (start s) es)
    (hmultex : ∀ P, s.heap π.parentPCB = some P → P.multex = .new 1) :
    ownSteps es ≤ 30 ∧
      (¬ (π.Joined x ∧ π.Exited x) → ∃ e : PairEvent, e.own = 1 ∧ (π.step x e).isSome) := by
  obtain ⟨P₀, C₀, th₀, hinv₀, hP₀⟩ := inv_start hready
  obtain ⟨j, k, P, C, th, hinv, hbudget⟩ := pair_run hready.valid hinv₀ hrun
  have hP₀' := hmultex P₀ hP₀
  have hmul₀ : π.Multex P₀ 0 0 := by constructor <;> simp [hP₀', Semaphore.new]
  obtain ⟨hmul, hle⟩ := hbudget hquiet hmul₀
  constructor
  · have hnonneg := hinv.budget_nonneg hmul
    have hstart : budget 0 0 P₀ C₀ ≤ 30 := by simp [budget]
    omega
  · intro hnot
    refine hinv.progress hmul ?_
    rintro ⟨rfl, hk8⟩
    apply hnot
    exact ⟨hinv.joined, hinv.exited.mpr hk8⟩

/--
Join and Exit, in every order.

The kernel never goes through a bad pointer. When the parent is about to read the exit code, the
child has stored it and its PCB is there. What `JoinUpdate` returns is that code. When the PCB is
destroyed, the parent has returned. If nobody else uses the parent's PCB, the two calls make at
most 30 steps, and one of them can go on until both are over.
-/
theorem join_exit_rendezvous {π : Pair} {s : Sys} {x : PairState} {es : List PairEvent}
    (hready : π.Ready s) (hrun : run π.step (start s) es = some x) :
    x.sys.status = .running ∧
    (∀ th, x.sys.thread π.parent = some th → th.pc = .joinGet π.c →
      x.exitCalled = true ∧ ∃ C, x.sys.live? π.childPCB = some C ∧ C.exitcode = π.code) ∧
    (∀ th, x.sys.thread π.parent = some th → x.joinCalled = true → th.pc = .user →
      th.result = π.code) ∧
    (x.sys.live? π.childPCB = none → π.Joined x) ∧
    (π.Exited x → π.Joined x) ∧
    (AllSteps π.step π.Quiet (start s) es →
      (∀ P, s.heap π.parentPCB = some P → P.multex = .new 1) →
      ownSteps es ≤ 30 ∧
        (¬ (π.Joined x ∧ π.Exited x) → ∃ e : PairEvent, e.own = 1 ∧ (π.step x e).isSome)) := by
  have hv := hready.valid
  obtain ⟨P₀, C₀, th₀, hinv₀, -⟩ := inv_start hready
  obtain ⟨j, k, P, C, th, hinv, -⟩ := pair_run hv hinv₀ hrun
  have hth {th'} (hth' : x.sys.thread π.parent = some th') : th' = th := by
    rw [hinv.parent_thread.1] at hth'
    exact (Option.some.inj hth').symm
  have hsems := hinv.sems
  have hseven : 7 ≤ k → π.Joined x := by
    intro hk
    obtain rfl : j = 7 := by have := hsems.exitsem; omega
    exact hinv.joined
  refine ⟨hinv.running, ?_, ?_, ?_, ?_, ?_⟩
  · intro th' hth' hpc
    obtain rfl := hth hth'
    obtain rfl := hinv.join_place.1 hpc
    have hk : 5 ≤ k := by have := hsems.joinsem; omega
    exact ⟨hinv.exit_called (by omega), C, hinv.live_child (hinv.child_lt (by omega)),
      hinv.code (by omega)⟩
  · intro th' hth' hcalled hpc
    obtain rfl := hth hth'
    obtain rfl := hinv.join_place.2 hcalled hpc
    exact hinv.join.2.2
  · intro hdead
    refine hseven (not_lt.mp fun hk => ?_)
    rw [hinv.live_child (by omega)] at hdead
    cases hdead
  · intro hex
    exact hseven (by have := hinv.exited.mp hex; omega)
  · exact pair_ends hready hrun

/-- The main process and the program that it executes first. -/
def mainAndFirst (code : Int) : Pair where
  parent := 0
  child := 1
  parentPCB := 0
  childPCB := 1
  p := 0
  c := 1
  code := code

/-- The table after the main process has executed a program. -/
def mainExec : Option Sys := Sys.new.bind fun s => run Sys.step s
  (Sys.execAll 0 Sys.nameA Sys.nameMain)

/-- Both threads sleep once: the parent in `joinsem->P()`, the child in `exitsem->P()`. -/
def bothSleep : List PairEvent :=
  [.join, .runParent, .runParent, .runParent, .runParent, .exit, .runChild, .runChild, .runChild,
    .runChild, .runChild, .runChild, .runParent, .runParent, .runParent, .runChild, .runChild]

/-- The main process executes a program and joins it, and gets the code 7. -/
theorem join_exit_rendezvous_both_sleep :
    ∃ s x th, mainExec = some s ∧ (mainAndFirst 7).Ready s ∧
      run (mainAndFirst 7).step (start s) bothSleep = some x ∧
      x.sys.thread 0 = some th ∧ th.result = 7 := by
  obtain ⟨s, x, th, hs, hready, hx, hth, hcalled, hpc⟩ : ∃ s x th, mainExec = some s ∧
      (mainAndFirst 7).Ready s ∧ run (mainAndFirst 7).step (start s) bothSleep = some x ∧
      x.sys.thread 0 = some th ∧ x.joinCalled = true ∧ th.pc = .user := by
    refine ⟨_, _, _, rfl, ?_, rfl, rfl, rfl, rfl⟩
    exact {
      running := rfl
      threads := by decide
      pcbs := by decide
      parent_range := by decide
      child_range := by decide
      parent_thread := ⟨_, rfl, rfl, rfl⟩
      child_thread := ⟨_, rfl, rfl, rfl⟩
      parent_slot := rfl
      child_slot := rfl
      child_bit := rfl
      parent_pcb := ⟨_, rfl, rfl⟩
      child_pcb := ⟨_, rfl, rfl, rfl, rfl, rfl⟩ }
  exact ⟨s, x, th, hs, hready, hx, hth,
    (join_exit_rendezvous hready hx).2.2.1 th hth hcalled hpc⟩

end Pair

end Nachos
