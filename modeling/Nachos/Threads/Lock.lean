import Nachos.Threads.Semaphore
import Mathlib.Logic.Function.Basic

/-!
# Locks and condition variables (`threads/synch.cc`)

A lock is a semaphore and the thread that holds it; a condition variable is a queue of private
semaphores, one for each waiting thread. Neither turns interrupts off itself, so a thread can be
preempted at the end of every `P` and `V` in their code. `Pc` has one constructor for each of
these places.

`owners` is not in the program: it collects the threads that have taken the lock's semaphore and
not yet given it back.

* `LockState.step` — one step of one thread
* `run_lock_mutual_exclusion` — the lock excludes, along every run
-/

namespace Nachos

open Base

/-- The class `Lock` over threads `τ`. -/
structure Lock (τ : Type*) where
  semaphore : Semaphore τ
  lockHolder : Option τ

/-- The private semaphores of `Condition::Wait`, in the order they were allocated. -/
abbrev SemId := Nat

/--
Where a thread is in the code of `Lock` and `Condition`.

`Acquire` and `Release` are also called by `Wait`; then they carry its private semaphore.
`Signal` is also called by `Broadcast`; then it carries the condition.
-/
inductive Pc (κ : Type*) where
  /-- In none of them. -/
  | out
  /-- `Acquire`: in `semaphore->P()`. -/
  | acquire (wait : Option SemId)
  /-- `Acquire`: `P` has returned, `lockHolder` is not assigned yet. -/
  | acquired (wait : Option SemId)
  /-- `Release`: `lockHolder` is `NULL`, `V` has not been executed yet. -/
  | release (wait : Option SemId)
  /-- `Wait`: in `waiter->P()`. -/
  | waiting (waiter : SemId)
  /-- `Signal`: the waiter is off the queue, its `V` has not been executed yet. -/
  | signal (waiter : SemId) (broadcast : Option κ)
  /-- `Broadcast`: at the loop test. -/
  | broadcast (cond : κ)
deriving DecidableEq

/-- The operations a thread can call on the lock and on the conditions `κ`. -/
inductive Call (κ : Type*) where
  | acquire
  | release
  | wait (cond : κ)
  | signal (cond : κ)
  | broadcast (cond : κ)

/-- Thread `t` makes a call, or goes on where it is. -/
inductive LockEvent (τ κ : Type*) where
  | call (t : τ) (c : Call κ)
  | run (t : τ)

/-- One lock, its condition variables and the threads that use them. -/
structure LockState (τ κ : Type*) where
  lock : Lock τ
  waitQueue : κ → List SemId
  sems : SemId → Option (Semaphore τ)
  nextSem : SemId
  pc : τ → Pc κ
  owners : Finset τ
  aborted : Bool

/-- The thread owns the lock, but `lockHolder` does not say so. -/
def Pc.transient {κ : Type*} : Pc κ → Bool
  | .acquired _ => true
  | .release _ => true
  | _ => false

namespace LockState

variable {τ κ : Type*} [DecidableEq τ] [DecidableEq κ]

/-- `Lock::Lock` and `Condition::Condition`: the lock is free and nobody waits. -/
def start : LockState τ κ where
  lock := { semaphore := .new 1, lockHolder := none }
  waitQueue := fun _ => []
  sems := fun _ => none
  nextSem := 0
  pc := fun _ => .out
  owners := ∅
  aborted := false

/-! ## The steps -/

/-- A thread sleeps in the queue of the semaphore whose `P` it is in. -/
def asleep (s : LockState τ κ) (t : τ) : Bool :=
  match s.pc t with
  | .acquire _ => decide (t ∈ s.lock.semaphore.queue)
  | .waiting w => decide (t ∈ ((s.sems w).map Semaphore.queue).getD [])
  | _ => false

/-- Thread `t` goes to `pc`. -/
def goto (s : LockState τ κ) (t : τ) (pc : Pc κ) : LockState τ κ :=
  { s with pc := Function.update s.pc t pc }

/-- A failed `ASSERT`, or the use of a deleted semaphore. -/
def abort (s : LockState τ κ) : LockState τ κ := { s with aborted := true }

/-- `Lock::IsHeldByCurrentThread`. -/
def isHeldBy (s : LockState τ κ) (t : τ) : Bool := s.lock.lockHolder == some t

/-- `Lock::Acquire` up to the end of `P`: one pass through its test. -/
def acquireP (s : LockState τ κ) (t : τ) (wait : Option SemId) : LockState τ κ :=
  match s.lock.semaphore.p t with
  | (sem, false) => { s with lock := { s.lock with semaphore := sem } }
  | (sem, true) =>
    { s.goto t (.acquired wait) with
      lock := { s.lock with semaphore := sem }
      owners := insert t s.owners }

/-- `Lock::Acquire` after `P`. In `Wait` the private semaphore is deleted right after it. -/
def acquireRest (s : LockState τ κ) (t : τ) (wait : Option SemId) : LockState τ κ :=
  { s.goto t .out with
    lock := { s.lock with lockHolder := some t }
    sems := match wait with
      | none => s.sems
      | some w => Function.update s.sems w none }

/-- `Lock::Release` up to `V`: the assertion, and `lockHolder = NULL`. -/
def releaseAssert (s : LockState τ κ) (t : τ) (wait : Option SemId) : LockState τ κ :=
  if s.isHeldBy t then
    { s.goto t (.release wait) with lock := { s.lock with lockHolder := none } }
  else s.abort

/-- `Lock::Release`: the `V`. In `Wait` the thread goes on to `waiter->P()`. -/
def releaseV (s : LockState τ κ) (t : τ) (wait : Option SemId) : LockState τ κ :=
  { s.goto t (match wait with
      | none => .out
      | some w => .waiting w) with
    lock := { s.lock with semaphore := s.lock.semaphore.v }
    owners := s.owners.erase t }

/-- `Condition::Wait` up to the `V` of `Release`: a new semaphore is put at the end of the queue. -/
def wait (s : LockState τ κ) (t : τ) (c : κ) : LockState τ κ :=
  if s.isHeldBy t then
    releaseAssert
      { s with
        sems := Function.update s.sems s.nextSem (some (.new 0))
        nextSem := s.nextSem + 1
        waitQueue := Function.update s.waitQueue c (s.waitQueue c ++ [s.nextSem]) }
      t (some s.nextSem)
  else s.abort

/-- `Condition::Wait`: one pass through the test of `waiter->P()`. -/
def waitP (s : LockState τ κ) (t : τ) (w : SemId) : LockState τ κ :=
  match s.sems w with
  | none => s.abort
  | some sem =>
    match sem.p t with
    | (sem, false) => { s with sems := Function.update s.sems w (some sem) }
    | (sem, true) =>
      { s.goto t (.acquire (some w)) with sems := Function.update s.sems w (some sem) }

/-- `Condition::Signal` up to its `V`. -/
def signal (s : LockState τ κ) (t : τ) (c : κ) (broadcast : Option κ) : LockState τ κ :=
  if s.isHeldBy t then
    match s.waitQueue c with
    | [] => s.goto t (match broadcast with
      | none => .out
      | some c => .broadcast c)
    | w :: rest =>
      { s.goto t (.signal w broadcast) with waitQueue := Function.update s.waitQueue c rest }
  else s.abort

/-- `Condition::Signal`: the `V`. -/
def signalV (s : LockState τ κ) (t : τ) (w : SemId) (broadcast : Option κ) : LockState τ κ :=
  match s.sems w with
  | none => s.abort
  | some sem =>
    { s.goto t (match broadcast with
        | none => .out
        | some c => .broadcast c) with
      sems := Function.update s.sems w (some sem.v) }

/-- `Condition::Broadcast`: the loop test, and the call of `Signal` in the loop. -/
def broadcast (s : LockState τ κ) (t : τ) (c : κ) : LockState τ κ :=
  match s.waitQueue c with
  | [] => s.goto t .out
  | _ :: _ => s.signal t c (some c)

/-- A call by a thread that is in none of the operations. -/
def doCall (s : LockState τ κ) (t : τ) : Call κ → LockState τ κ
  | .acquire => s.goto t (.acquire none)
  | .release => s.releaseAssert t none
  | .wait c => s.wait t c
  | .signal c => s.signal t c none
  | .broadcast c => s.goto t (.broadcast c)

/-- The thread goes on where it is. -/
def doRun (s : LockState τ κ) (t : τ) : Option (LockState τ κ) :=
  match s.pc t with
  | .out => none
  | .acquire w => some (s.acquireP t w)
  | .acquired w => some (s.acquireRest t w)
  | .release w => some (s.releaseV t w)
  | .waiting w => some (s.waitP t w)
  | .signal w b => some (s.signalV t w b)
  | .broadcast c => some (s.broadcast t c)

/-- One step. Nothing happens after an abort, and a sleeping thread does not run. -/
def step (s : LockState τ κ) : LockEvent τ κ → Option (LockState τ κ)
  | .call t c => if s.aborted = false ∧ s.pc t = .out then some (s.doCall t c) else none
  | .run t => if s.aborted = false ∧ s.asleep t = false then s.doRun t else none

/-! ## What a step does to the lock -/

/--
Everything a step can do to the lock, to its owners and to the places of the threads.

The condition variables only move threads between places where the lock does not change.
-/
inductive Effect (s : LockState τ κ) : LockState τ κ → Prop where
  | move {s' : LockState τ κ} (t : τ) (pc : Pc κ) (hlock : s'.lock = s.lock)
      (howners : s'.owners = s.owners) (hpc : s'.pc = Function.update s.pc t pc)
      (hold : (s.pc t).transient = false) (hnew : pc.transient = false) : Effect s s'
  | stay {s' : LockState τ κ} (hvalue : s'.lock.semaphore.value = s.lock.semaphore.value)
      (hholder : s'.lock.lockHolder = s.lock.lockHolder) (howners : s'.owners = s.owners)
      (hpc : s'.pc = s.pc) : Effect s s'
  | take {s' : LockState τ κ} (t : τ) (w : Option SemId) (hne : s.lock.semaphore.value ≠ 0)
      (hvalue : s'.lock.semaphore.value = toInt32 (s.lock.semaphore.value - 1))
      (hholder : s'.lock.lockHolder = s.lock.lockHolder) (howners : s'.owners = insert t s.owners)
      (hpc : s'.pc = Function.update s.pc t (.acquired w)) : Effect s s'
  | assign {s' : LockState τ κ} (t : τ) (hold : (s.pc t).transient = true)
      (hvalue : s'.lock.semaphore.value = s.lock.semaphore.value)
      (hholder : s'.lock.lockHolder = some t) (howners : s'.owners = s.owners)
      (hpc : s'.pc = Function.update s.pc t .out) : Effect s s'
  | drop {s' : LockState τ κ} (t : τ) (w : Option SemId) (hheld : s.lock.lockHolder = some t)
      (hvalue : s'.lock.semaphore.value = s.lock.semaphore.value)
      (hholder : s'.lock.lockHolder = none) (howners : s'.owners = s.owners)
      (hpc : s'.pc = Function.update s.pc t (.release w)) : Effect s s'
  | give {s' : LockState τ κ} (t : τ) (pc : Pc κ) (hold : (s.pc t).transient = true)
      (hvalue : s'.lock.semaphore.value = toInt32 (s.lock.semaphore.value + 1))
      (hholder : s'.lock.lockHolder = s.lock.lockHolder) (howners : s'.owners = s.owners.erase t)
      (hpc : s'.pc = Function.update s.pc t pc) (hnew : pc.transient = false) : Effect s s'

omit [DecidableEq κ] in
theorem effect_abort (s : LockState τ κ) : Effect s s.abort := .stay rfl rfl rfl rfl

omit [DecidableEq κ] in
theorem effect_acquireP (s : LockState τ κ) (t : τ) (w : Option SemId) :
    Effect s (s.acquireP t w) := by
  unfold acquireP
  by_cases hv : s.lock.semaphore.value = 0
  · rw [Semaphore.p_of_zero hv]
    exact .stay rfl rfl rfl rfl
  · rw [Semaphore.p_of_ne_zero hv]
    exact .take t w hv rfl rfl rfl rfl

omit [DecidableEq κ] in
theorem effect_releaseAssert (s : LockState τ κ) (t : τ) (w : Option SemId) :
    Effect s (s.releaseAssert t w) := by
  unfold releaseAssert
  split
  · next hheld => exact .drop t w (by simpa [isHeldBy] using hheld) rfl rfl rfl rfl
  · exact effect_abort s

theorem effect_wait (s : LockState τ κ) (t : τ) (c : κ) : Effect s (s.wait t c) := by
  unfold wait
  split
  · next hheld =>
    have hholder : s.lock.lockHolder = some t := by simpa [isHeldBy] using hheld
    unfold releaseAssert
    rw [if_pos (by simpa [isHeldBy] using hholder)]
    exact .drop t _ hholder rfl rfl rfl rfl
  · exact effect_abort s

omit [DecidableEq κ] in
theorem effect_waitP {s : LockState τ κ} {t : τ} {w : SemId} (hpc : (s.pc t).transient = false) :
    Effect s (s.waitP t w) := by
  unfold waitP
  split
  · exact effect_abort s
  · split
    · exact .stay rfl rfl rfl rfl
    · exact .move t _ rfl rfl rfl hpc rfl

theorem effect_signal {s : LockState τ κ} {t : τ} {c : κ} {b : Option κ}
    (hpc : (s.pc t).transient = false) : Effect s (s.signal t c b) := by
  unfold signal
  split
  · split
    · cases b with
      | none => exact .move t .out rfl rfl rfl hpc rfl
      | some c => exact .move t (.broadcast c) rfl rfl rfl hpc rfl
    · exact .move t _ rfl rfl rfl hpc rfl
  · exact effect_abort s

omit [DecidableEq κ] in
theorem effect_signalV {s : LockState τ κ} {t : τ} {w : SemId} {b : Option κ}
    (hpc : (s.pc t).transient = false) : Effect s (s.signalV t w b) := by
  unfold signalV
  split
  · exact effect_abort s
  · cases b with
    | none => exact .move t .out rfl rfl rfl hpc rfl
    | some c => exact .move t (.broadcast c) rfl rfl rfl hpc rfl

theorem effect_broadcast {s : LockState τ κ} {t : τ} {c : κ}
    (hpc : (s.pc t).transient = false) : Effect s (s.broadcast t c) := by
  unfold broadcast
  split
  · exact .move t .out rfl rfl rfl hpc rfl
  · exact effect_signal hpc

theorem effect_doCall {s : LockState τ κ} {t : τ} (hpc : s.pc t = .out) (c : Call κ) :
    Effect s (s.doCall t c) := by
  have hout : (s.pc t).transient = false := by rw [hpc]; rfl
  cases c with
  | acquire => exact .move t _ rfl rfl rfl hout rfl
  | release => exact effect_releaseAssert s t none
  | wait c => exact effect_wait s t c
  | signal c => exact effect_signal (c := c) (b := none) hout
  | broadcast c => exact .move t _ rfl rfl rfl hout rfl

theorem effect_doRun {s s' : LockState τ κ} {t : τ} (h : s.doRun t = some s') : Effect s s' := by
  unfold doRun at h
  cases hpc : s.pc t with
  | out => rw [hpc] at h; simp at h
  | acquire w =>
    rw [hpc] at h
    rw [← Option.some.inj h]
    exact effect_acquireP s t w
  | acquired w =>
    rw [hpc] at h
    rw [← Option.some.inj h]
    exact .assign t (by rw [hpc]; rfl) rfl rfl rfl rfl
  | release w =>
    rw [hpc] at h
    rw [← Option.some.inj h]
    cases w with
    | none => exact .give t .out (by rw [hpc]; rfl) rfl rfl rfl rfl rfl
    | some w => exact .give t (.waiting w) (by rw [hpc]; rfl) rfl rfl rfl rfl rfl
  | waiting w =>
    rw [hpc] at h
    rw [← Option.some.inj h]
    exact effect_waitP (by rw [hpc]; rfl)
  | signal w b =>
    rw [hpc] at h
    rw [← Option.some.inj h]
    exact effect_signalV (by rw [hpc]; rfl)
  | broadcast c =>
    rw [hpc] at h
    rw [← Option.some.inj h]
    exact effect_broadcast (by rw [hpc]; rfl)

theorem effect_step {s s' : LockState τ κ} {e : LockEvent τ κ} (h : s.step e = some s') :
    Effect s s' := by
  cases e with
  | call t c =>
    simp only [step] at h
    split at h
    · next hen =>
      rw [← Option.some.inj h]
      exact effect_doCall hen.2 c
    · simp at h
  | run t =>
    simp only [step] at h
    split at h
    · exact effect_doRun h
    · simp at h

/-! ## The invariant -/

/-- The semaphore is taken exactly when there is an owner, and `lockHolder` never lies. -/
structure Inv (s : LockState τ κ) : Prop where
  sum : s.lock.semaphore.value + s.owners.card = 1
  nonneg : 0 ≤ s.lock.semaphore.value
  holder : ∀ t, s.lock.lockHolder = some t → t ∈ s.owners ∧ (s.pc t).transient = false
  transient : ∀ t, (s.pc t).transient = true → t ∈ s.owners
  inside : ∀ t ∈ s.owners, (s.pc t).transient = false → s.lock.lockHolder = some t

section

omit [DecidableEq κ]

omit [DecidableEq τ] in
theorem inv_start : Inv (start : LockState τ κ) where
  sum := by simp [start, Semaphore.new]
  nonneg := by simp [start, Semaphore.new]
  holder := by simp [start]
  transient := by simp [start, Pc.transient]
  inside := by simp [start]

omit [DecidableEq τ] in
/-- There is one owner at most. -/
theorem Inv.owner_unique {s : LockState τ κ} (h : Inv s) {t u : τ} (ht : t ∈ s.owners)
    (hu : u ∈ s.owners) : t = u := by
  have hsum := h.sum
  have hnn := h.nonneg
  have hcard : s.owners.card ≤ 1 := by omega
  exact Finset.card_le_one.mp hcard t ht u hu

/-- `P` has taken the semaphore: nobody owned it, so `lockHolder` is `NULL`. -/
theorem Inv.take {s s' : LockState τ κ} {t : τ} {w : Option SemId} (h : Inv s)
    (hne : s.lock.semaphore.value ≠ 0)
    (hvalue : s'.lock.semaphore.value = toInt32 (s.lock.semaphore.value - 1))
    (hholder : s'.lock.lockHolder = s.lock.lockHolder) (howners : s'.owners = insert t s.owners)
    (hpc : s'.pc = Function.update s.pc t (.acquired w)) : Inv s' := by
  have hsum := h.sum
  have hnn := h.nonneg
  have hempty : s.owners = ∅ := by
    rw [← Finset.card_eq_zero]
    omega
  have hnone : s.lock.lockHolder = none := by
    cases hh : s.lock.lockHolder with
    | none => rfl
    | some u =>
      have := (h.holder u hh).1
      rw [hempty] at this
      simp at this
  rw [hempty] at howners hsum
  rw [Finset.card_empty] at hsum
  rw [toInt32_eq_self (by omega) (by omega)] at hvalue
  refine ⟨?_, ?_, ?_, ?_, ?_⟩
  · rw [hvalue, howners]
    simpa using hsum
  · rw [hvalue]
    omega
  · intro u hu
    rw [hholder, hnone] at hu
    simp at hu
  · intro u hu
    rw [howners]
    by_cases hut : u = t
    · simp [hut]
    · rw [hpc, Function.update_of_ne hut] at hu
      have := h.transient u hu
      rw [hempty] at this
      simp at this
  · intro u hu htr
    rw [howners] at hu
    have hut : u = t := by simpa using hu
    rw [hpc, hut, Function.update_self] at htr
    simp [Pc.transient] at htr

/-- The owner writes its name into `lockHolder`. -/
theorem Inv.assign {s s' : LockState τ κ} {t : τ} (h : Inv s)
    (hold : (s.pc t).transient = true)
    (hvalue : s'.lock.semaphore.value = s.lock.semaphore.value)
    (hholder : s'.lock.lockHolder = some t) (howners : s'.owners = s.owners)
    (hpc : s'.pc = Function.update s.pc t .out) : Inv s' := by
  have hown := h.transient t hold
  refine ⟨?_, ?_, ?_, ?_, ?_⟩
  · rw [hvalue, howners]
    exact h.sum
  · rw [hvalue]
    exact h.nonneg
  · intro u hu
    rw [hholder] at hu
    obtain rfl : t = u := Option.some.inj hu
    rw [howners, hpc, Function.update_self]
    exact ⟨hown, rfl⟩
  · intro u hu
    rw [howners]
    by_cases hut : u = t
    · rw [hut]; exact hown
    · rw [hpc, Function.update_of_ne hut] at hu
      exact h.transient u hu
  · intro u hu _
    rw [howners] at hu
    rw [hholder, h.owner_unique hu hown]

/-- The holder passes the assertion of `Release` and clears `lockHolder`. It still owns the lock. -/
theorem Inv.drop {s s' : LockState τ κ} {t : τ} {w : Option SemId} (h : Inv s)
    (hheld : s.lock.lockHolder = some t)
    (hvalue : s'.lock.semaphore.value = s.lock.semaphore.value)
    (hholder : s'.lock.lockHolder = none) (howners : s'.owners = s.owners)
    (hpc : s'.pc = Function.update s.pc t (.release w)) : Inv s' := by
  have hown := (h.holder t hheld).1
  refine ⟨?_, ?_, ?_, ?_, ?_⟩
  · rw [hvalue, howners]
    exact h.sum
  · rw [hvalue]
    exact h.nonneg
  · intro u hu
    rw [hholder] at hu
    simp at hu
  · intro u hu
    rw [howners]
    by_cases hut : u = t
    · rw [hut]; exact hown
    · rw [hpc, Function.update_of_ne hut] at hu
      exact h.transient u hu
  · intro u hu htr
    rw [howners] at hu
    rw [h.owner_unique hu hown, hpc, Function.update_self] at htr
    simp [Pc.transient] at htr

/-- `V` gives the semaphore back: there is no owner any more. -/
theorem Inv.give {s s' : LockState τ κ} {t : τ} {pc : Pc κ} (h : Inv s)
    (hold : (s.pc t).transient = true)
    (hvalue : s'.lock.semaphore.value = toInt32 (s.lock.semaphore.value + 1))
    (hholder : s'.lock.lockHolder = s.lock.lockHolder) (howners : s'.owners = s.owners.erase t)
    (hpc : s'.pc = Function.update s.pc t pc) (hnew : pc.transient = false) : Inv s' := by
  have hown := h.transient t hold
  have hsum := h.sum
  have hnn := h.nonneg
  have hempty : s.owners.erase t = ∅ := by
    rw [Finset.eq_empty_iff_forall_notMem]
    intro u hu
    obtain ⟨hne, hu⟩ := Finset.mem_erase.mp hu
    exact hne (h.owner_unique hu hown)
  have hcard : s.owners.card = 1 := by
    have := Finset.card_erase_add_one hown
    rw [hempty, Finset.card_empty] at this
    omega
  rw [hempty] at howners
  rw [toInt32_eq_self (by omega) (by omega)] at hvalue
  refine ⟨?_, ?_, ?_, ?_, ?_⟩
  · rw [hvalue, howners, Finset.card_empty]
    omega
  · rw [hvalue]
    omega
  · intro u hu
    rw [hholder] at hu
    obtain ⟨hu', htr⟩ := h.holder u hu
    rw [h.owner_unique hu' hown, hold] at htr
    simp at htr
  · intro u hu
    exfalso
    by_cases hut : u = t
    · rw [hpc, hut, Function.update_self, hnew] at hu
      simp at hu
    · rw [hpc, Function.update_of_ne hut] at hu
      exact hut (h.owner_unique (h.transient u hu) hown)
  · intro u hu
    rw [howners] at hu
    simp at hu

/-- A thread moves between two places at which it is not about to change the lock. -/
theorem Inv.move {s s' : LockState τ κ} {t : τ} {pc : Pc κ} (h : Inv s)
    (hlock : s'.lock = s.lock) (howners : s'.owners = s.owners)
    (hpc : s'.pc = Function.update s.pc t pc) (hold : (s.pc t).transient = false)
    (hnew : pc.transient = false) : Inv s' := by
  have htr : ∀ u, (s'.pc u).transient = (s.pc u).transient := by
    intro u
    rw [hpc]
    by_cases hut : u = t
    · rw [hut, Function.update_self, hnew, hold]
    · rw [Function.update_of_ne hut]
  refine ⟨?_, ?_, ?_, ?_, ?_⟩
  · rw [hlock, howners]; exact h.sum
  · rw [hlock]; exact h.nonneg
  · intro u hu
    rw [hlock] at hu
    rw [howners, htr]
    exact h.holder u hu
  · intro u hu
    rw [htr] at hu
    rw [howners]
    exact h.transient u hu
  · intro u hu hut
    rw [howners] at hu
    rw [htr] at hut
    rw [hlock]
    exact h.inside u hu hut

end

theorem inv_step (s : LockState τ κ) (e : LockEvent τ κ) (s' : LockState τ κ) (h : Inv s)
    (hs : s.step e = some s') : Inv s' := by
  cases effect_step hs with
  | move t pc hlock howners hpc hold hnew => exact h.move hlock howners hpc hold hnew
  | stay hvalue hholder howners hpc =>
    exact ⟨by rw [hvalue, howners]; exact h.sum, by rw [hvalue]; exact h.nonneg,
      by rw [hholder, howners, hpc]; exact h.holder, by rw [howners, hpc]; exact h.transient,
      by rw [hholder, howners, hpc]; exact h.inside⟩
  | take t w hne hvalue hholder howners hpc => exact h.take hne hvalue hholder howners hpc
  | assign t hold hvalue hholder howners hpc => exact h.assign hold hvalue hholder howners hpc
  | drop t w hheld hvalue hholder howners hpc => exact h.drop hheld hvalue hholder howners hpc
  | give t pc hold hvalue hholder howners hpc hnew =>
    exact h.give hold hvalue hholder howners hpc hnew

/-! ## Whole runs -/

/-- The thread is between the return of its `Acquire` and the call of its `Release`. -/
def Inside (s : LockState τ κ) (t : τ) : Prop := t ∈ s.owners ∧ (s.pc t).transient = false

/--
**The lock excludes.**

Along every run of `Acquire`, `Release` and the operations of the conditions: one thread at most
is inside, the semaphore and the owners add up to 1, `lockHolder` is `NULL` or the one owner,
and a `Release` by anybody else fails its assertion and leaves the lock as it is.
-/
theorem run_lock_mutual_exclusion {es : List (LockEvent τ κ)} {s : LockState τ κ}
    (h : run step start es = some s) :
    (∀ t u, s.Inside t → s.Inside u → t = u) ∧
      s.lock.semaphore.value + s.owners.card = 1 ∧
      (s.lock.lockHolder = none ∨ ∃ t, s.lock.lockHolder = some t ∧ s.owners = {t}) ∧
      ∀ t, t ∉ s.owners → s.aborted = false → s.pc t = .out →
        ∃ s', s.step (.call t .release) = some s' ∧ s'.aborted = true ∧ s'.lock = s.lock := by
  have hinv : Inv s := run_invariant inv_step inv_start h
  refine ⟨?_, hinv.sum, ?_, ?_⟩
  · intro t u ht hu
    exact hinv.owner_unique ht.1 hu.1
  · cases hh : s.lock.lockHolder with
    | none => exact Or.inl rfl
    | some t =>
      have hown := (hinv.holder t hh).1
      refine Or.inr ⟨t, rfl, ?_⟩
      ext u
      rw [Finset.mem_singleton]
      exact ⟨fun hu => hinv.owner_unique hu hown, fun hu => hu ▸ hown⟩
  · intro t ht hab hpc
    have hnot : s.isHeldBy t = false := by
      cases hh : s.isHeldBy t with
      | false => rfl
      | true => exact absurd (hinv.holder t (by simpa [isHeldBy] using hh)).1 ht
    refine ⟨s.abort, ?_, rfl, rfl⟩
    simp [step, hab, hpc, doCall, releaseAssert, hnot]

/-- Thread 2 waits for the lock while thread 1 is in the middle of its `Release`. -/
theorem run_lock_release_preempted :
    ∃ s : LockState Nat Nat,
      run step start [.call 1 .acquire, .run 1, .call 2 .acquire, .run 1, .run 2,
        .call 1 .release] = some s ∧
      s.owners = {1} ∧ s.lock.lockHolder = none ∧ s.lock.semaphore.queue = [2] ∧
      s.lock.semaphore.value + s.owners.card = 1 := by
  refine ⟨_, rfl, rfl, rfl, rfl, ?_⟩
  have hrun : run step (start : LockState Nat Nat) [.call 1 .acquire, .run 1, .call 2 .acquire,
    .run 1, .run 2, .call 1 .release] = some _ := rfl
  exact (run_lock_mutual_exclusion hrun).2.1

end LockState

end Nachos
