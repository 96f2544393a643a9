import Nachos.Threads.Condition

/-!
# Critical sections (`threads/synch.cc`)

Several classes have operations that are one critical section: `Acquire`, some stages with the lock
held, `Release`. `LockSection` is such a lock with its threads; what is done at the stages is left
to the class.

* `LockSection` — the lock, and where each thread is in the operation
* `LockSection.Inv.unique` — one thread at most is at a stage
-/

namespace Nachos

/-- Where a thread is in a critical section with the stages `ι`. -/
inductive Critical (ι : Type*) where
  /-- In no operation. -/
  | idle
  /-- In `Acquire`, or back from it. -/
  | acquiring
  /-- At a stage, with the lock held. -/
  | inside (stage : ι)
  /-- In `Release` after that stage, or back from it. -/
  | releasing (stage : ι)
deriving DecidableEq

/-- A lock and its threads. -/
structure LockSection (τ ι : Type*) where
  monitor : LockState τ Empty
  place : τ → Critical ι

namespace LockSection

variable {τ ι : Type*} [DecidableEq τ]

/-- The lock is free. -/
def start : LockSection τ ι where
  monitor := .start
  place := fun _ => .idle

/-! ## The steps -/

def goto (s : LockSection τ ι) (t : τ) (p : Critical ι) : LockSection τ ι :=
  { s with place := Function.update s.place t p }

/-- Thread `t` calls an operation of the lock, and will be at `p`. -/
def call (s : LockSection τ ι) (t : τ) (c : Call Empty) (p : Critical ι) :
    Option (LockSection τ ι) :=
  (s.monitor.step (.call t c)).map fun m => { s.goto t p with monitor := m }

/-- The call of `Acquire`. -/
def enter (s : LockSection τ ι) (t : τ) : Option (LockSection τ ι) :=
  match s.place t with
  | .idle => s.call t .acquire .acquiring
  | _ => none

/-- The thread goes on in the lock. -/
def runLock (s : LockSection τ ι) (t : τ) : Option (LockSection τ ι) :=
  (s.monitor.step (.run t)).map fun m => { s with monitor := m }

/-- The call of `Release`. -/
def leave (s : LockSection τ ι) (t : τ) (stage : ι) : Option (LockSection τ ι) :=
  s.call t .release (.releasing stage)

/-- The thread is back from `Acquire`, and not yet in `Release`. -/
def Holds (s : LockSection τ ι) (t : τ) : Prop :=
  s.monitor.pc t = .out ∧ (s.place t = .acquiring ∨ ∃ stage, s.place t = .inside stage)

/-! ## The invariant -/

/-- Where a thread is in the lock, at each place. `held`: it holds the lock. -/
def Fits (held : Prop) : Critical ι → Pc Empty → Prop
  | .idle, .out => True
  | .acquiring, .acquire none => True
  | .acquiring, .acquired none => True
  | .acquiring, .out => held
  | .inside _, .out => held
  | .releasing _, .release none => True
  | .releasing _, .out => True
  | _, _ => False

structure Inv (s : LockSection τ ι) : Prop where
  lock : s.monitor.Inv
  cond : s.monitor.CondInv
  aborted : s.monitor.aborted = false
  fits : ∀ t, Fits (s.monitor.lock.lockHolder = some t) (s.place t) (s.monitor.pc t)

omit [DecidableEq τ] in
theorem inv_start : Inv (start : LockSection τ ι) where
  lock := LockState.inv_start
  cond := LockState.condInv_start
  aborted := rfl
  fits := fun _ => trivial

/-- Where a thread is in the lock when it goes on there. -/
theorem Fits.pc {held : Prop} {p : Critical ι} {pc : Pc Empty} (h : Fits held p pc) :
    pc = .out ∨ pc = .acquire none ∨ pc = .acquired none ∨ pc = .release none := by
  unfold Fits at h
  split at h
  all_goals first | exact .inl rfl | exact .inr (.inl rfl) | exact .inr (.inr (.inl rfl)) |
    exact .inr (.inr (.inr rfl)) | exact h.elim

theorem Fits.lockTake {held held' : Prop} {p : Critical ι} (h : Fits held p (.acquire none)) :
    Fits held' p (.acquired none) := by
  cases p <;> first | exact trivial | exact h.elim

theorem Fits.acquired {held held' : Prop} {p : Critical ι} (h : Fits held p (.acquired none))
    (hheld : held') : Fits held' p .out := by
  cases p <;> first | exact hheld | exact h.elim

theorem Fits.released {held held' : Prop} {p : Critical ι} (h : Fits held p (.release none)) :
    Fits held' p .out := by
  cases p <;> first | exact trivial | exact h.elim

theorem Fits.mono {held held' : Prop} {p : Critical ι} {pc : Pc Empty} (h : Fits held p pc)
    (himp : held → held') : Fits held' p pc := by
  unfold Fits at *
  split at h <;> first | exact trivial | exact himp h | exact h

variable {s s' : LockSection τ ι} {t u : τ}

section

omit [DecidableEq τ]

theorem Inv.held (h : Inv s) (ht : s.Holds t) : s.monitor.lock.lockHolder = some t := by
  obtain ⟨hpc, hplace⟩ := ht
  have hfit := h.fits t
  rw [hpc] at hfit
  rcases hplace with hplace | ⟨stage, hplace⟩
  · rwa [hplace] at hfit
  · rwa [hplace] at hfit

/-- The threads exclude each other. -/
theorem Inv.unique (h : Inv s) (ht : s.Holds t) (hu : s.Holds u) : t = u :=
  Option.some.inj ((h.held ht).symm.trans (h.held hu))

theorem Inv.pc_out_of_idle (h : Inv s) (hplace : s.place t = .idle) : s.monitor.pc t = .out := by
  have hfit := h.fits t
  rw [hplace] at hfit
  cases hpc : s.monitor.pc t with
  | out => rfl
  | _ => rw [hpc] at hfit; exact hfit.elim

theorem Inv.pc_out_of_inside (h : Inv s) {stage : ι} (hplace : s.place t = .inside stage) :
    s.monitor.pc t = .out := by
  have hfit := h.fits t
  rw [hplace] at hfit
  cases hpc : s.monitor.pc t with
  | out => rfl
  | _ => rw [hpc] at hfit; exact hfit.elim

theorem Inv.holds_inside (h : Inv s) {stage : ι} (hplace : s.place t = .inside stage) :
    s.Holds t :=
  ⟨h.pc_out_of_inside hplace, .inr ⟨stage, hplace⟩⟩

end

/-- A step of `t` in the lock, to another place. -/
theorem Inv.step_of (h : Inv s) {e : LockEvent τ Empty} {p : Critical ι}
    (hm : s.monitor.step e = some s'.monitor) (ht : e.thread = t)
    (hplace : s'.place = Function.update s.place t p) (haborted : s'.monitor.aborted = false)
    (hfit : Fits (s'.monitor.lock.lockHolder = some t) p (s'.monitor.pc t)) : Inv s' where
  lock := LockState.inv_step _ _ _ h.lock hm
  cond := LockState.condInv_step h.lock h.cond hm
  aborted := haborted
  fits := by
    intro u
    by_cases hu : u = t
    · rw [hu, hplace, Function.update_self]
      exact hfit
    · have hne : e.thread ≠ u := by rw [ht]; exact Ne.symm hu
      rw [hplace, Function.update_of_ne hu, LockState.step_pc_others hm hne]
      exact (h.fits u).mono fun hheld => (h.cond.step_others h.lock hheld hne hm).1

/-- A thread outside of the lock goes from one place to another. -/
theorem Inv.goto (h : Inv s) {p : Critical ι}
    (hfit : Fits (s.monitor.lock.lockHolder = some t) p (s.monitor.pc t)) : Inv (s.goto t p) where
  lock := h.lock
  cond := h.cond
  aborted := h.aborted
  fits := by
    intro u
    show Fits _ (Function.update s.place t p u) _
    by_cases hu : u = t
    · rw [hu, Function.update_self]
      exact hfit
    · rw [Function.update_of_ne hu]
      exact h.fits u

/-- To the next stage. -/
theorem Inv.stage (h : Inv s) (ht : s.Holds t) (stage : ι) : Inv (s.goto t (.inside stage)) := by
  refine h.goto ?_
  rw [ht.1]
  exact h.held ht

/-- Back to the caller. -/
theorem Inv.finish (h : Inv s) (hpc : s.monitor.pc t = .out) : Inv (s.goto t .idle) := by
  refine h.goto ?_
  rw [hpc]
  exact trivial

theorem Inv.enter (h : Inv s) (hs : s.enter t = some s') :
    Inv s' ∧ s.place t = .idle ∧ s'.place = Function.update s.place t .acquiring := by
  unfold LockSection.enter at hs
  split at hs
  next hidle =>
    obtain ⟨m, hm, rfl⟩ := Option.map_eq_some_iff.mp hs
    have heq : m = s.monitor.goto t (.acquire none) := by
      rw [LockState.step, if_pos ⟨h.aborted, h.pc_out_of_idle hidle⟩] at hm
      exact (Option.some.inj hm).symm
    refine ⟨h.step_of (t := t) hm rfl rfl (by rw [heq]; exact h.aborted) ?_, hidle, rfl⟩
    have hpc : m.pc t = .acquire none := by
      rw [heq]
      exact Function.update_self ..
    show Fits _ _ (m.pc t)
    rw [hpc]
    exact trivial
  next => cases hs

/-- `Release` is called with the lock held, so its assertion is met. -/
theorem Inv.leave (h : Inv s) (ht : s.Holds t) {stage : ι} (hs : s.leave t stage = some s') :
    Inv s' ∧ s'.place = Function.update s.place t (.releasing stage) := by
  obtain ⟨m, hm, rfl⟩ := Option.map_eq_some_iff.mp hs
  have heq : m = { s.monitor.goto t (.release none) with
      lock := { s.monitor.lock with lockHolder := none } } := by
    rw [LockState.step, if_pos ⟨h.aborted, ht.1⟩, LockState.doCall, LockState.releaseAssert,
      if_pos (LockState.isHeldBy_iff.mpr (h.held ht))] at hm
    exact (Option.some.inj hm).symm
  refine ⟨h.step_of (t := t) hm rfl rfl (by rw [heq]; exact h.aborted) ?_, rfl⟩
  have hpc : m.pc t = .release none := by
    rw [heq]
    exact Function.update_self ..
  show Fits _ _ (m.pc t)
  rw [hpc]
  exact trivial

/-- A step inside the lock. -/
theorem Inv.runLock (h : Inv s) (hs : s.runLock t = some s') : Inv s' ∧ s'.place = s.place := by
  obtain ⟨m, hm, rfl⟩ := Option.map_eq_some_iff.mp hs
  have hfit := h.fits t
  have hsame : Function.update s.place t (s.place t) = s.place := Function.update_eq_self t s.place
  have hstep : ∀ {pc : Pc Empty}, m.aborted = s.monitor.aborted → m.pc t = pc →
      Fits (m.lock.lockHolder = some t) (s.place t) pc → Inv { s with monitor := m } := by
    intro pc haborted hpc hfit'
    refine h.step_of (t := t) hm rfl hsame.symm (haborted.trans h.aborted) ?_
    show Fits _ _ (m.pc t)
    rwa [hpc]
  have hrun : s.monitor.doRun t = some m := by
    simp only [LockState.step] at hm
    split at hm
    next => exact hm
    next => cases hm
  refine ⟨?_, rfl⟩
  unfold LockState.doRun at hrun
  rcases hfit.pc with hpc | hpc | hpc | hpc
  · rw [hpc] at hrun
    cases hrun
  · rw [hpc] at hrun hfit
    obtain rfl := Option.some.inj hrun
    by_cases hv : s.monitor.lock.semaphore.value = 0
    · have heq : s.monitor.acquireP t none = { s.monitor with lock := { s.monitor.lock with
          semaphore := { s.monitor.lock.semaphore with
            queue := s.monitor.lock.semaphore.queue ++ [t] } } } := by
        rw [LockState.acquireP, Semaphore.p_of_zero hv]
      have hpc' : (s.monitor.acquireP t none).pc t = .acquire none := by
        rw [heq]
        exact hpc
      refine hstep (by rw [heq]) hpc' ?_
      rw [heq]
      exact hfit
    · have heq : s.monitor.acquireP t none = { s.monitor.goto t (.acquired none) with
          lock := { s.monitor.lock with
            semaphore := { s.monitor.lock.semaphore with
              value := toInt32 (s.monitor.lock.semaphore.value - 1) } }
          owners := insert t s.monitor.owners } := by
        rw [LockState.acquireP, Semaphore.p_of_ne_zero hv]
      exact hstep (by rw [heq]; rfl) (by rw [heq]; exact Function.update_self ..) hfit.lockTake
  · rw [hpc] at hrun hfit
    obtain rfl := Option.some.inj hrun
    exact hstep rfl (Function.update_self ..) (hfit.acquired rfl)
  · rw [hpc] at hrun hfit
    obtain rfl := Option.some.inj hrun
    exact hstep rfl (Function.update_self ..) hfit.released

end LockSection

end Nachos
