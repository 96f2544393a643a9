import Nachos.Threads.Lock

/-!
# Condition variables lose no signal (`threads/synch.cc`)

`Condition::Wait` puts a new semaphore at the end of the queue, lets go of the lock and only then
executes `P`. `Signal` takes the first semaphore off the queue and executes `V` on it. So a signal
can come before the `P` of the thread it is meant for, and is not lost: the semaphore keeps it.

A private semaphore goes through the stages of `Stage`: it is in the queue, a signaller has taken
it off, its `V` is done, its thread is on the way back to the lock. Outside of these it is not
used by anybody, and it is only deleted when it gets there.

* `Moves` — everything a step can do
* `Stage` — where a private semaphore is in its life
* `run_condition_no_lost_signal` — who is let proceed by whom, along every run
-/

namespace Nachos

open Base

/-- The private semaphore that a thread is busy with. -/
def Pc.sem? {κ : Type*} : Pc κ → Option SemId
  | .acquire w | .acquired w | .release w => w
  | .waiting w | .signal w _ => some w
  | .out | .broadcast _ => none

/-- The thread that acts. -/
def LockEvent.thread {τ κ : Type*} : LockEvent τ κ → τ
  | .call t _ => t
  | .run t => t

/-- Thread `t` goes on where it is. -/
def LockEvent.isRun {τ κ : Type*} [DecidableEq τ] (t : τ) : LockEvent τ κ → Bool
  | .call _ _ => false
  | .run u => decide (u = t)

namespace LockState

variable {τ κ : Type*} [DecidableEq τ] [DecidableEq κ]

/-! ## What a step can do -/

/-- Where `Signal` goes on when it is done: to its caller. -/
def afterSignal : Option κ → Pc κ
  | none => .out
  | some c => .broadcast c

/-- Everything a step can do, case by case. -/
inductive Moves (s : LockState τ κ) : LockEvent τ κ → LockState τ κ → Prop where
  /-- An operation that the holder only may call fails its assertion. -/
  | notHeld (e : LockEvent τ κ) (t : τ) (hnot : s.lock.lockHolder ≠ some t)
      (he : (∃ c, e = .call t c) ∨ e = .run t ∧ ∃ c, s.pc t = .broadcast c) : Moves s e s.abort
  /-- A deleted semaphore is used. -/
  | dangling (t : τ) (w : SemId) (hpc : s.pc t = .waiting w ∨ ∃ b, s.pc t = .signal w b)
      (hsem : s.sems w = none) : Moves s (.run t) s.abort
  | callAcquire (t : τ) (hpc : s.pc t = .out) :
      Moves s (.call t .acquire) (s.goto t (.acquire none))
  | callRelease (t : τ) (hpc : s.pc t = .out) (hheld : s.lock.lockHolder = some t) :
      Moves s (.call t .release)
        { s.goto t (.release none) with lock := { s.lock with lockHolder := none } }
  | wait (t : τ) (c : κ) (hpc : s.pc t = .out) (hheld : s.lock.lockHolder = some t) :
      Moves s (.call t (.wait c))
        { s.goto t (.release (some s.nextSem)) with
          lock := { s.lock with lockHolder := none }
          sems := Function.update s.sems s.nextSem (some (.new 0))
          nextSem := s.nextSem + 1
          waitQueue := Function.update s.waitQueue c (s.waitQueue c ++ [s.nextSem]) }
  | signalNobody (t : τ) (c : κ) (hpc : s.pc t = .out) (hheld : s.lock.lockHolder = some t)
      (hq : s.waitQueue c = []) : Moves s (.call t (.signal c)) (s.goto t .out)
  | callBroadcast (t : τ) (c : κ) (hpc : s.pc t = .out) :
      Moves s (.call t (.broadcast c)) (s.goto t (.broadcast c))
  | lockSleep (t : τ) (w : Option SemId) (hpc : s.pc t = .acquire w)
      (hawake : t ∉ s.lock.semaphore.queue) (hv : s.lock.semaphore.value = 0) :
      Moves s (.run t) { s with lock := { s.lock with
        semaphore := { s.lock.semaphore with queue := s.lock.semaphore.queue ++ [t] } } }
  | lockTake (t : τ) (w : Option SemId) (hpc : s.pc t = .acquire w)
      (hv : s.lock.semaphore.value ≠ 0) :
      Moves s (.run t)
        { s.goto t (.acquired w) with
          lock := { s.lock with
            semaphore :=
              { s.lock.semaphore with value := toInt32 (s.lock.semaphore.value - 1) } }
          owners := insert t s.owners }
  | acquired (t : τ) (w : Option SemId) (hpc : s.pc t = .acquired w) :
      Moves s (.run t) (s.acquireRest t w)
  | released (t : τ) (w : Option SemId) (hpc : s.pc t = .release w) :
      Moves s (.run t) (s.releaseV t w)
  | waiterSleep (t : τ) (w : SemId) (sem : Semaphore τ) (hpc : s.pc t = .waiting w)
      (hsem : s.sems w = some sem) (hawake : t ∉ sem.queue) (hv : sem.value = 0) :
      Moves s (.run t)
        { s with sems := Function.update s.sems w (some { sem with queue := sem.queue ++ [t] }) }
  | waiterTake (t : τ) (w : SemId) (sem : Semaphore τ) (hpc : s.pc t = .waiting w)
      (hsem : s.sems w = some sem) (hawake : t ∉ sem.queue) (hv : sem.value ≠ 0) :
      Moves s (.run t)
        { s.goto t (.acquire (some w)) with
          sems := Function.update s.sems w (some { sem with value := toInt32 (sem.value - 1) }) }
  | take (e : LockEvent τ κ) (t : τ) (c : κ) (b : Option κ) (w : SemId) (rest : List SemId)
      (he : e = .call t (.signal c) ∧ b = none ∨ e = .run t ∧ b = some c)
      (hpc : s.pc t = afterSignal b) (hheld : s.lock.lockHolder = some t)
      (hq : s.waitQueue c = w :: rest) :
      Moves s e
        { s.goto t (.signal w b) with waitQueue := Function.update s.waitQueue c rest }
  | post (t : τ) (w : SemId) (b : Option κ) (sem : Semaphore τ) (hpc : s.pc t = .signal w b)
      (hsem : s.sems w = some sem) :
      Moves s (.run t)
        { s.goto t (afterSignal b) with sems := Function.update s.sems w (some sem.v) }
  | broadcastDone (t : τ) (c : κ) (hpc : s.pc t = .broadcast c) (hq : s.waitQueue c = []) :
      Moves s (.run t) (s.goto t .out)

omit [DecidableEq κ] in
theorem isHeldBy_iff {s : LockState τ κ} {t : τ} :
    s.isHeldBy t = true ↔ s.lock.lockHolder = some t := by
  simp [isHeldBy]

omit [DecidableEq κ] in
theorem not_isHeldBy_iff {s : LockState τ κ} {t : τ} :
    ¬ s.isHeldBy t = true ↔ s.lock.lockHolder ≠ some t := by
  rw [isHeldBy_iff]

theorem moves_signal {s : LockState τ κ} {e : LockEvent τ κ} {t : τ} {c : κ} {b : Option κ}
    (he : e = .call t (.signal c) ∧ b = none ∨ e = .run t ∧ b = some c)
    (hpc : s.pc t = afterSignal b) (hempty : b = some c → s.waitQueue c ≠ []) :
    s.Moves e (s.signal t c b) := by
  unfold signal
  split
  · next hheld =>
    rw [isHeldBy_iff] at hheld
    split
    · next hq =>
      rcases he with ⟨rfl, rfl⟩ | ⟨rfl, rfl⟩
      · exact .signalNobody t c hpc hheld hq
      · exact absurd hq (hempty rfl)
    · next w rest hq => exact .take e t c b w rest he hpc hheld hq
  · next hnot =>
    refine .notHeld e t (not_isHeldBy_iff.mp hnot) ?_
    rcases he with ⟨rfl, -⟩ | ⟨rfl, rfl⟩
    · exact Or.inl ⟨_, rfl⟩
    · exact Or.inr ⟨rfl, c, hpc⟩

theorem moves_doCall {s : LockState τ κ} {t : τ} (hpc : s.pc t = .out) (c : Call κ) :
    s.Moves (.call t c) (s.doCall t c) := by
  cases c with
  | acquire => exact .callAcquire t hpc
  | release =>
    simp only [doCall, releaseAssert]
    split
    · next hheld => exact .callRelease t hpc (isHeldBy_iff.mp hheld)
    · next hnot => exact .notHeld _ t (not_isHeldBy_iff.mp hnot) (Or.inl ⟨_, rfl⟩)
  | wait c =>
    simp only [doCall, wait]
    split
    · next hheld =>
      have hheld' := isHeldBy_iff.mp hheld
      unfold releaseAssert
      rw [if_pos (by simpa [isHeldBy] using hheld')]
      exact .wait t c hpc hheld'
    · next hnot => exact .notHeld _ t (not_isHeldBy_iff.mp hnot) (Or.inl ⟨_, rfl⟩)
  | signal c =>
    exact moves_signal (Or.inl ⟨rfl, rfl⟩) hpc (by simp)
  | broadcast c => exact .callBroadcast t c hpc

theorem moves_doRun {s s' : LockState τ κ} {t : τ} (hawake : s.asleep t = false)
    (h : s.doRun t = some s') : s.Moves (.run t) s' := by
  unfold doRun at h
  unfold asleep at hawake
  cases hpc : s.pc t with
  | out => rw [hpc] at h; cases h
  | acquire w =>
    rw [hpc] at h hawake
    obtain rfl := Option.some.inj h
    unfold acquireP
    by_cases hv : s.lock.semaphore.value = 0
    · rw [Semaphore.p_of_zero hv]
      exact .lockSleep t w hpc (of_decide_eq_false hawake) hv
    · rw [Semaphore.p_of_ne_zero hv]
      exact .lockTake t w hpc hv
  | acquired w =>
    rw [hpc] at h
    obtain rfl := Option.some.inj h
    exact .acquired t w hpc
  | release w =>
    rw [hpc] at h
    obtain rfl := Option.some.inj h
    exact .released t w hpc
  | waiting w =>
    rw [hpc] at h hawake
    obtain rfl := Option.some.inj h
    unfold waitP
    cases hsem : s.sems w with
    | none => exact .dangling t w (Or.inl hpc) hsem
    | some sem =>
      have hnot : t ∉ sem.queue := by
        simpa [hsem] using hawake
      by_cases hv : sem.value = 0
      · simp only [Semaphore.p_of_zero hv]
        exact .waiterSleep t w sem hpc hsem hnot hv
      · simp only [Semaphore.p_of_ne_zero hv]
        exact .waiterTake t w sem hpc hsem hnot hv
  | signal w b =>
    rw [hpc] at h
    obtain rfl := Option.some.inj h
    unfold signalV
    cases hsem : s.sems w with
    | none => exact .dangling t w (Or.inr ⟨b, hpc⟩) hsem
    | some sem => cases b <;> exact .post t w _ sem hpc hsem
  | broadcast c =>
    rw [hpc] at h
    obtain rfl := Option.some.inj h
    unfold broadcast
    split
    · next hq => exact .broadcastDone t c hpc hq
    · next hq =>
      exact moves_signal (Or.inr ⟨rfl, rfl⟩) hpc (fun _ => by rw [hq]; simp)

theorem moves_of_step {s s' : LockState τ κ} {e : LockEvent τ κ} (h : s.step e = some s') :
    s.Moves e s' := by
  cases e with
  | call t c =>
    simp only [step] at h
    split at h
    · next hen =>
      obtain rfl := Option.some.inj h
      exact moves_doCall hen.2 c
    · cases h
  | run t =>
    simp only [step] at h
    split at h
    · next hen => exact moves_doRun hen.2 h
    · cases h

/-- A step of one thread does not move the others. -/
theorem step_pc_others {s s' : LockState τ κ} {e : LockEvent τ κ} {u : τ}
    (h : s.step e = some s') (hu : e.thread ≠ u) : s'.pc u = s.pc u := by
  have hne : u ≠ e.thread := Ne.symm hu
  cases moves_of_step h with
  | notHeld => rfl
  | dangling => rfl
  | lockSleep => rfl
  | waiterSleep => rfl
  | take e t c b w rest he =>
    rcases he with ⟨rfl, -⟩ | ⟨rfl, -⟩ <;> exact Function.update_of_ne hne ..
  | _ => exact Function.update_of_ne hne ..

/-! ## The life of a private semaphore -/

/--
Where the private semaphore `w` is in its life.

In every stage it is said which threads are busy with `w`: its waiter `t`, and the signaller `u`
between `RemoveFront` and `V`.
-/
inductive Stage (s : LockState τ κ) (w : SemId) : Prop where
  /-- Not allocated yet, or deleted. -/
  | unused (hsem : s.sems w = none) (hq : ∀ c, w ∉ s.waitQueue c)
      (honly : ∀ v, (s.pc v).sem? ≠ some w)
  /-- In the queue of `c`. The waiter may not have got to its `P`. -/
  | queued (t : τ) (c : κ) (sem : Semaphore τ) (hsem : s.sems w = some sem)
      (hv : sem.value = 0) (hqueue : sem.queue = [] ∨ sem.queue = [t])
      (hq : ∀ d, w ∈ s.waitQueue d ↔ d = c)
      (hpc : s.pc t = .release (some w) ∨ s.pc t = .waiting w)
      (honly : ∀ v, (s.pc v).sem? = some w → v = t)
  /-- Off the queue, before the `V` of the signaller. -/
  | signalling (t u : τ) (b : Option κ) (sem : Semaphore τ) (hsem : s.sems w = some sem)
      (hv : sem.value = 0) (hqueue : sem.queue = [] ∨ sem.queue = [t])
      (hq : ∀ c, w ∉ s.waitQueue c) (hpc : s.pc t = .waiting w) (hsig : s.pc u = .signal w b)
      (honly : ∀ v, (s.pc v).sem? = some w → v = t ∨ v = u)
  /-- After the `V`: the waiter can go on. -/
  | ready (t : τ) (sem : Semaphore τ) (hsem : s.sems w = some sem) (hv : sem.value = 1)
      (hqueue : sem.queue = []) (hq : ∀ c, w ∉ s.waitQueue c) (hpc : s.pc t = .waiting w)
      (honly : ∀ v, (s.pc v).sem? = some w → v = t)
  /-- The waiter is back from its `P` and acquires the lock. -/
  | back (t : τ) (sem : Semaphore τ) (hsem : s.sems w = some sem)
      (hq : ∀ c, w ∉ s.waitQueue c)
      (hpc : s.pc t = .acquire (some w) ∨ s.pc t = .acquired (some w))
      (honly : ∀ v, (s.pc v).sem? = some w → v = t)

omit [DecidableEq τ] [DecidableEq κ] in
/-- A step that does nothing about `w` leaves it in its stage. -/
theorem Stage.frame {s s' : LockState τ κ} {w : SemId} (h : Stage s w)
    (hsem : s'.sems w = s.sems w) (hq : ∀ c, w ∈ s'.waitQueue c ↔ w ∈ s.waitQueue c)
    (hpc : ∀ v, s'.pc v = s.pc v ∨ (s.pc v).sem? ≠ some w ∧ (s'.pc v).sem? ≠ some w) :
    Stage s' w := by
  have hmention : ∀ v, (s'.pc v).sem? = some w → (s.pc v).sem? = some w := by
    intro v hv
    rcases hpc v with heq | ⟨-, hnew⟩
    · rwa [heq] at hv
    · exact absurd hv hnew
  have hkeep : ∀ v, (s.pc v).sem? = some w → s'.pc v = s.pc v := by
    intro v hv
    rcases hpc v with heq | ⟨hold, -⟩
    · exact heq
    · exact absurd hv hold
  cases h with
  | unused h1 h2 h3 =>
    refine .unused (hsem.trans h1) (fun c => ?_) fun v hv => h3 v (hmention v hv)
    rw [hq]
    exact h2 c
  | queued t c sem h1 h2 h3 h4 h5 h6 =>
    have ht : s'.pc t = s.pc t := hkeep t (by rcases h5 with h5 | h5 <;> rw [h5] <;> rfl)
    refine .queued t c sem (hsem.trans h1) h2 h3 (fun d => (hq d).trans (h4 d)) ?_
      fun v hv => h6 v (hmention v hv)
    rwa [ht]
  | signalling t u b sem h1 h2 h3 h4 h5 h6 h7 =>
    refine .signalling t u b sem (hsem.trans h1) h2 h3 (fun c => ?_) ?_ ?_
      fun v hv => h7 v (hmention v hv)
    · rw [hq]
      exact h4 c
    · rw [hkeep t (by rw [h5]; rfl), h5]
    · rw [hkeep u (by rw [h6]; rfl), h6]
  | ready t sem h1 h2 h3 h4 h5 h6 =>
    refine .ready t sem (hsem.trans h1) h2 h3 (fun c => ?_) ?_ fun v hv => h6 v (hmention v hv)
    · rw [hq]
      exact h4 c
    · rw [hkeep t (by rw [h5]; rfl), h5]
  | back t sem h1 h2 h3 h4 =>
    have ht : s'.pc t = s.pc t := hkeep t (by rcases h3 with h3 | h3 <;> rw [h3] <;> rfl)
    refine .back t sem (hsem.trans h1) (fun c => ?_) ?_ fun v hv => h4 v (hmention v hv)
    · rw [hq]
      exact h2 c
    · rwa [ht]

/-! ### The stage of the semaphore that a thread is busy with -/

section Places

variable {s : LockState τ κ} {t : τ} {w : SemId}

section

omit [DecidableEq τ] [DecidableEq κ]

theorem Stage.of_release (h : Stage s w) (hpc : s.pc t = .release (some w)) :
    ∃ c sem, s.sems w = some sem ∧ sem.value = 0 ∧ (sem.queue = [] ∨ sem.queue = [t]) ∧
      (∀ d, w ∈ s.waitQueue d ↔ d = c) ∧ ∀ v, (s.pc v).sem? = some w → v = t := by
  have hbusy : (s.pc t).sem? = some w := by rw [hpc]; rfl
  cases h with
  | unused _ _ honly => exact absurd hbusy (honly t)
  | queued t' c sem hsem hv hqueue hq _ honly =>
    obtain rfl := honly t hbusy
    exact ⟨c, sem, hsem, hv, hqueue, hq, honly⟩
  | signalling t' u b sem _ _ _ _ hpc' hsig honly =>
    rcases honly t hbusy with rfl | rfl
    · rw [hpc] at hpc'; cases hpc'
    · rw [hpc] at hsig; cases hsig
  | ready t' sem _ _ _ _ hpc' honly =>
    obtain rfl := honly t hbusy
    rw [hpc] at hpc'
    cases hpc'
  | back t' sem _ _ hpc' honly =>
    obtain rfl := honly t hbusy
    rw [hpc] at hpc'
    rcases hpc' with hpc' | hpc' <;> cases hpc'

theorem Stage.of_back (h : Stage s w)
    (hpc : s.pc t = .acquire (some w) ∨ s.pc t = .acquired (some w)) :
    ∃ sem, s.sems w = some sem ∧ (∀ c, w ∉ s.waitQueue c) ∧
      ∀ v, (s.pc v).sem? = some w → v = t := by
  have hbusy : (s.pc t).sem? = some w := by rcases hpc with hpc | hpc <;> rw [hpc] <;> rfl
  have hother : s.pc t ≠ .waiting w ∧ s.pc t ≠ .release (some w) ∧ ∀ b, s.pc t ≠ .signal w b := by
    rcases hpc with hpc | hpc <;> simp [hpc]
  cases h with
  | unused _ _ honly => exact absurd hbusy (honly t)
  | queued t' c sem _ _ _ _ hpc' honly =>
    obtain rfl := honly t hbusy
    rcases hpc' with hpc' | hpc'
    · exact absurd hpc' hother.2.1
    · exact absurd hpc' hother.1
  | signalling t' u b sem _ _ _ _ hpc' hsig honly =>
    rcases honly t hbusy with rfl | rfl
    · exact absurd hpc' hother.1
    · exact absurd hsig (hother.2.2 b)
  | ready t' sem _ _ _ _ hpc' honly =>
    obtain rfl := honly t hbusy
    exact absurd hpc' hother.1
  | back t' sem hsem hq _ honly =>
    obtain rfl := honly t hbusy
    exact ⟨sem, hsem, hq, honly⟩

/-- The stages of a semaphore whose waiter is in its `P`. -/
theorem Stage.of_waiting (h : Stage s w) (hpc : s.pc t = .waiting w) :
    ∃ sem, s.sems w = some sem ∧
      ((sem.value = 0 ∧ (sem.queue = [] ∨ sem.queue = [t]) ∧
          ((∃ c, (∀ d, w ∈ s.waitQueue d ↔ d = c) ∧ ∀ v, (s.pc v).sem? = some w → v = t) ∨
            ∃ u b, (∀ c, w ∉ s.waitQueue c) ∧ s.pc u = .signal w b ∧
              ∀ v, (s.pc v).sem? = some w → v = t ∨ v = u)) ∨
        (sem.value = 1 ∧ sem.queue = [] ∧ (∀ c, w ∉ s.waitQueue c) ∧
          ∀ v, (s.pc v).sem? = some w → v = t)) := by
  have hbusy : (s.pc t).sem? = some w := by rw [hpc]; rfl
  cases h with
  | unused _ _ honly => exact absurd hbusy (honly t)
  | queued t' c sem hsem hv hqueue hq _ honly =>
    obtain rfl := honly t hbusy
    exact ⟨sem, hsem, Or.inl ⟨hv, hqueue, Or.inl ⟨c, hq, honly⟩⟩⟩
  | signalling t' u b sem hsem hv hqueue hq hpc' hsig honly =>
    rcases honly t hbusy with rfl | rfl
    · exact ⟨sem, hsem, Or.inl ⟨hv, hqueue, Or.inr ⟨u, b, hq, hsig, honly⟩⟩⟩
    · rw [hpc] at hsig
      cases hsig
  | ready t' sem hsem hv hqueue hq hpc' honly =>
    obtain rfl := honly t hbusy
    exact ⟨sem, hsem, Or.inr ⟨hv, hqueue, hq, honly⟩⟩
  | back t' sem _ _ hpc' honly =>
    obtain rfl := honly t hbusy
    rw [hpc] at hpc'
    rcases hpc' with hpc' | hpc' <;> cases hpc'

theorem Stage.of_signal {b : Option κ} (h : Stage s w) (hpc : s.pc t = .signal w b) :
    ∃ u sem, s.sems w = some sem ∧ sem.value = 0 ∧ (sem.queue = [] ∨ sem.queue = [u]) ∧
      (∀ c, w ∉ s.waitQueue c) ∧ s.pc u = .waiting w ∧
      ∀ v, (s.pc v).sem? = some w → v = u ∨ v = t := by
  have hbusy : (s.pc t).sem? = some w := by rw [hpc]; rfl
  cases h with
  | unused _ _ honly => exact absurd hbusy (honly t)
  | queued t' c sem _ _ _ _ hpc' honly =>
    obtain rfl := honly t hbusy
    rw [hpc] at hpc'
    rcases hpc' with hpc' | hpc' <;> cases hpc'
  | signalling t' u b' sem hsem hv hqueue hq hpc' hsig honly =>
    rcases honly t hbusy with rfl | rfl
    · rw [hpc] at hpc'
      cases hpc'
    · exact ⟨t', sem, hsem, hv, hqueue, hq, hpc', honly⟩
  | ready t' sem _ _ _ _ hpc' honly =>
    obtain rfl := honly t hbusy
    rw [hpc] at hpc'
    cases hpc'
  | back t' sem _ _ hpc' honly =>
    obtain rfl := honly t hbusy
    rw [hpc] at hpc'
    rcases hpc' with hpc' | hpc' <;> cases hpc'

theorem Stage.of_mem {c : κ} (h : Stage s w) (hw : w ∈ s.waitQueue c) :
    ∃ u sem, s.sems w = some sem ∧ sem.value = 0 ∧ (sem.queue = [] ∨ sem.queue = [u]) ∧
      (∀ d, w ∈ s.waitQueue d ↔ d = c) ∧
      (s.pc u = .release (some w) ∨ s.pc u = .waiting w) ∧
      ∀ v, (s.pc v).sem? = some w → v = u := by
  cases h with
  | unused _ hq _ => exact absurd hw (hq c)
  | queued u c' sem hsem hv hqueue hq hpc honly =>
    obtain rfl := (hq c).mp hw
    exact ⟨u, sem, hsem, hv, hqueue, hq, hpc, honly⟩
  | signalling _ _ _ _ _ _ _ hq => exact absurd hw (hq c)
  | ready _ _ _ _ _ hq => exact absurd hw (hq c)
  | back _ _ _ hq => exact absurd hw (hq c)

end

end Places

/-! ## The invariant -/

/-- What holds of the condition variables, whatever the threads do. -/
structure CondInv (s : LockState τ κ) : Prop where
  stage : ∀ w, Stage s w
  fresh : ∀ w, s.nextSem ≤ w → s.sems w = none
  order : ∀ c, (s.waitQueue c).Pairwise (· < ·)
  signaller : ∀ t w b, s.pc t = .signal w b → s.lock.lockHolder = some t

omit [DecidableEq τ] [DecidableEq κ] in
theorem condInv_start : CondInv (start : LockState τ κ) where
  stage := fun w => .unused rfl (by simp [start]) (by simp [start, Pc.sem?])
  fresh := fun _ _ => rfl
  order := fun _ => List.Pairwise.nil
  signaller := by simp [start]

omit [DecidableEq κ] in
/-- A thread goes from a place to another, and is busy with `w` in neither. -/
theorem update_frame {pcs : τ → Pc κ} {t : τ} {pc : Pc κ} {w : SemId}
    (hold : (pcs t).sem? ≠ some w) (hnew : pc.sem? ≠ some w) (v : τ) :
    Function.update pcs t pc v = pcs v ∨
      (pcs v).sem? ≠ some w ∧ (Function.update pcs t pc v).sem? ≠ some w := by
  by_cases hv : v = t
  · rw [hv, Function.update_self]
    exact Or.inr ⟨hold, hnew⟩
  · exact Or.inl (Function.update_of_ne hv _ _)

omit [DecidableEq κ] in
/-- Who is busy with `w` after a step of `t` that leaves it busy with `w`. -/
theorem update_only {pcs : τ → Pc κ} {t : τ} {pc : Pc κ} {w : SemId}
    (honly : ∀ v, (pcs v).sem? = some w → v = t) (v : τ)
    (hv : (Function.update pcs t pc v).sem? = some w) : v = t := by
  by_contra hne
  rw [Function.update_of_ne hne] at hv
  exact hne (honly v hv)

/-! ### Steps that leave the semaphores alone -/

section Steps

variable {s s' : LockState τ κ} {t : τ}

section

omit [DecidableEq κ]

/-- The holder stays, and the thread that acts does not begin to signal. -/
theorem CondInv.signaller_update (h : CondInv s) {pc : Pc κ}
    (hpc : s'.pc = Function.update s.pc t pc) (hholder : s'.lock.lockHolder = s.lock.lockHolder)
    (hnew : ∀ w b, pc ≠ .signal w b) (u : τ) (w : SemId) (b : Option κ)
    (hu : s'.pc u = .signal w b) : s'.lock.lockHolder = some u := by
  rw [hpc] at hu
  by_cases hut : u = t
  · rw [hut, Function.update_self] at hu
    exact absurd hu (hnew w b)
  · rw [Function.update_of_ne hut] at hu
    rw [hholder]
    exact h.signaller u w b hu

omit [DecidableEq τ] in
/-- The one who signals owns the lock, so nobody signals when another thread owns it. -/
theorem CondInv.not_signal (h : CondInv s) (hinv : Inv s) (howner : t ∈ s.owners)
    (hpc : ∀ w b, s.pc t ≠ .signal w b) (u : τ) (w : SemId) (b : Option κ) :
    s.pc u ≠ .signal w b := by
  intro hu
  have hown := (hinv.holder u (h.signaller u w b hu)).1
  obtain rfl := hinv.owner_unique hown howner
  exact hpc w b hu

/-- Nobody signals before the step, and the thread that acts does not begin to. -/
theorem not_signal_update {pc : Pc κ} (hnone : ∀ u w b, s.pc u ≠ .signal w b)
    (hpc : s'.pc = Function.update s.pc t pc) (hnew : ∀ w b, pc ≠ .signal w b) (u : τ) (w : SemId)
    (b : Option κ) (hu : s'.pc u = .signal w b) : s'.lock.lockHolder = some u := by
  rw [hpc] at hu
  by_cases hut : u = t
  · rw [hut, Function.update_self] at hu
    exact absurd hu (hnew w b)
  · rw [Function.update_of_ne hut] at hu
    exact absurd hu (hnone u w b)

/-- A thread that is busy with no private semaphore, before and after. -/
theorem CondInv.quiet (h : CondInv s) (pc : Pc κ) (hsems : s'.sems = s.sems)
    (hqueue : s'.waitQueue = s.waitQueue) (hnext : s'.nextSem = s.nextSem)
    (hpc : s'.pc = Function.update s.pc t pc) (hold : (s.pc t).sem? = none)
    (hnew : pc.sem? = none)
    (hsig : ∀ u w b, s'.pc u = .signal w b → s'.lock.lockHolder = some u) : CondInv s' := by
  refine ⟨fun w => (h.stage w).frame (by rw [hsems]) (fun c => by rw [hqueue]) ?_, ?_, ?_, hsig⟩
  · rw [hpc]
    exact update_frame (by rw [hold]; simp) (by rw [hnew]; simp)
  · rw [hnext, hsems]
    exact h.fresh
  · rw [hqueue]
    exact h.order

/-- A thread takes the lock's semaphore, or gives it back. In `Wait` it is busy with `w` then. -/
theorem CondInv.same_sem (h : CondInv s) (pc : Pc κ) (hsems : s'.sems = s.sems)
    (hqueue : s'.waitQueue = s.waitQueue) (hnext : s'.nextSem = s.nextSem)
    (hpc : s'.pc = Function.update s.pc t pc) (hsame : pc.sem? = (s.pc t).sem?)
    (hstage : ∀ w, pc.sem? = some w → Stage s' w)
    (hsig : ∀ u w b, s'.pc u = .signal w b → s'.lock.lockHolder = some u) : CondInv s' := by
  refine ⟨fun w => ?_, ?_, ?_, hsig⟩
  · by_cases hw : pc.sem? = some w
    · exact hstage w hw
    · refine (h.stage w).frame (by rw [hsems]) (fun c => by rw [hqueue]) ?_
      rw [hpc]
      exact update_frame (by rw [← hsame]; exact hw) hw
  · rw [hnext, hsems]
    exact h.fresh
  · rw [hqueue]
    exact h.order

theorem CondInv.lockTake (h : CondInv s) {w : Option SemId} (hpc : s.pc t = .acquire w)
    (hsems : s'.sems = s.sems) (hqueue : s'.waitQueue = s.waitQueue)
    (hnext : s'.nextSem = s.nextSem) (hholder : s'.lock.lockHolder = s.lock.lockHolder)
    (hpc' : s'.pc = Function.update s.pc t (.acquired w)) : CondInv s' := by
  refine h.same_sem (.acquired w) hsems hqueue hnext hpc' (by rw [hpc]; rfl) (fun x hx => ?_)
    (h.signaller_update hpc' hholder (by simp))
  obtain rfl : w = some x := hx
  obtain ⟨sem, hsem, hq, honly⟩ := (h.stage x).of_back (Or.inl hpc)
  refine .back t sem (by rw [hsems]; exact hsem) (by rw [hqueue]; exact hq) (Or.inr ?_) ?_
  · rw [hpc', Function.update_self]
  · rw [hpc']
    exact update_only honly

theorem CondInv.released (h : CondInv s) {w : Option SemId} (hpc : s.pc t = .release w) :
    CondInv (s.releaseV t w) := by
  cases w with
  | none =>
    exact h.quiet .out rfl rfl rfl rfl (by rw [hpc]; rfl) rfl
      (h.signaller_update rfl rfl (by simp))
  | some x =>
    refine h.same_sem (.waiting x) rfl rfl rfl rfl (by rw [hpc]; rfl) (fun y hy => ?_)
      (h.signaller_update rfl rfl (by simp))
    obtain rfl : x = y := Option.some.inj hy
    obtain ⟨c, sem, hsem, hv, hqueue, hq, honly⟩ := (h.stage x).of_release hpc
    exact .queued t c sem hsem hv hqueue hq (Or.inr (Function.update_self ..)) (update_only honly)

end

/-! ### Steps on a private semaphore -/

omit [DecidableEq κ] in
/-- The end of `Acquire`. In `Wait` the private semaphore is deleted, and nobody uses it. -/
theorem CondInv.acquired (h : CondInv s) (hinv : Inv s) {w : Option SemId}
    (hpc : s.pc t = .acquired w) : CondInv (s.acquireRest t w) := by
  have howner : t ∈ s.owners := hinv.transient t (by rw [hpc]; rfl)
  have hnone := h.not_signal hinv howner (by simp [hpc])
  have hsig : ∀ u y b, (s.acquireRest t w).pc u = .signal y b →
      (s.acquireRest t w).lock.lockHolder = some u := not_signal_update hnone rfl (by simp)
  cases w with
  | none => exact h.quiet .out rfl rfl rfl rfl (by rw [hpc]; rfl) rfl hsig
  | some x =>
    have hsems : ∀ y, (s.acquireRest t (some x)).sems y = if y = x then none else s.sems y := by
      intro y
      simp [acquireRest, Function.update_apply]
    refine ⟨fun y => ?_, fun y hy => ?_, h.order, hsig⟩
    · by_cases hyx : y = x
      · obtain ⟨sem, hsem, hq, honly⟩ := (h.stage x).of_back (Or.inr hpc)
        rw [hyx]
        refine .unused (by rw [hsems, if_pos rfl]) hq ?_
        intro v hv
        obtain rfl := update_only honly v hv
        simp [acquireRest, goto, Pc.sem?] at hv
      · refine (h.stage y).frame (by rw [hsems, if_neg hyx]) (fun c => Iff.rfl) ?_
        exact update_frame (by rw [hpc]; simpa [Pc.sem?] using Ne.symm hyx) (by simp [Pc.sem?])
    · rw [hsems]
      split
      · rfl
      · exact h.fresh y hy

/-- `Wait` allocates a semaphore that nobody knows yet and queues it behind all others. -/
theorem CondInv.wait (h : CondInv s) (hinv : Inv s) {c : κ} (hpc : s.pc t = .out)
    (hheld : s.lock.lockHolder = some t)
    (hsems : s'.sems = Function.update s.sems s.nextSem (some (.new 0)))
    (hnext : s'.nextSem = s.nextSem + 1)
    (hqueue : s'.waitQueue = Function.update s.waitQueue c (s.waitQueue c ++ [s.nextSem]))
    (hpc' : s'.pc = Function.update s.pc t (.release (some s.nextSem))) : CondInv s' := by
  have hnone := h.not_signal hinv (hinv.holder t hheld).1 (by simp [hpc])
  have hmem : ∀ y d, y ∈ s'.waitQueue d ↔ y ∈ s.waitQueue d ∨ (d = c ∧ y = s.nextSem) := by
    intro y d
    rw [hqueue]
    by_cases hd : d = c
    · rw [hd, Function.update_self]
      simp
    · rw [Function.update_of_ne hd]
      simp [hd]
  -- semaphores are numbered as they are allocated, so the new one comes last in every order
  have hlt : ∀ y d, y ∈ s.waitQueue d → y < s.nextSem := by
    intro y d hy
    obtain ⟨_, sem, hsem, -⟩ := (h.stage y).of_mem hy
    by_contra hge
    rw [h.fresh y (not_lt.mp hge)] at hsem
    cases hsem
  -- only in the stage `unused` is a semaphore not allocated
  obtain ⟨hno, hnobody⟩ : (∀ d, s.nextSem ∉ s.waitQueue d) ∧
      ∀ v, (s.pc v).sem? ≠ some s.nextSem := by
    have hsem := h.fresh s.nextSem (le_refl _)
    cases h.stage s.nextSem with
    | unused _ hq honly => exact ⟨hq, honly⟩
    | queued _ _ _ hsem' => rw [hsem] at hsem'; cases hsem'
    | signalling _ _ _ _ hsem' => rw [hsem] at hsem'; cases hsem'
    | ready _ _ hsem' => rw [hsem] at hsem'; cases hsem'
    | back _ _ hsem' => rw [hsem] at hsem'; cases hsem'
  refine ⟨fun y => ?_, fun y hy => ?_, fun d => ?_, not_signal_update hnone hpc' (by simp)⟩
  · by_cases hy : y = s.nextSem
    · rw [hy]
      refine .queued t c (.new 0) (by rw [hsems, Function.update_self]) rfl (Or.inl rfl)
        (fun d => ?_) (Or.inl (by rw [hpc', Function.update_self])) ?_
      · rw [hmem]
        simp [hno d]
      · rw [hpc']
        exact update_only fun v hv => absurd hv (hnobody v)
    · refine (h.stage y).frame (by rw [hsems, Function.update_of_ne hy]) (fun d => ?_) ?_
      · rw [hmem]
        simp [hy]
      · rw [hpc']
        exact update_frame (by simp [hpc, Pc.sem?]) (by simpa [Pc.sem?] using Ne.symm hy)
  · rw [hnext] at hy
    have hlt' : s.nextSem < y := Nat.lt_of_succ_le hy
    rw [hsems, Function.update_of_ne hlt'.ne']
    exact h.fresh y hlt'.le
  · rw [hqueue]
    by_cases hd : d = c
    · rw [hd, Function.update_self, List.pairwise_append]
      refine ⟨h.order c, List.pairwise_singleton _ _, fun y hy z hz => ?_⟩
      rw [List.mem_singleton.mp hz]
      exact hlt y c hy
    · rw [Function.update_of_ne hd]
      exact h.order d

omit [DecidableEq κ] in
/-- A waiter finds no signal yet and goes to sleep on its semaphore. -/
theorem CondInv.waiterSleep (h : CondInv s) {w : SemId} {sem : Semaphore τ}
    (hpc : s.pc t = .waiting w) (hsem : s.sems w = some sem) (hawake : t ∉ sem.queue)
    (hv : sem.value = 0) :
    CondInv { s with
      sems := Function.update s.sems w (some { sem with queue := sem.queue ++ [t] }) } := by
  refine ⟨fun y => ?_, fun y hy => ?_, h.order, h.signaller⟩
  · by_cases hy : y = w
    · rw [hy]
      obtain ⟨sem', hsem', hst⟩ := (h.stage w).of_waiting hpc
      obtain rfl : sem = sem' := Option.some.inj (hsem.symm.trans hsem')
      -- nobody but its waiter sleeps on a private semaphore
      have hempty : sem.queue ++ [t] = [] ∨ sem.queue ++ [t] = [t] := by
        rcases hst with ⟨-, hq | hq, -⟩ | ⟨hv', -⟩
        · exact Or.inr (by rw [hq]; rfl)
        · exact absurd (by simp [hq]) hawake
        · omega
      rcases hst with ⟨-, -, ⟨c, hq, honly⟩ | ⟨u, b, hq, hsig, honly⟩⟩ | ⟨hv', -⟩
      · exact .queued t c _ (Function.update_self ..) hv hempty hq (Or.inr hpc) honly
      · exact .signalling t u b _ (Function.update_self ..) hv hempty hq hpc hsig honly
      · omega
    · exact (h.stage y).frame (Function.update_of_ne hy ..) (fun c => Iff.rfl) fun v => Or.inl rfl
  · show Function.update s.sems w _ y = none
    rw [Function.update_of_ne]
    · exact h.fresh y hy
    · rintro rfl
      rw [h.fresh y hy] at hsem
      cases hsem

omit [DecidableEq κ] in
/-- A waiter takes the signal. -/
theorem CondInv.waiterTake (h : CondInv s) {w : SemId} {sem sem' : Semaphore τ}
    (hpc : s.pc t = .waiting w) (hsem : s.sems w = some sem) (hv : sem.value ≠ 0) :
    CondInv { s.goto t (.acquire (some w)) with
      sems := Function.update s.sems w (some sem') } := by
  refine ⟨fun y => ?_, fun y hy => ?_, h.order, h.signaller_update rfl rfl (by simp)⟩
  · by_cases hy : y = w
    · rw [hy]
      obtain ⟨sem₀, hsem₀, hst⟩ := (h.stage w).of_waiting hpc
      obtain rfl : sem = sem₀ := Option.some.inj (hsem.symm.trans hsem₀)
      rcases hst with ⟨hv', -⟩ | ⟨-, -, hq, honly⟩
      · exact absurd hv' hv
      · exact .back t sem' (Function.update_self ..) hq (Or.inl (Function.update_self ..))
          (update_only honly)
    · refine (h.stage y).frame (Function.update_of_ne hy ..) (fun c => Iff.rfl) ?_
      exact update_frame (by rw [hpc]; simpa [Pc.sem?] using Ne.symm hy)
        (by simpa [Pc.sem?] using Ne.symm hy)
  · show Function.update s.sems w _ y = none
    rw [Function.update_of_ne]
    · exact h.fresh y hy
    · rintro rfl
      rw [h.fresh y hy] at hsem
      cases hsem

/--
`Signal` takes the first semaphore off the queue.

Its waiter is past its `Release`: until then it owns the lock, and the signaller does now.
-/
theorem CondInv.take (h : CondInv s) (hinv : Inv s) {c : κ} {b : Option κ} {w : SemId}
    {rest : List SemId} (hpc : (s.pc t).sem? = none) (hheld : s.lock.lockHolder = some t)
    (hq : s.waitQueue c = w :: rest) :
    CondInv { s.goto t (.signal w b) with
      waitQueue := Function.update s.waitQueue c rest } := by
  have howner := (hinv.holder t hheld).1
  obtain ⟨u, sem, hsem, hv, hqueue, hmem, hplace, honly⟩ :=
    (h.stage w).of_mem (c := c) (by rw [hq]; simp)
  have hbusy : (s.pc u).sem? = some w := by rcases hplace with hu | hu <;> rw [hu] <;> rfl
  have hut : u ≠ t := by
    rintro rfl
    rw [hpc] at hbusy
    cases hbusy
  -- before its `Release` the waiter would own the lock together with the signaller
  have hwaiting : s.pc u = .waiting w := by
    rcases hplace with hu | hu
    · exact absurd (hinv.owner_unique (hinv.transient u (by rw [hu]; rfl)) howner) hut
    · exact hu
  have horder := h.order c
  rw [hq, List.pairwise_cons] at horder
  have hrest : w ∉ rest := fun hw => lt_irrefl w (horder.1 w hw)
  refine ⟨fun y => ?_, h.fresh, fun d => ?_, fun v y b' hv' => ?_⟩
  · by_cases hy : y = w
    · rw [hy]
      refine .signalling u t b sem hsem hv hqueue (fun d => ?_) ?_ (Function.update_self ..)
        fun v hv' => ?_
      · show w ∉ Function.update s.waitQueue c rest d
        by_cases hd : d = c
        · rw [hd, Function.update_self]
          exact hrest
        · rw [Function.update_of_ne hd, hmem]
          exact hd
      · show Function.update s.pc t _ u = _
        rw [Function.update_of_ne hut]
        exact hwaiting
      · by_cases hvt : v = t
        · exact Or.inr hvt
        · refine Or.inl (honly v ?_)
          change (Function.update s.pc t _ v).sem? = some w at hv'
          rwa [Function.update_of_ne hvt] at hv'
    · refine (h.stage y).frame rfl (fun d => ?_) ?_
      · show y ∈ Function.update s.waitQueue c rest d ↔ _
        by_cases hd : d = c
        · rw [hd, Function.update_self, hq]
          simp [hy]
        · rw [Function.update_of_ne hd]
      · exact update_frame (by rw [hpc]; simp) (by simpa [Pc.sem?] using Ne.symm hy)
  · show (Function.update s.waitQueue c rest d).Pairwise _
    by_cases hd : d = c
    · rw [hd, Function.update_self]
      exact horder.2
    · rw [Function.update_of_ne hd]
      exact h.order d
  · show s.lock.lockHolder = some v
    by_cases hvt : v = t
    · rw [hvt]
      exact hheld
    · change Function.update s.pc t _ v = _ at hv'
      rw [Function.update_of_ne hvt] at hv'
      exact h.signaller v y b' hv'

omit [DecidableEq κ] in
/-- The `V` of `Signal`: the waiter can go on, asleep or not. -/
theorem CondInv.post (h : CondInv s) {w : SemId} {b : Option κ} {sem : Semaphore τ}
    (hpc : s.pc t = .signal w b) (hsem : s.sems w = some sem) :
    CondInv { s.goto t (afterSignal b) with
      sems := Function.update s.sems w (some sem.v) } := by
  have hafter : (afterSignal b : Pc κ).sem? = none := by cases b <;> rfl
  refine ⟨fun y => ?_, fun y hy => ?_, h.order,
    h.signaller_update rfl rfl (by cases b <;> simp [afterSignal])⟩
  · by_cases hy : y = w
    · rw [hy]
      obtain ⟨u, sem', hsem', hv, hqueue, hq, hwaiting, honly⟩ := (h.stage w).of_signal hpc
      obtain rfl : sem = sem' := Option.some.inj (hsem.symm.trans hsem')
      have hut : u ≠ t := by
        rintro rfl
        rw [hpc] at hwaiting
        cases hwaiting
      refine .ready u sem.v (Function.update_self ..) (Semaphore.v_value_of_zero hv) ?_ hq
        ?_ fun v hv' => ?_
      · rcases hqueue with hqueue | hqueue <;> simp [hqueue]
      · show Function.update s.pc t _ u = _
        rw [Function.update_of_ne hut]
        exact hwaiting
      · change (Function.update s.pc t _ v).sem? = some w at hv'
        by_cases hvt : v = t
        · rw [hvt, Function.update_self, hafter] at hv'
          cases hv'
        · rw [Function.update_of_ne hvt] at hv'
          exact (honly v hv').resolve_right hvt
    · refine (h.stage y).frame (Function.update_of_ne hy ..) (fun c => Iff.rfl) ?_
      exact update_frame (by rw [hpc]; simpa [Pc.sem?] using Ne.symm hy) (by rw [hafter]; simp)
  · show Function.update s.sems w _ y = none
    rw [Function.update_of_ne]
    · exact h.fresh y hy
    · rintro rfl
      rw [h.fresh y hy] at hsem
      cases hsem

theorem condInv_step {e : LockEvent τ κ} (hinv : Inv s) (h : CondInv s)
    (hs : s.step e = some s') : CondInv s' := by
  cases moves_of_step hs with
  | notHeld =>
    exact ⟨fun w => (h.stage w).frame rfl (fun _ => Iff.rfl) fun _ => Or.inl rfl,
      h.fresh, h.order, h.signaller⟩
  | dangling =>
    exact ⟨fun w => (h.stage w).frame rfl (fun _ => Iff.rfl) fun _ => Or.inl rfl,
      h.fresh, h.order, h.signaller⟩
  | callAcquire t hpc =>
    exact h.quiet _ rfl rfl rfl rfl (by rw [hpc]; rfl) rfl
      (h.signaller_update rfl rfl (by simp))
  | callRelease t hpc hheld =>
    have hnone := h.not_signal hinv (hinv.holder t hheld).1 (by simp [hpc])
    exact h.quiet _ rfl rfl rfl rfl (by rw [hpc]; rfl) rfl
      (not_signal_update hnone rfl (by simp))
  | wait t c hpc hheld => exact h.wait hinv hpc hheld rfl rfl rfl rfl
  | signalNobody t c hpc =>
    exact h.quiet _ rfl rfl rfl rfl (by rw [hpc]; rfl) rfl
      (h.signaller_update rfl rfl (by simp))
  | callBroadcast t c hpc =>
    exact h.quiet _ rfl rfl rfl rfl (by rw [hpc]; rfl) rfl
      (h.signaller_update rfl rfl (by simp))
  | lockSleep t w hpc =>
    exact ⟨fun y => (h.stage y).frame rfl (fun _ => Iff.rfl) fun _ => Or.inl rfl,
      h.fresh, h.order, h.signaller⟩
  | lockTake t w hpc => exact h.lockTake hpc rfl rfl rfl rfl rfl
  | acquired t w hpc => exact h.acquired hinv hpc
  | released t w hpc => exact h.released hpc
  | waiterSleep t w sem hpc hsem hawake hv => exact h.waiterSleep hpc hsem hawake hv
  | waiterTake t w sem hpc hsem hawake hv => exact h.waiterTake hpc hsem hv
  | take e t c b w rest he hpc hheld hq =>
    exact h.take hinv (by rw [hpc]; cases b <;> rfl) hheld hq
  | post t w b sem hpc hsem => exact h.post hpc hsem
  | broadcastDone t c hpc =>
    exact h.quiet _ rfl rfl rfl rfl (by rw [hpc]; rfl) rfl
      (h.signaller_update rfl rfl (by simp))

end Steps

/-! ## The log of the condition variables -/

/-- What is to be remembered of the steps: who waits, who is taken off the queue, who gets a `V`. -/
inductive Note (κ : Type*) where
  | waits (c : κ) (w : SemId)
  | takes (c : κ) (w : SemId)
  | posts (w : SemId)

/-- The semaphore that a `Signal` on `c` by `t` takes off the queue, if there is one. -/
def takeNote (s : LockState τ κ) (t : τ) (c : κ) : List (Note κ) :=
  if s.isHeldBy t then ((s.waitQueue c).take 1).map (.takes c) else []

/-- What a step puts into the log. -/
def notes (s : LockState τ κ) : LockEvent τ κ → List (Note κ)
  | .call t (.wait c) => if s.isHeldBy t then [.waits c s.nextSem] else []
  | .call t (.signal c) => s.takeNote t c
  | .call _ _ => []
  | .run t =>
    match s.pc t with
    | .broadcast c => s.takeNote t c
    | .signal w _ => [.posts w]
    | _ => []

/-- The `Wait`s on `c`, in their order. -/
def waitsOn (c : κ) (log : List (Note κ)) : List SemId :=
  log.filterMap fun
    | .waits d w => if d = c then some w else none
    | _ => none

/-- The ones that `Signal` took off the queue of `c`, in their order. -/
def takenFrom (c : κ) (log : List (Note κ)) : List SemId :=
  log.filterMap fun
    | .takes d w => if d = c then some w else none
    | _ => none

/-- All that were taken off a queue. -/
def taken (log : List (Note κ)) : List SemId :=
  log.filterMap fun
    | .takes _ w => some w
    | _ => none

/-- The ones that got their `V`. -/
def posted (log : List (Note κ)) : List SemId :=
  log.filterMap fun
    | .posts w => some w
    | _ => none

theorem waitsOn_append (c : κ) (log log' : List (Note κ)) :
    waitsOn c (log ++ log') = waitsOn c log ++ waitsOn c log' := List.filterMap_append

theorem takenFrom_append (c : κ) (log log' : List (Note κ)) :
    takenFrom c (log ++ log') = takenFrom c log ++ takenFrom c log' := List.filterMap_append

omit [DecidableEq κ] in
theorem taken_append (log log' : List (Note κ)) : taken (log ++ log') = taken log ++ taken log' :=
  List.filterMap_append

omit [DecidableEq κ] in
theorem posted_append (log log' : List (Note κ)) :
    posted (log ++ log') = posted log ++ posted log' := List.filterMap_append

/-- The waiter of `w` has not been signalled yet, or its signaller is still before the `V`. -/
def Pending (s : LockState τ κ) (w : SemId) : Prop :=
  (∃ c, w ∈ s.waitQueue c) ∨ ∃ t b, s.pc t = .signal w b

/-- The log agrees with the state. -/
structure LogInv (s : LockState τ κ) (log : List (Note κ)) : Prop where
  lock : Inv s
  cond : CondInv s
  fifo : ∀ c, waitsOn c log = takenFrom c log ++ s.waitQueue c
  posted_iff : ∀ w, w ∈ posted log ↔ w < s.nextSem ∧ ¬ s.Pending w
  taken_eq : (taken log = posted log ∧ ∀ t w b, s.pc t ≠ .signal w b) ∨
    ∃ t w b, s.pc t = .signal w b ∧ taken log = posted log ++ [w]

omit [DecidableEq τ] in
theorem logInv_start : LogInv (start : LockState τ κ) [] where
  lock := inv_start
  cond := condInv_start
  fifo := fun _ => rfl
  posted_iff := fun w => by simp [posted, start]
  taken_eq := Or.inl ⟨rfl, by simp [start]⟩

section Log

variable {s s' : LockState τ κ} {t : τ} {log : List (Note κ)}

omit [DecidableEq τ] in
/-- A step that has nothing to do with the queues and with signals. -/
theorem LogInv.silent (h : LogInv s log) (hinv : Inv s') (hcond : CondInv s')
    (hqueue : s'.waitQueue = s.waitQueue) (hnext : s'.nextSem = s.nextSem)
    (hsig : ∀ u w b, s'.pc u = .signal w b ↔ s.pc u = .signal w b) : LogInv s' (log ++ []) := by
  have hpending : ∀ w, s'.Pending w ↔ s.Pending w := by
    intro w
    simp only [Pending, hqueue, hsig]
  rw [List.append_nil]
  refine ⟨hinv, hcond, fun c => by rw [hqueue]; exact h.fifo c, fun w => ?_, ?_⟩
  · rw [hnext, hpending]
    exact h.posted_iff w
  · simp only [hsig, ne_eq]
    exact h.taken_eq

omit [DecidableEq κ] in
theorem signal_update {pcs : τ → Pc κ} {pc : Pc κ} (hold : ∀ w b, pcs t ≠ .signal w b)
    (hnew : ∀ w b, pc ≠ .signal w b) (u : τ) (w : SemId) (b : Option κ) :
    Function.update pcs t pc u = .signal w b ↔ pcs u = .signal w b := by
  by_cases hu : u = t
  · rw [hu, Function.update_self]
    exact iff_of_false (hnew w b) (hold w b)
  · rw [Function.update_of_ne hu]

omit [DecidableEq τ] in
/-- `Wait` adds its semaphore to the log and to the queue. -/
theorem LogInv.wait (h : LogInv s log) {c : κ} (hinv : Inv s') (hcond : CondInv s')
    (hnext : s'.nextSem = s.nextSem + 1)
    (hqueue : s'.waitQueue = Function.update s.waitQueue c (s.waitQueue c ++ [s.nextSem]))
    (hsig : ∀ u w b, s'.pc u = .signal w b ↔ s.pc u = .signal w b) :
    LogInv s' (log ++ [.waits c s.nextSem]) := by
  have hpending : ∀ w, s'.Pending w ↔ s.Pending w ∨ w = s.nextSem := by
    intro w
    simp only [Pending, hqueue, hsig]
    constructor
    · rintro (⟨d, hd⟩ | hd)
      · by_cases hdc : d = c
        · rw [hdc, Function.update_self] at hd
          rcases List.mem_append.mp hd with hd | hd
          · exact Or.inl (Or.inl ⟨c, hd⟩)
          · exact Or.inr (List.mem_singleton.mp hd)
        · rw [Function.update_of_ne hdc] at hd
          exact Or.inl (Or.inl ⟨d, hd⟩)
      · exact Or.inl (Or.inr hd)
    · rintro ((⟨d, hd⟩ | hd) | rfl)
      · refine Or.inl ⟨d, ?_⟩
        by_cases hdc : d = c
        · rw [hdc, Function.update_self]
          exact List.mem_append_left _ (hdc ▸ hd)
        · rwa [Function.update_of_ne hdc]
      · exact Or.inr hd
      · exact Or.inl ⟨c, by rw [Function.update_self]; simp⟩
  refine ⟨hinv, hcond, fun d => ?_, fun w => ?_, ?_⟩
  · rw [waitsOn_append, takenFrom_append, h.fifo d, hqueue]
    by_cases hd : d = c
    · simp [hd, waitsOn, takenFrom]
    · simp [hd, Ne.symm hd, waitsOn, takenFrom]
  · have hno : posted [Note.waits c s.nextSem] = [] := rfl
    rw [posted_append, hno, List.append_nil, h.posted_iff w, hpending, hnext,
      Nat.lt_succ_iff_lt_or_eq]
    constructor
    · rintro ⟨hlt, hp⟩
      exact ⟨Or.inl hlt, fun hor => hor.elim hp fun heq => absurd heq hlt.ne⟩
    · rintro ⟨hlt, hp⟩
      exact ⟨hlt.resolve_right fun heq => hp (Or.inr heq), fun hp' => hp (Or.inl hp')⟩
  · simpa [taken, posted, hsig] using h.taken_eq

/-- `Signal` takes the first of the queue. Nobody else is signalling. -/
theorem LogInv.take (h : LogInv s log) {c : κ} {b : Option κ} {w : SemId} {rest : List SemId}
    (hinv : Inv s') (hcond : CondInv s') (hheld : s.lock.lockHolder = some t)
    (hpc : s.pc t = afterSignal b) (hq : s.waitQueue c = w :: rest)
    (hnext : s'.nextSem = s.nextSem)
    (hqueue : s'.waitQueue = Function.update s.waitQueue c rest)
    (hpc' : s'.pc = Function.update s.pc t (.signal w b)) :
    LogInv s' (log ++ [.takes c w]) := by
  have hnone : ∀ u y b', s.pc u ≠ .signal y b' :=
    h.cond.not_signal h.lock (h.lock.holder t hheld).1 (by rw [hpc]; cases b <;> simp [afterSignal])
  -- without a signaller every semaphore that was taken has got its `V`
  have htaken : taken log = posted log := by
    rcases h.taken_eq with ⟨heq, -⟩ | ⟨u, y, b', hu, -⟩
    · exact heq
    · exact absurd hu (hnone u y b')
  have hmem : ∀ y, (∃ d, y ∈ s.waitQueue d) ↔ (∃ d, y ∈ s'.waitQueue d) ∨ y = w := by
    intro y
    rw [hqueue]
    constructor
    · rintro ⟨d, hd⟩
      by_cases hdc : d = c
      · rw [hdc, hq, List.mem_cons] at hd
        rcases hd with rfl | hd
        · exact Or.inr rfl
        · exact Or.inl ⟨c, by rwa [Function.update_self]⟩
      · exact Or.inl ⟨d, by rwa [Function.update_of_ne hdc]⟩
    · rintro (⟨d, hd⟩ | rfl)
      · by_cases hdc : d = c
        · rw [hdc, Function.update_self] at hd
          exact ⟨c, by rw [hq]; exact List.mem_cons_of_mem _ hd⟩
        · rw [Function.update_of_ne hdc] at hd
          exact ⟨d, hd⟩
      · exact ⟨c, by rw [hq]; exact List.mem_cons_self⟩
  -- the semaphore goes from the queue to the signaller, and is pending before and after
  have hpending : ∀ y, s'.Pending y ↔ s.Pending y := by
    intro y
    have hnow : (∃ u b', s'.pc u = .signal y b') ↔ y = w := by
      rw [hpc']
      constructor
      · rintro ⟨u, b', hu⟩
        by_cases hut : u = t
        · rw [hut, Function.update_self, Pc.signal.injEq] at hu
          exact hu.1.symm
        · rw [Function.update_of_ne hut] at hu
          exact absurd hu (hnone u y b')
      · rintro rfl
        exact ⟨t, b, Function.update_self ..⟩
    have hbefore : ¬ ∃ u b', s.pc u = .signal y b' := fun ⟨u, b', hu⟩ => hnone u y b' hu
    rw [Pending, Pending, hmem, hnow, or_iff_left hbefore]
  refine ⟨hinv, hcond, fun d => ?_, fun y => ?_, Or.inr ⟨t, w, b, ?_, ?_⟩⟩
  · rw [waitsOn_append, takenFrom_append, h.fifo d, hqueue]
    by_cases hd : d = c
    · simp [hd, hq, waitsOn, takenFrom]
    · simp [hd, Ne.symm hd, waitsOn, takenFrom]
  · have hno : posted [Note.takes c w] = [] := rfl
    rw [posted_append, hno, List.append_nil, h.posted_iff y, hpending, hnext]
  · rw [hpc', Function.update_self]
  · rw [taken_append, posted_append, htaken]
    simp [taken, posted]

/-- The `V`: the semaphore that was taken off the queue gets it. -/
theorem LogInv.post (h : LogInv s log) {b : Option κ} {w : SemId} (hinv : Inv s')
    (hcond : CondInv s') (hpc : s.pc t = .signal w b) (hnext : s'.nextSem = s.nextSem)
    (hqueue : s'.waitQueue = s.waitQueue)
    (hpc' : s'.pc = Function.update s.pc t (afterSignal b)) : LogInv s' (log ++ [.posts w]) := by
  have honly : ∀ u y b', s.pc u = .signal y b' → u = t := by
    intro u y b' hu
    have hut := (h.cond.signaller u y b' hu).symm.trans (h.cond.signaller t w b hpc)
    exact Option.some.inj hut
  have hnone : ∀ u y b', s'.pc u ≠ .signal y b' := by
    intro u y b' hu
    rw [hpc'] at hu
    by_cases hut : u = t
    · rw [hut, Function.update_self] at hu
      cases b <;> cases hu
    · rw [Function.update_of_ne hut] at hu
      exact hut (honly u y b' hu)
  obtain ⟨u, sem, hsem, -, -, hq, -⟩ := (h.cond.stage w).of_signal hpc
  have hlt : w < s.nextSem := by
    by_contra hge
    rw [h.cond.fresh w (not_lt.mp hge)] at hsem
    cases hsem
  have hpending : ∀ y, s.Pending y ↔ s'.Pending y ∨ y = w := by
    intro y
    have hnow : ¬ ∃ u b', s'.pc u = .signal y b' := fun ⟨u, b', hu⟩ => hnone u y b' hu
    have hbefore : (∃ u b', s.pc u = .signal y b') ↔ y = w := by
      constructor
      · rintro ⟨u, b', hu⟩
        obtain rfl := honly u y b' hu
        rw [hpc, Pc.signal.injEq] at hu
        exact hu.1.symm
      · rintro rfl
        exact ⟨t, b, hpc⟩
    rw [Pending, Pending, hqueue, hbefore, or_iff_left hnow]
  have hw : ¬ s'.Pending w := by
    rintro (⟨c, hc⟩ | ⟨u, b', hu⟩)
    · rw [hqueue] at hc
      exact hq c hc
    · exact hnone u w b' hu
  refine ⟨hinv, hcond, fun d => ?_, fun y => ?_, Or.inl ⟨?_, hnone⟩⟩
  · rw [waitsOn_append, takenFrom_append, h.fifo d, hqueue]
    simp [waitsOn, takenFrom]
  · have hsingle : posted [(Note.posts w : Note κ)] = [w] := rfl
    rw [posted_append, hsingle, List.mem_append, List.mem_singleton, h.posted_iff y, hpending,
      hnext]
    constructor
    · rintro (⟨hy, hp⟩ | rfl)
      · exact ⟨hy, fun hp' => hp (Or.inl hp')⟩
      · exact ⟨hlt, hw⟩
    · rintro ⟨hy, hp⟩
      by_cases hyw : y = w
      · exact Or.inr hyw
      · exact Or.inl ⟨hy, fun hor => hor.elim hp hyw⟩
  · rcases h.taken_eq with ⟨-, hno⟩ | ⟨u, y, b', hu, heq⟩
    · exact absurd hpc (hno t w b)
    · obtain rfl := honly u y b' hu
      rw [hpc, Pc.signal.injEq] at hu
      rw [taken_append, posted_append, heq, ← hu.1]
      simp [taken, posted]

omit [DecidableEq κ] in
theorem notes_of_not_held {e : LockEvent τ κ} (hnot : s.lock.lockHolder ≠ some t)
    (he : (∃ c, e = .call t c) ∨ e = .run t ∧ ∃ c, s.pc t = .broadcast c) : s.notes e = [] := by
  have hheld : ¬ s.isHeldBy t = true := not_isHeldBy_iff.mpr hnot
  rcases he with ⟨c, rfl⟩ | ⟨rfl, c, hpc⟩
  · cases c <;> simp [notes, takeNote, hheld]
  · simp [notes, hpc, takeNote, hheld]

omit [DecidableEq κ] in
/-- What `Signal` notes, called by a thread or by `Broadcast`. -/
theorem notes_of_take {e : LockEvent τ κ} {c : κ} {b : Option κ} {w : SemId} {rest : List SemId}
    (he : e = .call t (.signal c) ∧ b = none ∨ e = .run t ∧ b = some c)
    (hpc : s.pc t = afterSignal b) (hheld : s.lock.lockHolder = some t)
    (hq : s.waitQueue c = w :: rest) : s.notes e = [.takes c w] := by
  have hheld' := isHeldBy_iff.mpr hheld
  rcases he with ⟨rfl, rfl⟩ | ⟨rfl, rfl⟩
  · simp [notes, takeNote, hheld', hq]
  · simp [notes, hpc, afterSignal, takeNote, hheld', hq]

/-- The signals stay as they are when neither the old nor the new place of `t` is one. -/
theorem LogInv.silent_update (h : LogInv s log) {e : LockEvent τ κ} (pc : Pc κ) (hinv : Inv s')
    (hcond : CondInv s') (hnotes : s.notes e = []) (hqueue : s'.waitQueue = s.waitQueue)
    (hnext : s'.nextSem = s.nextSem) (hpc : s'.pc = Function.update s.pc t pc)
    (hold : ∀ w b, s.pc t ≠ .signal w b) (hnew : ∀ w b, pc ≠ .signal w b) :
    LogInv s' (log ++ s.notes e) := by
  rw [hnotes]
  refine h.silent hinv hcond hqueue hnext ?_
  intro u w b
  rw [hpc]
  exact signal_update hold hnew u w b

theorem logInv_step (s : LockState τ κ) (e : LockEvent τ κ) (s' : LockState τ κ)
    (log : List (Note κ)) (h : LogInv s log) (hs : s.step e = some s') :
    LogInv s' (log ++ s.notes e) := by
  have hinv : Inv s' := inv_step s e s' h.lock hs
  have hcond : CondInv s' := condInv_step h.lock h.cond hs
  cases moves_of_step hs with
  | notHeld e t hnot he =>
    rw [notes_of_not_held hnot he]
    exact h.silent hinv hcond rfl rfl fun _ _ _ => Iff.rfl
  | dangling t w hpc hsem =>
    -- a private semaphore is not deleted while somebody is busy with it
    exfalso
    rcases hpc with hpc | ⟨b, hpc⟩
    · obtain ⟨sem, hsem', -⟩ := (h.cond.stage w).of_waiting hpc
      rw [hsem] at hsem'
      cases hsem'
    · obtain ⟨u, sem, hsem', -⟩ := (h.cond.stage w).of_signal hpc
      rw [hsem] at hsem'
      cases hsem'
  | callAcquire t hpc =>
    exact h.silent_update _ hinv hcond rfl rfl rfl rfl (by simp [hpc]) (by simp)
  | callRelease t hpc hheld =>
    exact h.silent_update _ hinv hcond rfl rfl rfl rfl (by simp [hpc]) (by simp)
  | wait t c hpc hheld =>
    have hnotes : s.notes (.call t (.wait c)) = [.waits c s.nextSem] := by
      simp [notes, isHeldBy_iff.mpr hheld]
    rw [hnotes]
    exact h.wait hinv hcond rfl rfl (signal_update (by simp [hpc]) (by simp))
  | signalNobody t c hpc hheld hq =>
    have hnotes : s.notes (.call t (.signal c)) = [] := by simp [notes, takeNote, hq]
    exact h.silent_update _ hinv hcond hnotes rfl rfl rfl (by simp [hpc]) (by simp)
  | callBroadcast t c hpc =>
    exact h.silent_update _ hinv hcond rfl rfl rfl rfl (by simp [hpc]) (by simp)
  | lockSleep t w hpc =>
    have hnotes : s.notes (.run t) = [] := by simp [notes, hpc]
    rw [hnotes]
    exact h.silent hinv hcond rfl rfl fun _ _ _ => Iff.rfl
  | lockTake t w hpc =>
    exact h.silent_update _ hinv hcond (by simp [notes, hpc]) rfl rfl rfl (by simp [hpc]) (by simp)
  | acquired t w hpc =>
    exact h.silent_update .out hinv hcond (by simp [notes, hpc]) rfl rfl rfl (by simp [hpc])
      (by simp)
  | released t w hpc =>
    exact h.silent_update _ hinv hcond (by simp [notes, hpc]) rfl rfl rfl (by simp [hpc])
      (by cases w <;> simp)
  | waiterSleep t w sem hpc =>
    have hnotes : s.notes (.run t) = [] := by simp [notes, hpc]
    rw [hnotes]
    exact h.silent hinv hcond rfl rfl fun _ _ _ => Iff.rfl
  | waiterTake t w sem hpc =>
    exact h.silent_update _ hinv hcond (by simp [notes, hpc]) rfl rfl rfl (by simp [hpc]) (by simp)
  | take e t c b w rest he hpc hheld hq =>
    rw [notes_of_take he hpc hheld hq]
    exact h.take hinv hcond hheld hpc hq rfl rfl rfl
  | post t w b sem hpc hsem =>
    have hnotes : s.notes (.run t) = [.posts w] := by simp [notes, hpc]
    rw [hnotes]
    exact h.post hinv hcond hpc rfl rfl rfl
  | broadcastDone t c hpc hq =>
    have hnotes : s.notes (.run t) = [] := by simp [notes, hpc, takeNote, hq]
    exact h.silent_update _ hinv hcond hnotes rfl rfl rfl (by simp [hpc]) (by simp)

end Log

/-! ## Broadcast -/

section Broadcast

variable {s s' : LockState τ κ} {t : τ} {c : κ}

/-- The holder is left alone by the others, and so are the queues. -/
theorem CondInv.step_others (h : CondInv s) (hinv : Inv s) {e : LockEvent τ κ}
    (hheld : s.lock.lockHolder = some t) (he : e.thread ≠ t) (hs : s.step e = some s') :
    s'.lock.lockHolder = some t ∧ s'.pc t = s.pc t ∧ s'.waitQueue = s.waitQueue ∧
      s.notes e = [] := by
  have howner := (hinv.holder t hheld).1
  have hnot : ∀ u, u ≠ t → s.lock.lockHolder ≠ some u := by
    intro u hu hheld'
    rw [hheld] at hheld'
    exact hu (Option.some.inj hheld').symm
  cases moves_of_step hs with
  | notHeld e u hno he' => exact ⟨hheld, rfl, rfl, notes_of_not_held hno he'⟩
  | dangling u w hpc hsem =>
    refine ⟨hheld, rfl, rfl, ?_⟩
    rcases hpc with hpc | ⟨b, hpc⟩
    · simp [notes, hpc]
    · exact absurd (h.signaller u w b hpc) (hnot u he)
  | callAcquire u hpc => exact ⟨hheld, Function.update_of_ne (Ne.symm he) .., rfl, rfl⟩
  | callRelease u hpc hheld' => exact absurd hheld' (hnot u he)
  | wait u d hpc hheld' => exact absurd hheld' (hnot u he)
  | signalNobody u d hpc hheld' => exact absurd hheld' (hnot u he)
  | callBroadcast u d hpc => exact ⟨hheld, Function.update_of_ne (Ne.symm he) .., rfl, rfl⟩
  | lockSleep u w hpc => exact ⟨hheld, rfl, rfl, by simp [notes, hpc]⟩
  | lockTake u w hpc =>
    exact ⟨hheld, Function.update_of_ne (Ne.symm he) .., rfl, by simp [notes, hpc]⟩
  | acquired u w hpc =>
    exact absurd (hinv.owner_unique (hinv.transient u (by rw [hpc]; rfl)) howner) he
  | released u w hpc =>
    exact ⟨hheld, Function.update_of_ne (Ne.symm he) .., rfl, by simp [notes, hpc]⟩
  | waiterSleep u w sem hpc => exact ⟨hheld, rfl, rfl, by simp [notes, hpc]⟩
  | waiterTake u w sem hpc =>
    exact ⟨hheld, Function.update_of_ne (Ne.symm he) .., rfl, by simp [notes, hpc]⟩
  | take e u d b w rest he' hpc hheld' =>
    refine absurd hheld' (hnot u ?_)
    rcases he' with ⟨rfl, -⟩ | ⟨rfl, -⟩ <;> exact he
  | post u w b sem hpc => exact absurd (h.signaller u w b hpc) (hnot u he)
  | broadcastDone u d hpc hq =>
    exact ⟨hheld, Function.update_of_ne (Ne.symm he) .., rfl, by simp [notes, hpc, takeNote, hq]⟩

/-- A `Broadcast` of the holder on `c`: the ones it has still to post, and its steps until then. -/
inductive Broadcasting (s : LockState τ κ) (t : τ) (c : κ) : List SemId → Nat → Prop where
  | test (hheld : s.lock.lockHolder = some t) (hpc : s.pc t = .broadcast c) :
      Broadcasting s t c (s.waitQueue c) (2 * (s.waitQueue c).length + 1)
  | signal (w : SemId) (hheld : s.lock.lockHolder = some t) (hpc : s.pc t = .signal w (some c)) :
      Broadcasting s t c (w :: s.waitQueue c) (2 * (s.waitQueue c).length + 2)
  | done (hheld : s.lock.lockHolder = some t) (hpc : s.pc t = .out) (hq : s.waitQueue c = []) :
      Broadcasting s t c [] 0

omit [DecidableEq τ] [DecidableEq κ] in
theorem Broadcasting.held {left : List SemId} {n : Nat} (h : Broadcasting s t c left n) :
    s.lock.lockHolder = some t := by
  cases h <;> assumption

/-- A step of another thread changes nothing, a step of the thread itself brings it nearer. -/
theorem Broadcasting.step {left : List SemId} {n : Nat} {e : LockEvent τ κ}
    (h : Broadcasting s t c left n) (hinv : Inv s) (hcond : CondInv s)
    (he : ∀ call, e ≠ .call t call) (hs : s.step e = some s') :
    ∃ left' n', Broadcasting s' t c left' n' ∧ left = posted (s.notes e) ++ left' ∧
      n = (if e.isRun t then 1 else 0) + n' := by
  by_cases ht : e.thread = t
  · -- the thread itself goes on
    obtain rfl : e = .run t := by
      cases e with
      | call u call => exact absurd (by rw [← ht]; rfl) (he call)
      | run u => rw [← ht]; rfl
    have hrun : (LockEvent.run t : LockEvent τ κ).isRun t = true := decide_eq_true rfl
    rw [if_pos hrun]
    simp only [LockState.step] at hs
    split at hs
    swap
    · cases hs
    cases h with
    | test hheld hpc =>
      simp only [doRun, hpc] at hs
      obtain rfl := Option.some.inj hs
      unfold broadcast
      split
      · next hq =>
        refine ⟨[], 0, .done hheld (Function.update_self ..) hq, ?_, ?_⟩
        · simp [notes, hpc, takeNote, hq, posted]
        · rw [hq]
          rfl
      · next w rest hq =>
        have hheld' := isHeldBy_iff.mpr hheld
        rw [LockState.signal, if_pos hheld', hq]
        have hrest : (Function.update s.waitQueue c rest) c = rest := Function.update_self ..
        refine ⟨_, _, .signal w hheld (Function.update_self ..), ?_, ?_⟩
        · simp [notes, hpc, takeNote, hheld', hq, posted]
        · simp
          omega
    | signal w hheld hpc =>
      obtain ⟨u, sem, hsem, -⟩ := (hcond.stage w).of_signal hpc
      simp only [doRun, hpc, signalV, hsem] at hs
      obtain rfl := Option.some.inj hs
      refine ⟨_, _, .test hheld (Function.update_self ..), ?_, ?_⟩
      · simp [notes, hpc, posted, goto]
      · show _ = 1 + (2 * (s.waitQueue c).length + 1)
        omega
    | done hheld hpc hq =>
      simp only [doRun, hpc] at hs
      cases hs
  · -- somebody else does something
    have hrun : e.isRun t = false := by
      cases e with
      | call u call => rfl
      | run u => exact decide_eq_false ht
    obtain ⟨hheld', hpc', hqueue', hnotes⟩ := hcond.step_others hinv h.held ht hs
    rw [hnotes, hrun]
    refine ⟨left, n, ?_, rfl, by simp⟩
    cases h with
    | test hheld hpc =>
      rw [← hqueue']
      exact .test hheld' (hpc'.trans hpc)
    | signal w hheld hpc =>
      rw [← hqueue']
      exact .signal w hheld' (hpc'.trans hpc)
    | done hheld hpc hq => exact .done hheld' (hpc'.trans hpc) (by rw [hqueue']; exact hq)

/-- Until the thread calls something else. -/
theorem Broadcasting.run {left : List SemId} {n : Nat} {es : List (LockEvent τ κ)}
    (h : Broadcasting s t c left n) (hinv : Inv s) (hcond : CondInv s)
    (hes : ∀ call, LockEvent.call t call ∉ es) (hs : Base.run LockState.step s es = some s') :
    ∃ left' n', Broadcasting s' t c left' n' ∧
      left = posted (observed notes LockState.step s es) ++ left' ∧
      n = es.countP (LockEvent.isRun t) + n' := by
  induction es generalizing s left n with
  | nil =>
    obtain rfl := Option.some.inj hs
    exact ⟨left, n, h, rfl, by simp⟩
  | cons e es ih =>
    obtain ⟨s₁, hs₁, hrest⟩ := run_cons_eq_some.mp hs
    obtain ⟨left₁, n₁, h₁, hleft, hn⟩ :=
      h.step hinv hcond (fun call he => hes call (by rw [he]; exact List.mem_cons_self)) hs₁
    obtain ⟨left', n', h', hleft', hn'⟩ := ih h₁ (inv_step s e s₁ hinv hs₁)
      (condInv_step hinv hcond hs₁) (fun call hmem => hes call (List.mem_cons_of_mem _ hmem)) hrest
    refine ⟨left', n', h', ?_, ?_⟩
    · rw [observed_cons hs₁, posted_append, List.append_assoc, ← hleft', ← hleft]
    · rw [List.countP_cons, hn, hn']
      omega

/-- The thread is not blocked in `Broadcast`. -/
theorem Broadcasting.enabled {left : List SemId} {n : Nat} (h : Broadcasting s t c left n)
    (hpos : n ≠ 0) (hab : s.aborted = false) : (s.step (.run t)).isSome = true := by
  cases h with
  | test hheld hpc => simp [LockState.step, hab, asleep, doRun, hpc]
  | signal w hheld hpc => simp [LockState.step, hab, asleep, doRun, hpc]
  | done => exact absurd rfl hpos

end Broadcast

/-! ## Whole runs -/

/-- The waiter is let proceed: the next step of `t` takes it out of its `P`. -/
def Proceeds (s : LockState τ κ) (t : τ) (w : SemId) : Prop :=
  s.asleep t = false ∧ ∃ s', s.doRun t = some s' ∧ s'.pc t = .acquire (some w)

theorem LogInv.proceeds_iff {s : LockState τ κ} {log : List (Note κ)} (h : LogInv s log) {t : τ}
    {w : SemId} (hpc : s.pc t = .waiting w) : s.Proceeds t w ↔ w ∈ posted log := by
  obtain ⟨sem, hsem, hst⟩ := (h.cond.stage w).of_waiting hpc
  have hlt : w < s.nextSem := by
    by_contra hge
    rw [h.cond.fresh w (not_lt.mp hge)] at hsem
    cases hsem
  rw [h.posted_iff]
  rcases hst with ⟨hv, -, hpend⟩ | ⟨hv, hqueue, hq, honly⟩
  · refine iff_of_false ?_ fun hno => hno.2 ?_
    · rintro ⟨-, s', hs', hpc'⟩
      simp only [doRun, hpc, waitP, hsem, Semaphore.p_of_zero hv] at hs'
      obtain rfl := Option.some.inj hs'
      rw [hpc] at hpc'
      cases hpc'
    · rcases hpend with ⟨c, hc, -⟩ | ⟨u, b, -, hu, -⟩
      · exact Or.inl ⟨c, (hc c).mpr rfl⟩
      · exact Or.inr ⟨u, b, hu⟩
  · refine iff_of_true ⟨?_, ?_⟩ ⟨hlt, ?_⟩
    · simp [asleep, hpc, hsem, hqueue]
    · have hne : sem.value ≠ 0 := by omega
      simp only [doRun, hpc, waitP, hsem, Semaphore.p_of_ne_zero hne]
      exact ⟨_, rfl, Function.update_self ..⟩
    · rintro (⟨c, hc⟩ | ⟨u, b, hu⟩)
      · exact hq c hc
      · obtain rfl := honly u (by rw [hu]; rfl)
        rw [hpc] at hu
        cases hu

omit [DecidableEq τ] in
/-- A waiter on its way back to the lock has been signalled. -/
theorem LogInv.posted_of_back {s : LockState τ κ} {log : List (Note κ)} (h : LogInv s log) {t : τ}
    {w : SemId} (hpc : s.pc t = .acquire (some w) ∨ s.pc t = .acquired (some w)) :
    w ∈ posted log := by
  obtain ⟨sem, hsem, hq, honly⟩ := (h.cond.stage w).of_back hpc
  rw [h.posted_iff]
  constructor
  · by_contra hge
    rw [h.cond.fresh w (not_lt.mp hge)] at hsem
    cases hsem
  · rintro (⟨c, hc⟩ | ⟨u, b, hu⟩)
    · exact hq c hc
    · obtain rfl := honly u (by rw [hu]; rfl)
      rw [hu] at hpc
      rcases hpc with hpc | hpc <;> cases hpc

omit [DecidableEq τ] [DecidableEq κ] in
/-- The private semaphore is there while it is in a queue, and until the `V` on it is done. -/
theorem CondInv.isSome_of_pending {s : LockState τ κ} (h : CondInv s) {w : SemId}
    (hp : s.Pending w) : (s.sems w).isSome = true := by
  rcases hp with ⟨c, hc⟩ | ⟨u, b, hu⟩
  · obtain ⟨u, sem, hsem, -⟩ := (h.stage w).of_mem hc
    rw [hsem]
    rfl
  · obtain ⟨u', sem, hsem, -⟩ := (h.stage w).of_signal hu
    rw [hsem]
    rfl

/--
**Condition variables lose no signal.**

Along every run the ones taken off a queue are the ones that waited longest, in their order, and a
`Signal` on an empty queue does nothing. The `V`s go to the ones taken off, and to nobody else. A
waiter can leave its `P` exactly when its `V` has been executed, so `Wait` returns only after a
signal, and then with the lock. No private semaphore is gone while it is queued or still has to get
its `V`. A `Broadcast` has a bounded number of steps, is never blocked, and posts exactly the ones
that were queued when it began.
-/
theorem run_condition_no_lost_signal {es : List (LockEvent τ κ)} {s : LockState τ κ}
    (h : run step start es = some s) :
    (∀ c, waitsOn c (observed notes step start es)
      = takenFrom c (observed notes step start es) ++ s.waitQueue c) ∧
    (∀ c, (s.waitQueue c).Pairwise (· < ·)) ∧
    (∀ t c, s.aborted = false → s.lock.lockHolder = some t → s.pc t = .out →
      s.waitQueue c = [] → s.step (.call t (.signal c)) = some s) ∧
    ((taken (observed notes step start es) = posted (observed notes step start es) ∧
        ∀ t w b, s.pc t ≠ .signal w b) ∨
      ∃ t w b, s.pc t = .signal w b ∧ s.lock.lockHolder = some t ∧
        taken (observed notes step start es) = posted (observed notes step start es) ++ [w]) ∧
    (∀ t w, s.pc t = .waiting w →
      (s.Proceeds t w ↔ w ∈ posted (observed notes step start es))) ∧
    (∀ t w s', s.pc t = .acquired (some w) → s.step (.run t) = some s' →
      w ∈ posted (observed notes step start es) ∧ s'.pc t = .out ∧
        s'.lock.lockHolder = some t ∧ t ∈ s'.owners) ∧
    (∀ w, s.Pending w → (s.sems w).isSome = true) ∧
    (∀ t c es' s', s.lock.lockHolder = some t → s.pc t = .broadcast c →
      (∀ call, LockEvent.call t call ∉ es') → run step s es' = some s' →
      es'.countP (LockEvent.isRun t) ≤ 2 * (s.waitQueue c).length + 1 ∧
      (s'.pc t = .out → posted (observed notes step s es') = s.waitQueue c ∧
        s'.waitQueue c = []) ∧
      (s'.pc t ≠ .out → s'.aborted = false → (s'.step (.run t)).isSome = true)) := by
  have hlog : LogInv s (observed notes step start es) := by
    have := run_observed logInv_step logInv_start h
    rwa [List.nil_append] at this
  refine ⟨hlog.fifo, hlog.cond.order, ?_, ?_, fun t w hpc => hlog.proceeds_iff hpc, ?_,
    fun w => hlog.cond.isSome_of_pending, ?_⟩
  · intro t c hab hheld hpc hq
    have hgoto : s.goto t .out = s := by
      rw [goto, ← hpc, Function.update_eq_self]
    simp [step, hab, hpc, doCall, signal, isHeldBy_iff.mpr hheld, hq, hgoto]
  · rcases hlog.taken_eq with heq | ⟨t, w, b, hpc, heq⟩
    · exact Or.inl heq
    · exact Or.inr ⟨t, w, b, hpc, hlog.cond.signaller t w b hpc, heq⟩
  · intro t w s' hpc hs
    refine ⟨hlog.posted_of_back (Or.inr hpc), ?_⟩
    have howner := hlog.lock.transient t (by rw [hpc]; rfl)
    simp only [step] at hs
    split at hs
    · simp only [doRun, hpc] at hs
      obtain rfl := Option.some.inj hs
      exact ⟨Function.update_self .., rfl, howner⟩
    · cases hs
  · intro t c es' s' hheld hpc hcalls hs
    obtain ⟨left, n, hb, hleft, hn⟩ :=
      (Broadcasting.test hheld hpc).run hlog.lock hlog.cond hcalls hs
    refine ⟨by omega, fun hout => ?_, fun hin => hb.enabled fun hzero => ?_⟩
    · cases hb with
      | test _ hpc' => rw [hout] at hpc'; cases hpc'
      | signal w _ hpc' => rw [hout] at hpc'; cases hpc'
      | done _ _ hq => exact ⟨by rw [hleft, List.append_nil], hq⟩
    · cases hb with
      | test => omega
      | signal => omega
      | done _ hpc' => exact hin hpc'

/-- Thread 1 waits and is preempted before its `P`; the signal of thread 2 still reaches it. -/
theorem run_condition_signal_before_p :
    ∃ s : LockState Nat Nat,
      run step start [.call 1 .acquire, .run 1, .run 1, .call 1 (.wait 7), .run 1,
        .call 2 .acquire, .run 2, .run 2, .call 2 (.signal 7), .run 2] = some s ∧
      s.pc 1 = .waiting 0 ∧ s.Proceeds 1 0 := by
  have hrun : run step (start : LockState Nat Nat) [.call 1 .acquire, .run 1, .run 1,
    .call 1 (.wait 7), .run 1, .call 2 .acquire, .run 2, .run 2, .call 2 (.signal 7),
    .run 2] = some _ := rfl
  refine ⟨_, rfl, rfl, ?_⟩
  obtain ⟨-, -, -, -, hproceeds, -⟩ := run_condition_no_lost_signal hrun
  exact (hproceeds 1 0 rfl).mpr (by decide)

end LockState

end Nachos
