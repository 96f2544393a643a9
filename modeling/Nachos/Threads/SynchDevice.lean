import Nachos.Threads.CriticalSection

/-!
# One request at a time (`filesys/synchdisk.cc`, `userprog/synchconsole.cc`, `network/post.cc`)

`SynchDisk`, `SynchConsoleOutput` and `PostOfficeOutput` make an asynchronous device synchronous in
the same way: the caller takes a lock, makes a request, waits for the interrupt at a semaphore and
gives the lock back. The devices (`machine/disk.cc`, `machine/console.cc`, `machine/network.cc`)
assert that no other request is outstanding, by a flag that the interrupt handler clears before
it calls the `V`.

`completed` is not in the program: it collects the requests whose interrupt has come.

* `Driver.request` — the assertion of the device, and its flag
* `SynchDevice.step` — one step of a thread, or an interrupt
* `run_one_request` — the assertion is met, along every run
-/

namespace Nachos

open Base

/-- The devices behind `SynchDisk`, `SynchConsoleOutput` and `PostOfficeOutput`. -/
inductive Driver where
  | disk
  | consoleOutput
  | networkOutput
deriving DecidableEq

/--
The part of a request that the requests share: with its flag set the device fails its assertion
(`none`), and otherwise the flag is left as `flag`.
-/
def requestWith (flag busy : Bool) : Option Bool := if busy then none else some flag

/-- `Disk::ReadRequest` and `Disk::WriteRequest`, and `active`. -/
def Disk.request : Bool → Option Bool := requestWith true

/-- `ConsoleOutput::PutChar`, and `putBusy`. -/
def ConsoleOutput.putChar : Bool → Option Bool := requestWith true

/-- `NetworkOutput::Send`, and `sendBusy`, which nothing sets. -/
def NetworkOutput.request : Bool → Option Bool := requestWith false

def Driver.request : Driver → Bool → Option Bool
  | .disk => Disk.request
  | .consoleOutput => ConsoleOutput.putChar
  | .networkOutput => NetworkOutput.request

/-- Where a thread is between `Acquire` and `Release`. -/
inductive DeviceStage where
  /-- The request is made; in `P`. -/
  | waiting (request : Nat)
  /-- `P` has returned. -/
  | served (request : Nat)
deriving DecidableEq

/-- A thread calls the operation, goes on in it, or the interrupt of a request comes. -/
inductive DeviceEvent (τ : Type*) where
  | call (t : τ)
  | run (t : τ)
  | interrupt (request : Nat)

/-- `SynchDisk`, `SynchConsoleOutput` or `PostOfficeOutput`, and its device. -/
structure SynchDevice (τ : Type*) where
  users : LockSection τ DeviceStage
  /-- `semaphore`, `waitFor` or `messageSent`. -/
  completion : Semaphore τ
  /-- `active`, `putBusy` or `sendBusy`. -/
  busy : Bool
  /-- The requests whose interrupt is scheduled. -/
  pending : List Nat
  completed : List Nat
  /-- The number of the next request. -/
  nextRequest : Nat
  /-- The assertion of the device has failed. -/
  failed : Bool

namespace SynchDevice

variable {τ : Type*} [DecidableEq τ]

def start : SynchDevice τ where
  users := .start
  completion := .new 0
  busy := false
  pending := []
  completed := []
  nextRequest := 0
  failed := false

/-! ## The steps -/

/-- The request of thread `t`. -/
def request (driver : Driver) (s : SynchDevice τ) (t : τ) : SynchDevice τ :=
  match driver.request s.busy with
  | none => { s with failed := true }
  | some busy =>
    { s with
      users := s.users.goto t (.inside (.waiting s.nextRequest))
      busy := busy
      pending := s.nextRequest :: s.pending
      nextRequest := s.nextRequest + 1 }

/-- One pass through the test of `P`. -/
def waitP (s : SynchDevice τ) (t : τ) (request : Nat) : Option (SynchDevice τ) :=
  if t ∈ s.completion.queue then none
  else
    match s.completion.p t with
    | (sem, false) => some { s with completion := sem }
    | (sem, true) =>
      some { s with
        completion := sem
        users := s.users.goto t (.inside (.served request)) }

/-- The thread goes on outside of the lock. -/
def doRun (driver : Driver) (s : SynchDevice τ) (t : τ) : Option (SynchDevice τ) :=
  match s.users.place t with
  | .idle => none
  | .acquiring => some (s.request driver t)
  | .inside (.waiting request) => s.waitP t request
  | .inside (.served request) =>
    (s.users.leave t (.served request)).map fun users => { s with users := users }
  | .releasing _ => some { s with users := s.users.goto t .idle }

/-- The `CallBack` of the device: the flag is cleared, and the `CallBack` above it calls `V`. -/
def interrupt (s : SynchDevice τ) (request : Nat) : SynchDevice τ :=
  { s with
    busy := false
    pending := s.pending.erase request
    completed := request :: s.completed
    completion := s.completion.v }

/-- One step. -/
def step (driver : Driver) (s : SynchDevice τ) : DeviceEvent τ → Option (SynchDevice τ)
  | .call t =>
    if s.failed then none else (s.users.enter t).map fun users => { s with users := users }
  | .run t =>
    if s.failed then none
    else if s.users.monitor.pc t = .out then s.doRun driver t
    else (s.users.runLock t).map fun users => { s with users := users }
  | .interrupt request =>
    if s.failed = false ∧ request ∈ s.pending then some (s.interrupt request) else none

/-! ## The invariant -/

/-- The request is made, and `P` has not returned. -/
def Waits (s : SynchDevice τ) (t : τ) (request : Nat) : Prop :=
  s.users.place t = .inside (.waiting request)

/-- What has become of the request that a thread waits for. -/
def Awaited (s : SynchDevice τ) (request : Nat) : Prop :=
  s.pending = [request] ∧ s.completion.value = 0 ∨
    s.pending = [] ∧ s.completion.value = 1 ∧ request ∈ s.completed

structure Inv (s : SynchDevice τ) : Prop where
  users : s.users.Inv
  failed : s.failed = false
  /-- The flag is set only while a request is outstanding. -/
  busy : s.pending = [] → s.busy = false
  awaited : ∀ t request, s.Waits t request → s.Awaited request
  quiet : (∀ t request, ¬ s.Waits t request) → s.pending = [] ∧ s.completion.value = 0
  served : ∀ t request, s.users.place t = .inside (.served request) → request ∈ s.completed
  returning : ∀ t stage, s.users.place t = .releasing stage →
    ∃ request, stage = .served request ∧ request ∈ s.completed
  numbered : ∀ request, request ∈ s.pending ∨ request ∈ s.completed → request < s.nextRequest

omit [DecidableEq τ] in
theorem inv_start : Inv (start : SynchDevice τ) where
  users := LockSection.inv_start
  failed := rfl
  busy := fun _ => rfl
  awaited := fun t request h => by cases h
  quiet := fun _ => ⟨rfl, rfl⟩
  served := fun t request h => by cases h
  returning := fun t stage h => by cases h
  numbered := fun r h => by simp [start] at h

section Steps

variable {driver : Driver} {s s' : SynchDevice τ} {t u : τ} {r : Nat}

omit [DecidableEq τ] in
/-- There is one waiting thread at most. -/
theorem Inv.waits_unique (h : Inv s) (ht : s.Waits t r) (hu : s.users.Holds u) : u = t :=
  h.users.unique hu (h.users.holds_inside ht)

/--
Thread `t` goes to a place where it does not wait, and nothing happens to the device. It did not
wait before.
-/
theorem Inv.users_step (h : Inv s) {users : LockSection τ DeviceStage} (husers : users.Inv)
    {p : Critical DeviceStage} (hplace : users.place = Function.update s.users.place t p)
    (hold : ∀ r, ¬ s.Waits t r) (hnew : ∀ r, p ≠ .inside (.waiting r))
    (hserved : ∀ r, p = .inside (.served r) → r ∈ s.completed)
    (hreturning : ∀ stage, p = .releasing stage → ∃ r, stage = .served r ∧ r ∈ s.completed) :
    Inv { s with users := users } := by
  have hwaits : ∀ u r, ({ s with users := users } : SynchDevice τ).Waits u r ↔ s.Waits u r := by
    intro u r
    unfold Waits
    rw [show ({ s with users := users } : SynchDevice τ).users = users from rfl, hplace]
    by_cases hu : u = t
    · rw [hu, Function.update_self]
      exact iff_of_false (hnew r) (hold r)
    · rw [Function.update_of_ne hu]
  refine ⟨husers, h.failed, h.busy, fun u r hu => h.awaited u r ((hwaits u r).mp hu),
    fun hnone => h.quiet fun u r hu => hnone u r ((hwaits u r).mpr hu), ?_, ?_, h.numbered⟩
  · intro u r hu
    have hu' : Function.update s.users.place t p u = .inside (.served r) := by
      rw [← hplace]
      exact hu
    by_cases hut : u = t
    · rw [hut, Function.update_self] at hu'
      exact hserved r hu'
    · rw [Function.update_of_ne hut] at hu'
      exact h.served u r hu'
  · intro u stage hu
    have hu' : Function.update s.users.place t p u = .releasing stage := by
      rw [← hplace]
      exact hu
    by_cases hut : u = t
    · rw [hut, Function.update_self] at hu'
      exact hreturning stage hu'
    · rw [Function.update_of_ne hut] at hu'
      exact h.returning u stage hu'

omit [DecidableEq τ] in
/-- Whoever holds the lock and does not wait finds the device quiet. -/
theorem Inv.quiet_of_holds (h : Inv s) (ht : s.users.Holds t) (hnot : ∀ r, ¬ s.Waits t r) :
    s.pending = [] ∧ s.completion.value = 0 := by
  refine h.quiet fun u r hu => ?_
  obtain rfl := h.waits_unique hu ht
  exact hnot r hu

/-- The thread is back from `Acquire`, and makes its request: the assertion is met. -/
theorem Inv.request (h : Inv s) (hpc : s.users.monitor.pc t = .out)
    (hplace : s.users.place t = .acquiring) : Inv (s.request driver t) := by
  have hholds : s.users.Holds t := ⟨hpc, .inl hplace⟩
  have hnot : ∀ r, ¬ s.Waits t r := fun r hr => by cases hplace.symm.trans hr
  obtain ⟨hpending, hvalue⟩ := h.quiet_of_holds hholds hnot
  have hrequest : ∃ busy, driver.request s.busy = some busy := by
    rw [h.busy hpending]
    cases driver <;> exact ⟨_, rfl⟩
  obtain ⟨busy, hrequest⟩ := hrequest
  unfold SynchDevice.request
  rw [hrequest, hpending]
  have hself : ∀ u stage, Function.update s.users.place t (.inside (.waiting s.nextRequest)) u =
      .inside stage → u = t ∧ stage = .waiting s.nextRequest := by
    intro u stage hu
    by_cases hut : u = t
    · rw [hut, Function.update_self] at hu
      cases hu
      exact ⟨hut, rfl⟩
    · rw [Function.update_of_ne hut] at hu
      exact absurd (h.users.unique (h.users.holds_inside hu) hholds) hut
  refine ⟨h.users.stage hholds _, h.failed, fun hnil => ?_, ?_, ?_, ?_, ?_, ?_⟩
  · cases hnil
  · intro u r hu
    obtain ⟨_, hstage⟩ := hself u _ hu
    cases hstage
    exact .inl ⟨rfl, hvalue⟩
  · intro hnone
    exact absurd (Function.update_self ..) (hnone t s.nextRequest)
  · intro u r hu
    obtain ⟨_, hstage⟩ := hself u _ hu
    cases hstage
  · intro u stage hu
    have hut : u ≠ t := by
      rintro rfl
      cases (Function.update_self ..).symm.trans hu
    exact h.returning u stage ((Function.update_of_ne hut ..).symm.trans hu)
  · intro r hr
    show r < s.nextRequest + 1
    rcases hr with hr | hr
    · rw [List.mem_singleton.mp hr]
      exact Nat.lt_succ_self _
    · exact Nat.lt_succ_of_lt (h.numbered r (.inr hr))

/-- One pass through the test of `P`. It returns when the interrupt of the request has come. -/
theorem Inv.waitP (h : Inv s) (hplace : s.Waits t r) (hs : s.waitP t r = some s') : Inv s' := by
  have hholds := h.users.holds_inside hplace
  unfold SynchDevice.waitP at hs
  split at hs
  next => cases hs
  next =>
    by_cases hv : s.completion.value = 0
    · rw [Semaphore.p_of_zero hv] at hs
      obtain rfl := Option.some.inj hs
      exact ⟨h.users, h.failed, h.busy, h.awaited, h.quiet, h.served, h.returning, h.numbered⟩
    · rw [Semaphore.p_of_ne_zero hv] at hs
      obtain rfl := Option.some.inj hs
      have hawaited := (h.awaited t r hplace).resolve_left fun hleft => hv hleft.2
      obtain ⟨hpending, hvalue, hcompleted⟩ := hawaited
      have hself : ∀ u stage, Function.update s.users.place t (.inside (.served r)) u =
          .inside stage → stage = .served r := by
        intro u stage hu
        by_cases hut : u = t
        · rw [hut, Function.update_self] at hu
          cases hu
          rfl
        · rw [Function.update_of_ne hut] at hu
          exact absurd (h.users.unique (h.users.holds_inside hu) hholds) hut
      refine ⟨h.users.stage hholds _, h.failed, h.busy, ?_, ?_, ?_, ?_, h.numbered⟩
      · intro u r' hu
        cases hself u _ hu
      · intro _
        refine ⟨hpending, ?_⟩
        show toInt32 (s.completion.value - 1) = 0
        rw [hvalue]
        rfl
      · intro u r' hu
        cases hself u _ hu
        exact hcompleted
      · intro u stage hu
        have hut : u ≠ t := by
          rintro rfl
          cases (Function.update_self ..).symm.trans hu
        exact h.returning u stage ((Function.update_of_ne hut ..).symm.trans hu)

theorem Inv.doRun (h : Inv s) (hpc : s.users.monitor.pc t = .out)
    (hs : s.doRun driver t = some s') : Inv s' := by
  unfold SynchDevice.doRun at hs
  split at hs
  next => cases hs
  next hplace =>
    obtain rfl := Option.some.inj hs
    exact h.request hpc hplace
  next r hplace => exact h.waitP hplace hs
  next r hplace =>
    obtain ⟨users, hleave, rfl⟩ := Option.map_eq_some_iff.mp hs
    obtain ⟨husers, hplace'⟩ := h.users.leave (h.users.holds_inside hplace) hleave
    refine h.users_step husers hplace' ?_ ?_ ?_ ?_
    · exact fun r hr => by cases hplace.symm.trans hr
    · exact fun r hr => by cases hr
    · exact fun r hr => by cases hr
    · intro stage hstage
      cases hstage
      exact ⟨r, rfl, h.served t r hplace⟩
  next stage hplace =>
    obtain rfl := Option.some.inj hs
    refine h.users_step (h.users.finish hpc) rfl ?_ ?_ ?_ ?_
    · exact fun r hr => by cases hplace.symm.trans hr
    · exact fun r hr => by cases hr
    · exact fun r hr => by cases hr
    · exact fun stage hstage => by cases hstage

omit [DecidableEq τ] in
/-- The interrupt is that of the one request that is waited for. -/
theorem Inv.interrupt (h : Inv s) (hr : r ∈ s.pending) : Inv (s.interrupt r) := by
  have hone : s.pending = [r] ∧ s.completion.value = 0 ∧ ∀ u q, s.Waits u q → q = r := by
    by_cases hnone : ∀ u q, ¬ s.Waits u q
    · rw [(h.quiet hnone).1] at hr
      cases hr
    · push Not at hnone
      obtain ⟨t, q, ht⟩ := hnone
      have hq : ∀ u q, s.Waits u q → s.pending = [q] ∧ s.completion.value = 0 := by
        intro u q hu
        refine (h.awaited u q hu).resolve_right fun hright => ?_
        rw [hright.1] at hr
        cases hr
      obtain ⟨hpending, hvalue⟩ := hq t q ht
      rw [hpending] at hr
      obtain rfl := List.mem_singleton.mp hr
      refine ⟨hpending, hvalue, fun u q' hu => ?_⟩
      have heq : [q'] = [r] := (hq u q' hu).1.symm.trans hpending
      cases heq
      rfl
  obtain ⟨hpending, hvalue, hwaits⟩ := hone
  have hnil : s.pending.erase r = [] := by
    rw [hpending]
    exact List.erase_cons_head ..
  refine ⟨h.users, h.failed, fun _ => rfl, ?_, ?_, ?_, ?_, ?_⟩
  · intro u q hu
    obtain rfl := hwaits u q hu
    refine .inr ⟨hnil, ?_, List.mem_cons_self⟩
    exact Semaphore.v_value_of_zero hvalue
  · intro hnone
    have hquiet := h.quiet hnone
    rw [hpending] at hquiet
    cases hquiet.1
  · exact fun u q hu => List.mem_cons_of_mem _ (h.served u q hu)
  · intro u stage hu
    obtain ⟨q, hstage, hq⟩ := h.returning u stage hu
    exact ⟨q, hstage, List.mem_cons_of_mem _ hq⟩
  · intro q hq
    rcases hq with hq | hq
    · exact h.numbered q (.inl (List.mem_of_mem_erase hq))
    · rcases List.mem_cons.mp hq with rfl | hq
      · exact h.numbered q (.inl hr)
      · exact h.numbered q (.inr hq)

theorem inv_step (s : SynchDevice τ) (e : DeviceEvent τ) (s' : SynchDevice τ) (h : Inv s)
    (hs : s.step driver e = some s') : Inv s' := by
  cases e with
  | call t =>
    simp only [step] at hs
    rw [if_neg (by rw [h.failed]; exact Bool.false_ne_true)] at hs
    obtain ⟨users, henter, rfl⟩ := Option.map_eq_some_iff.mp hs
    obtain ⟨husers, hidle, hplace⟩ := h.users.enter henter
    refine h.users_step husers hplace ?_ ?_ ?_ ?_
    · exact fun r hr => by cases hidle.symm.trans hr
    · exact fun r hr => by cases hr
    · exact fun r hr => by cases hr
    · exact fun stage hstage => by cases hstage
  | run t =>
    simp only [step] at hs
    rw [if_neg (by rw [h.failed]; exact Bool.false_ne_true)] at hs
    split at hs
    next hpc => exact h.doRun hpc hs
    next =>
      obtain ⟨users, hrun, rfl⟩ := Option.map_eq_some_iff.mp hs
      obtain ⟨husers, hplace⟩ := h.users.runLock hrun
      have hsame : ∀ u, users.place u = s.users.place u := fun u => by rw [hplace]
      exact ⟨husers, h.failed, h.busy, fun u r hu => h.awaited u r ((hsame u).symm.trans hu),
        fun hnone => h.quiet fun u r hu => hnone u r ((hsame u).trans hu),
        fun u r hu => h.served u r ((hsame u).symm.trans hu),
        fun u stage hu => h.returning u stage ((hsame u).symm.trans hu), h.numbered⟩
  | interrupt r =>
    simp only [step] at hs
    split at hs
    next hen =>
      obtain rfl := Option.some.inj hs
      exact h.interrupt hen.2
    next => cases hs

end Steps

/-! ## Whole runs -/

/--
**One request at a time.**

Along every run of callers and interrupts: neither the assertion of the device nor the one of the
lock fails, one request at most is outstanding, a caller whose `P` has returned has had the
interrupt of its own request, and the semaphore is 0 whenever no request is outstanding and no
caller is between its request and the return of its `P`.
-/
theorem run_one_request (driver : Driver) {es : List (DeviceEvent τ)} {s : SynchDevice τ}
    (h : run (step driver) start es = some s) :
    s.failed = false ∧ s.users.monitor.aborted = false ∧ s.pending.length ≤ 1 ∧
      (∀ t r, s.users.place t = .inside (.served r) → r ∈ s.completed) ∧
      (∀ t stage, s.users.place t = .releasing stage →
        ∃ r, stage = .served r ∧ r ∈ s.completed) ∧
      (∀ r ∈ s.completed, r < s.nextRequest) ∧
      (s.pending = [] → (∀ t r, ¬ s.Waits t r) → s.completion.value = 0) := by
  have hinv : Inv s := run_invariant inv_step inv_start h
  refine ⟨hinv.failed, hinv.users.aborted, ?_, hinv.served, hinv.returning,
    fun r hr => hinv.numbered r (.inr hr), fun _ hnone => (hinv.quiet hnone).2⟩
  by_cases hnone : ∀ t r, ¬ s.Waits t r
  · rw [(hinv.quiet hnone).1]
    exact Nat.zero_le 1
  · push Not at hnone
    obtain ⟨t, r, ht⟩ := hnone
    rcases hinv.awaited t r ht with ⟨hpending, _⟩ | ⟨hpending, _⟩
    · rw [hpending]
      exact Nat.le_refl 1
    · rw [hpending]
      exact Nat.zero_le 1

/-- Thread 2 waits for the lock while the interrupt for thread 1 comes before its `P`. -/
theorem run_one_request_two :
    ∃ s : SynchDevice Nat, run (step .disk) start [.call 1, .run 1, .run 1, .run 1, .call 2, .run 2,
        .interrupt 0, .run 1] = some s ∧
      s.users.place 1 = .inside (.served 0) ∧ 0 ∈ s.completed := by
  have hrun : run (step .disk) (start : SynchDevice Nat) [.call 1, .run 1, .run 1, .run 1, .call 2,
    .run 2, .interrupt 0, .run 1] = some _ := rfl
  exact ⟨_, rfl, rfl, (run_one_request .disk hrun).2.2.2.1 1 0 rfl⟩

end SynchDevice

end Nachos
