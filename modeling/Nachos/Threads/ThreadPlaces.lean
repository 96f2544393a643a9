import Nachos.Base.Placement
import Nachos.Threads.Scheduler

/-!
# Every thread is in one place

The ready list, the queues of the semaphores, `currentThread` and `toBeDestroyed` are written by six
functions. A thread's status, together with the point where it goes on, tells its place, and the
invariant says that the lists agree: the ready list holds exactly the threads that are ready, and
the queue of a semaphore exactly those that are blocked in its `P`. No assertion of the scheduler
fails as long as this is so.

* `ThreadPlace` — where a thread is
* `Inv` — the invariant, `Inv.moves_of_step` — what a step can do, `Inv.step` — every step keeps it
* `run_one_place` — whole runs
-/

namespace Nachos

open Base

/-- Where a thread is. -/
inductive ThreadPlace (σ : Type) where
  | gone
  | created
  | cpu
  | ready
  | waiting (x : σ)
  | finishing
  /-- None of these: blocked for no reason, or up again after `Finish`. -/
  | lost
deriving DecidableEq

namespace Thread

variable {σ : Type}

def place (th : Thread σ) : ThreadPlace σ :=
  match th.resume, th.status with
  | .finish, .blocked => .finishing
  | .finish, _ => .lost
  | _, .justCreated => .created
  | _, .running => .cpu
  | _, .ready => .ready
  | .p x, .blocked => .waiting x
  | _, .blocked => .lost

/-- A thread in `Finish` is finishing, or lost. -/
theorem resume_ne_finish (th : Thread σ) {q : ThreadPlace σ} (hplace : th.place = q)
    (hfin : q ≠ .finishing) (hlost : q ≠ .lost) : th.resume ≠ .finish := by
  intro hr
  unfold place at hplace
  rw [hr] at hplace
  subst hplace
  cases hs : th.status <;> simp [hs] at hfin hlost

theorem place_with_ready (th : Thread σ) (h : th.resume ≠ .finish) :
    place { th with status := .ready } = .ready := by
  cases hr : th.resume with
  | finish => exact absurd hr h
  | _ => simp [place]

theorem place_with_running (th : Thread σ) (h : th.resume ≠ .finish) :
    place { th with status := .running } = .cpu := by
  cases hr : th.resume with
  | finish => exact absurd hr h
  | _ => simp [place]

theorem place_of_ready (th : Thread σ) (h : th.status = .ready) (hlost : th.place ≠ .lost) :
    th.place = .ready := by
  unfold place at hlost ⊢
  rw [h] at hlost ⊢
  cases hr : th.resume <;> simp_all

theorem status_of_ready (th : Thread σ) (h : th.place = .ready) : th.status = .ready := by
  unfold place at h
  split at h <;> first | assumption | cases h

theorem place_of_justCreated (th : Thread σ) (h : th.status = .justCreated)
    (hlost : th.place ≠ .lost) : th.place = .created := by
  unfold place at hlost ⊢
  rw [h] at hlost ⊢
  cases hr : th.resume <;> simp_all

end Thread

/-- Where a thread is after it has been switched to: in its own code, or in `P`. -/
def Resume.mode {σ : Type} : Resume σ → Mode σ
  | .p x => .test x
  | _ => .user

namespace SchedState

variable {σ : Type}

def place (s : SchedState σ) (t : Nat) : ThreadPlace σ := ((s.thread t).map Thread.place).getD .gone

/-! ## The invariant -/

/-- What the mode says about the place of the current thread. -/
def Current : Mode σ → ThreadPlace σ → Prop
  | .user, q | .test _, q | .switched, q => q = .cpu
  | .sleep false, q | .idle false, q => (∃ x, q = .waiting x) ∨ q = .ready
  | .sleep true, q | .idle true, q => q = .finishing

structure Inv (s : SchedState σ) : Prop where
  aborted : s.aborted = false
  fresh : ∀ t, s.next ≤ t → s.place t = .gone
  current : Current s.mode (s.place s.currentThread)
  ready : Lists s.readyList s.place .ready
  queue : ∀ x, Lists (s.sem x).queue s.place (.waiting x)
  cpu : ∀ t, s.place t = .cpu → t = s.currentThread
  /-- A thread that finishes is the current one, or about to be deleted. -/
  finishing : ∀ t, s.place t = .finishing → t = s.currentThread ∨ s.toBeDestroyed = some t
  doomed : ∀ d, s.toBeDestroyed = some d →
    s.mode = .switched ∧ d ≠ s.currentThread ∧ s.place d = .finishing
  lost : ∀ t, s.place t ≠ .lost

section Reading

variable {s : SchedState σ} {t : Nat} {th : Thread σ}

theorem place_of_thread (ht : s.thread t = some th) : s.place t = th.place := by
  rw [place, ht]
  rfl

theorem place_setThread (s : SchedState σ) (t : Nat) (th : Option (Thread σ)) :
    (s.setThread t th).place = Function.update s.place t ((th.map Thread.place).getD .gone) := by
  funext u
  by_cases hu : u = t
  · subst hu
    simp [place, setThread]
  · simp [place, setThread, hu]

theorem exists_of_place {q : ThreadPlace σ} (h : s.place t = q) (hq : q ≠ .gone) :
    ∃ th, s.thread t = some th ∧ th.place = q := by
  cases ht : s.thread t with
  | none =>
    rw [place, ht] at h
    exact absurd h.symm hq
  | some th => exact ⟨th, rfl, (place_of_thread ht).symm.trans h⟩

end Reading

/-! ## What a step can do -/

/-- `ReadyToRun` of a thread that is not in the list. -/
def readied (s : SchedState σ) (t : Nat) (th : Thread σ) : SchedState σ :=
  { s with readyList := s.readyList ++ [t] }.setThread t (some { th with status := .ready })

/-- `Run` of a thread, from the list `rest` of those behind it. -/
def dispatched (s : SchedState σ) (nextThread : Nat) (rest : List Nat) (th : Thread σ)
    (toBeDestroyed : Option Nat) : SchedState σ :=
  { s with
    readyList := rest
    toBeDestroyed := toBeDestroyed
    currentThread := nextThread
    mode := .switched }.setThread nextThread (some { th with status := .running })

/-- `Sleep` of the current thread. -/
def slept (s : SchedState σ) (resume : Resume σ) (finishing : Bool) : SchedState σ :=
  { s with mode := .sleep finishing }.setThread s.currentThread
    (some { status := .blocked, resume := resume })

variable [DecidableEq σ]

/-- Everything a step can do when no assertion fails. -/
inductive Moves (s : SchedState σ) : SchedEvent σ → SchedState σ → Prop where
  | create (hmode : s.mode = .user) : Moves s .create s.create
  | fork (t : Nat) (th : Thread σ) (hmode : s.mode = .user) (ht : s.thread t = some th)
      (hnew : th.status = .justCreated) : Moves s (.fork t) (s.readied t th)
  /-- There is nobody to yield to. -/
  | alone (hmode : s.mode = .user) (hlist : s.readyList = []) : Moves s .yield s
  | yield (nextThread : Nat) (rest : List Nat) (th thn : Thread σ) (hmode : s.mode = .user)
      (hlist : s.readyList = nextThread :: rest) (ht : s.thread s.currentThread = some th)
      (hn : s.thread nextThread = some thn) :
      Moves s .yield ((s.setThread s.currentThread
        (some { status := .ready, resume := .yield })).dispatched nextThread
          (rest ++ [s.currentThread]) thn s.toBeDestroyed)
  | p (x : σ) (hmode : s.mode = .user) : Moves s (.p x) { s with mode := .test x }
  /-- `V` on a semaphore for which nobody waits. -/
  | v (x : σ) (hmode : s.mode ≠ .switched) (hqueue : (s.sem x).queue = []) :
      Moves s (.v x) (s.setSem x (s.sem x).v)
  | wake (x : σ) (t : Nat) (rest : List Nat) (th : Thread σ) (hmode : s.mode ≠ .switched)
      (hqueue : (s.sem x).queue = t :: rest) (ht : s.thread t = some th) :
      Moves s (.v x) ((s.setSem x (s.sem x).v).readied t th)
  | finish (th : Thread σ) (hmode : s.mode = .user) (ht : s.thread s.currentThread = some th) :
      Moves s .finish (s.slept .finish true)
  | take (x : σ) (hmode : s.mode = .test x) (hvalue : (s.sem x).value ≠ 0) :
      Moves s .go ({ s with mode := .user }.setSem x
        { s.sem x with value := toInt32 ((s.sem x).value - 1) })
  | block (x : σ) (th : Thread σ) (hmode : s.mode = .test x) (hvalue : (s.sem x).value = 0)
      (ht : s.thread s.currentThread = some th) :
      Moves s .go ((s.setSem x { s.sem x with
        queue := (s.sem x).queue ++ [s.currentThread] }).slept (.p x) false)
  | idle (finishing : Bool) (hmode : s.mode = .sleep finishing) (hlist : s.readyList = []) :
      Moves s .go { s with mode := .idle finishing }
  | dispatch (finishing : Bool) (nextThread : Nat) (rest : List Nat) (thn : Thread σ)
      (hmode : s.mode = .sleep finishing) (hlist : s.readyList = nextThread :: rest)
      (hn : s.thread nextThread = some thn) :
      Moves s .go (s.dispatched nextThread rest thn
        (if finishing then some s.currentThread else s.toBeDestroyed))
  | look (finishing : Bool) (hmode : s.mode = .idle finishing) :
      Moves s .go { s with mode := .sleep finishing }
  /-- Behind `SWITCH`, with nobody to delete. -/
  | resume (th : Thread σ) (hmode : s.mode = .switched) (ht : s.thread s.currentThread = some th)
      (hnone : s.toBeDestroyed = none) (hresume : th.resume ≠ .finish) :
      Moves s .go { s with mode := th.resume.mode }
  | destroy (d : Nat) (th : Thread σ) (hmode : s.mode = .switched)
      (ht : s.thread s.currentThread = some th) (hd : s.toBeDestroyed = some d)
      (hne : d ≠ s.currentThread) (hresume : th.resume ≠ .finish) :
      Moves s .go ({ s with
        toBeDestroyed := none
        mode := th.resume.mode }.setThread d none)

section Moves

variable {s s' : SchedState σ} {e : SchedEvent σ}

section

omit [DecidableEq σ]

theorem Inv.thread_of_ready (h : s.Inv) {t : Nat} (ht : t ∈ s.readyList) :
    ∃ th, s.thread t = some th ∧ th.place = .ready :=
  exists_of_place ((h.ready.mem t).mp ht) (by simp)

theorem Inv.thread_of_queue (h : s.Inv) {x : σ} {t : Nat} (ht : t ∈ (s.sem x).queue) :
    ∃ th, s.thread t = some th ∧ th.place = .waiting x :=
  exists_of_place (((h.queue x).mem t).mp ht) (by simp)

theorem Inv.current_cpu (h : s.Inv) (hmode : s.mode = .user ∨ ∃ x, s.mode = .test x) :
    ∃ th, s.thread s.currentThread = some th ∧ th.place = .cpu := by
  have hcur := h.current
  rcases hmode with hmode | ⟨x, hmode⟩
  · rw [hmode] at hcur
    exact exists_of_place hcur (by simp)
  · rw [hmode] at hcur
    exact exists_of_place hcur (by simp)

theorem Inv.place_ne_lost (h : s.Inv) {t : Nat} {th : Thread σ} (ht : s.thread t = some th) :
    th.place ≠ .lost := by
  rw [← place_of_thread ht]
  exact h.lost t

/-- `ReadyToRun` succeeds for a thread that is not ready. -/
theorem readyToRun_eq {t : Nat} {th : Thread σ} (ht : s.thread t = some th)
    (hnot : t ∉ s.readyList) : s.readyToRun t = some (s.readied t th) := by
  simp [readyToRun, ht, hnot, readied]

theorem Inv.notMem_ready (h : s.Inv) {t : Nat} {th : Thread σ} (ht : s.thread t = some th)
    (hplace : th.place ≠ .ready) : t ∉ s.readyList := fun hmem =>
  hplace ((place_of_thread ht).symm.trans ((h.ready.mem t).mp hmem))

theorem run_eq {nextThread : Nat} {thn : Thread σ} {finishing : Bool}
    (hn : s.thread nextThread = some thn) (hnone : s.toBeDestroyed = none) :
    s.run nextThread finishing = some (s.dispatched nextThread s.readyList thn
      (if finishing then some s.currentThread else s.toBeDestroyed)) := by
  simp [SchedState.run, hn, hnone, dispatched]

theorem Inv.toBeDestroyed_none (h : s.Inv) (hmode : s.mode ≠ .switched) :
    s.toBeDestroyed = none := by
  by_contra hne
  obtain ⟨d, hd⟩ := Option.ne_none_iff_exists'.mp hne
  exact hmode (h.doomed d hd).1

end

theorem Inv.moves_yield (h : s.Inv) (hmode : s.mode = .user) :
    ∃ s', s.yield = some s' ∧ Moves s .yield s' := by
  cases hlist : s.readyList with
  | nil => exact ⟨s, by simp [SchedState.yield, hlist], .alone hmode hlist⟩
  | cons nextThread rest =>
    obtain ⟨th, ht, hcpu⟩ := h.current_cpu (Or.inl hmode)
    have hmem : nextThread ∈ s.readyList := by rw [hlist]; exact List.mem_cons_self
    obtain ⟨thn, hn, hready⟩ := h.thread_of_ready hmem
    have hnot := h.notMem_ready ht (by rw [hcpu]; simp)
    rw [hlist, List.mem_cons, not_or] at hnot
    refine ⟨_, ?_, .yield nextThread rest th thn hmode hlist ht hn⟩
    simp [SchedState.yield, hlist, ht, readyToRun, setThread, hnot.2, SchedState.run,
      h.toBeDestroyed_none (by rw [hmode]; simp), Function.update_of_ne (Ne.symm hnot.1), hn,
      dispatched]

theorem Inv.moves_v (h : s.Inv) (hmode : s.mode ≠ .switched) (x : σ) :
    ∃ s', s.v x = some s' ∧ Moves s (.v x) s' := by
  cases hqueue : (s.sem x).queue with
  | nil => exact ⟨_, by simp [SchedState.v, Semaphore.woken, hqueue], .v x hmode hqueue⟩
  | cons t rest =>
    obtain ⟨th, ht, hplace⟩ := h.thread_of_queue (x := x) (t := t)
      (by rw [hqueue]; exact List.mem_cons_self)
    have hnot : t ∉ s.readyList := h.notMem_ready ht (by rw [hplace]; simp)
    refine ⟨_, ?_, .wake x t rest th hmode hqueue ht⟩
    simp only [SchedState.v, Semaphore.woken, hqueue, List.head?_cons]
    exact readyToRun_eq ht hnot

theorem Inv.moves_pTest (h : s.Inv) {x : σ} (hmode : s.mode = .test x) :
    ∃ s', s.pTest x = some s' ∧ Moves s .go s' := by
  obtain ⟨th, ht, hcpu⟩ := h.current_cpu (Or.inr ⟨x, hmode⟩)
  by_cases hvalue : (s.sem x).value = 0
  · have hnot : s.currentThread ∉ (s.sem x).queue := by
      intro hmem
      have hplace := ((h.queue x).mem _).mp hmem
      rw [place_of_thread ht, hcpu] at hplace
      cases hplace
    refine ⟨_, ?_, .block x th hmode hvalue ht⟩
    simp [SchedState.pTest, Semaphore.p_of_zero hvalue, hnot, beginSleep, setSem, ht, slept]
  · refine ⟨_, ?_, .take x hmode hvalue⟩
    simp [SchedState.pTest, Semaphore.p_of_ne_zero hvalue]

theorem Inv.moves_sleepLoop (h : s.Inv) {finishing : Bool} (hmode : s.mode = .sleep finishing) :
    ∃ s', s.sleepLoop finishing = some s' ∧ Moves s .go s' := by
  cases hlist : s.readyList with
  | nil => exact ⟨_, by simp [sleepLoop, hlist], .idle finishing hmode hlist⟩
  | cons nextThread rest =>
    obtain ⟨thn, hn, -⟩ := h.thread_of_ready (t := nextThread)
      (by rw [hlist]; exact List.mem_cons_self)
    refine ⟨_, ?_, .dispatch finishing nextThread rest thn hmode hlist hn⟩
    have hnone := h.toBeDestroyed_none (by rw [hmode]; simp)
    simp only [sleepLoop, hlist]
    exact run_eq hn hnone

theorem Inv.moves_afterSwitch (h : s.Inv) (hmode : s.mode = .switched) :
    ∃ s', s.afterSwitch = some s' ∧ Moves s .go s' := by
  have hcur := h.current
  rw [hmode] at hcur
  obtain ⟨th, ht, hcpu⟩ := exists_of_place hcur (by simp)
  have hresume : th.resume ≠ .finish := th.resume_ne_finish hcpu (by simp) (by simp)
  cases hd : s.toBeDestroyed with
  | none =>
    refine ⟨_, ?_, .resume th hmode ht hd hresume⟩
    simp only [afterSwitch, checkToBeDestroyed, hd, Option.bind_eq_bind, Option.bind_some, ht]
    cases hr : th.resume with
    | finish => exact absurd hr hresume
    | _ => rfl
  | some d =>
    obtain ⟨-, hne, -⟩ := h.doomed d hd
    have ht' : Function.update s.thread d none s.currentThread = some th := by
      rw [Function.update_of_ne hne.symm, ht]
    refine ⟨_, ?_, .destroy d th hmode ht hd hne hresume⟩
    simp only [afterSwitch, checkToBeDestroyed, hd, if_neg hne, Option.bind_eq_bind,
      Option.bind_some, setThread, ht']
    cases hr : th.resume with
    | finish => exact absurd hr hresume
    | _ => rfl

/-- No assertion fails. -/
theorem Inv.moves_of_step (h : s.Inv) (hs : s.step e = some s') : Moves s e s' := by
  unfold SchedState.step at hs
  split at hs
  · next hen =>
    obtain ⟨-, hen⟩ := hen
    obtain ⟨t, hact, hmoves⟩ : ∃ t, s.act e = some t ∧ Moves s e t := by
      cases e with
      | create => exact ⟨_, rfl, .create (by simpa [enabled] using hen)⟩
      | fork t =>
        simp only [enabled, Bool.and_eq_true, decide_eq_true_eq] at hen
        obtain ⟨hmode, hnew⟩ := hen
        obtain ⟨th, ht, hstatus⟩ := Option.map_eq_some_iff.mp hnew
        refine ⟨_, readyToRun_eq ht (h.notMem_ready ht ?_), .fork t th hmode ht hstatus⟩
        rw [th.place_of_justCreated hstatus (h.place_ne_lost ht)]
        simp
      | yield => exact h.moves_yield (by simpa [enabled] using hen)
      | p x => exact ⟨_, rfl, .p x (by simpa [enabled] using hen)⟩
      | v x =>
        refine h.moves_v (fun hsw => ?_) x
        simp [enabled, hsw] at hen
      | finish =>
        have hmode : s.mode = .user := by simpa [enabled] using hen
        obtain ⟨th, ht, -⟩ := h.current_cpu (Or.inl hmode)
        exact ⟨_, by simp [act, beginSleep, ht, slept], .finish th hmode ht⟩
      | go =>
        simp only [enabled, decide_eq_true_eq] at hen
        simp only [act]
        cases hmode : s.mode with
        | user => exact absurd hmode hen
        | test x => exact h.moves_pTest hmode
        | sleep finishing => exact h.moves_sleepLoop hmode
        | idle finishing => exact ⟨_, rfl, .look finishing hmode⟩
        | switched => exact h.moves_afterSwitch hmode
    rw [hact] at hs
    rw [← Option.some.inj hs]
    exact hmoves
  · cases hs

end Moves

/-! ## Every step keeps the invariant -/

section Steps

variable {s s' : SchedState σ} {e : SchedEvent σ}

theorem setSem_self (s : SchedState σ) (x : σ) (sem : Semaphore Nat) :
    (s.setSem x sem).sem x = sem := Function.update_self ..

theorem setSem_of_ne {x y : σ} (hy : y ≠ x) {sem : Semaphore Nat} :
    (s.setSem x sem).sem y = s.sem y := Function.update_of_ne hy ..

section

omit [DecidableEq σ]

theorem readied_sem (s : SchedState σ) (t : Nat) (th : Thread σ) :
    (s.readied t th).sem = s.sem := rfl

theorem slept_sem (s : SchedState σ) (resume : Resume σ) (finishing : Bool) :
    (s.slept resume finishing).sem = s.sem := rfl

theorem place_readied {t : Nat} {th : Thread σ} (hr : th.resume ≠ .finish) :
    (s.readied t th).place = Function.update s.place t .ready := by
  refine (place_setThread ..).trans ?_
  rw [Option.map_some, Option.getD_some, th.place_with_ready hr]
  rfl

theorem place_dispatched {n : Nat} {rest : List Nat} {th : Thread σ} {d : Option Nat}
    (hr : th.resume ≠ .finish) :
    (s.dispatched n rest th d).place = Function.update s.place n .cpu := by
  refine (place_setThread ..).trans ?_
  rw [Option.map_some, Option.getD_some, th.place_with_running hr]
  rfl

theorem update_eq_iff {place : Nat → ThreadPlace σ} {t u : Nat} {q q' : ThreadPlace σ} :
    Function.update place t q' u = q ↔ (u = t ∧ q' = q) ∨ (u ≠ t ∧ place u = q) := by
  by_cases hu : u = t
  · subst hu
    simp
  · simp [hu]

/-- Only the mode changes, and the values of the semaphores. -/
theorem Inv.frame (h : s.Inv) (hplace : s'.place = s.place) (haborted : s'.aborted = s.aborted)
    (hnext : s'.next = s.next) (hcur : s'.currentThread = s.currentThread)
    (hready : s'.readyList = s.readyList) (hqueue : ∀ x, (s'.sem x).queue = (s.sem x).queue)
    (hnone : s.toBeDestroyed = none) (hnone' : s'.toBeDestroyed = none)
    (hmode : Current s'.mode (s.place s.currentThread)) : s'.Inv where
  aborted := haborted.trans h.aborted
  fresh := by rw [hplace, hnext]; exact h.fresh
  current := by rw [hplace, hcur]; exact hmode
  ready := by rw [hready, hplace]; exact h.ready
  queue := fun x => by rw [hqueue, hplace]; exact h.queue x
  cpu := by rw [hplace, hcur]; exact h.cpu
  finishing := by rw [hplace, hcur, hnone', ← hnone]; exact h.finishing
  doomed := fun d hd => by rw [hnone'] at hd; cases hd
  lost := by rw [hplace]; exact h.lost

/-- A thread `t` that is neither on the CPU nor finishing goes to the place `q`. -/
theorem Inv.moved (h : s.Inv) {t : Nat} {q : ThreadPlace σ}
    (hplace : s'.place = Function.update s.place t q) (haborted : s'.aborted = s.aborted)
    (hnext : s.next ≤ s'.next) (ht : t < s'.next)
    (hcur : Current s'.mode (s'.place s'.currentThread))
    (hready : Lists s'.readyList (Function.update s.place t q) .ready)
    (hqueue : ∀ x, Lists (s'.sem x).queue (Function.update s.place t q) (.waiting x))
    (hcpu : ∀ u, u ≠ t → s.place u = .cpu → u = s'.currentThread)
    (hcpu' : q = .cpu → t = s'.currentThread)
    (hfin : ∀ u, u ≠ t → s.place u = .finishing → u = s'.currentThread ∨ s'.toBeDestroyed = some u)
    (hfin' : q = .finishing → t = s'.currentThread)
    (hdoomed : ∀ d, s'.toBeDestroyed = some d →
      s'.mode = .switched ∧ d ≠ s'.currentThread ∧ d ≠ t ∧ s.place d = .finishing)
    (hlost : q ≠ .lost) : s'.Inv where
  aborted := haborted.trans h.aborted
  fresh := by
    intro u hu
    rw [hplace, Function.update_of_ne (by omega)]
    exact h.fresh u (by omega)
  current := hcur
  ready := by rw [hplace]; exact hready
  queue := fun x => by rw [hplace]; exact hqueue x
  cpu := by
    intro u hu
    rw [hplace, update_eq_iff] at hu
    rcases hu with ⟨rfl, hq⟩ | ⟨hne, hu⟩
    · exact hcpu' hq
    · exact hcpu u hne hu
  finishing := by
    intro u hu
    rw [hplace, update_eq_iff] at hu
    rcases hu with ⟨rfl, hq⟩ | ⟨hne, hu⟩
    · exact Or.inl (hfin' hq)
    · exact hfin u hne hu
  doomed := by
    intro d hd
    obtain ⟨hsw, hne, hdt, hp⟩ := hdoomed d hd
    rw [hplace, Function.update_of_ne hdt]
    exact ⟨hsw, hne, hp⟩
  lost := by
    intro u hu
    rw [hplace, update_eq_iff] at hu
    rcases hu with ⟨-, hq⟩ | ⟨-, hu⟩
    · exact hlost hq
    · exact h.lost u hu

theorem Inv.toBeDestroyed_ne_some (h : s.Inv) (hmode : s.mode ≠ .switched) {d : Nat} :
    s.toBeDestroyed ≠ some d := by
  rw [h.toBeDestroyed_none hmode]
  simp

theorem Inv.finishing_current (h : s.Inv) (hmode : s.mode ≠ .switched) {t : Nat}
    (ht : s.place t = .finishing) : t = s.currentThread :=
  (h.finishing t ht).resolve_right (h.toBeDestroyed_ne_some hmode)

theorem Inv.lt_next (h : s.Inv) {t : Nat} (ht : s.place t ≠ .gone) : t < s.next := by
  by_contra hge
  exact ht (h.fresh t (not_lt.mp hge))

theorem Inv.current_lt (h : s.Inv) : s.currentThread < s.next := by
  refine h.lt_next ?_
  intro hgone
  have hcur := h.current
  rw [hgone] at hcur
  rcases hm : s.mode with _ | x | (_ | _) | (_ | _) | _ <;> simp [hm, Current] at hcur

theorem Inv.create (h : s.Inv) (hmode : s.mode = .user) : s.create.Inv := by
  have hgone : s.place s.next = .gone := h.fresh _ le_rfl
  have hcur := h.current
  rw [hmode] at hcur
  have hne : s.currentThread ≠ s.next := by
    intro heq
    rw [heq, hgone] at hcur
    cases hcur
  have hplace : s.create.place = Function.update s.place s.next .created := place_setThread ..
  have hsw : s.mode ≠ .switched := by rw [hmode]; simp
  refine h.moved hplace rfl (Nat.le_succ _) (Nat.lt_succ_self _) ?_
    (h.ready.other (by rw [hgone]; simp) (by simp))
    (fun x => (h.queue x).other (by rw [hgone]; simp) (by simp)) (fun u _ => h.cpu u) (by simp)
    (fun u _ => h.finishing u) (by simp) (fun d hd => absurd hd (h.toBeDestroyed_ne_some hsw))
    (by simp)
  rw [hplace, show s.create.currentThread = s.currentThread from rfl, Function.update_of_ne hne]
  exact h.current

/-- A thread becomes ready: a new one, one that a `V` wakes, or the current one in `Yield`. -/
theorem Inv.readied (h : s.Inv) {t : Nat}
    (hplace : s'.place = Function.update s.place t .ready) (haborted : s'.aborted = s.aborted)
    (hnext : s'.next = s.next) (hcur : s'.currentThread = s.currentThread)
    (hlist : s'.readyList = s.readyList ++ [t]) (hd : s'.toBeDestroyed = s.toBeDestroyed)
    (hqueue : ∀ x, Lists (s'.sem x).queue (Function.update s.place t .ready) (.waiting x))
    (hsw : s.mode ≠ .switched) (hmode : Current s'.mode (s'.place s'.currentThread))
    (hgone : s.place t ≠ .gone) (hready : s.place t ≠ .ready) : s'.Inv := by
  refine h.moved hplace haborted hnext.ge (hnext ▸ h.lt_next hgone) hmode ?_ hqueue ?_ (by simp)
    ?_ (by simp) ?_ (by simp)
  · rw [hlist]
    exact h.ready.append hready
  · intro u _ hu
    rw [hcur]
    exact h.cpu u hu
  · intro u _ hu
    rw [hcur, hd]
    exact h.finishing u hu
  · intro d hd'
    rw [hd] at hd'
    exact absurd hd' (h.toBeDestroyed_ne_some hsw)

theorem Inv.fork (h : s.Inv) {t : Nat} {th : Thread σ} (hmode : s.mode = .user)
    (ht : s.thread t = some th) (hnew : th.status = .justCreated) : (s.readied t th).Inv := by
  have hcreated := th.place_of_justCreated hnew (h.place_ne_lost ht)
  have hresume := th.resume_ne_finish hcreated (by simp) (by simp)
  have hpt : s.place t = .created := (place_of_thread ht).trans hcreated
  have hplace : (s.readied t th).place = _ := place_readied hresume
  have hcur := h.current
  rw [hmode] at hcur
  have hne : s.currentThread ≠ t := by
    rintro rfl
    rw [hpt] at hcur
    cases hcur
  refine h.readied hplace rfl rfl rfl rfl rfl
    (fun x => (h.queue x).other (by rw [hpt]; simp) (by simp)) (by rw [hmode]; simp) ?_
    (by rw [hpt]; simp) (by rw [hpt]; simp)
  rw [hplace, show (s.readied t th).currentThread = s.currentThread from rfl,
    Function.update_of_ne hne]
  exact h.current

theorem Current.ready_of_waiting {m : Mode σ} {x : σ} (h : Current m (.waiting x)) :
    Current m .ready := by
  cases m with
  | user | test y | switched => cases h
  | sleep finishing | idle finishing =>
    cases finishing with
    | false => exact Or.inr rfl
    | true => cases h

end

theorem Inv.wake (h : s.Inv) {x : σ} {t : Nat} {rest : List Nat} {th : Thread σ}
    (hsw : s.mode ≠ .switched) (hqueue : (s.sem x).queue = t :: rest)
    (ht : s.thread t = some th) : ((s.setSem x (s.sem x).v).readied t th).Inv := by
  have hlist := h.queue x
  rw [hqueue] at hlist
  have hwaiting : s.place t = .waiting x := hlist.head
  have hth : th.place = .waiting x := (place_of_thread ht).symm.trans hwaiting
  have hresume := th.resume_ne_finish hth (by simp) (by simp)
  have hplace : ((s.setSem x (s.sem x).v).readied t th).place = Function.update s.place t .ready :=
    place_readied hresume
  refine h.readied hplace rfl rfl rfl rfl rfl ?_ hsw ?_ (by rw [hwaiting]; simp)
    (by rw [hwaiting]; simp)
  · intro y
    rw [readied_sem]
    by_cases hy : y = x
    · rw [hy, setSem_self, Semaphore.v_queue, hqueue]
      exact hlist.tail (by simp)
    · rw [setSem_of_ne hy]
      exact (h.queue y).other (by rw [hwaiting]; simp [Ne.symm hy]) (by simp)
  · rw [hplace]
    show Current s.mode (Function.update s.place t .ready s.currentThread)
    have hcur := h.current
    by_cases hct : s.currentThread = t
    · -- the current thread idles, and a handler wakes it
      rw [hct, hwaiting] at hcur
      rw [hct, Function.update_self]
      exact hcur.ready_of_waiting
    · rw [Function.update_of_ne hct]
      exact hcur

section

omit [DecidableEq σ]

/-- The current thread goes to sleep. -/
theorem Inv.slept (h : s.Inv) {q : ThreadPlace σ} {finishing : Bool}
    (hplace : s'.place = Function.update s.place s.currentThread q)
    (haborted : s'.aborted = s.aborted) (hnext : s'.next = s.next)
    (hcur : s'.currentThread = s.currentThread) (hlist : s'.readyList = s.readyList)
    (hd : s'.toBeDestroyed = s.toBeDestroyed) (hmode' : s'.mode = .sleep finishing)
    (hqueue : ∀ x, Lists (s'.sem x).queue (Function.update s.place s.currentThread q) (.waiting x))
    (hsw : s.mode ≠ .switched) (hcpu : s.place s.currentThread = .cpu)
    (hq : Current (.sleep finishing) q) (hready : q ≠ .ready) (hlost : q ≠ .lost) : s'.Inv := by
  refine h.moved hplace haborted hnext.ge (hnext ▸ h.lt_next (by rw [hcpu]; simp)) ?_ ?_ hqueue
    (fun u hu hp => absurd (h.cpu u hp) hu) (fun _ => hcur.symm)
    (fun u hu hp => absurd (h.finishing_current hsw hp) hu) (fun _ => hcur.symm) ?_ hlost
  · rw [hmode', hplace, hcur, Function.update_self]
    exact hq
  · rw [hlist]
    exact h.ready.other (by rw [hcpu]; simp) hready
  · intro d hd'
    rw [hd] at hd'
    exact absurd hd' (h.toBeDestroyed_ne_some hsw)

/-- `Run`: the first thread of the ready list becomes the current one. -/
theorem Inv.dispatch (h : s.Inv) {finishing : Bool} {n : Nat} {rest : List Nat} {thn : Thread σ}
    (hmode : s.mode = .sleep finishing) (hlist : s.readyList = n :: rest)
    (hn : s.thread n = some thn) :
    (s.dispatched n rest thn
      (if finishing then some s.currentThread else s.toBeDestroyed)).Inv := by
  have hready := h.ready
  rw [hlist] at hready
  have hpn : s.place n = .ready := hready.head
  have hth : thn.place = .ready := (place_of_thread hn).symm.trans hpn
  have hresume := thn.resume_ne_finish hth (by simp) (by simp)
  have hsw : s.mode ≠ .switched := by rw [hmode]; simp
  have hcur := h.current
  rw [hmode] at hcur
  -- the thread that sleeps is not on the CPU any more
  have hnot : s.place s.currentThread ≠ .cpu := by
    intro hcpu
    rw [hcpu] at hcur
    cases finishing with
    | false =>
      rcases hcur with ⟨x, hx⟩ | hx
      · cases hx
      · cases hx
    | true => cases hcur
  have hplace : (s.dispatched n rest thn
      (if finishing then some s.currentThread else s.toBeDestroyed)).place
        = Function.update s.place n .cpu := place_dispatched hresume
  refine h.moved hplace rfl le_rfl (h.lt_next (by rw [hpn]; simp)) ?_ (hready.tail (by simp))
    (fun x => (h.queue x).other (by rw [hpn]; simp) (by simp)) ?_ (fun _ => rfl) ?_ (by simp) ?_
    (by simp)
  · rw [hplace]
    exact Function.update_self ..
  · intro u _ hu
    obtain rfl := h.cpu u hu
    exact absurd hu hnot
  · -- only the current thread can be finishing, and then it is the one to be destroyed
    intro u _ hu
    obtain rfl := h.finishing_current hsw hu
    cases finishing with
    | false =>
      rw [hu] at hcur
      rcases hcur with ⟨x, hx⟩ | hx
      · cases hx
      · cases hx
    | true => exact Or.inr rfl
  · intro d hd
    cases finishing with
    | false => exact absurd hd (h.toBeDestroyed_ne_some hsw)
    | true =>
      obtain rfl : s.currentThread = d := Option.some.inj hd
      have hne : s.currentThread ≠ n := by
        intro heq
        rw [heq, hpn] at hcur
        cases hcur
      exact ⟨rfl, hne, hne, hcur⟩

theorem Inv.yield (h : s.Inv) {n : Nat} {rest : List Nat} {thn : Thread σ}
    (hmode : s.mode = .user) (hlist : s.readyList = n :: rest) (hn : s.thread n = some thn) :
    ((s.setThread s.currentThread (some { status := .ready, resume := .yield })).dispatched n
      (rest ++ [s.currentThread]) thn s.toBeDestroyed).Inv := by
  have hcpu := h.current
  rw [hmode] at hcpu
  have hready := h.ready
  rw [hlist] at hready
  have hne : n ≠ s.currentThread := by
    intro heq
    have hpn := hready.head
    rw [heq, hcpu] at hpn
    cases hpn
  -- as if the current thread went to sleep after it has been put on the ready list
  let s₁ : SchedState σ := { s with
    readyList := s.readyList ++ [s.currentThread]
    mode := .sleep false }.setThread s.currentThread (some { status := .ready, resume := .yield })
  have hplace : s₁.place = Function.update s.place s.currentThread .ready := place_setThread ..
  have h₁ : s₁.Inv := by
    refine h.readied hplace rfl rfl rfl rfl rfl
      (fun x => (h.queue x).other (by rw [hcpu]; simp) (by simp)) (by rw [hmode]; simp) ?_
      (by rw [hcpu]; simp) (by rw [hcpu]; simp)
    rw [hplace]
    exact Or.inr (Function.update_self ..)
  have hlist₁ : s₁.readyList = n :: (rest ++ [s.currentThread]) := by
    show s.readyList ++ [s.currentThread] = _
    rw [hlist]
    rfl
  have hn₁ : s₁.thread n = some thn := (Function.update_of_ne hne ..).trans hn
  exact h₁.dispatch rfl hlist₁ hn₁

theorem current_mode_of_resume (r : Resume σ) : Current r.mode (.cpu : ThreadPlace σ) := by
  cases r <;> rfl

/-- The thread that has finished is deleted. -/
theorem Inv.destroy (h : s.Inv) {d : Nat} {r : Resume σ} (hmode : s.mode = .switched)
    (hd : s.toBeDestroyed = some d) (hs' : s' = { s with
      toBeDestroyed := none
      mode := r.mode }.setThread d none) : s'.Inv := by
  obtain ⟨-, hne, hfin⟩ := h.doomed d hd
  have hplace : s'.place = Function.update s.place d .gone := by rw [hs']; exact place_setThread ..
  have hcpu := h.current
  rw [hmode] at hcpu
  refine h.moved hplace (by rw [hs']; rfl) (by rw [hs']; exact le_rfl)
    (by rw [hs']; exact h.lt_next (by rw [hfin]; simp)) ?_ ?_ ?_ ?_ (by simp) ?_ (by simp) ?_
    (by simp)
  · rw [hplace, hs']
    show Current r.mode (Function.update s.place d .gone s.currentThread)
    rw [Function.update_of_ne hne.symm, hcpu]
    exact current_mode_of_resume r
  · rw [hs']
    exact h.ready.other (by rw [hfin]; simp) (by simp)
  · rw [hs']
    exact fun x => (h.queue x).other (by rw [hfin]; simp) (by simp)
  · rw [hs']
    exact fun u _ => h.cpu u
  · -- nobody is finishing any more
    intro u hu hp
    rcases h.finishing u hp with hcur | hdu
    · rw [hcur, hcpu] at hp
      cases hp
    · rw [hd] at hdu
      exact absurd (Option.some.inj hdu).symm hu
  · intro d' hd'
    rw [hs'] at hd'
    cases hd'

end

theorem Inv.moves (h : s.Inv) (hmoves : Moves s e s') : s'.Inv := by
  have hframe : ∀ {m : Mode σ}, s.mode ≠ .switched → Current m (s.place s.currentThread) →
      ({ s with mode := m } : SchedState σ).Inv := fun hsw hm =>
    h.frame rfl rfl rfl rfl rfl (fun _ => rfl) (h.toBeDestroyed_none hsw)
      (h.toBeDestroyed_none hsw) hm
  have hcur := h.current
  cases hmoves with
  | create hmode => exact h.create hmode
  | fork t th hmode ht hnew => exact h.fork hmode ht hnew
  | alone hmode hlist => exact h
  | yield n rest th thn hmode hlist ht hn => exact h.yield hmode hlist hn
  | p x hmode =>
    rw [hmode] at hcur
    exact hframe (by rw [hmode]; simp) hcur
  | v x hmode hqueue =>
    refine h.frame rfl rfl rfl rfl rfl (fun y => ?_) (h.toBeDestroyed_none hmode)
      (h.toBeDestroyed_none hmode) hcur
    by_cases hy : y = x
    · rw [hy, setSem_self, Semaphore.v_queue, hqueue]
      rfl
    · rw [setSem_of_ne hy]
  | wake x t rest th hmode hqueue ht => exact h.wake hmode hqueue ht
  | finish th hmode ht =>
    rw [hmode] at hcur
    exact h.slept (q := .finishing) (place_setThread ..) rfl rfl rfl rfl rfl rfl
      (fun x => (h.queue x).other (by rw [hcur]; simp) (by simp)) (by rw [hmode]; simp) hcur rfl
      (by simp) (by simp)
  | take x hmode hvalue =>
    have hsw : s.mode ≠ .switched := by rw [hmode]; simp
    rw [hmode] at hcur
    refine h.frame rfl rfl rfl rfl rfl (fun y => ?_) (h.toBeDestroyed_none hsw)
      (h.toBeDestroyed_none hsw) hcur
    by_cases hy : y = x
    · rw [hy, setSem_self]
    · rw [setSem_of_ne hy]
  | block x th hmode hvalue ht =>
    rw [hmode] at hcur
    refine h.slept (q := .waiting x) (place_setThread ..) rfl rfl rfl rfl rfl rfl (fun y => ?_)
      (by rw [hmode]; simp) hcur (Or.inl ⟨x, rfl⟩) (by simp) (by simp)
    rw [slept_sem]
    by_cases hy : y = x
    · rw [hy, setSem_self]
      exact (h.queue x).append (by rw [hcur]; simp)
    · rw [setSem_of_ne hy]
      exact (h.queue y).other (by rw [hcur]; simp) (by simp [Ne.symm hy])
  | idle finishing hmode hlist =>
    rw [hmode] at hcur
    refine hframe (by rw [hmode]; simp) ?_
    cases finishing <;> exact hcur
  | dispatch finishing n rest thn hmode hlist hn => exact h.dispatch hmode hlist hn
  | look finishing hmode =>
    rw [hmode] at hcur
    refine hframe (by rw [hmode]; simp) ?_
    cases finishing <;> exact hcur
  | resume th hmode ht hnone hresume =>
    rw [hmode] at hcur
    exact h.frame rfl rfl rfl rfl rfl (fun _ => rfl) hnone hnone
      (hcur.symm ▸ current_mode_of_resume th.resume)
  | destroy d th hmode ht hd hne hresume => exact h.destroy hmode hd rfl

theorem Inv.step (s : SchedState σ) (e : SchedEvent σ) (s' : SchedState σ) (h : s.Inv)
    (hs : s.step e = some s') : s'.Inv := h.moves (h.moves_of_step hs)

omit [DecidableEq σ] in
theorem inv_start (value : σ → BitVec 32) : (start value).Inv := by
  have hplace : (start value).place = Function.update (fun _ => .gone) 0 .cpu := by
    funext t
    by_cases ht : t = 0
    · subst ht
      rfl
    · simp [place, start, ht]
  have hmoved : ∀ {t q}, (start value).place t = q → q ≠ .gone → t = 0 ∧ q = .cpu := by
    intro t q ht hq
    rw [hplace, update_eq_iff] at ht
    rcases ht with ⟨rfl, rfl⟩ | ⟨-, rfl⟩
    · exact ⟨rfl, rfl⟩
    · exact absurd rfl hq
  exact {
    aborted := rfl
    fresh := by
      intro t ht
      rw [hplace, Function.update_of_ne]
      exact Nat.pos_iff_ne_zero.mp ht
    current := rfl
    ready := ⟨List.nodup_nil, fun t => by
      refine iff_of_false List.not_mem_nil ?_
      intro ht
      cases (hmoved ht (by simp)).2⟩
    queue := fun x => ⟨List.nodup_nil, fun t => by
      refine iff_of_false List.not_mem_nil ?_
      intro ht
      cases (hmoved ht (by simp)).2⟩
    cpu := fun t ht => (hmoved ht (by simp)).1
    finishing := fun t ht => by cases (hmoved ht (by simp)).2
    doomed := fun d hd => by cases hd
    lost := fun t ht => by cases (hmoved ht (by simp)).2 }

end Steps

/-! ## The order of the ready list -/

/-- Those that have entered the ready list. -/
def entered (log : List Traffic) : List Nat :=
  log.filterMap fun
    | .enter t => some t
    | .leave _ => none

/-- Those that have left it. -/
def left (log : List Traffic) : List Nat :=
  log.filterMap fun
    | .enter _ => none
    | .leave t => some t

section Order

variable {s s' : SchedState σ} {e : SchedEvent σ}

theorem entered_append (log log' : List Traffic) :
    entered (log ++ log') = entered log ++ entered log' := List.filterMap_append ..

theorem left_append (log log' : List Traffic) : left (log ++ log') = left log ++ left log' :=
  List.filterMap_append ..

/-- A step appends what enters to the ready list, and takes what leaves from its front. -/
theorem fifo_moves (hmoves : Moves s e s') :
    s.readyList ++ entered (s.traffic e) = left (s.traffic e) ++ s'.readyList := by
  cases hmoves with
  | create | p | finish => exact List.append_nil _
  | fork t th hmode ht hnew => rfl
  | alone hmode hlist => simp [traffic, hlist, entered, left]
  | yield n rest th thn hmode hlist ht hn =>
    simp [traffic, hlist, entered, left, dispatched, setThread]
  | v x hmode hqueue => simp [traffic, Semaphore.woken, hqueue, entered, left, setSem]
  | wake x t rest th hmode hqueue ht =>
    simp [traffic, Semaphore.woken, hqueue, entered, left, setSem, readied, setThread]
  | take x hmode hvalue => simp [traffic, hmode, entered, left, setSem]
  | block x th hmode hvalue ht =>
    simp [traffic, hmode, entered, left, setSem, slept, setThread]
  | idle finishing hmode hlist => simp [traffic, hmode, hlist, entered, left]
  | dispatch finishing n rest thn hmode hlist hn =>
    simp [traffic, hmode, hlist, entered, left, dispatched, setThread]
  | look finishing hmode => simp [traffic, hmode, entered, left]
  | resume th hmode ht hnone hresume => simp [traffic, hmode, entered, left]
  | destroy d th hmode ht hd hne hresume => simp [traffic, hmode, entered, left, setThread]

/-- The ready list is what has entered and not left, in the order of entering. -/
structure Fifo (s : SchedState σ) (log : List Traffic) : Prop where
  inv : s.Inv
  order : entered log = left log ++ s.readyList

theorem Fifo.step (s : SchedState σ) (e : SchedEvent σ) (s' : SchedState σ) (log : List Traffic)
    (h : s.Fifo log) (hs : s.step e = some s') : s'.Fifo (log ++ s.traffic e) where
  inv := Inv.step s e s' h.inv hs
  order := by
    rw [entered_append, left_append, h.order, List.append_assoc, List.append_assoc,
      fifo_moves (h.inv.moves_of_step hs)]

end Order

/-! ## A thread that has finished -/

section Ended

variable {s s' : SchedState σ} {e : SchedEvent σ} {t : Nat}

/-- The thread is in `Finish`, or it is already deleted. -/
def Ended (s : SchedState σ) (t : Nat) : Prop :=
  s.place t = .finishing ∨ (s.place t = .gone ∧ t < s.next)

omit [DecidableEq σ] in
theorem Ended.keep (h : s.Ended t) {u : Nat} {q : ThreadPlace σ} (hne : t ≠ u)
    (hplace : s'.place = Function.update s.place u q) (hnext : s'.next = s.next) : s'.Ended t := by
  unfold Ended
  rw [hplace, hnext, Function.update_of_ne hne]
  exact h

omit [DecidableEq σ] in
theorem Ended.update (h : s.Ended t) {u : Nat} {q : ThreadPlace σ} (hfin : s.place u ≠ .finishing)
    (hgone : s.place u ≠ .gone) (hplace : s'.place = Function.update s.place u q)
    (hnext : s'.next = s.next) : s'.Ended t := by
  refine h.keep ?_ hplace hnext
  rintro rfl
  rcases h with h | ⟨h, -⟩
  · exact hfin h
  · exact hgone h

omit [DecidableEq σ] in
theorem Inv.current_update (h : s.Inv) (hmode : s.mode = .user ∨ ∃ x, s.mode = .test x) :
    s.place s.currentThread ≠ .finishing ∧ s.place s.currentThread ≠ .gone := by
  obtain ⟨th, ht, hcpu⟩ := h.current_cpu hmode
  rw [place_of_thread ht, hcpu]
  exact ⟨by simp, by simp⟩

theorem Ended.moves (h : s.Inv) (hend : s.Ended t) (hmoves : Moves s e s') : s'.Ended t := by
  have hready : ∀ {n rest}, s.readyList = n :: rest →
      s.place n = .ready := fun hlist => (hlist ▸ h.ready).head
  cases hmoves with
  | create hmode =>
    have hne : t ≠ s.next := by
      rintro rfl
      rcases hend with hfin | ⟨-, hlt⟩
      · rw [h.fresh _ le_rfl] at hfin
        cases hfin
      · exact lt_irrefl _ hlt
    have hplace : s.create.place t = s.place t := by
      rw [show s.create.place = _ from place_setThread .., Function.update_of_ne hne]
      rfl
    unfold Ended
    rw [hplace]
    exact hend.imp id fun hg => ⟨hg.1, Nat.lt_succ_of_lt hg.2⟩
  | fork u th hmode hu hnew =>
    have hcreated := th.place_of_justCreated hnew (h.place_ne_lost hu)
    have hp : s.place u = .created := (place_of_thread hu).trans hcreated
    exact hend.update (by rw [hp]; simp) (by rw [hp]; simp) (place_setThread ..) rfl
  | alone hmode hlist => exact hend
  | yield n rest th thn hmode hlist ht hn =>
    have hcur := h.current_update (Or.inl hmode)
    have hplace := place_setThread s s.currentThread (some { status := .ready, resume := .yield })
    have hend₁ := hend.update hcur.1 hcur.2 hplace rfl
    have hne : t ≠ n := by
      rintro rfl
      rcases hend with hfin | ⟨hgone, -⟩
      · rw [hready hlist] at hfin
        cases hfin
      · rw [hready hlist] at hgone
        cases hgone
    exact hend₁.keep hne (place_setThread ..) rfl
  | p x hmode => exact hend
  | v x hmode hqueue => exact hend
  | wake x u rest th hmode hqueue hu =>
    have hp : s.place u = .waiting x := (hqueue ▸ h.queue x).head
    exact hend.update (by rw [hp]; simp) (by rw [hp]; simp) (place_setThread ..) rfl
  | finish th hmode ht =>
    have hcur := h.current_update (Or.inl hmode)
    exact hend.update hcur.1 hcur.2 (place_setThread ..) rfl
  | take x hmode hvalue => exact hend
  | block x th hmode hvalue ht =>
    have hcur := h.current_update (Or.inr ⟨x, hmode⟩)
    exact hend.update hcur.1 hcur.2 (place_setThread ..) rfl
  | idle finishing hmode hlist => exact hend
  | dispatch finishing n rest thn hmode hlist hn =>
    have hp := hready hlist
    exact hend.update (by rw [hp]; simp) (by rw [hp]; simp) (place_setThread ..) rfl
  | look finishing hmode => exact hend
  | resume th hmode ht hnone hresume => exact hend
  | destroy d th hmode ht hd hne hresume =>
    obtain ⟨-, -, hfin⟩ := h.doomed d hd
    by_cases htd : t = d
    · subst htd
      refine Or.inr ⟨?_, h.lt_next (by rw [hfin]; simp)⟩
      rw [place_setThread]
      exact Function.update_self ..
    · exact hend.keep htd (place_setThread ..) rfl

omit [DecidableEq σ] in
/-- Nobody leaves the ready list who has finished. -/
theorem Ended.notMem_traffic (h : s.Inv) (hend : s.Ended t) : .leave t ∉ s.traffic e := by
  have hnot : s.readyList.head? ≠ some t := by
    intro hhead
    have hp := (h.ready.mem t).mp (List.mem_of_head? hhead)
    rcases hend with hfin | ⟨hgone, -⟩
    · rw [hp] at hfin
      cases hfin
    · rw [hp] at hgone
      cases hgone
  cases e with
  | create | p x | finish => simp [traffic]
  | fork u => simp [traffic]
  | v x => simp [traffic]
  | yield =>
    simp only [traffic]
    cases hl : s.readyList.head? with
    | none => simp
    | some n =>
      rw [hl] at hnot
      simpa [eq_comm] using hnot
  | go =>
    simp only [traffic]
    split
    · simpa [eq_comm] using hnot
    · simp

theorem Inv.run_ended {es : List (SchedEvent σ)} (h : s.Inv) (hend : s.Ended t)
    (hrun : Base.run SchedState.step s es = some s') :
    .leave t ∉ observed traffic SchedState.step s es := by
  induction es generalizing s with
  | nil => exact List.not_mem_nil
  | cons e es ih =>
    obtain ⟨u, hu, hrest⟩ := run_cons_eq_some.mp hrun
    rw [observed_cons hu, List.mem_append, not_or]
    exact ⟨hend.notMem_traffic h,
      ih (Inv.step s e u h hu) (hend.moves h (h.moves_of_step hu)) hrest⟩

end Ended

/--
Every thread is in one place, in every state of every run from the start of the kernel.

No assertion fails and no deleted thread is used. No thread is twice in a list or in two lists, and
the threads with status `READY` are in the ready list, which they leave in the order in which they
have entered it. The thread that is about to be deleted is not the current one, and a thread that
has called `Finish` is not taken from the ready list again.
-/
theorem run_one_place {value : σ → BitVec 32} {es : List (SchedEvent σ)} {s : SchedState σ}
    (hrun : Base.run SchedState.step (start value) es = some s) :
    s.aborted = false ∧ s.readyList.Nodup ∧ (∀ x, (s.sem x).queue.Nodup) ∧
      (∀ x t, t ∈ s.readyList → t ∉ (s.sem x).queue) ∧
      (∀ x y t, t ∈ (s.sem x).queue → t ∈ (s.sem y).queue → x = y) ∧
      (∀ t th, s.thread t = some th → (th.status = .ready ↔ t ∈ s.readyList)) ∧
      entered (observed traffic SchedState.step (start value) es)
        = left (observed traffic SchedState.step (start value) es) ++ s.readyList ∧
      (∀ d, s.toBeDestroyed = some d → d ≠ s.currentThread) ∧
      ∀ s' es' u, s.step .finish = some s' → Base.run SchedState.step s' es' = some u →
        .leave s.currentThread ∉ observed traffic SchedState.step s' es' := by
  have hstart : (start value).Fifo [] := ⟨inv_start value, rfl⟩
  obtain ⟨h, horder⟩ := run_observed Fifo.step hstart hrun
  rw [List.nil_append] at horder
  refine ⟨h.aborted, h.ready.nodup, fun x => (h.queue x).nodup, fun x t hr hq => ?_,
    fun x y t hx hy => ?_, fun t th ht => ?_, horder, fun d hd => (h.doomed d hd).2.1,
    fun s' es' u hs hrun' => ?_⟩
  · cases h.ready.disjoint (h.queue x) hr hq
  · exact ThreadPlace.waiting.inj ((h.queue x).disjoint (h.queue y) hx hy)
  · rw [h.ready.mem, place_of_thread ht]
    exact ⟨fun hr => th.place_of_ready hr (h.place_ne_lost ht), fun hp => th.status_of_ready hp⟩
  · have hmoves := h.moves_of_step hs
    refine (h.moves hmoves).run_ended ?_ hrun'
    cases hmoves with
    | finish th hmode ht =>
      refine Or.inl ?_
      rw [show (s.slept .finish true).place = _ from place_setThread ..]
      exact Function.update_self ..

/--
The main thread forks a thread and blocks. The other one finishes, and while it idles a handler
wakes the main thread, which deletes it. Then the main thread blocks again with nobody else there,
and is woken while it idles itself.
-/
def idleTwice : List (SchedEvent Unit) :=
  [.create, .fork 1, .p (), .go, .go, .go, .finish, .go, .v (), .go, .go, .go, .go,
    .p (), .go, .go, .v (), .go, .go, .go, .go]

theorem run_one_place_idle_twice :
    ∃ s, Base.run SchedState.step (start fun _ : Unit => 0) idleTwice = some s ∧
      s.aborted = false ∧ s.currentThread = 0 ∧ s.mode = .user ∧ s.place 1 = .gone := by
  obtain ⟨s, hrun, hcur, hmode, hgone⟩ : ∃ s,
      Base.run SchedState.step (start fun _ : Unit => 0) idleTwice = some s ∧
        s.currentThread = 0 ∧ s.mode = .user ∧ s.place 1 = .gone := ⟨_, rfl, rfl, rfl, rfl⟩
  exact ⟨s, hrun, (run_one_place hrun).1, hcur, hmode, hgone⟩

end SchedState

end Nachos
