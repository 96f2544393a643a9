import Nachos.Threads.Condition
import Nachos.Lib.LinkedList

/-!
# Synchronized lists (`threads/synchlist.cc`)

A `SynchList` is a `List`, a lock and one condition variable, `listEmpty`. `Append` and
`RemoveFront` are the critical sections of a monitor; `Place` says where a thread is in them, and
`LockState` where it is in the lock and in the condition variable that it calls from there.

`RemoveFront` tests `IsEmpty` again after every `Wait`, because a thread that has not waited can
get the lock, and the item, before the one that was signalled.

* `SynchList.step` — one step of one thread
* `Woken` — the removers that an item in the list can count on
* `PlaceStep` — how a thread goes through `SynchList`
* `run_synchList_fifo` — a queue, along every run
-/

namespace Nachos

open Base

/-- Where a thread is in the code of `SynchList`. -/
inductive Place (α : Type*) where
  /-- In none of the operations. -/
  | idle
  /-- `Append`: in `Acquire`, or back from it and before `list->Append`. -/
  | appending (item : α)
  /-- `Append`: in `Signal`, or back from it. -/
  | signalling
  /-- `RemoveFront`: in `Acquire`, in `Wait`, or at the loop test. -/
  | removing
  /-- In `Release`, or back from it; `RemoveFront` will return the item. -/
  | releasing (item : Option α)
deriving DecidableEq

/-- The item that `RemoveFront` has got, and will return. -/
def Place.returning {α : Type*} : Place α → List α
  | .releasing (some x) => [x]
  | _ => []

/-- A thread calls one of the operations, or goes on where it is. -/
inductive SynchEvent (τ α : Type*) where
  | append (t : τ) (item : α)
  | removeFront (t : τ)
  | run (t : τ)

/-- The thread that takes the step. -/
def SynchEvent.thread {τ α : Type*} : SynchEvent τ α → τ
  | .append t _ => t
  | .removeFront t => t
  | .run t => t

/-- The class `SynchList`, and its threads. -/
structure SynchList (τ α : Type*) where
  list : LinkedList α
  /-- `lock` and `listEmpty`. -/
  monitor : LockState τ Unit
  place : τ → Place α
  /-- An assertion of `List` has failed. -/
  failed : Bool

namespace SynchList

variable {τ α : Type*} [DecidableEq τ] [DecidableEq α]

/-- `SynchList::SynchList`. -/
def start : SynchList τ α where
  list := .empty
  monitor := .start
  place := fun _ => .idle
  failed := false

/-! ## The steps -/

/-- An assertion of `List` fails. -/
def fail (s : SynchList τ α) : SynchList τ α := { s with failed := true }

/-- Thread `t` calls an operation of the lock or of the condition, and will be at `place`. -/
def call (s : SynchList τ α) (t : τ) (c : Call Unit) (place : Place α) : Option (SynchList τ α) :=
  (s.monitor.step (.call t c)).map fun m =>
    { s with monitor := m, place := Function.update s.place t place }

/-- `SynchList::Append` after `Acquire`: `list->Append`, and the call of `Signal`. -/
def appendItem (s : SynchList τ α) (t : τ) (item : α) : Option (SynchList τ α) :=
  match s.list.append item with
  | none => some s.fail
  | some l => ({ s with list := l } : SynchList τ α).call t (.signal ()) .signalling

/-- `SynchList::RemoveFront` after `Acquire`: the loop test, and the call of `Wait` or `Release`. -/
def removeItem (s : SynchList τ α) (t : τ) : Option (SynchList τ α) :=
  if s.list.isEmpty then s.call t (.wait ()) .removing
  else
    match s.list.removeFront with
    | none => some s.fail
    | some (item, l) => ({ s with list := l } : SynchList τ α).call t .release (.releasing item)

/-- The thread goes on in `SynchList`, outside of the lock and the condition. -/
def doRun (s : SynchList τ α) (t : τ) : Option (SynchList τ α) :=
  match s.place t with
  | .idle => none
  | .appending item => s.appendItem t item
  | .signalling => s.call t .release (.releasing none)
  | .removing => s.removeItem t
  | .releasing _ => some { s with place := Function.update s.place t .idle }

/-- What `RemoveFront` returns to its caller when `t` goes on. -/
def result (s : SynchList τ α) (t : τ) : Option α :=
  if s.monitor.pc t = .out then
    match s.place t with
    | .releasing item => item
    | _ => none
  else none

/-- One step. -/
def step (s : SynchList τ α) : SynchEvent τ α → Option (SynchList τ α)
  | .append t item =>
    if s.failed = false ∧ s.place t = .idle then s.call t .acquire (.appending item) else none
  | .removeFront t =>
    if s.failed = false ∧ s.place t = .idle then s.call t .acquire .removing else none
  | .run t =>
    if s.failed then none
    else if s.monitor.pc t = .out then s.doRun t
    else (s.monitor.step (.run t)).map fun m => { s with monitor := m }

/-! ## The log -/

/-- What is to be remembered: calls, what went through the list, and what `RemoveFront` returned. -/
inductive SynchNote (τ α : Type*) where
  | calls (item : α)
  | appends (item : α)
  | removes (t : τ) (item : α)
  | returns (t : τ) (item : α)

/-- What a step puts into the log. -/
def notes (s : SynchList τ α) : SynchEvent τ α → List (SynchNote τ α)
  | .append _ item => [.calls item]
  | .removeFront _ => []
  | .run t =>
    if s.monitor.pc t = .out then
      match s.place t with
      | .appending item => if (s.list.append item).isSome then [.appends item] else []
      | .removing =>
        if s.list.isEmpty then [] else (s.list.removeFront.map (.removes t ·.1)).toList
      | .releasing item => (item.map (.returns t)).toList
      | _ => []
    else []

/-- The items of the calls of `Append`. -/
def called (log : List (SynchNote τ α)) : List α :=
  log.filterMap fun
    | .calls x => some x
    | _ => none

/-- The items that `List::Append` put into the list, in the order of the critical sections. -/
def appended (log : List (SynchNote τ α)) : List α :=
  log.filterMap fun
    | .appends x => some x
    | _ => none

/-- The items that `List::RemoveFront` gave out, in the order of the critical sections. -/
def removed (log : List (SynchNote τ α)) : List α :=
  log.filterMap fun
    | .removes _ x => some x
    | _ => none

/-- Those that it gave to thread `t`. -/
def removedBy (t : τ) (log : List (SynchNote τ α)) : List α :=
  log.filterMap fun
    | .removes u x => if u = t then some x else none
    | _ => none

/-- The items that the calls of `SynchList::RemoveFront` in thread `t` have returned. -/
def returnedBy (t : τ) (log : List (SynchNote τ α)) : List α :=
  log.filterMap fun
    | .returns u x => if u = t then some x else none
    | _ => none

/-- The items that the events of a run append. -/
def appendItems (es : List (SynchEvent τ α)) : List α :=
  es.filterMap fun
    | .append _ x => some x
    | _ => none

section

omit [DecidableEq α]

omit [DecidableEq τ] in
theorem called_append (log log' : List (SynchNote τ α)) :
    called (log ++ log') = called log ++ called log' := List.filterMap_append

omit [DecidableEq τ] in
theorem appended_append (log log' : List (SynchNote τ α)) :
    appended (log ++ log') = appended log ++ appended log' := List.filterMap_append

omit [DecidableEq τ] in
theorem removed_append (log log' : List (SynchNote τ α)) :
    removed (log ++ log') = removed log ++ removed log' := List.filterMap_append

theorem removedBy_sublist (t : τ) (log : List (SynchNote τ α)) :
    List.Sublist (removedBy t log) (removed log) := by
  induction log with
  | nil => exact List.Sublist.refl _
  | cons note log ih =>
    cases note with
    | removes u x =>
      by_cases hu : u = t
      · simpa [removedBy, removed, hu] using ih
      · simpa [removedBy, removed, hu] using ih.trans (List.sublist_cons_self x (removed log))
    | _ => exact ih

theorem removedBy_append (t : τ) (log log' : List (SynchNote τ α)) :
    removedBy t (log ++ log') = removedBy t log ++ removedBy t log' := List.filterMap_append

theorem returnedBy_append (t : τ) (log log' : List (SynchNote τ α)) :
    returnedBy t (log ++ log') = returnedBy t log ++ returnedBy t log' := List.filterMap_append

end

omit [DecidableEq τ] in
theorem called_notes_run (s : SynchList τ α) (t : τ) : called (s.notes (.run t)) = [] := by
  simp only [notes]
  split
  · split
    · split <;> rfl
    · split
      · rfl
      · cases s.list.removeFront <;> rfl
    · next item _ => cases item <;> rfl
    · rfl
  · rfl

/-- The calls in the log are the calls of the run. -/
theorem called_observed {es : List (SynchEvent τ α)} {s s' : SynchList τ α}
    (h : run step s es = some s') : called (observed notes step s es) = appendItems es := by
  induction es generalizing s with
  | nil => rfl
  | cons e es ih =>
    obtain ⟨m, hm, hrest⟩ := run_cons_eq_some.mp h
    rw [observed_cons hm, called_append, ih hrest]
    cases e with
    | append t item => rfl
    | removeFront t => rfl
    | run t => rw [called_notes_run]; rfl

/-! ## The removers that an item can count on -/

/-- A remover that has been signalled and has not got the lock back yet. -/
def Signalled (s : SynchList τ α) (t : τ) : Prop :=
  match s.monitor.pc t with
  | .waiting w => w ∉ s.monitor.waitQueue ()
  | .acquire w => w.isSome = true
  | _ => False

/-- The places in the monitor that `Woken` is about. -/
def WokenAt (queue : List SemId) (place : Place α) : Pc Unit → Prop
  | .waiting w => w ∉ queue
  | .acquire w => w.isSome = true
  | .acquired _ => place = .removing
  | .out => place = .removing
  | _ => False

/-- A remover that has been signalled, or has the lock and is on the way to the loop test. -/
def Woken (s : SynchList τ α) (t : τ) : Prop :=
  WokenAt (s.monitor.waitQueue ()) (s.place t) (s.monitor.pc t)

/-- While a remover waits, there is a woken remover for each item in the list. -/
def Covered (s : SynchList τ α) : Prop :=
  ∃ F : Finset τ, (∀ t, t ∈ F ↔ s.Woken t) ∧
    (s.monitor.waitQueue () ≠ [] → s.list.items.length ≤ F.card)

section Cover

variable {s s' : SynchList τ α} {t u : τ}

omit [DecidableEq τ] [DecidableEq α] in
theorem woken_congr (hpc : s'.monitor.pc u = s.monitor.pc u) (hplace : s'.place u = s.place u)
    (hq : ∀ w, s.monitor.pc u = .waiting w →
      (w ∈ s'.monitor.waitQueue () ↔ w ∈ s.monitor.waitQueue ())) :
    s'.Woken u ↔ s.Woken u := by
  unfold Woken
  rw [hpc, hplace]
  cases hw : s.monitor.pc u with
  | waiting w => exact not_congr (hq w hw)
  | _ => exact Iff.rfl

omit [DecidableEq α] in
/-- One thread only may begin or cease to be woken. -/
theorem Covered.update (h : s.Covered) (hothers : ∀ u, u ≠ t → (s'.Woken u ↔ s.Woken u))
    (hcount : s'.monitor.waitQueue () ≠ [] → s'.list.items.length = 0 ∨
      s.monitor.waitQueue () ≠ [] ∧
        (s'.list.items.length ≤ s.list.items.length ∧ (s.Woken t → s'.Woken t) ∨
          s'.list.items.length + 1 ≤ s.list.items.length ∨
          s'.list.items.length ≤ s.list.items.length + 1 ∧ ¬ s.Woken t ∧ s'.Woken t)) :
    s'.Covered := by
  obtain ⟨F, hF, hcard⟩ := h
  -- the set of woken removers differs from `F` in `t` at most
  by_cases ht' : s'.Woken t
  · refine ⟨insert t F, fun u => ?_, fun hq => ?_⟩
    · by_cases hu : u = t
      · simp [hu, ht']
      · rw [Finset.mem_insert, hF, hothers u hu]
        simp [hu]
    · have hle : F.card ≤ (insert t F).card := Finset.card_le_card (Finset.subset_insert t F)
      rcases hcount hq with hzero | ⟨hq', ⟨hlen, -⟩ | hlen | ⟨hlen, hnot, -⟩⟩
      · omega
      · have := hcard hq'
        omega
      · have := hcard hq'
        omega
      · have := hcard hq'
        have := Finset.card_insert_of_notMem (mt (hF t).mp hnot)
        omega
  · refine ⟨F.erase t, fun u => ?_, fun hq => ?_⟩
    · by_cases hu : u = t
      · simp [hu, ht']
      · rw [Finset.mem_erase, hF, hothers u hu]
        simp [hu]
    · rcases hcount hq with hzero | ⟨hq', ⟨hlen, hkeep⟩ | hlen | ⟨-, -, hnew⟩⟩
      · omega
      · have := hcard hq'
        rw [Finset.erase_eq_of_notMem (mt (hF t).mp (mt hkeep ht'))]
        omega
      · have := hcard hq'
        have := Finset.pred_card_le_card_erase (s := F) (a := t)
        omega
      · exact absurd hnew ht'

end Cover

/-! ## The invariant -/

/-- Where a thread is in the monitor, at each place. `held`: it holds the lock. -/
def Fits (held : Prop) : Place α → Pc Unit → Prop
  | .idle, .out => True
  | .appending _, .acquire none => True
  | .appending _, .acquired none => True
  | .appending _, .out => held
  | .signalling, .signal _ none => True
  | .signalling, .out => held
  | .removing, .acquire _ => True
  | .removing, .acquired _ => True
  | .removing, .release (some _) => True
  | .removing, .waiting _ => True
  | .removing, .out => held
  | .releasing _, .release none => True
  | .releasing _, .out => True
  | _, _ => False

/-- What holds of the monitor and of the list. -/
structure Good (s : SynchList τ α) : Prop where
  lock : s.monitor.Inv
  cond : s.monitor.CondInv
  aborted : s.monitor.aborted = false
  failed : s.failed = false
  counted : s.list.Counted
  fits : ∀ t, Fits (s.monitor.lock.lockHolder = some t) (s.place t) (s.monitor.pc t)
  covered : s.Covered

omit [DecidableEq τ] [DecidableEq α] in
theorem good_start : Good (start : SynchList τ α) where
  lock := LockState.inv_start
  cond := LockState.condInv_start
  aborted := rfl
  failed := rfl
  counted := LinkedList.counted_empty
  fits := fun _ => trivial
  covered := ⟨∅, by simp [Woken, WokenAt, start, LockState.start], fun h => absurd rfl h⟩

omit [DecidableEq α] in
theorem Fits.mono {held held' : Prop} {place : Place α} {pc : Pc Unit} (h : Fits held place pc)
    (himp : held → held') : Fits held' place pc := by
  unfold Fits at *
  split at h <;> first | exact trivial | exact himp h | exact h

/-! ### From one place in the monitor to the next -/

section Fits

variable {held held' : Prop} {place : Place α}

omit [DecidableEq α]

theorem Fits.lockTake {w : Option SemId} (h : Fits held place (.acquire w)) :
    Fits held' place (.acquired w) := by
  cases place <;> cases w <;> first | exact trivial | exact h.elim

theorem Fits.acquired {w : Option SemId} (h : Fits held place (.acquired w)) (hheld : held') :
    Fits held' place .out := by
  cases place <;> cases w <;> first | exact hheld | exact h.elim

theorem Fits.released {w : Option SemId} (h : Fits held place (.release w)) :
    w = none ∧ Fits held' place .out ∨
      ∃ v, w = some v ∧ Fits held' place (.waiting v) := by
  cases place with
  | removing => cases w with
    | none => exact h.elim
    | some v => exact Or.inr ⟨v, rfl, trivial⟩
  | releasing x => cases w with
    | none => exact Or.inl ⟨rfl, trivial⟩
    | some v => exact h.elim
  | _ => cases w <;> exact h.elim

theorem Fits.waiterTake {w : SemId} (h : Fits held place (.waiting w)) :
    Fits held' place (.acquire (some w)) := by
  cases place <;> first | exact trivial | exact h.elim

theorem Fits.post {w : SemId} {b : Option Unit} (h : Fits held place (.signal w b))
    (hheld : held') : b = none ∧ Fits held' place .out := by
  cases place <;> cases b <;> first | exact ⟨rfl, hheld⟩ | exact h.elim

theorem not_fits_broadcast {c : Unit} : ¬ Fits held place (.broadcast c) := by
  intro h
  cases place <;> exact h

end Fits

section Steps

variable {s s' : SynchList τ α} {t : τ}

omit [DecidableEq α]

/--
A step of `t` in the monitor, with what it does to the list and to the place of `t`. What is left
to be shown is about `t` itself and about the items that can be counted on.
-/
theorem Good.step_of (h : Good s) {e : LockEvent τ Unit} {p : Place α}
    (hm : s.monitor.step e = some s'.monitor) (ht : e.thread = t)
    (hplace : s'.place = Function.update s.place t p) (hfailed : s'.failed = false)
    (haborted : s'.monitor.aborted = false) (hcounted : s'.list.Counted)
    (hfit : Fits (s'.monitor.lock.lockHolder = some t) p (s'.monitor.pc t))
    (hcovered : s'.Covered) : Good s' where
  lock := LockState.inv_step _ _ _ h.lock hm
  cond := LockState.condInv_step h.lock h.cond hm
  aborted := haborted
  failed := hfailed
  counted := hcounted
  covered := hcovered
  fits := by
    intro u
    by_cases hu : u = t
    · rw [hu, hplace, Function.update_self]
      exact hfit
    · have hne : e.thread ≠ u := by rw [ht]; exact Ne.symm hu
      rw [hplace, Function.update_of_ne hu, LockState.step_pc_others hm hne]
      exact (h.fits u).mono fun hheld => (h.cond.step_others h.lock hheld hne hm).1

/-! ### Steps inside the monitor -/

/-- The list and the queue of `listEmpty` stay, and `t` does not cease to be woken. -/
theorem Good.monitor_step (h : Good s) {m : LockState τ Unit}
    (hm : s.monitor.step (.run t) = some m) (haborted : m.aborted = s.monitor.aborted)
    (hqueue : m.waitQueue = s.monitor.waitQueue) {pc : Pc Unit} (hpc : m.pc t = pc)
    (hfit : Fits (m.lock.lockHolder = some t) (s.place t) pc)
    (hkeep : s.Woken t → WokenAt (s.monitor.waitQueue ()) (s.place t) pc) :
    Good { s with monitor := m } := by
  subst hpc
  refine h.step_of (t := t) (p := s.place t) hm rfl (Function.update_eq_self t s.place).symm
    h.failed (haborted.trans h.aborted) h.counted hfit ?_
  refine h.covered.update (t := t) (fun u hu => ?_) fun hq => Or.inr ⟨?_, Or.inl ⟨le_rfl, ?_⟩⟩
  · refine woken_congr (LockState.step_pc_others hm (Ne.symm hu)) rfl ?_
    intro w _
    show w ∈ m.waitQueue () ↔ _
    rw [hqueue]
  · rw [← hqueue]
    exact hq
  · unfold Woken at *
    rw [← hqueue] at hkeep
    exact fun hw => hkeep (hqueue ▸ hw)

theorem Good.run_monitor (h : Good s) {m : LockState τ Unit}
    (hm : s.monitor.step (.run t) = some m) : Good { s with monitor := m } := by
  have hfit := h.fits t
  cases LockState.moves_of_step hm with
  | notHeld e u hnot he =>
    rcases he with ⟨c, he⟩ | ⟨he, c, hb⟩
    · cases he
    · cases he
      rw [hb] at hfit
      exact absurd hfit not_fits_broadcast
  | dangling u w hb hsem =>
    rcases hb with hb | ⟨b, hb⟩
    · obtain ⟨sem, hsem', -⟩ := (h.cond.stage w).of_waiting hb
      rw [hsem] at hsem'
      cases hsem'
    · obtain ⟨_, sem, hsem', -⟩ := (h.cond.stage w).of_signal hb
      rw [hsem] at hsem'
      cases hsem'
  | lockSleep u w hb => exact h.monitor_step hm rfl rfl rfl hfit id
  | lockTake u w hb hv =>
    rw [hb] at hfit
    refine h.monitor_step hm rfl rfl (Function.update_self ..) hfit.lockTake ?_
    intro hw
    -- a signalled remover that takes the lock comes to the loop test
    rw [Woken, hb] at hw
    obtain ⟨v, rfl⟩ := Option.isSome_iff_exists.mp hw
    show s.place t = .removing
    cases hp : s.place t <;> rw [hp] at hfit <;> first | rfl | exact hfit.elim
  | acquired u w hb =>
    rw [hb] at hfit
    refine h.monitor_step hm rfl rfl (Function.update_self ..) (hfit.acquired rfl) ?_
    intro hw
    rw [Woken, hb] at hw
    exact hw
  | released u w hb =>
    rw [hb] at hfit
    have hnot : ¬ s.Woken t := by
      rw [Woken, hb]
      exact id
    rcases hfit.released with ⟨rfl, hfit'⟩ | ⟨v, rfl, hfit'⟩
    · exact h.monitor_step hm rfl rfl (Function.update_self ..) hfit' fun hw => absurd hw hnot
    · exact h.monitor_step hm rfl rfl (Function.update_self ..) hfit' fun hw => absurd hw hnot
  | waiterSleep u w sem hb hsem hawake hv => exact h.monitor_step hm rfl rfl rfl hfit id
  | waiterTake u w sem hb hsem hawake hv =>
    rw [hb] at hfit
    exact h.monitor_step hm rfl rfl (Function.update_self ..) hfit.waiterTake fun _ => rfl
  | take e u c b w rest he hb hheld hq =>
    rcases he with ⟨he, -⟩ | ⟨he, rfl⟩
    · cases he
    · cases he
      rw [hb] at hfit
      exact absurd hfit not_fits_broadcast
  | post u w b sem hb hsem =>
    have hheld := h.cond.signaller t w b hb
    rw [hb] at hfit
    obtain ⟨rfl, hfit'⟩ := hfit.post hheld
    refine h.monitor_step hm rfl rfl (Function.update_self ..) hfit' ?_
    intro hw
    rw [Woken, hb] at hw
    exact hw.elim
  | broadcastDone u c hb =>
    rw [hb] at hfit
    exact absurd hfit not_fits_broadcast

/-! ### Calls from `SynchList` -/

theorem step_call {m : LockState τ Unit} (haborted : m.aborted = false) (hpc : m.pc t = .out)
    (c : Call Unit) : m.step (.call t c) = some (m.doCall t c) := by
  simp [LockState.step, haborted, hpc]

/-- The state after a change of the list and a call. -/
def afterCall (s : SynchList τ α) (l : LinkedList α) (t : τ) (c : Call Unit) (p : Place α) :
    SynchList τ α where
  list := l
  monitor := s.monitor.doCall t c
  place := Function.update s.place t p
  failed := s.failed

theorem afterCall_monitor (l : LinkedList α) (c : Call Unit) (p : Place α) :
    (s.afterCall l t c p).monitor = s.monitor.doCall t c := rfl

theorem call_eq (h : Good s) (hpc : s.monitor.pc t = .out) (c : Call Unit) (p : Place α)
    (l : LinkedList α) :
    ({ s with list := l } : SynchList τ α).call t c p = some (s.afterCall l t c p) := by
  unfold call
  rw [show ({ s with list := l } : SynchList τ α).monitor = s.monitor from rfl,
    step_call h.aborted hpc]
  rfl

/-- A call that leaves the queue of `listEmpty` alone. -/
theorem Good.call_quiet (h : Good s) (hpc : s.monitor.pc t = .out) {c : Call Unit} {p : Place α}
    {l : LinkedList α} (haborted : (s.monitor.doCall t c).aborted = false)
    (hqueue : (s.monitor.doCall t c).waitQueue = s.monitor.waitQueue) (hcounted : l.Counted)
    (hfit : Fits ((s.monitor.doCall t c).lock.lockHolder = some t) p ((s.monitor.doCall t c).pc t))
    (hcount : l.items.length ≤ s.list.items.length ∧ ¬ s.Woken t ∨
      l.items.length + 1 ≤ s.list.items.length ∨ s.monitor.waitQueue () = []) :
    Good (s.afterCall l t c p) := by
  have hm := step_call h.aborted hpc c
  refine h.step_of (t := t) hm rfl rfl h.failed haborted hcounted hfit ?_
  refine h.covered.update (t := t) (fun u hu => ?_) fun hq => ?_
  · refine woken_congr (LockState.step_pc_others hm (Ne.symm hu)) (Function.update_of_ne hu ..)
      fun w _ => ?_
    show w ∈ (s.monitor.doCall t c).waitQueue () ↔ _
    rw [hqueue]
  · have hq' : s.monitor.waitQueue () ≠ [] := by
      rw [← hqueue]
      exact hq
    rcases hcount with ⟨hlen, hnot⟩ | hlen | hempty
    · exact Or.inr ⟨hq', Or.inl ⟨hlen, fun hw => absurd hw hnot⟩⟩
    · exact Or.inr ⟨hq', Or.inr (Or.inl hlen)⟩
    · exact absurd hempty hq'

/-- The begin of `Append` and of `RemoveFront`. -/
theorem Good.enter (h : Good s) (hidle : s.place t = .idle) {p : Place α}
    (hp : ∀ held, Fits held p (.acquire none)) (hs : s.call t .acquire p = some s') : Good s' := by
  have hpc : s.monitor.pc t = .out := by
    have hfit := h.fits t
    rw [hidle] at hfit
    cases hb : s.monitor.pc t <;> rw [hb] at hfit <;> first | rfl | exact hfit.elim
  have hnot : ¬ s.Woken t := by
    rw [Woken, hpc, hidle]
    exact nofun
  obtain rfl := Option.some.inj ((call_eq h hpc .acquire p s.list).symm.trans hs)
  refine h.call_quiet hpc h.aborted rfl h.counted ?_ (Or.inl ⟨le_rfl, hnot⟩)
  rw [show (s.monitor.doCall t .acquire).pc t = .acquire none from Function.update_self ..]
  exact hp _

/-- `Release` is called with the lock held. -/
theorem doCall_release {m : LockState τ Unit} (hheld : m.lock.lockHolder = some t) :
    m.doCall t .release =
      { m.goto t (.release none) with lock := { m.lock with lockHolder := none } } := by
  show m.releaseAssert t none = _
  rw [LockState.releaseAssert, if_pos (LockState.isHeldBy_iff.mpr hheld)]

theorem Good.leave (h : Good s) (hpc : s.monitor.pc t = .out)
    (hheld : s.monitor.lock.lockHolder = some t) {x : Option α} {l : LinkedList α}
    (hcounted : l.Counted)
    (hcount : l.items.length ≤ s.list.items.length ∧ ¬ s.Woken t ∨
      l.items.length + 1 ≤ s.list.items.length) :
    Good (s.afterCall l t .release (.releasing x)) := by
  have hcall := doCall_release hheld
  refine h.call_quiet hpc (by rw [hcall]; exact h.aborted) (by rw [hcall]; rfl) hcounted ?_
    (hcount.imp id Or.inl)
  rw [hcall, show (s.monitor.goto t (.release none)).pc t = .release none from
    Function.update_self ..]
  exact trivial

/-- The operation returns to its caller. -/
theorem Good.back (h : Good s) (hpc : s.monitor.pc t = .out) {x : Option α}
    (hplace : s.place t = .releasing x) :
    Good { s with place := Function.update s.place t .idle } where
  lock := h.lock
  cond := h.cond
  aborted := h.aborted
  failed := h.failed
  counted := h.counted
  fits := by
    intro u
    by_cases hu : u = t
    · rw [hu]
      show Fits _ (Function.update s.place t .idle t) (s.monitor.pc t)
      rw [Function.update_self, hpc]
      exact trivial
    · show Fits _ (Function.update s.place t .idle u) (s.monitor.pc u)
      rw [Function.update_of_ne hu]
      exact h.fits u
  covered := by
    refine h.covered.update (t := t) (fun u hu => ?_)
      fun hq => Or.inr ⟨hq, Or.inl ⟨le_rfl, fun hw => ?_⟩⟩
    · exact woken_congr rfl (Function.update_of_ne hu ..) fun _ _ => Iff.rfl
    · rw [Woken, hpc, hplace] at hw
      cases hw

/-- `Signal` is called with the lock held, and there is a waiter. -/
theorem doCall_signal {m : LockState τ Unit} (hheld : m.lock.lockHolder = some t) {w : SemId}
    {rest : List SemId} (hq : m.waitQueue () = w :: rest) :
    m.doCall t (.signal ()) =
      { m.goto t (.signal w none) with waitQueue := Function.update m.waitQueue () rest } := by
  show m.signal t () none = _
  rw [LockState.signal, if_pos (LockState.isHeldBy_iff.mpr hheld), hq]

omit [DecidableEq τ] in
/-- The first waiter is at its `P`: it has let go of the lock that `t` holds. -/
theorem Good.first_waiter (h : Good s) (hpc : s.monitor.pc t = .out)
    (hheld : s.monitor.lock.lockHolder = some t) {w : SemId}
    (hmem : w ∈ s.monitor.waitQueue ()) :
    ∃ v, v ≠ t ∧ s.monitor.pc v = .waiting w ∧ ∀ u, s.monitor.pc u = .waiting w → u = v := by
  obtain ⟨v, -, -, -, -, -, hv, honly⟩ := (h.cond.stage w).of_mem hmem
  have hvt : v ≠ t := by
    rintro rfl
    rw [hpc] at hv
    rcases hv with hv | hv <;> cases hv
  refine ⟨v, hvt, ?_, fun u hu => honly u (by rw [hu]; rfl)⟩
  rcases hv with hv | hv
  · have hown := h.lock.transient v (by rw [hv]; rfl)
    exact absurd (h.lock.owner_unique hown (h.lock.holder t hheld).1) hvt
  · exact hv

/-- `list->Append` and `Signal`: the new item has the waiter that `Signal` takes off the queue. -/
theorem Good.append_signal (h : Good s) (hpc : s.monitor.pc t = .out)
    (hheld : s.monitor.lock.lockHolder = some t) {x : α} (hplace : s.place t = .appending x)
    {l : LinkedList α} (hcounted : l.Counted)
    (hlen : l.items.length = s.list.items.length + 1) :
    Good (s.afterCall l t (.signal ()) .signalling) := by
  have hm := step_call h.aborted hpc (.signal ())
  cases hq : s.monitor.waitQueue () with
  | nil =>
    -- nobody waits, so nobody has to be woken for the new item
    have heq : s.monitor.doCall t (.signal ()) = s.monitor.goto t .out := by
      show s.monitor.signal t () none = _
      rw [LockState.signal, if_pos (LockState.isHeldBy_iff.mpr hheld), hq]
    refine h.call_quiet hpc (by rw [heq]; exact h.aborted) (by rw [heq]; rfl) hcounted ?_
      (Or.inr (Or.inr hq))
    rw [heq, show (s.monitor.goto t .out).pc t = .out from Function.update_self ..]
    exact hheld
  | cons w rest =>
    have heq := doCall_signal hheld hq
    have hmem : w ∈ s.monitor.waitQueue () := by rw [hq]; exact List.mem_cons_self
    obtain ⟨v, hvt, hwaiting, honly⟩ := h.first_waiter hpc hheld hmem
    have hpc' : (s.monitor.doCall t (.signal ())).pc t = .signal w none := by
      rw [heq]
      exact Function.update_self ..
    have hqueue : (s.monitor.doCall t (.signal ())).waitQueue () = rest := by
      rw [heq]
      show Function.update s.monitor.waitQueue () rest () = rest
      rw [Function.update_self]
    have hrest : w ∉ rest := by
      have horder := h.cond.order ()
      rw [hq] at horder
      intro hw
      exact absurd (List.rel_of_pairwise_cons horder hw) (lt_irrefl w)
    refine h.step_of (t := t) hm rfl rfl h.failed ?_ hcounted ?_ ?_
    · rw [afterCall_monitor, heq]
      exact h.aborted
    · rw [afterCall_monitor, hpc']
      exact trivial
    · -- one more item, and with `v` one more woken remover
      refine h.covered.update (t := v) (fun u hu => ?_) fun _ => Or.inr ⟨by rw [hq]; simp, ?_⟩
      · by_cases hut : u = t
        · rw [hut, Woken, Woken, afterCall_monitor, hpc', hpc, hplace]
          exact iff_of_false id (by simp [WokenAt])
        · refine woken_congr (LockState.step_pc_others hm (Ne.symm hut))
            (Function.update_of_ne hut ..) fun y hy => ?_
          have hyw : y ≠ w := by
            rintro rfl
            exact hu (honly u hy)
          rw [afterCall_monitor, hqueue, hq, List.mem_cons]
          simp [hyw]
      · refine Or.inr (Or.inr ⟨le_of_eq hlen, ?_, ?_⟩)
        · rw [Woken, hwaiting]
          exact fun hnot => hnot hmem
        · rw [Woken, afterCall_monitor, LockState.step_pc_others hm (Ne.symm hvt), hwaiting, hqueue]
          exact hrest

/-- `Wait` is called with the lock held. -/
theorem doCall_wait {m : LockState τ Unit} (haborted : m.aborted = false)
    (hheld : m.lock.lockHolder = some t) :
    (m.doCall t (.wait ())).aborted = false ∧
      (m.doCall t (.wait ())).pc t = .release (some m.nextSem) ∧
      (m.doCall t (.wait ())).waitQueue () = m.waitQueue () ++ [m.nextSem] := by
  show (m.wait t ()).aborted = false ∧ (m.wait t ()).pc t = _ ∧ (m.wait t ()).waitQueue () = _
  unfold LockState.wait LockState.releaseAssert
  rw [if_pos (LockState.isHeldBy_iff.mpr hheld), if_pos (by simpa [LockState.isHeldBy] using hheld)]
  refine ⟨haborted, Function.update_self .., ?_⟩
  show Function.update m.waitQueue () (m.waitQueue () ++ [m.nextSem]) () = _
  rw [Function.update_self]

/-- A remover that finds the list empty waits: there is no item that it could leave behind. -/
theorem Good.wait (h : Good s) (hpc : s.monitor.pc t = .out)
    (hheld : s.monitor.lock.lockHolder = some t) (hempty : s.list.items = []) :
    Good (s.afterCall s.list t (.wait ()) .removing) := by
  have hm := step_call h.aborted hpc (.wait ())
  obtain ⟨haborted, hpc', hqueue⟩ := doCall_wait h.aborted hheld
  refine h.step_of (t := t) hm rfl rfl h.failed haborted h.counted ?_ ?_
  · rw [afterCall_monitor, hpc']
    exact trivial
  · refine h.covered.update (t := t) (fun u hu => ?_) fun _ => Or.inl ?_
    · refine woken_congr (LockState.step_pc_others hm (Ne.symm hu)) (Function.update_of_ne hu ..)
        fun y hy => ?_
      -- the others wait for semaphores that are already allocated
      have hne : y ≠ s.monitor.nextSem := by
        rintro rfl
        obtain ⟨sem, hsem, -⟩ := (h.cond.stage _).of_waiting hy
        rw [h.cond.fresh _ le_rfl] at hsem
        cases hsem
      rw [afterCall_monitor, hqueue, List.mem_append]
      simp [hne]
    · show s.list.items.length = 0
      rw [hempty]
      rfl

/-! ## The log and the state -/

/-- The log agrees with the state. -/
structure LogInv (s : SynchList τ α) (log : List (SynchNote τ α)) : Prop where
  good : Good s
  fifo : appended log = removed log ++ s.list.items
  subset : ∀ x ∈ appended log, x ∈ called log
  pending : ∀ t x, s.place t = .appending x → x ∈ called log ∧ x ∉ appended log
  inj : ∀ t u x, s.place t = .appending x → s.place u = .appending x → t = u

/-- `LogInv`, for the logs in which no item is appended twice. -/
def Agrees (s : SynchList τ α) (log : List (SynchNote τ α)) : Prop :=
  (called log).Nodup → LogInv s log

omit [DecidableEq τ] in
theorem logInv_start : LogInv (start : SynchList τ α) [] where
  good := good_start
  fifo := rfl
  subset := by simp [appended]
  pending := by simp [start]
  inj := by simp [start]

variable {log : List (SynchNote τ α)}

omit [DecidableEq τ] in
/-- A step that is not noted, and after which no more threads are about to append. -/
theorem LogInv.silent (h : LogInv s log) (hgood : Good s') (hitems : s'.list.items = s.list.items)
    (hplace : ∀ u x, s'.place u = .appending x → s.place u = .appending x) : LogInv s' log where
  good := hgood
  fifo := by rw [hitems]; exact h.fifo
  subset := h.subset
  pending := fun u x hu => h.pending u x (hplace u x hu)
  inj := fun u v x hu hv => h.inj u v x (hplace u x hu) (hplace v x hv)

omit [DecidableEq τ] in
/-- Notes that are not about the list. -/
theorem LogInv.noted (h : LogInv s log) {ns : List (SynchNote τ α)} (hcalled : called ns = [])
    (happended : appended ns = []) (hremoved : removed ns = []) : LogInv s (log ++ ns) := by
  have hcalled' : called (log ++ ns) = called log := by
    rw [called_append, hcalled, List.append_nil]
  have happended' : appended (log ++ ns) = appended log := by
    rw [appended_append, happended, List.append_nil]
  have hremoved' : removed (log ++ ns) = removed log := by
    rw [removed_append, hremoved, List.append_nil]
  refine ⟨h.good, ?_, ?_, ?_, h.inj⟩
  · rw [happended', hremoved']
    exact h.fifo
  · rw [happended', hcalled']
    exact h.subset
  · rw [happended', hcalled']
    exact h.pending

/-- Thread `t` goes to a place from which it does not append. -/
theorem place_update {p : Place α} (hp : ∀ x, p ≠ .appending x) (u : τ) (x : α)
    (hu : Function.update s.place t p u = .appending x) : s.place u = .appending x := by
  by_cases hut : u = t
  · rw [hut, Function.update_self] at hu
    exact absurd hu (hp x)
  · rwa [Function.update_of_ne hut] at hu

/-- `Append` is called with an item that is not in the log. -/
theorem LogInv.calls (h : LogInv s log) {x : α} (hnew : x ∉ called log) (hgood : Good s')
    (hlist : s'.list = s.list) (hplace : s'.place = Function.update s.place t (.appending x)) :
    LogInv s' (log ++ [.calls x]) := by
  have happended : appended (log ++ [.calls x]) = appended log := by
    rw [appended_append]
    exact List.append_nil _
  have hremoved : removed (log ++ [.calls x]) = removed log := by
    rw [removed_append]
    exact List.append_nil _
  have hcalled : ∀ y, y ∈ called (log ++ [.calls x]) ↔ y ∈ called log ∨ y = x := by
    intro y
    rw [called_append, List.mem_append]
    simp [called]
  have hsplit : ∀ u y, s'.place u = .appending y →
      u = t ∧ y = x ∨ u ≠ t ∧ s.place u = .appending y := by
    intro u y hu
    rw [hplace] at hu
    by_cases hut : u = t
    · rw [hut, Function.update_self, Place.appending.injEq] at hu
      exact Or.inl ⟨hut, hu.symm⟩
    · rw [Function.update_of_ne hut] at hu
      exact Or.inr ⟨hut, hu⟩
  have hold : ∀ u y, s.place u = .appending y → y ≠ x := by
    rintro u y hu rfl
    exact hnew (h.pending u y hu).1
  refine ⟨hgood, ?_, ?_, ?_, ?_⟩
  · rw [happended, hremoved, hlist]
    exact h.fifo
  · intro y hy
    rw [happended] at hy
    exact (hcalled y).mpr (Or.inl (h.subset y hy))
  · intro u y hu
    rw [hcalled, happended]
    rcases hsplit u y hu with ⟨-, rfl⟩ | ⟨-, hu⟩
    · exact ⟨Or.inr rfl, fun hy => hnew (h.subset y hy)⟩
    · exact ⟨Or.inl (h.pending u y hu).1, (h.pending u y hu).2⟩
  · intro u v y hu hv
    rcases hsplit u y hu with ⟨rfl, rfl⟩ | ⟨-, hu⟩
    · rcases hsplit v y hv with ⟨rfl, -⟩ | ⟨-, hv⟩
      · rfl
      · exact absurd rfl (hold v y hv)
    · rcases hsplit v y hv with ⟨-, rfl⟩ | ⟨-, hv⟩
      · exact absurd rfl (hold u y hu)
      · exact h.inj u v y hu hv

/-- `list->Append` with the item of `t`. -/
theorem LogInv.appends (h : LogInv s log) {x : α} (hx : s.place t = .appending x) (hgood : Good s')
    (hitems : s'.list.items = s.list.items ++ [x])
    (hplace : s'.place = Function.update s.place t .signalling) :
    LogInv s' (log ++ [.appends x]) := by
  have happended : appended (log ++ [.appends x]) = appended log ++ [x] := appended_append ..
  have hremoved : removed (log ++ [.appends x]) = removed log := by
    rw [removed_append]
    exact List.append_nil _
  have hcalled : called (log ++ [.appends x]) = called log := by
    rw [called_append]
    exact List.append_nil _
  have hold : ∀ u y, s'.place u = .appending y → s.place u = .appending y := by
    intro u y hu
    rw [hplace] at hu
    exact place_update (by simp) u y hu
  refine ⟨hgood, ?_, ?_, ?_, ?_⟩
  · rw [happended, hremoved, hitems, h.fifo, List.append_assoc]
  · intro y hy
    rw [hcalled]
    rw [happended, List.mem_append, List.mem_singleton] at hy
    rcases hy with hy | rfl
    · exact h.subset y hy
    · exact (h.pending t y hx).1
  · intro u y hu
    rw [hcalled, happended, List.mem_append, List.mem_singleton]
    have hu' := hold u y hu
    refine ⟨(h.pending u y hu').1, ?_⟩
    rintro (hy | rfl)
    · exact (h.pending u y hu').2 hy
    · -- `t` is the only thread with this item, and it does not append any more
      obtain rfl := h.inj u t y hu' hx
      rw [hplace, Function.update_self] at hu
      cases hu
  · exact fun u v y hu hv => h.inj u v y (hold u y hu) (hold v y hv)

omit [DecidableEq τ] in
/-- `list->RemoveFront`. -/
theorem LogInv.removes (h : LogInv s log) {x : α} {xs : List α} (hgood : Good s')
    (hold : s.list.items = x :: xs) (hitems : s'.list.items = xs)
    (hplace : ∀ u y, s'.place u = .appending y → s.place u = .appending y) :
    LogInv s' (log ++ [.removes t x]) := by
  have happended : appended (log ++ [.removes t x]) = appended log := by
    rw [appended_append]
    exact List.append_nil _
  have hremoved : removed (log ++ [.removes t x]) = removed log ++ [x] := removed_append ..
  have hcalled : called (log ++ [.removes t x]) = called log := by
    rw [called_append]
    exact List.append_nil _
  refine ⟨hgood, ?_, ?_, ?_, ?_⟩
  · rw [happended, hremoved, hitems, h.fifo, hold, List.append_assoc]
    rfl
  · rw [happended, hcalled]
    exact h.subset
  · rw [happended, hcalled]
    exact fun u y hu => h.pending u y (hplace u y hu)
  · exact fun u v y hu hv => h.inj u v y (hplace u y hu) (hplace v y hv)

end Steps

/-! ### The steps of `SynchList` -/

section ListSteps

variable {s s' : SynchList τ α} {t : τ} {log : List (SynchNote τ α)}

/-- The thread is back from `Acquire`, and appends. -/
theorem LogInv.appendItem (h : LogInv s log) (hpc : s.monitor.pc t = .out) {x : α}
    (hplace : s.place t = .appending x) (hs : s.appendItem t x = some s') :
    LogInv s' (log ++ s.notes (.run t)) := by
  have hgood := h.good
  have hheld : s.monitor.lock.lockHolder = some t := by
    have hfit := hgood.fits t
    rwa [hplace, hpc] at hfit
  have hnew : x ∉ s.list.items := by
    have hnot := (h.pending t x hplace).2
    rw [h.fifo] at hnot
    exact fun hx => hnot (List.mem_append_right _ hx)
  obtain ⟨l, hl, hcounted, hitems⟩ := hgood.counted.append hnew
  have hnotes : s.notes (.run t) = [.appends x] := by
    simp only [notes, hpc, hplace, hl]
    rfl
  unfold SynchList.appendItem at hs
  rw [hl] at hs
  obtain rfl := Option.some.inj ((call_eq hgood hpc (.signal ()) .signalling l).symm.trans hs)
  rw [hnotes]
  have hlen : l.items.length = s.list.items.length + 1 := by rw [hitems, List.length_append]; rfl
  exact h.appends hplace (hgood.append_signal hpc hheld hplace hcounted hlen) hitems rfl

/-- The thread is back from `Acquire` or from `Wait`, and tests whether the list is empty. -/
theorem LogInv.removeItem (h : LogInv s log) (hpc : s.monitor.pc t = .out)
    (hplace : s.place t = .removing) (hs : s.removeItem t = some s') :
    LogInv s' (log ++ s.notes (.run t)) := by
  have hgood := h.good
  have hheld : s.monitor.lock.lockHolder = some t := by
    have hfit := hgood.fits t
    rwa [hplace, hpc] at hfit
  unfold SynchList.removeItem at hs
  cases hitems : s.list.items with
  | nil =>
    have hempty := hgood.counted.isEmpty_iff.mpr hitems
    have hnotes : s.notes (.run t) = [] := by simp [notes, hpc, hplace, hempty]
    rw [if_pos hempty] at hs
    obtain rfl := Option.some.inj ((call_eq hgood hpc (.wait ()) .removing s.list).symm.trans hs)
    rw [hnotes, List.append_nil]
    exact h.silent (hgood.wait hpc hheld hitems) rfl (place_update (by simp))
  | cons x xs =>
    have hempty : ¬ s.list.isEmpty = true := by
      rw [hgood.counted.isEmpty_iff, hitems]
      simp
    obtain ⟨l, hl, hcounted, hitems'⟩ := hgood.counted.removeFront hitems
    have hnotes : s.notes (.run t) = [.removes t x] := by
      simp only [notes, hpc, hplace, hempty, hl]
      rfl
    rw [if_neg hempty, hl] at hs
    obtain rfl :=
      Option.some.inj ((call_eq hgood hpc .release (.releasing (some x)) l).symm.trans hs)
    have hlen : l.items.length + 1 ≤ s.list.items.length := by rw [hitems, hitems']; rfl
    rw [hnotes]
    exact h.removes (hgood.leave hpc hheld hcounted (Or.inr hlen)) hitems hitems'
      (place_update (by simp))

/-- A thread that is not in the monitor goes on in `SynchList`. -/
theorem LogInv.doRun (h : LogInv s log) (hpc : s.monitor.pc t = .out) (hs : s.doRun t = some s') :
    LogInv s' (log ++ s.notes (.run t)) := by
  have hgood := h.good
  unfold SynchList.doRun at hs
  cases hplace : s.place t with
  | idle => rw [hplace] at hs; cases hs
  | appending x =>
    rw [hplace] at hs
    exact h.appendItem hpc hplace hs
  | signalling =>
    rw [hplace] at hs
    have hheld : s.monitor.lock.lockHolder = some t := by
      have hfit := hgood.fits t
      rwa [hplace, hpc] at hfit
    have hnotes : s.notes (.run t) = [] := by simp [notes, hpc, hplace]
    have hnot : ¬ s.Woken t := by
      rw [Woken, hpc, hplace]
      exact nofun
    obtain rfl :=
      Option.some.inj ((call_eq hgood hpc .release (.releasing none) s.list).symm.trans hs)
    rw [hnotes, List.append_nil]
    exact h.silent (hgood.leave hpc hheld hgood.counted (Or.inl ⟨le_rfl, hnot⟩)) rfl
      (place_update (by simp))
  | removing =>
    rw [hplace] at hs
    exact h.removeItem hpc hplace hs
  | releasing x =>
    rw [hplace] at hs
    obtain rfl := Option.some.inj hs
    have hnotes : s.notes (.run t) = (x.map (.returns t)).toList := by simp [notes, hpc, hplace]
    rw [hnotes]
    refine (h.silent (hgood.back hpc hplace) rfl (place_update (by simp))).noted ?_ ?_ ?_
    all_goals cases x <;> rfl

theorem logInv_step (s : SynchList τ α) (e : SynchEvent τ α) (s' : SynchList τ α)
    (log : List (SynchNote τ α)) (h : Agrees s log) (hs : s.step e = some s') :
    Agrees s' (log ++ s.notes e) := by
  intro hdistinct
  rw [called_append] at hdistinct
  have hlog := h (List.Nodup.of_append_left hdistinct)
  cases e with
  | append t x =>
    have hnew : x ∉ called log := by
      intro hx
      exact List.disjoint_of_nodup_append hdistinct hx (by simp [notes, called])
    simp only [step] at hs
    split at hs
    · next hen =>
      have hgood := hlog.good.enter (p := .appending x) hen.2 (fun _ => trivial) hs
      obtain ⟨m, -, rfl⟩ := Option.map_eq_some_iff.mp hs
      exact hlog.calls hnew hgood rfl rfl
    · cases hs
  | removeFront t =>
    simp only [step] at hs
    split at hs
    · next hen =>
      have hgood := hlog.good.enter (p := .removing) hen.2 (fun _ => trivial) hs
      obtain ⟨m, -, rfl⟩ := Option.map_eq_some_iff.mp hs
      rw [notes, List.append_nil]
      exact hlog.silent hgood rfl (place_update (by simp))
    · cases hs
  | run t =>
    simp only [step] at hs
    rw [if_neg (by rw [hlog.good.failed]; simp)] at hs
    by_cases hpc : s.monitor.pc t = .out
    · rw [if_pos hpc] at hs
      exact hlog.doRun hpc hs
    · have hnotes : s.notes (.run t) = [] := by simp [notes, hpc]
      rw [if_neg hpc] at hs
      obtain ⟨m, hm, rfl⟩ := Option.map_eq_some_iff.mp hs
      rw [hnotes, List.append_nil]
      exact hlog.silent (hlog.good.run_monitor hm) rfl fun _ _ => id

end ListSteps

/-! ## The places of one thread -/

/-- How a step moves its thread in `SynchList`, and what is noted. -/
inductive PlaceStep : SynchEvent τ α → Place α → Place α → List (SynchNote τ α) → Prop where
  | append (t : τ) (x : α) : PlaceStep (.append t x) .idle (.appending x) [.calls x]
  | removeFront (t : τ) : PlaceStep (.removeFront t) .idle .removing []
  /-- In the monitor, or an assertion fails. -/
  | stays (t : τ) (p : Place α) : PlaceStep (.run t) p p []
  | appends (t : τ) (x : α) : PlaceStep (.run t) (.appending x) .signalling [.appends x]
  | signals (t : τ) : PlaceStep (.run t) .signalling (.releasing none) []
  | removes (t : τ) (x : α) : PlaceStep (.run t) .removing (.releasing (some x)) [.removes t x]
  | appended (t : τ) : PlaceStep (.run t) (.releasing none) .idle []
  | returns (t : τ) (x : α) : PlaceStep (.run t) (.releasing (some x)) .idle [.returns t x]

section Places

variable {s s' : SynchList τ α} {t : τ}

omit [DecidableEq α] in
theorem place_of_call {c : Call Unit} {p : Place α} (hs : s.call t c p = some s') :
    s'.place = Function.update s.place t p := by
  obtain ⟨m, -, rfl⟩ := Option.map_eq_some_iff.mp hs
  rfl

omit [DecidableEq α] in
theorem place_of_fail (t : τ) (hs : some s.fail = some s') :
    s'.place = Function.update s.place t (s.place t) := by
  obtain rfl := Option.some.inj hs
  exact (Function.update_eq_self t s.place).symm

theorem placeStep_appendItem {x : α} (hpc : s.monitor.pc t = .out)
    (hplace : s.place t = .appending x) (hs : s.appendItem t x = some s') :
    ∃ p, s'.place = Function.update s.place t p ∧
      PlaceStep (.run t) (s.place t) p (s.notes (.run t)) := by
  unfold SynchList.appendItem at hs
  cases hl : s.list.append x with
  | none =>
    have hnotes : s.notes (.run t) = [] := by simp [notes, hpc, hplace, hl]
    rw [hl] at hs
    rw [hnotes]
    exact ⟨_, place_of_fail t hs, .stays t _⟩
  | some l =>
    have hnotes : s.notes (.run t) = [.appends x] := by simp [notes, hpc, hplace, hl]
    rw [hl] at hs
    rw [hnotes, hplace]
    exact ⟨.signalling, place_of_call (s := { s with list := l }) (c := .signal ()) hs,
      .appends t x⟩

theorem placeStep_removeItem (hpc : s.monitor.pc t = .out) (hplace : s.place t = .removing)
    (hs : s.removeItem t = some s') :
    ∃ p, s'.place = Function.update s.place t p ∧
      PlaceStep (.run t) (s.place t) p (s.notes (.run t)) := by
  unfold SynchList.removeItem at hs
  by_cases hempty : s.list.isEmpty = true
  · have hnotes : s.notes (.run t) = [] := by simp [notes, hpc, hplace, hempty]
    rw [if_pos hempty] at hs
    rw [hnotes, hplace]
    exact ⟨_, place_of_call hs, .stays t _⟩
  · rw [if_neg hempty] at hs
    cases hl : s.list.removeFront with
    | none =>
      have hnotes : s.notes (.run t) = [] := by simp [notes, hpc, hplace, hempty, hl]
      rw [hl] at hs
      rw [hnotes]
      exact ⟨_, place_of_fail t hs, .stays t _⟩
    | some r =>
      have hnotes : s.notes (.run t) = [.removes t r.1] := by
        simp [notes, hpc, hplace, hempty, hl]
      rw [hl] at hs
      rw [hnotes, hplace]
      exact ⟨.releasing (some r.1),
        place_of_call (s := { s with list := r.2 }) (c := .release) hs, .removes t r.1⟩

theorem placeStep_doRun (hpc : s.monitor.pc t = .out) (hs : s.doRun t = some s') :
    ∃ p, s'.place = Function.update s.place t p ∧
      PlaceStep (.run t) (s.place t) p (s.notes (.run t)) := by
  unfold SynchList.doRun at hs
  cases hplace : s.place t with
  | idle =>
    rw [hplace] at hs
    cases hs
  | appending x =>
    rw [hplace] at hs
    exact hplace ▸ placeStep_appendItem hpc hplace hs
  | signalling =>
    have hnotes : s.notes (.run t) = [] := by simp [notes, hpc, hplace]
    rw [hplace] at hs
    rw [hnotes]
    exact ⟨_, place_of_call hs, .signals t⟩
  | removing =>
    rw [hplace] at hs
    exact hplace ▸ placeStep_removeItem hpc hplace hs
  | releasing item =>
    rw [hplace] at hs
    obtain rfl := Option.some.inj hs
    refine ⟨.idle, rfl, ?_⟩
    cases item with
    | none =>
      have hnotes : s.notes (.run t) = [] := by simp [notes, hpc, hplace]
      rw [hnotes]
      exact .appended t
    | some x =>
      have hnotes : s.notes (.run t) = [.returns t x] := by simp [notes, hpc, hplace]
      rw [hnotes]
      exact .returns t x

/-- A step changes the place of one thread at most. -/
theorem placeStep_step {e : SynchEvent τ α} (hs : s.step e = some s') :
    ∃ p, s'.place = Function.update s.place e.thread p ∧
      PlaceStep e (s.place e.thread) p (s.notes e) := by
  cases e with
  | append t x =>
    simp only [step] at hs
    split at hs
    next hen =>
      refine ⟨_, place_of_call hs, ?_⟩
      rw [show s.place (SynchEvent.append t x).thread = .idle from hen.2]
      exact .append t x
    next => cases hs
  | removeFront t =>
    simp only [step] at hs
    split at hs
    next hen =>
      refine ⟨_, place_of_call hs, ?_⟩
      rw [show s.place (SynchEvent.removeFront t : SynchEvent τ α).thread = .idle from hen.2]
      exact .removeFront t
    next => cases hs
  | run t =>
    simp only [step] at hs
    split at hs
    next => cases hs
    next =>
      by_cases hpc : s.monitor.pc t = .out
      · rw [if_pos hpc] at hs
        exact placeStep_doRun hpc hs
      · rw [if_neg hpc] at hs
        obtain ⟨m, -, rfl⟩ := Option.map_eq_some_iff.mp hs
        have hnotes : s.notes (.run t) = [] := by simp [notes, hpc]
        rw [hnotes]
        exact ⟨_, (Function.update_eq_self t s.place).symm, .stays t _⟩

end Places

/-! ## What `RemoveFront` returns -/

/-- The item that thread `t` has removed and that its call has yet to return. -/
def returning (s : SynchList τ α) (t : τ) : List α := (s.place t).returning

/-- Each thread is returned what it removed, call by call; the last item can be on its way still. -/
def Returns (s : SynchList τ α) (log : List (SynchNote τ α)) : Prop :=
  ∀ t, removedBy t log = returnedBy t log ++ s.returning t

omit [DecidableEq α] in
/-- An item that is removed is on its way, until the call in its thread returns it. -/
theorem PlaceStep.returning {e : SynchEvent τ α} {p p' : Place α} {ns : List (SynchNote τ α)}
    (h : PlaceStep e p p' ns) :
    p.returning ++ removedBy e.thread ns = returnedBy e.thread ns ++ p'.returning := by
  cases h with
  | stays t p => exact List.append_nil _
  | removes t x => simp [removedBy, returnedBy, Place.returning, SynchEvent.thread]
  | returns t x => simp [removedBy, returnedBy, Place.returning, SynchEvent.thread]
  | _ => rfl

omit [DecidableEq α] [DecidableEq τ] in
theorem result_eq_some {s : SynchList τ α} {t : τ} {x : α} (h : s.result t = some x) :
    s.monitor.pc t = .out ∧ s.place t = .releasing (some x) := by
  unfold result at h
  split at h
  next hpc =>
    refine ⟨hpc, ?_⟩
    split at h
    next item hplace => rw [hplace, h]
    next => cases h
  next => cases h

theorem returnedBy_notes_run (s : SynchList τ α) (t : τ) :
    returnedBy t (s.notes (.run t)) = (s.result t).toList := by
  unfold notes result
  dsimp only
  by_cases hpc : s.monitor.pc t = .out
  · rw [if_pos hpc, if_pos hpc]
    cases s.place t with
    | appending x =>
      dsimp only
      split <;> rfl
    | removing =>
      dsimp only
      split
      · rfl
      · cases s.list.removeFront <;> rfl
    | releasing item =>
      cases item with
      | none => rfl
      | some x => simp [returnedBy]
    | _ => rfl
  · rw [if_neg hpc, if_neg hpc]
    rfl

omit [DecidableEq α] in
theorem PlaceStep.others {e : SynchEvent τ α} {p p' : Place α} {ns : List (SynchNote τ α)}
    (h : PlaceStep e p p' ns) {u : τ} (hu : u ≠ e.thread) :
    removedBy u ns = [] ∧ returnedBy u ns = [] := by
  cases h with
  | removes t x => exact ⟨by simp [removedBy, show t ≠ u from Ne.symm hu], rfl⟩
  | returns t x => exact ⟨rfl, by simp [returnedBy, show t ≠ u from Ne.symm hu]⟩
  | _ => exact ⟨rfl, rfl⟩

/-- A thread is returned nothing while another one takes a step, or while its own call goes on. -/
theorem returnedBy_run_of_not {s s' : SynchList τ α} {t u : τ} (hs : s.step (.run t) = some s')
    (h : u = t → s.result u = none) : returnedBy u (s.notes (.run t)) = [] := by
  by_cases hu : u = t
  · subst hu
    rw [returnedBy_notes_run, h rfl]
    rfl
  · obtain ⟨p, -, hstep⟩ := placeStep_step hs
    exact (hstep.others hu).2

theorem returning_step {s s' : SynchList τ α} {e : SynchEvent τ α} (hs : s.step e = some s')
    (u : τ) :
    s.returning u ++ removedBy u (s.notes e) = returnedBy u (s.notes e) ++ s'.returning u := by
  obtain ⟨p, hplace, hstep⟩ := placeStep_step hs
  unfold SynchList.returning
  rw [hplace]
  by_cases hu : u = e.thread
  · rw [hu, Function.update_self]
    exact hstep.returning
  · obtain ⟨hremoved, hreturned⟩ := hstep.others hu
    rw [Function.update_of_ne hu, hremoved, hreturned, List.append_nil]
    rfl

theorem returns_step (s : SynchList τ α) (e : SynchEvent τ α) (s' : SynchList τ α)
    (log : List (SynchNote τ α)) (h : Returns s log) (hs : s.step e = some s') :
    Returns s' (log ++ s.notes e) := by
  intro t
  rw [removedBy_append, returnedBy_append, h t, List.append_assoc, List.append_assoc,
    returning_step hs t]

/-! ## A lone appender -/

/-- The item that the thread is about to append. -/
def pending (s : SynchList τ α) (t : τ) : List α :=
  match s.place t with
  | .appending x => [x]
  | _ => []

/-- Thread `t` alone appends, and appends each item before it calls `Append` with the next one. -/
structure Lone (t : τ) (s : SynchList τ α) (log : List (SynchNote τ α)) : Prop where
  others : ∀ u x, s.place u = .appending x → u = t
  called : called log = appended log ++ s.pending t

omit [DecidableEq τ] [DecidableEq α] in
theorem lone_start (t : τ) : Lone t (start : SynchList τ α) [] where
  others := by simp [start]
  called := rfl

section Lone

variable {s s' : SynchList τ α} {t u : τ} {log : List (SynchNote τ α)}

/-- A step changes the place of one thread at most. -/
theorem step_place {e : SynchEvent τ α} (hs : s.step e = some s') :
    ∃ p, s'.place = Function.update s.place e.thread p := by
  obtain ⟨p, hplace, -⟩ := placeStep_step hs
  exact ⟨p, hplace⟩

section

omit [DecidableEq α]

omit [DecidableEq τ] in
theorem pending_of_appending {x : α} (h : s.place t = .appending x) : s.pending t = [x] := by
  rw [pending, h]

omit [DecidableEq τ] in
theorem pending_of_not (h : ∀ x, s.place t ≠ .appending x) : s.pending t = [] := by
  unfold pending
  split
  next x hx => exact absurd hx (h x)
  next => rfl

/-- A step of a thread that is not about to append, before it and after it. -/
theorem Lone.silent (h : Lone t s log) {p : Place α} {ns : List (SynchNote τ α)}
    (hplace : s'.place = Function.update s.place u p) (hold : ∀ x, s.place u ≠ .appending x)
    (hnew : ∀ x, p ≠ .appending x) (hcalled : SynchList.called ns = [])
    (happended : appended ns = []) : Lone t s' (log ++ ns) := by
  have hiff : ∀ v x, s'.place v = .appending x ↔ s.place v = .appending x := by
    intro v x
    rw [hplace]
    by_cases hv : v = u
    · rw [hv, Function.update_self]
      exact iff_of_false (hnew x) (hold x)
    · rw [Function.update_of_ne hv]
  have hpending : s'.pending t = s.pending t := by
    by_cases hex : ∃ x, s.place t = .appending x
    · obtain ⟨x, hx⟩ := hex
      rw [pending_of_appending hx, pending_of_appending ((hiff t x).mpr hx)]
    · rw [pending_of_not fun x hx => hex ⟨x, hx⟩,
        pending_of_not fun x hx => hex ⟨x, (hiff t x).mp hx⟩]
  refine ⟨fun v x hv => h.others v x ((hiff v x).mp hv), ?_⟩
  rw [called_append, appended_append, hcalled, happended, List.append_nil, List.append_nil,
    hpending]
  exact h.called

theorem Lone.calls (h : Lone t s log) (hidle : s.place t = .idle) {x : α}
    (hplace : s'.place = Function.update s.place t (.appending x)) :
    Lone t s' (log ++ [.calls x]) := by
  refine ⟨fun v y hv => ?_, ?_⟩
  · by_cases hvt : v = t
    · exact hvt
    · rw [hplace, Function.update_of_ne hvt] at hv
      exact h.others v y hv
  · have hpending : s'.pending t = [x] :=
      pending_of_appending (by rw [hplace, Function.update_self])
    have hbefore := h.called
    rw [pending_of_not (fun y hy => by rw [hidle] at hy; cases hy), List.append_nil] at hbefore
    rw [called_append, appended_append, hpending, hbefore, List.append_assoc]
    rfl

theorem Lone.appends (h : Lone t s log) {x : α} (hx : s.place t = .appending x) {p : Place α}
    (hp : ∀ y, p ≠ .appending y) (hplace : s'.place = Function.update s.place t p) :
    Lone t s' (log ++ [.appends x]) := by
  refine ⟨fun v y hv => ?_, ?_⟩
  · rw [hplace] at hv
    exact h.others v y (place_update hp v y hv)
  · have hpending : s'.pending t = [] :=
      pending_of_not fun y hy => hp y (by rwa [hplace, Function.update_self] at hy)
    have hbefore := h.called
    rw [pending_of_appending hx] at hbefore
    rw [called_append, appended_append, hpending, hbefore]
    rfl

end

theorem lone_step {e : SynchEvent τ α} (h : Lone t s log) (he : ∀ u x, e = .append u x → u = t)
    (hs : s.step e = some s') : Lone t s' (log ++ s.notes e) := by
  obtain ⟨p, hplace, hstep⟩ := placeStep_step hs
  generalize s.notes e = ns at hstep ⊢
  generalize hfrom : s.place e.thread = q at hstep
  cases hstep with
  | append u x =>
    obtain rfl := he u x rfl
    exact h.calls hfrom hplace
  | stays u q =>
    have hsame : s'.place = s.place := by
      rw [hplace, ← hfrom]
      exact Function.update_eq_self u s.place
    rw [List.append_nil]
    refine ⟨fun v x hv => h.others v x (by rwa [hsame] at hv), ?_⟩
    rw [pending, hsame]
    exact h.called
  | appends u x =>
    obtain rfl := h.others u x hfrom
    exact h.appends hfrom (by simp) hplace
  | removeFront u | signals u | removes u x | appended u | returns u x =>
    exact h.silent hplace (by rw [hfrom]; simp) (by simp) rfl rfl

end Lone

/-! ## Whole runs -/

omit [DecidableEq τ] [DecidableEq α] in
/-- With the lock free nobody is at the loop test: the woken removers are the signalled ones. -/
theorem Good.woken_iff_signalled {s : SynchList τ α} (h : Good s)
    (hfree : s.monitor.lock.semaphore.value = 1) (t : τ) : s.Woken t ↔ s.Signalled t := by
  have hempty : s.monitor.owners = ∅ := by
    have hsum := h.lock.sum
    rw [← Finset.card_eq_zero]
    omega
  have hout : t ∉ s.monitor.owners := by
    rw [hempty]
    exact Finset.notMem_empty t
  unfold Woken Signalled
  cases hpc : s.monitor.pc t with
  | acquired w => exact absurd (h.lock.transient t (by rw [hpc]; rfl)) hout
  | out =>
    refine iff_of_false (fun hplace => hout ?_) id
    have hfit := h.fits t
    rw [hpc, show s.place t = .removing from hplace] at hfit
    exact (h.lock.holder t hfit).1
  | _ => exact Iff.rfl

/--
**A `SynchList` is a queue.**

Along every run of `Append`s, of pairwise distinct items, and `RemoveFront`s: the items that were
removed are the first ones of those appended, and the others are in the list, all in the order of
the critical sections. Each thread is returned what it removed, call by call; the last item can be
on its way still. No assertion fails, so nothing is removed from an empty list. And whenever
the lock is free while a remover sleeps in the queue, every item in the list has a remover that was
signalled and has yet to get the lock.
-/
theorem run_synchList_fifo {es : List (SynchEvent τ α)} {s : SynchList τ α}
    (hdistinct : (appendItems es).Nodup) (h : run step start es = some s) :
    appended (observed notes step start es)
        = removed (observed notes step start es) ++ s.list.items ∧
      removed (observed notes step start es) <+: appended (observed notes step start es) ∧
      Returns s (observed notes step start es) ∧
      s.failed = false ∧ s.monitor.aborted = false ∧
      (s.monitor.lock.semaphore.value = 1 → s.monitor.waitQueue () ≠ [] →
        ∃ F : Finset τ, (∀ t, t ∈ F ↔ s.Signalled t) ∧ s.list.items.length ≤ F.card) := by
  have hlog : LogInv s (observed notes step start es) := by
    have hrun : Agrees s ([] ++ observed notes step start es) :=
      run_observed logInv_step (fun _ => logInv_start) h
    rw [List.nil_append] at hrun
    exact hrun (by rwa [called_observed h])
  have hreturns : Returns s ([] ++ observed notes step start es) :=
    run_observed returns_step (fun _ => rfl) h
  refine ⟨hlog.fifo, ?_, hreturns, hlog.good.failed, hlog.good.aborted, ?_⟩
  · rw [hlog.fifo]
    exact List.prefix_append _ _
  · intro hfree hq
    obtain ⟨F, hF, hcard⟩ := hlog.good.covered
    refine ⟨F, fun t => ?_, hcard hq⟩
    rw [hF, hlog.good.woken_iff_signalled hfree]

/-- Three threads wait. -/
def threeWait : List (SynchEvent Nat Nat) :=
  [1, 2, 4].flatMap fun t => .removeFront t :: List.replicate 4 (.run t)

/-- Thread 3 appends 50, which thread 1 is returned, and then 60, for which thread 2 is woken. -/
def twoItems : List (SynchEvent Nat Nat) :=
  threeWait ++ .append 3 50 :: List.replicate 7 (.run 3) ++ List.replicate 6 (.run 1) ++
    .append 3 60 :: List.replicate 7 (.run 3)

theorem run_synchList_returned :
    ∃ s : SynchList Nat Nat, run step start twoItems = some s ∧
      returnedBy 1 (observed notes step start twoItems) = [50] ∧
      removedBy 1 (observed notes step start twoItems) = [50] ∧
      s.list.items = [60] ∧ s.monitor.waitQueue () = [2] ∧
      ∃ F : Finset Nat, (∀ t, t ∈ F ↔ s.Signalled t) ∧ s.list.items.length ≤ F.card := by
  have hlook : (run step (start : SynchList Nat Nat) twoItems).map (fun s =>
      (s.list.items, s.monitor.waitQueue (), s.monitor.lock.semaphore.value, s.returning 1)) =
    some ([60], [2], 1, []) := by decide +kernel
  have hreturned : returnedBy 1 (observed notes step (start : SynchList Nat Nat) twoItems) =
    [50] := by decide +kernel
  obtain ⟨s, hrun, hs⟩ := Option.map_eq_some_iff.mp hlook
  obtain ⟨hitems, hs⟩ := Prod.mk.inj hs
  obtain ⟨hqueue, hs⟩ := Prod.mk.inj hs
  obtain ⟨hfree, hreturning⟩ := Prod.mk.inj hs
  obtain ⟨-, -, hreturns, -, -, hwoken⟩ := run_synchList_fifo (by decide) hrun
  refine ⟨s, hrun, hreturned, ?_, hitems, hqueue, hwoken hfree (by rw [hqueue]; simp)⟩
  rw [hreturns 1, hreturned, hreturning]
  rfl

end SynchList

end Nachos
