import Nachos.Threads.CriticalSection

/-!
# Console input (`userprog/synchconsole.cc`, `machine/console.cc`)

`ConsoleInput` buffers one character in `incoming`, where `EOF` says that there is none. The poll
for the next one is scheduled by `GetChar`, and only if it has found a character. A `char` is
signed, so the byte `0xff` is `EOF`: it is read and handed over, but then nobody polls again.

Two fields are not in the program: `full` says whether `incoming` is a character that has not been
handed over, and `returned` collects the characters in the order in which the calls complete. A
call completes when it gives the lock back; all it does after that is to return its character.

* `SynchConsoleInput.step` — one step of a thread, or a poll
* `Delivered` — the characters are the bytes of the input, and it goes on
* `run_input_delivered_iff` — an input is delivered if it has `0xff` at its end at most
-/

namespace Nachos

open Base

/-- `EOF`, as a `char`. -/
def eof : BitVec 8 := 0xff

/-- Where a thread is in `SynchConsoleInput::GetChar`, between `Acquire` and `Release`. -/
inductive InputStage where
  /-- In `waitFor->P()`. -/
  | waiting
  /-- `P` has returned. -/
  | taken
  /-- In `Release`; `GetChar` will return the character. -/
  | got (ch : BitVec 8)
deriving DecidableEq

/-- A thread calls `GetChar` or goes on in it, or a poll comes and finds the file ready or not. -/
inductive InputEvent (τ : Type*) where
  | call (t : τ)
  | run (t : τ)
  | poll (ready : Bool)

/-- The classes `SynchConsoleInput` and `ConsoleInput`. -/
structure SynchConsoleInput (τ : Type*) where
  users : LockSection τ InputStage
  waitFor : Semaphore τ
  incoming : BitVec 8
  /-- What is left of the file. -/
  input : List (BitVec 8)
  /-- The scheduled `ConsoleReadInt`s. -/
  polls : Nat
  full : Bool
  returned : List (BitVec 8)
  /-- An assertion has failed. -/
  failed : Bool

namespace SynchConsoleInput

variable {τ : Type*} [DecidableEq τ]

/-- A console that reads this file. -/
def start (input : List (BitVec 8)) : SynchConsoleInput τ where
  users := .start
  waitFor := .new 0
  incoming := eof
  input := input
  polls := 1
  full := false
  returned := []
  failed := false

/-! ## The steps -/

/-- `ConsoleInput::CallBack`. -/
def callBack (s : SynchConsoleInput τ) (ready : Bool) : SynchConsoleInput τ :=
  let s := { s with polls := s.polls - 1 }
  if s.incoming ≠ eof then { s with failed := true }
  else if !ready then { s with polls := s.polls + 1 }
  else
    match s.input with
    -- the end of the file: no poll is scheduled
    | [] => { s with waitFor := s.waitFor.v }
    | c :: input =>
      { s with
        incoming := c
        input := input
        full := true
        waitFor := s.waitFor.v }

/-- One pass through the test of `waitFor->P()`. -/
def waitP (s : SynchConsoleInput τ) (t : τ) : Option (SynchConsoleInput τ) :=
  if t ∈ s.waitFor.queue then none
  else
    match s.waitFor.p t with
    | (sem, false) => some { s with waitFor := sem }
    | (sem, true) =>
      some { s with
        waitFor := sem
        users := s.users.goto t (.inside .taken) }

/-- `ConsoleInput::GetChar`. -/
def consoleGetChar (s : SynchConsoleInput τ) : SynchConsoleInput τ × BitVec 8 :=
  ({ s with
      polls := if s.incoming ≠ eof then s.polls + 1 else s.polls
      incoming := eof
      full := false },
    s.incoming)

/-- `SynchConsoleInput::GetChar` after `P`, up to the `V` of `Release`. -/
def getChar (s : SynchConsoleInput τ) (t : τ) : Option (SynchConsoleInput τ) :=
  let (s, ch) := s.consoleGetChar
  (s.users.leave t (.got ch)).map fun users =>
    { s with
      users := users
      returned := s.returned ++ [ch] }

/-- The thread goes on outside of the lock. -/
def doRun (s : SynchConsoleInput τ) (t : τ) : Option (SynchConsoleInput τ) :=
  match s.users.place t with
  | .idle => none
  | .acquiring => some { s with users := s.users.goto t (.inside .waiting) }
  | .inside .waiting => s.waitP t
  | .inside .taken => s.getChar t
  | .inside (.got _) => none
  | .releasing _ => some { s with users := s.users.goto t .idle }

/-- One step. -/
def step (s : SynchConsoleInput τ) : InputEvent τ → Option (SynchConsoleInput τ)
  | .call t =>
    if s.failed then none else (s.users.enter t).map fun users => { s with users := users }
  | .run t =>
    if s.failed then none
    else if s.users.monitor.pc t = .out then s.doRun t
    else (s.users.runLock t).map fun users => { s with users := users }
  | .poll ready => if s.failed = false ∧ s.polls ≠ 0 then some (s.callBack ready) else none

/-! ## The invariant -/

/-- The character that has been read and not been handed over. -/
def unread (s : SynchConsoleInput τ) : List (BitVec 8) := if s.full then [s.incoming] else []

/--
The characters are the bytes of the input, in their order, with one `EOF` behind the last one, and
while there is more to be read it will be.
-/
structure Delivered (input : List (BitVec 8)) (s : SynchConsoleInput τ) : Prop where
  failed : s.failed = false
  exact : s.returned ++ s.unread ++ s.input = input ∨
    s.unread = [] ∧ s.input = [] ∧ s.returned = input ++ [eof]
  alive : s.input ≠ [] → s.full = true ∨ 0 < s.polls

/-- A character, or the end of the file, is to be handed over. -/
structure Loaded (input : List (BitVec 8)) (s : SynchConsoleInput τ) : Prop where
  polls : s.polls = 0
  content : s.full = true ∧ s.returned ++ s.incoming :: s.input = input ∨
    s.full = false ∧ s.incoming = eof ∧ s.input = [] ∧ s.returned = input

/-- The thread is back from `P`, and about to take what there is. -/
def Takes (s : SynchConsoleInput τ) (t : τ) : Prop := s.users.place t = .inside .taken

/-- Who has to do something next. -/
inductive Phase (input : List (BitVec 8)) (s : SynchConsoleInput τ) : Prop where
  /-- The poll is scheduled. -/
  | polling (hvalue : s.waitFor.value = 0) (hnone : ∀ t, ¬ s.Takes t) (hpolls : s.polls = 1)
      (hincoming : s.incoming = eof) (hfull : s.full = false)
      (htext : s.returned ++ s.input = input)
  /-- `V` has been called. -/
  | posted (hvalue : s.waitFor.value = 1) (hnone : ∀ t, ¬ s.Takes t) (hloaded : s.Loaded input)
  /-- A thread is about to take the character. -/
  | taken (hvalue : s.waitFor.value = 0) (t : τ) (ht : s.Takes t) (hloaded : s.Loaded input)
  /-- There will be no more. -/
  | ended (hvalue : s.waitFor.value = 0) (hnone : ∀ t, ¬ s.Takes t) (hpolls : s.polls = 0)
      (hfull : s.full = false) (hinput : s.input = [])
      (htext : s.returned = input ∨ s.returned = input ++ [eof])

structure Inv (input : List (BitVec 8)) (s : SynchConsoleInput τ) : Prop where
  users : s.users.Inv
  failed : s.failed = false
  phase : s.Phase input

omit [DecidableEq τ] in
theorem inv_start (input : List (BitVec 8)) : Inv input (start input : SynchConsoleInput τ) where
  users := LockSection.inv_start
  failed := rfl
  phase := .polling rfl (fun t h => by cases h) rfl rfl rfl rfl

section Steps

variable {input : List (BitVec 8)} {s s' : SynchConsoleInput τ} {t : τ}

omit [DecidableEq τ] in
/-- What the invariant says about the characters. -/
theorem Inv.delivered (h : Inv input s) : Delivered input s := by
  have hloaded : s.Loaded input → Delivered input s := by
    rintro ⟨hpolls, ⟨hfull, htext⟩ | ⟨hfull, hincoming, hinput, htext⟩⟩
    · refine ⟨h.failed, .inl ?_, fun _ => .inl hfull⟩
      rw [unread, if_pos hfull, List.append_assoc]
      exact htext
    · have hunread : s.unread = [] := by
        rw [unread, hfull]
        rfl
      refine ⟨h.failed, .inl ?_, fun hne => absurd hinput hne⟩
      rw [hunread, hinput, List.append_nil, List.append_nil, htext]
  cases h.phase with
  | polling hvalue hnone hpolls hincoming hfull htext =>
    have hunread : s.unread = [] := by
      rw [unread, hfull]
      rfl
    refine ⟨h.failed, .inl ?_, fun _ => .inr (by rw [hpolls]; exact Nat.one_pos)⟩
    rw [hunread, List.append_nil, htext]
  | posted hvalue hnone hload => exact hloaded hload
  | taken hvalue t ht hload => exact hloaded hload
  | ended hvalue hnone hpolls hfull hinput htext =>
    have hunread : s.unread = [] := by
      rw [unread, hfull]
      rfl
    refine ⟨h.failed, ?_, fun hne => absurd hinput hne⟩
    rcases htext with htext | htext
    · left
      rw [hunread, hinput, List.append_nil, List.append_nil, htext]
    · exact .inr ⟨hunread, hinput, htext⟩

omit [DecidableEq τ] in
/-- Threads move, and none of them begins or ceases to take the character. -/
theorem Inv.users_step (h : Inv input s) {users : LockSection τ InputStage} (husers : users.Inv)
    (htakes : ∀ u, users.place u = .inside .taken ↔ s.users.place u = .inside .taken) :
    Inv input { s with users := users } := by
  refine ⟨husers, h.failed, ?_⟩
  cases h.phase with
  | polling hvalue hnone hpolls hincoming hfull htext =>
    exact .polling hvalue (fun u hu => hnone u ((htakes u).mp hu)) hpolls hincoming hfull htext
  | posted hvalue hnone hload =>
    exact .posted hvalue (fun u hu => hnone u ((htakes u).mp hu)) ⟨hload.polls, hload.content⟩
  | taken hvalue t ht hload =>
    exact .taken hvalue t ((htakes t).mpr ht) ⟨hload.polls, hload.content⟩
  | ended hvalue hnone hpolls hfull hinput htext =>
    exact .ended hvalue (fun u hu => hnone u ((htakes u).mp hu)) hpolls hfull hinput htext

theorem takes_update {p q : Critical InputStage} (hq : s.users.place t = q)
    (hold : q ≠ .inside .taken) (hnew : p ≠ .inside .taken) (u : τ) :
    Function.update s.users.place t p u = .inside .taken ↔ s.users.place u = .inside .taken := by
  by_cases hu : u = t
  · rw [hu, Function.update_self, hq]
    exact iff_of_false hnew hold
  · rw [Function.update_of_ne hu]

omit [DecidableEq τ] in
/-- The poll finds nothing, the end of the file, or a character. -/
theorem Inv.callBack (h : Inv input s) (hpolls : s.polls ≠ 0) (ready : Bool) :
    Inv input (s.callBack ready) := by
  cases h.phase with
  | posted hvalue hnone hload => exact absurd hload.polls hpolls
  | taken hvalue t ht hload => exact absurd hload.polls hpolls
  | ended hvalue hnone hzero hfull hinput htext => exact absurd hzero hpolls
  | polling hvalue hnone hone hincoming hfull htext =>
    have hpost : s.waitFor.v.value = 1 := Semaphore.v_value_of_zero hvalue
    unfold SynchConsoleInput.callBack
    dsimp only
    rw [if_neg (not_not.mpr hincoming)]
    split
    next =>
      refine ⟨h.users, h.failed, .polling hvalue hnone ?_ hincoming hfull htext⟩
      show s.polls - 1 + 1 = 1
      omega
    next =>
      have hzero : s.polls - 1 = 0 := by omega
      split
      next hinput =>
        have hread : s.returned = input := by rwa [hinput, List.append_nil] at htext
        exact ⟨h.users, h.failed,
          .posted hpost hnone ⟨hzero, .inr ⟨hfull, hincoming, hinput, hread⟩⟩⟩
      next c rest hinput =>
        rw [hinput] at htext
        exact ⟨h.users, h.failed, .posted hpost hnone ⟨hzero, .inl ⟨rfl, htext⟩⟩⟩

/-- One pass through the test of `waitFor->P()`. -/
theorem Inv.waitP (h : Inv input s) (hplace : s.users.place t = .inside .waiting)
    (hs : s.waitP t = some s') : Inv input s' := by
  have hholds := h.users.holds_inside hplace
  unfold SynchConsoleInput.waitP at hs
  split at hs
  next => cases hs
  next =>
    by_cases hv : s.waitFor.value = 0
    · rw [Semaphore.p_of_zero hv] at hs
      obtain rfl := Option.some.inj hs
      refine ⟨h.users, h.failed, ?_⟩
      cases h.phase with
      | polling hvalue hnone hpolls hincoming hfull htext =>
        exact .polling hvalue hnone hpolls hincoming hfull htext
      | posted hvalue hnone hload => exact .posted hvalue hnone ⟨hload.polls, hload.content⟩
      | taken hvalue t ht hload => exact .taken hvalue t ht ⟨hload.polls, hload.content⟩
      | ended hvalue hnone hpolls hfull hinput htext =>
        exact .ended hvalue hnone hpolls hfull hinput htext
    · rw [Semaphore.p_of_ne_zero hv] at hs
      obtain rfl := Option.some.inj hs
      refine ⟨h.users.stage hholds _, h.failed, ?_⟩
      cases h.phase with
      | polling hvalue hnone hpolls hincoming hfull htext => exact absurd hvalue hv
      | taken hvalue t ht hload => exact absurd hvalue hv
      | ended hvalue hnone hpolls hfull hinput htext => exact absurd hvalue hv
      | posted hvalue hnone hload =>
        refine .taken ?_ t (Function.update_self ..) ⟨hload.polls, hload.content⟩
        show toInt32 (s.waitFor.value - 1) = 0
        rw [hvalue]
        rfl

/-- `GetChar` hands over what there is, and schedules the poll unless it is `EOF`. -/
theorem Inv.getChar (h : Inv input s) (hinput : eof ∉ input.dropLast) (ht : s.Takes t)
    (hs : s.getChar t = some s') : Inv input s' := by
  have hholds := h.users.holds_inside ht
  obtain ⟨users, hleave, rfl⟩ := Option.map_eq_some_iff.mp hs
  obtain ⟨husers, hplace⟩ := h.users.leave hholds hleave
  have hnone : ∀ u, ¬ users.place u = .inside .taken := by
    intro u hu
    rw [hplace] at hu
    by_cases hut : u = t
    · rw [hut, Function.update_self] at hu
      cases hu
    · rw [Function.update_of_ne hut] at hu
      exact hut (h.users.unique (h.users.holds_inside hu) hholds)
  have hload : s.waitFor.value = 0 ∧ s.Loaded input := by
    cases h.phase with
    | polling hvalue hnone' hpolls hincoming hfull htext => exact absurd ht (hnone' t)
    | posted hvalue hnone' hload => exact absurd ht (hnone' t)
    | ended hvalue hnone' hpolls hfull hinput htext => exact absurd ht (hnone' t)
    | taken hvalue u hu hload => exact ⟨hvalue, hload⟩
  rcases hload with ⟨hvalue, hpolls, ⟨hfull, htext⟩ | ⟨hfull, hincoming, hend, htext⟩⟩
  · have htext' : s.returned ++ [s.incoming] ++ s.input = input := by
      rw [List.append_assoc]
      exact htext
    by_cases heof : s.incoming = eof
    · -- The byte `0xff` is the last one, so nothing is lost.
      have hlast : s.input = [] := by
        by_contra hne
        refine hinput ?_
        rw [← htext, List.dropLast_append_of_ne_nil (List.cons_ne_nil _ _),
          List.dropLast_cons_of_ne_nil hne, heof]
        exact List.mem_append_right _ List.mem_cons_self
      refine ⟨husers, h.failed, .ended hvalue hnone ?_ rfl hlast (.inl ?_)⟩
      · show (if s.incoming ≠ eof then s.polls + 1 else s.polls) = 0
        rw [if_neg (not_not.mpr heof), hpolls]
      · rw [hlast, List.append_nil] at htext'
        exact htext'
    · refine ⟨husers, h.failed, .polling hvalue hnone ?_ rfl rfl htext'⟩
      show (if s.incoming ≠ eof then s.polls + 1 else s.polls) = 1
      rw [if_pos heof, hpolls]
  · refine ⟨husers, h.failed, .ended hvalue hnone ?_ rfl hend (.inr ?_)⟩
    · show (if s.incoming ≠ eof then s.polls + 1 else s.polls) = 0
      rw [if_neg (not_not.mpr hincoming), hpolls]
    · show s.returned ++ [s.incoming] = input ++ [eof]
      rw [hincoming, htext]

theorem Inv.doRun (h : Inv input s) (hinput : eof ∉ input.dropLast)
    (hpc : s.users.monitor.pc t = .out) (hs : s.doRun t = some s') : Inv input s' := by
  unfold SynchConsoleInput.doRun at hs
  split at hs
  next => cases hs
  next hplace =>
    obtain rfl := Option.some.inj hs
    refine h.users_step (h.users.stage ⟨hpc, .inl hplace⟩ _) ?_
    exact takes_update hplace (fun hq => by cases hq) (fun hp => by cases hp)
  next hplace => exact h.waitP hplace hs
  next hplace => exact h.getChar hinput hplace hs
  next => cases hs
  next hplace =>
    obtain rfl := Option.some.inj hs
    refine h.users_step (h.users.finish hpc) ?_
    exact takes_update hplace (fun hq => by cases hq) (fun hp => by cases hp)

theorem inv_step (hinput : eof ∉ input.dropLast) (s : SynchConsoleInput τ) (e : InputEvent τ)
    (s' : SynchConsoleInput τ) (h : Inv input s) (hs : s.step e = some s') : Inv input s' := by
  cases e with
  | call t =>
    simp only [step] at hs
    rw [if_neg (by rw [h.failed]; exact Bool.false_ne_true)] at hs
    obtain ⟨users, henter, rfl⟩ := Option.map_eq_some_iff.mp hs
    obtain ⟨husers, hidle, hplace⟩ := h.users.enter henter
    refine h.users_step husers ?_
    rw [hplace]
    exact takes_update hidle (fun hq => by cases hq) (fun hp => by cases hp)
  | run t =>
    simp only [step] at hs
    rw [if_neg (by rw [h.failed]; exact Bool.false_ne_true)] at hs
    split at hs
    next hpc => exact h.doRun hinput hpc hs
    next =>
      obtain ⟨users, hrun, rfl⟩ := Option.map_eq_some_iff.mp hs
      obtain ⟨husers, hplace⟩ := h.users.runLock hrun
      exact h.users_step husers fun u => by rw [hplace]
  | poll ready =>
    simp only [step] at hs
    split at hs
    next hen =>
      obtain rfl := Option.some.inj hs
      exact h.callBack hen.2 ready
    next => cases hs

end Steps

/-! ## Inputs with `EOF` in them -/

/-- Between two calls, with nothing buffered. -/
def between (returned input : List (BitVec 8)) (polls : Nat) : SynchConsoleInput τ :=
  { start input with
    polls := polls
    returned := returned }

/-- A poll that finds a character, and a call that takes it. -/
def readOne (t : τ) : List (InputEvent τ) :=
  [.poll true, .call t, .run t, .run t, .run t, .run t, .run t, .run t, .run t]

theorem run_readOne (t : τ) (returned input : List (BitVec 8)) (c : BitVec 8) :
    run step (between returned (c :: input) 1) (readOne t) =
      some (between (returned ++ [c]) input (if c ≠ eof then 1 else 0)) := by
  simp [readOne, run, step, between, start, callBack, doRun, waitP, getChar, consoleGetChar,
    Semaphore.new, Semaphore.v, Semaphore.p, LockSection.start, LockSection.enter,
    LockSection.call, LockSection.goto, LockSection.runLock, LockSection.leave, LockState.start,
    LockState.step, LockState.doCall, LockState.goto, LockState.asleep, LockState.doRun,
    LockState.acquireP, LockState.acquireRest, LockState.releaseAssert, LockState.isHeldBy,
    LockState.releaseV]

/-- Behind the byte `0xff` nobody polls any more. -/
theorem exists_run_stopped (t : τ) {input : List (BitVec 8)} (h : eof ∈ input.dropLast)
    (returned : List (BitVec 8)) :
    ∃ es returned' rest, rest ≠ [] ∧
      run step (between returned input 1) es = some (between returned' rest 0 :
        SynchConsoleInput τ) := by
  induction input generalizing returned with
  | nil => cases h
  | cons c rest ih =>
    have hrest : rest ≠ [] := by
      rintro rfl
      cases h
    rw [List.dropLast_cons_of_ne_nil hrest] at h
    have hone := run_readOne t returned rest c
    by_cases hc : c = eof
    · rw [if_neg (not_not.mpr hc)] at hone
      exact ⟨_, _, _, hrest, hone⟩
    · rw [if_pos hc] at hone
      have hlater := (List.mem_cons.mp h).resolve_left (Ne.symm hc)
      obtain ⟨es, returned', rest', hrest', hrun⟩ := ih hlater (returned ++ [c])
      exact ⟨_, _, _, hrest', run_append_eq_some.mpr ⟨_, hone, hrun⟩⟩

/-! ## Whole runs -/

theorem run_input_delivered {input : List (BitVec 8)} (hinput : eof ∉ input.dropLast)
    {es : List (InputEvent τ)} {s : SynchConsoleInput τ}
    (h : run step (start input) es = some s) : Delivered input s :=
  (run_invariant (inv_step hinput) (inv_start input) h).delivered

/--
**Console input is delivered byte for byte** exactly if the byte `0xff` is at most the last one.

Then, along every run of callers and polls: the characters returned are the bytes of the input, in
the order in which the calls complete, and one `EOF` behind them. `ASSERT(incoming == EOF)` does
not fail, and while input remains, a character is buffered or a poll is scheduled.
-/
theorem run_input_delivered_iff [Inhabited τ] (input : List (BitVec 8)) :
    (∀ (es : List (InputEvent τ)) (s : SynchConsoleInput τ),
      run step (start input) es = some s → Delivered input s) ↔ eof ∉ input.dropLast := by
  constructor
  · intro hall heof
    obtain ⟨es, returned, rest, hrest, hrun⟩ := exists_run_stopped (default : τ) heof []
    rcases (hall es _ hrun).alive hrest with hfull | hpolls
    · cases hfull
    · exact absurd hpolls (Nat.lt_irrefl 0)
  · intro hinput es s hrun
    exact run_input_delivered hinput hrun

/-- Behind `0xff`, the byte `0x41` is never read. -/
theorem eof_byte_stops_input :
    ∃ s : SynchConsoleInput Nat, run step (start [0xff, 0x41]) (readOne 1) = some s ∧
      s.input = [0x41] ∧ ¬ Delivered [0xff, 0x41] s := by
  refine ⟨_, rfl, rfl, ?_⟩
  intro h
  rcases h.alive (List.cons_ne_nil _ _) with hfull | hpolls
  · cases hfull
  · exact absurd hpolls (Nat.lt_irrefl 0)

end SynchConsoleInput

end Nachos
