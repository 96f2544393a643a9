import Nachos.Base.Run
import Mathlib.Algebra.Order.Ring.Int
import Mathlib.Data.Finset.Card
import Mathlib.Data.List.Nodup

/-!
# Semaphores (`threads/synch.cc`)

`Semaphore::P` and `Semaphore::V` run with interrupts off, so each of them is one step, except
that `P` can go to sleep in the middle. The step of `P` is therefore one pass through its loop
test: a thread that finds the value at 0 is appended to the queue and sleeps; once a `V` has
taken it out of the queue it runs again and comes back to the same test.

The value is an `int`: `value++` at the largest one ends at the smallest.

* `Semaphore` — value and wait queue, with `p` and `v`
* `SemState` — a semaphore together with what its threads have done to it so far
* `run_semaphore_counts_iff` — which runs keep the value a count and forget no waiting thread
-/

namespace Nachos

open Base

/-- What a 32-bit `int` holds of a result. -/
def toInt32 (x : Int) : Int := x.bmod (2 ^ 32)

theorem toInt32_eq_self {x : Int} (h : -2 ^ 31 ≤ x) (h' : x < 2 ^ 31) : toInt32 x = x := by
  unfold toInt32
  rw [Int.bmod_def]
  omega

@[simp] theorem toInt32_zero : toInt32 0 = 0 := rfl

@[simp] theorem toInt32_one : toInt32 1 = 1 := rfl

/--
The class `Semaphore` over threads `τ`. Its `name` is for debugging only and left out.

`value` is the number that its `int` stands for.
-/
structure Semaphore (τ : Type*) where
  value : Int
  queue : List τ
deriving DecidableEq

namespace Semaphore

variable {τ : Type*}

/-- `Semaphore::Semaphore`. -/
def new (initialValue : BitVec 32) : Semaphore τ := { value := initialValue.toInt, queue := [] }

/--
One pass of thread `t` through the loop test of `Semaphore::P`.

`false`: the value was 0 and the thread now sleeps in the queue.
`true`: the value was taken and `P` returns.
-/
def p (s : Semaphore τ) (t : τ) : Semaphore τ × Bool :=
  if s.value = 0 then ({ s with queue := s.queue ++ [t] }, false)
  else ({ s with value := toInt32 (s.value - 1) }, true)

/-- `Semaphore::V`. The first thread of the queue, if any, is made ready (`woken`). -/
def v (s : Semaphore τ) : Semaphore τ :=
  { value := toInt32 (s.value + 1), queue := s.queue.tail }

/-- The thread that `V` hands to the scheduler. -/
def woken (s : Semaphore τ) : Option τ := s.queue.head?

theorem p_of_zero {s : Semaphore τ} (h : s.value = 0) (t : τ) :
    s.p t = ({ s with queue := s.queue ++ [t] }, false) := by rw [p, if_pos h]

theorem p_of_ne_zero {s : Semaphore τ} (h : s.value ≠ 0) (t : τ) :
    s.p t = ({ s with value := toInt32 (s.value - 1) }, true) := by rw [p, if_neg h]

/-- A positive value goes down by one. -/
theorem p_of_pos {s : Semaphore τ} (h : 0 < s.value) (h' : s.value < 2 ^ 31) (t : τ) :
    s.p t = ({ s with value := s.value - 1 }, true) := by
  rw [p_of_ne_zero (by omega), toInt32_eq_self (by omega) (by omega)]

@[simp] theorem v_queue (s : Semaphore τ) : s.v.queue = s.queue.tail := rfl

/-- Below the largest `int` the value goes up by one. -/
theorem v_value {s : Semaphore τ} (h : 0 ≤ s.value) (h' : s.value < 2 ^ 31 - 1) :
    s.v.value = s.value + 1 := toInt32_eq_self (by omega) (by omega)

theorem v_value_of_zero {s : Semaphore τ} (h : s.value = 0) : s.v.value = 1 := by
  rw [v_value (by omega) (by omega), h]
  rfl

/-- `value++` at the largest `int`. -/
theorem v_value_of_max {s : Semaphore τ} (h : s.value = 2 ^ 31 - 1) : s.v.value = -2 ^ 31 := by
  show toInt32 (s.value + 1) = -2 ^ 31
  rw [h]
  decide

end Semaphore

/-! ## A semaphore and its threads -/

section Runs

variable {τ : Type*} [DecidableEq τ]

/--
A semaphore in use.

`woken` are the threads that a `V` has taken out of the queue and that have not run since.
`numV` and `numP` count the `V`s and the `P`s that have returned.
-/
structure SemState (τ : Type*) where
  sem : Semaphore τ
  woken : Finset τ
  numV : Nat
  numP : Nat

/--
What can happen next: thread `t` runs the test of `P` (it calls `P`, or it was woken inside it),
or a `V` is executed, by a thread or by an interrupt handler (`none`).
-/
inductive SemEvent (τ : Type*) where
  | p (t : τ)
  | v (caller : Option τ)

namespace SemState

/-- A new semaphore that nobody has used yet. -/
def start (initialValue : BitVec 32) : SemState τ :=
  { sem := .new initialValue, woken := ∅, numV := 0, numP := 0 }

/-- A thread in the queue is asleep and cannot do anything. -/
def Asleep (s : SemState τ) (t : τ) : Prop := t ∈ s.sem.queue

instance (s : SemState τ) (t : τ) : Decidable (s.Asleep t) :=
  inferInstanceAs (Decidable (t ∈ s.sem.queue))

/-- The effect of one pass through the test of `P`. -/
def afterP (s : SemState τ) (t : τ) : SemState τ :=
  { s with
    sem := (s.sem.p t).1
    woken := s.woken.erase t
    numP := if (s.sem.p t).2 then s.numP + 1 else s.numP }

/-- The effect of a `V`. -/
def afterV (s : SemState τ) : SemState τ :=
  { s with
    sem := s.sem.v
    woken := match s.sem.woken with
      | none => s.woken
      | some t => insert t s.woken
    numV := s.numV + 1 }

/-- One step. A thread inside `P`, asleep or woken, has no `V` to call. -/
def step (s : SemState τ) : SemEvent τ → Option (SemState τ)
  | .p t => if s.Asleep t then none else some (s.afterP t)
  | .v none => some s.afterV
  | .v (some t) => if s.Asleep t ∨ t ∈ s.woken then none else some s.afterV

/-! ## The invariant -/

/-- What holds of a semaphore created with `init`, as long as its value does not wrap. -/
structure Inv (init : Int) (s : SemState τ) : Prop where
  count : s.sem.value = init + s.numV - s.numP
  nonneg : 0 ≤ s.sem.value
  lt : s.sem.value < 2 ^ 31
  queued : s.sem.queue ≠ [] → s.sem.value ≤ s.woken.card
  nodup : s.sem.queue.Nodup
  apart : ∀ t ∈ s.woken, t ∉ s.sem.queue

omit [DecidableEq τ] in
theorem inv_start {init : BitVec 32} (h : 0 ≤ init.toInt) :
    Inv init.toInt (start init : SemState τ) where
  count := by simp [start, Semaphore.new]
  nonneg := h
  lt := BitVec.toInt_lt
  queued := by simp [start, Semaphore.new]
  nodup := by simp [start, Semaphore.new]
  apart := by simp [start]

/-- `P` finds the value at 0: the thread goes to the end of the queue. -/
theorem inv_afterP_sleep {init : Int} {s : SemState τ} {t : τ} (h : Inv init s)
    (hrun : ¬ s.Asleep t) (hv : s.sem.value = 0) : Inv init (s.afterP t) := by
  have hp := Semaphore.p_of_zero hv t
  refine ⟨?_, ?_, ?_, ?_, ?_, ?_⟩
  · simp only [afterP, hp]
    exact h.count
  · simp only [afterP, hp]
    exact h.nonneg
  · simp only [afterP, hp]
    exact h.lt
  · intro _
    simp only [afterP, hp]
    omega
  · simp only [afterP, hp]
    rw [List.nodup_append]
    refine ⟨h.nodup, List.nodup_singleton t, ?_⟩
    intro a ha b hb hab
    rw [List.mem_singleton] at hb
    exact hrun (by rw [← hb, ← hab]; exact ha)
  · intro u hu
    simp only [afterP, hp] at hu ⊢
    obtain ⟨hne, hu⟩ := Finset.mem_erase.mp hu
    simp [hne, h.apart u hu]

/--
`P` takes the value.

If the thread had been woken, both sides of `queued` go down by one.
Otherwise it barged in, and only the value does.
-/
theorem inv_afterP_take {init : Int} {s : SemState τ} {t : τ} (h : Inv init s)
    (hv : s.sem.value ≠ 0) : Inv init (s.afterP t) := by
  have hnn := h.nonneg
  have hlt := h.lt
  have hp := Semaphore.p_of_pos (by omega) hlt t
  refine ⟨?_, ?_, ?_, ?_, ?_, ?_⟩
  · simp only [afterP, hp, if_true]
    have := h.count
    push_cast
    omega
  · simp only [afterP, hp]
    omega
  · simp only [afterP, hp]
    omega
  · intro hq
    simp only [afterP, hp] at hq ⊢
    have hle := h.queued hq
    have hcard := Finset.pred_card_le_card_erase (s := s.woken) (a := t)
    omega
  · simp only [afterP, hp]
    exact h.nodup
  · intro u hu
    simp only [afterP, hp] at hu ⊢
    exact h.apart u (Finset.mem_of_mem_erase hu)

/-- `V` with nobody waiting. -/
theorem inv_afterV_nil {init : Int} {s : SemState τ} (h : Inv init s)
    (hmax : s.sem.value ≠ 2 ^ 31 - 1) (hq : s.sem.queue = []) : Inv init s.afterV := by
  have hc := h.count
  have hn := h.nonneg
  have hlt := h.lt
  have hv := Semaphore.v_value hn (by omega)
  refine ⟨?_, ?_, ?_, ?_, ?_, ?_⟩
  · simp only [afterV, hv]
    push_cast
    omega
  · simp only [afterV, hv]
    omega
  · simp only [afterV, hv]
    omega
  · intro hne
    simp [afterV, hq] at hne
  · simp [afterV, hq]
  · intro u _
    simp [afterV, hq]

/-- `V` with a waiting thread: it leaves the queue and is one more on its way. -/
theorem inv_afterV_cons {init : Int} {s : SemState τ} {t : τ} {rest : List τ} (h : Inv init s)
    (hmax : s.sem.value ≠ 2 ^ 31 - 1) (hq : s.sem.queue = t :: rest) : Inv init s.afterV := by
  have hc := h.count
  have hn := h.nonneg
  have hlt := h.lt
  have hv := Semaphore.v_value hn (by omega)
  have hnd : t ∉ rest ∧ rest.Nodup := by
    have := h.nodup
    rw [hq] at this
    exact List.nodup_cons.mp this
  have hfresh : t ∉ s.woken := fun ht => h.apart t ht (by rw [hq]; simp)
  have hwoken : s.afterV.woken = insert t s.woken := by
    simp [afterV, Semaphore.woken, hq]
  refine ⟨?_, ?_, ?_, ?_, ?_, ?_⟩
  · simp only [afterV, hv]
    push_cast
    omega
  · simp only [afterV, hv]
    omega
  · simp only [afterV, hv]
    omega
  · intro _
    have hle := h.queued (by rw [hq]; simp)
    rw [hwoken, Finset.card_insert_of_notMem hfresh]
    simp only [afterV, hv]
    push_cast
    omega
  · simp only [afterV, Semaphore.v_queue, hq, List.tail_cons]
    exact hnd.2
  · intro u hu
    rw [hwoken] at hu
    simp only [afterV, Semaphore.v_queue, hq, List.tail_cons]
    rcases Finset.mem_insert.mp hu with rfl | hu
    · exact hnd.1
    · intro hr
      exact h.apart u hu (by rw [hq]; simp [hr])

/-! ## Whole runs -/

/--
What the semaphore is for. The value is what was put in minus what was taken, and is never
negative. While a thread waits in the queue, every unit of the value is matched by a thread that
was already woken and has not run yet. So it cannot happen that a thread waits, a unit is there,
and nobody is on the way to take it.
-/
structure Counts (init : Int) (s : SemState τ) : Prop where
  count : s.sem.value = init + s.numV - s.numP
  nonneg : 0 ≤ s.sem.value
  queued : s.sem.queue ≠ [] → s.sem.value ≤ s.woken.card
  notLost : ¬ (0 < s.sem.value ∧ s.sem.queue ≠ [] ∧ s.woken = ∅)

/-- The event is not a `V` at the largest `int`. -/
def BelowMax (s : SemState τ) : SemEvent τ → Prop
  | .p _ => True
  | .v _ => s.sem.value ≠ 2 ^ 31 - 1

omit [DecidableEq τ] in
theorem Inv.counts {init : Int} {s : SemState τ} (h : Inv init s) : Counts init s where
  count := h.count
  nonneg := h.nonneg
  queued := h.queued
  notLost := by
    rintro ⟨hpos, hq, hw⟩
    have hle := h.queued hq
    rw [hw, Finset.card_empty] at hle
    omega

/-- Whoever calls `V`, this is what happens. -/
theorem step_v {s u : SemState τ} {caller : Option τ} (hs : s.step (.v caller) = some u) :
    u = s.afterV := by
  cases caller with
  | none => exact (Option.some.inj hs).symm
  | some t =>
    simp only [step] at hs
    split at hs
    · simp at hs
    · exact (Option.some.inj hs).symm

theorem inv_step {init : Int} (s : SemState τ) (e : SemEvent τ) (u : SemState τ)
    (h : Inv init s) (hs : s.step e = some u) (hmax : BelowMax s e) : Inv init u := by
  cases e with
  | p t =>
    simp only [step] at hs
    split at hs
    · simp at hs
    · next hrun =>
      rw [← Option.some.inj hs]
      by_cases hv : s.sem.value = 0
      · exact inv_afterP_sleep h hrun hv
      · exact inv_afterP_take h hv
  | v caller =>
    rw [step_v hs]
    cases hq : s.sem.queue with
    | nil => exact inv_afterV_nil h hmax hq
    | cons t rest => exact inv_afterV_cons h hmax hq

/-- A `V` at the largest `int` shows at once. -/
theorem belowMax_of_counts {init : Int} (s : SemState τ) (e : SemEvent τ) (u : SemState τ)
    (hs : s.step e = some u) (hu : Counts init u) : BelowMax s e := by
  cases e with
  | p t => exact trivial
  | v caller =>
    intro hmax
    have hnn := hu.nonneg
    rw [step_v hs, afterV, Semaphore.v_value_of_max hmax] at hnn
    omega

/--
**When a semaphore counts, and loses no wakeup.**

Whatever `P`s and `V`s its threads and the interrupt handlers execute, in whatever order: in every
state of the run the value is the count it is meant to be and no wakeup is lost, exactly when no
`V` of the run is executed at the largest `int`.
-/
theorem run_semaphore_counts_iff {init : BitVec 32} (hinit : 0 ≤ init.toInt)
    {es : List (SemEvent τ)} {s : SemState τ} (h : run step (start init) es = some s) :
    AllStates step (Counts init.toInt) (start init) es ↔ AllSteps step BelowMax (start init) es :=
  allStates_iff_allSteps_of (fun _ hinv => hinv.counts) inv_step
    (fun s e u _ hs => belowMax_of_counts s e u hs) (inv_start hinit) h

/-- Threads 1 and 2 wait, a handler wakes thread 1, and thread 3 takes the unit before it. -/
theorem run_semaphore_counts_barging :
    AllStates step (Counts 0) (start 0 : SemState Nat) [.p 1, .p 2, .v none, .p 3, .p 1] ∧
      ∃ s : SemState Nat, run step (start 0) [.p 1, .p 2, .v none, .p 3, .p 1] = some s ∧
        s.sem.queue = [2, 1] := by
  refine ⟨?_, _, rfl, rfl⟩
  have hinit : 0 ≤ (0 : BitVec 32).toInt := le_refl 0
  refine (run_semaphore_counts_iff hinit rfl).mpr ?_
  refine (allSteps_cons rfl).mpr ⟨trivial, (allSteps_cons rfl).mpr ⟨trivial, ?_⟩⟩
  refine (allSteps_cons rfl).mpr ⟨fun hmax => ?_, (allSteps_cons rfl).mpr ⟨trivial, ?_⟩⟩
  · exact absurd hmax (by decide)
  exact (allSteps_cons rfl).mpr ⟨trivial, trivial⟩

/-- One `V` on a semaphore that was created with the largest `int`. -/
theorem max_v_not_counts :
    ∃ s : SemState Nat, run step (start 0x7fffffff) [.v none] = some s ∧
      s.sem.value = -2 ^ 31 ∧ s.numV = 1 ∧ s.numP = 0 ∧ ¬ Counts (2 ^ 31 - 1) s := by
  refine ⟨_, rfl, by decide, rfl, rfl, ?_⟩
  intro hc
  exact absurd hc.nonneg (by decide)

end SemState

end Runs

end Nachos
