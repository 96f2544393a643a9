import Nachos.Machine.InterruptTiming

/-!
# Interrupts with a handler function (`machine/interrupt.cc`)

`Schedule(handler, arg, fromNow, type)` makes a `PendingInterrupt` without `callOnInterrupt`, and
puts it into the list with `SortedInsert`, which does not count it. `CheckIfDue` calls
`callOnInterrupt` for every interrupt, and never a `handler`. So such an interrupt is not seen at
all while the counter is 0, is dropped by the next `Insert` into a list that counts as empty, and
otherwise has a pointer called that was never set.

* `Served` — what is expected of both kinds of interrupts
* `run_handler_interrupts` — it holds as long as no handler function is registered, and it does not
  hold any more once such an interrupt is due
-/

namespace Nachos

open Base

namespace Interrupt

variable {κ η ω : Type*} [DecidableEq κ] [DecidableEq η]

/-- The calls that were made for an interrupt. -/
def callsFor (s : Interrupt κ η ω) (p : PendingInterrupt κ η) : List (Invocation κ η) :=
  (s.log.filter fun f => decide (f.interrupt = p)).map (·.call)

/-- What is expected of the interrupts that have been scheduled so far. -/
structure Served (s : Interrupt κ η ω) : Prop where
  /-- The handler is called once when the time has come. -/
  handlers : ∀ p ∈ s.registered, ∀ handler arg, p.handler = some (handler, arg) →
    p.when ≤ s.stats.totalTicks → s.callsFor p = [.handler handler arg]
  /-- No interrupt with an object is lost. -/
  kept : ∀ p ∈ s.registered, p.callOnInterrupt ≠ none → p ∈ s.fired ∨ p ∈ s.pending.items
  /-- None of them is hidden. -/
  seen : s.pending.isEmpty = true → ∀ p ∈ s.registered, p.callOnInterrupt ≠ none → p ∈ s.fired
  /-- None of them is late, and they are called in their order. -/
  onTime : ∀ p ∈ s.registered, p.callOnInterrupt ≠ none → p.when ≤ s.stats.totalTicks →
    p ∈ s.fired
  order : ((s.fired ++ s.pending.items).filter fun p => p.callOnInterrupt.isSome).Pairwise
    PendingInterrupt.Before

/-! ## No handler is ever called -/

/-- What is in the log, whatever is scheduled. -/
structure Logged (s : Interrupt κ η ω) : Prop where
  calls : ∀ f ∈ s.log, ∃ object, f.interrupt.callOnInterrupt = some object ∧
    f.call = .callBack object
  kinds : ∀ p ∈ s.registered, p.handler ≠ none → p.callOnInterrupt = none

omit [DecidableEq κ] [DecidableEq η] in
theorem logged_start (world : ω) : Logged (start world : Interrupt κ η ω) where
  calls := by simp [start]
  kinds := by simp [start]

section Steps

variable {d : Devices κ η ω} {s s' : Interrupt κ η ω}

omit [DecidableEq κ] [DecidableEq η] in
theorem Logged.frame (h : Logged s) (hlog : s'.log = s.log)
    (hregistered : s'.registered = s.registered) : Logged s' where
  calls := by rw [hlog]; exact h.calls
  kinds := by rw [hregistered]; exact h.kinds

omit [DecidableEq κ] [DecidableEq η] in
theorem Logged.enqueue (h : Logged s) {q : PendingInterrupt κ η}
    (hq : q.handler ≠ none → q.callOnInterrupt = none) (l : LinkedList (PendingInterrupt κ η)) :
    Logged (s.enqueue q l) where
  calls := h.calls
  kinds := by
    intro p hp
    rcases List.mem_append.mp hp with hp | hp
    · exact h.kinds p hp
    · rw [List.mem_singleton.mp hp]
      exact hq

theorem Logged.schedule (h : Logged s) {r : Request κ η} (hs : s.schedule d r = some s') :
    Logged s' := by
  cases r with
  | object toCall fromNow type =>
    simp only [Interrupt.schedule, scheduleObject] at hs
    split at hs
    · obtain ⟨l, -, rfl⟩ := Option.map_eq_some_iff.mp hs
      exact h.enqueue (fun hne => absurd rfl hne) l
    · cases hs
  | handler handler arg fromNow type =>
    simp only [Interrupt.schedule, scheduleHandler] at hs
    split at hs
    · obtain ⟨l, -, rfl⟩ := Option.map_eq_some_iff.mp hs
      exact h.enqueue (fun _ => rfl) l
    · cases hs

theorem Logged.requests (h : Logged s) {rs : List (Request κ η)}
    (hs : rs.foldlM (Interrupt.schedule d) s = some s') : Logged s' := by
  induction rs generalizing s with
  | nil =>
    obtain rfl := Option.some.inj hs
    exact h
  | cons r rs ih =>
    rw [List.foldlM_cons] at hs
    obtain ⟨t, ht, hrest⟩ := Option.bind_eq_some_iff.mp hs
    exact ih (h.schedule ht) hrest

theorem Logged.fire (h : Logged s) (hs : s.fire d = some s') : Logged s' := by
  unfold Interrupt.fire at hs
  split at hs
  · cases hs
  · next next l hfront =>
    split at hs
    · obtain rfl := Option.some.inj hs
      exact h.frame rfl rfl
    · next object hobject =>
      refine Logged.requests (s := s.called l next object _) ⟨fun f hf => ?_, h.kinds⟩ hs
      rcases List.mem_append.mp hf with hf | hf
      · exact h.calls f hf
      · rw [List.mem_singleton.mp hf]
        exact ⟨object, hobject, rfl⟩

theorem Logged.drain {n : Nat} (h : Logged s) (hs : s.drain d n = some s') : Logged s' := by
  induction n generalizing s with
  | zero => cases hs
  | succ n ih =>
    unfold Interrupt.drain at hs
    split at hs
    · cases hs
    · next t ht =>
      have hfired := h.fire ht
      split at hs
      · obtain rfl := Option.some.inj hs
        exact hfired
      · split at hs
        · cases hs
        · split at hs
          · exact ih hfired hs
          · obtain rfl := Option.some.inj hs
            exact hfired

theorem Logged.handle {n : Nat} (h : Logged s) {r : Interrupt κ η ω × Bool}
    (hs : s.handle d n = some r) : Logged r.1 := by
  obtain ⟨t, ht, rfl⟩ := Option.map_eq_some_iff.mp hs
  have hdrained := Logged.drain (s := { s with inHandler := true }) (h.frame rfl rfl) ht
  exact hdrained.frame rfl rfl

theorem Logged.checkIfDue {n : Nat} {advanceClock : Bool} (h : Logged s)
    {r : Interrupt κ η ω × Bool} (hs : s.checkIfDue d n advanceClock = some r) : Logged r.1 := by
  unfold Interrupt.checkIfDue at hs
  split at hs
  · cases hs
  split at hs
  · obtain rfl := Option.some.inj hs
    exact h
  split at hs
  · cases hs
  · next next hfront =>
    split at hs
    · split at hs
      · exact Logged.handle (s := s.advanceTo next) (h.frame rfl rfl) hs
      · obtain rfl := Option.some.inj hs
        exact h
    · exact h.handle hs

theorem Logged.oneTick (h : Logged s) (hs : s.oneTick d = some s') : Logged s' := by
  obtain ⟨r, hr, rfl⟩ := Option.map_eq_some_iff.mp hs
  have hchecked := Logged.checkIfDue (s := s.tick) (h.frame rfl rfl) hr
  unfold afterTick
  split
  · exact hchecked.frame rfl rfl
  · exact hchecked.frame rfl rfl

theorem Logged.idle (h : Logged s) (hs : s.idle d = some s') : Logged s' := by
  obtain ⟨r, hr, rfl⟩ := Option.map_eq_some_iff.mp hs
  have hchecked := Logged.checkIfDue (s := { s with status := .idle }) (h.frame rfl rfl) hr
  split
  · exact hchecked.frame rfl rfl
  · exact hchecked.frame rfl rfl

theorem logged_step (s : Interrupt κ η ω) (e : InterruptEvent κ η) (s' : Interrupt κ η ω)
    (h : Logged s) (hs : s.step d e = some s') : Logged s' := by
  unfold Interrupt.step at hs
  split at hs
  · cases hs
  cases e with
  | schedule r => exact h.schedule hs
  | setLevel now =>
    simp only [setLevel] at hs
    split at hs
    · cases hs
    split at hs
    · exact Logged.oneTick (h.frame rfl rfl) hs
    · obtain rfl := Option.some.inj hs
      exact h.frame rfl rfl
  | oneTick => exact h.oneTick hs
  | idle => exact h.idle hs
  | setStatus st =>
    obtain rfl := Option.some.inj hs
    exact h.frame rfl rfl

end Steps

/-- Nothing is called for an interrupt with a handler function. -/
theorem Logged.callsFor_handler {s : Interrupt κ η ω} (h : Logged s) {p : PendingInterrupt κ η}
    (hp : p ∈ s.registered) (hhandler : p.handler ≠ none) : s.callsFor p = [] := by
  unfold callsFor
  rw [List.map_eq_nil_iff, List.filter_eq_nil_iff]
  intro f hf
  rw [decide_eq_true_iff]
  rintro rfl
  obtain ⟨object, hobject, -⟩ := h.calls f hf
  rw [h.kinds _ hp hhandler] at hobject
  cases hobject

/-! ## Whole runs -/

/-- Without handler functions the list is ordered and complete. -/
theorem Steady.served {s : Interrupt κ η ω} (h : Steady s) (hlogged : Logged s) : Served s where
  handlers := by
    intro p hp handler arg hhandler
    have hnone := hlogged.kinds p hp (by rw [hhandler]; exact Option.some_ne_none _)
    exact absurd hnone (h.timely.objects p hp)
  kept := fun p hp _ => List.mem_append.mp (h.timely.perm.mem_iff.mpr hp)
  seen := by
    intro hempty p hp _
    have hitems := h.timely.counted.isEmpty_iff.mp hempty
    have hmem := h.timely.perm.mem_iff.mpr hp
    rwa [hitems, List.append_nil] at hmem
  onTime := by
    intro p hp _ hdue
    rcases List.mem_append.mp (h.timely.perm.mem_iff.mpr hp) with hmem | hmem
    · exact hmem
    · exact absurd (h.settled p hmem) (not_lt.mpr hdue)
  order := h.timely.order.filter _

/--
**Interrupts with a handler function.**

Whatever is scheduled, in no run is anything called for an interrupt with a handler function, so
that `Served` does not hold once one of them is due. In every run in which only objects to call back
are scheduled, `Served` holds.
-/
theorem run_handler_interrupts {d : Devices κ η ω} {world : ω} {es : List (InterruptEvent κ η)}
    {s : Interrupt κ η ω} (h : run (Interrupt.step d) (start world) es = some s) :
    (d.Plain → (∀ e ∈ es, e.Plain) → s.Served) ∧
      (∀ p ∈ s.registered, p.handler ≠ none → s.callsFor p = []) ∧
      (s.Served → ∀ p ∈ s.registered, p.handler ≠ none → s.stats.totalTicks < p.when) := by
  have hlogged : Logged s := run_invariant logged_step (logged_start world) h
  refine ⟨fun hd hes => ?_, fun p hp hhandler => hlogged.callsFor_handler hp hhandler, ?_⟩
  · exact ((steady_start world).run hd hes h).steady.served hlogged
  · intro hserved p hp hhandler
    by_contra hdue
    obtain ⟨⟨handler, arg⟩, heq⟩ := Option.ne_none_iff_exists'.mp hhandler
    have hcalls := hserved.handlers p hp handler arg heq (not_lt.mp hdue)
    rw [hlogged.callsFor_handler hp hhandler] at hcalls
    cases hcalls

/-- A device that asks for nothing. -/
def quietDevice : Devices Nat Nat Unit where
  callBack := fun _ _ world => { world := world, requests := [], yieldOnReturn := false }
  garbage := fun _ => 0

/-- An object is scheduled and called back. -/
theorem run_handler_interrupts_object :
    ∃ s : Interrupt Nat Nat Unit,
      run (Interrupt.step quietDevice) (start ()) [.schedule (.object 1 5 .timer), .oneTick]
        = some s ∧
      s.fired.map (·.callOnInterrupt) = [some 1] ∧ s.Served := by
  have hrun : run (Interrupt.step quietDevice) (start ())
    [.schedule (.object 1 5 .timer), .oneTick] = some _ := rfl
  refine ⟨_, rfl, rfl, ?_⟩
  refine (run_handler_interrupts hrun).1 (fun _ _ _ r hr => absurd hr List.not_mem_nil) ?_
  simp [InterruptEvent.Plain, Request.Plain]

/--
Handler 7 is due at time 5. The tick to time 10 does not see it, because the list counts as empty;
the object scheduled after that takes its place in the list.
-/
theorem run_handler_interrupts_lost :
    ∃ s : Interrupt Nat Nat Unit,
      run (Interrupt.step quietDevice) (start ())
        [.schedule (.handler 7 0 5 .consoleRead), .oneTick,
          .schedule (.object 1 5 .timer)] = some s ∧
      s.log.length = 0 ∧ s.stats.totalTicks = 10 ∧
      s.pending.items.map (·.callOnInterrupt) = [some 1] ∧
      s.registered.map (fun p => (p.handler, p.when)) = [(some (7, 0), 5), (none, 15)] ∧
      ¬ s.Served := by
  refine ⟨_, rfl, rfl, rfl, rfl, rfl, fun hserved => ?_⟩
  have hcalls := hserved.handlers _ List.mem_cons_self 7 0 rfl (by decide)
  cases hcalls

end Interrupt

end Nachos
